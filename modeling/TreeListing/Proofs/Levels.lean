import TreeListing.Proofs.Recursion
import TreeListing.Proofs.Replay.Tells
import TreeListing.Proofs.Table

/-!
Levels. The level of an entry is its depth counted from the start level, in the words of the machine, so it
is the sum of both just if that is a word. Reading the depth back takes the start level away again, and that
goes just as far; the main statement is `levels_read_back_iff`.
-/
namespace TreeListing

theorem Text.toString_inj {n m : Nat} : toString n = toString m ↔ n = m := by
  have hread : ∀ k : Nat, natOfDigits (toString k).toList = k := fun k =>
    (congrArg natOfDigits Nat.toList_repr).trans Nat.ofDigitChars_ten_toDigits
  refine ⟨fun h => ?_, fun h => h ▸ rfl⟩
  rw [← hread n, h, hread m]

namespace Property

variable {start depth : Nat}

theorem levelOf_le (start depth : Nat) : levelOf start depth ≤ Text.maxWord :=
  Nat.le_of_lt_succ (Nat.mod_lt _ (Nat.succ_pos _))

/-- A sum that is no word starts again from zero, and ends below both words. -/
theorem levelOf_lt (hs : start ≤ Text.maxWord) (hd : depth ≤ Text.maxWord)
    (h : Text.maxWord < depth + start) : levelOf start depth < start := by
  rw [levelOf, Nat.mod_eq_sub_mod h, Nat.mod_eq_of_lt (by omega)]
  omega

theorem levelOf_eq_add_iff : levelOf start depth = depth + start ↔ depth + start ≤ Text.maxWord :=
  ⟨fun h => h ▸ levelOf_le start depth, Replay.levelOf_eq⟩

end Property

namespace Props

variable {p : Props} {start depth : Nat} {indent : String}

theorem minus?_levelOf (hs : start ≤ Text.maxWord) (hd : depth ≤ Text.maxWord) :
    minus? (Property.levelOf start depth) start
      = if depth + start ≤ Text.maxWord then some depth else none := by
  split
  next h => rw [Replay.levelOf_eq h, minus?_add]
  next h =>
    have hlt := Property.levelOf_lt hs hd (Nat.lt_of_not_le h)
    rw [minus?, if_neg (Nat.not_le.mpr hlt)]

/-- A depth that is not told itself is told by the level. -/
theorem depth?_of_level {level : Nat} (hd : p.get? "depth" = none)
    (hl : p.get? "level" = some (toString level)) (hw : level ≤ Text.maxWord) :
    p.depth? start indent = minus? level start := by
  rw [depth?, number?_eq_none hd, number?_eq_some hl hw]

end Props

theorem Lister.level_eq {o : Options} {l : Lister} (hl : Lister.compile o .core = .ok l) {d : Disk}
    {folder : Path} {os : List Signal.Outcome} (hw : l.walk d folder = .ok os) {r : Record} (hr : .ok r ∈ os)
    {depth : Nat} (hd : r.depth? = some depth) {level : String} (hlevel : r.props.get? "level" = some level) :
    level = toString (Property.levelOf o.startLevel depth) := by
  obtain ⟨kind, i, ho⟩ := Lister.exists_of_mem_walk hw hr
  obtain ⟨t, p, ht, hp, rfl⟩ := Lister.record?_eq_some (Lister.exists_of_mem_outcomes ho).1
  obtain ⟨pattern, -, hc⟩ := Lister.compiled_of_template? hl ht
  obtain ⟨property, hg, he⟩ := hc.exists_of_get? hp hlevel
  obtain rfl : .level = property := Option.some.inj hg
  obtain rfl : i.depth = depth := Option.some.inj hd
  exact (Except.ok.inj he).symm

/-- Whatever a walk lists, the level of a record is its depth and the start level together just if that is a
word of the machine, and else it is what is left when the words are used up. The depth is read back from the
level in the first case, and no depth in the other one. -/
theorem levels_read_back_iff {o : Options} (hs : o.startLevel ≤ Text.maxWord) {l : Lister}
    (hl : Lister.compile o .core = .ok l) {d : Disk} {folder : Path} {os : List Signal.Outcome}
    (hw : l.walk d folder = .ok os) {r : Record} (hr : .ok r ∈ os) {depth : Nat} (hd : r.depth? = some depth)
    (hdeep : depth ≤ Text.maxWord) {level : String} (hlevel : r.props.get? "level" = some level) :
    level = toString ((depth + o.startLevel) % (Text.maxWord + 1)) ∧
    (level = toString (depth + o.startLevel) ↔ depth + o.startLevel ≤ Text.maxWord) ∧
    (r.props.get? "depth" = none → r.props.depth? o.startLevel o.indent
      = if depth + o.startLevel ≤ Text.maxWord then some depth else none) := by
  obtain rfl := Lister.level_eq hl hw hr hd hlevel
  refine ⟨rfl, ?_, fun hnone => ?_⟩
  · rw [← Property.levelOf_eq_add_iff]
    exact Text.toString_inj
  · rw [Props.depth?_of_level hnone hlevel (Property.levelOf_le _ _), Props.minus?_levelOf hs hdeep]

def Options.levels (startLevel : Nat) : Options :=
  { startLevel, showIndent := false, filePattern? := some "\x7blevel\x7d \x7bname\x7d\n" }

/-- What a listing of levels tells of a folder with one file. -/
def levelRecords (level : String) : List Record :=
  [⟨.root, ⟨""⟩, some 0, .empty⟩, ⟨.file, ⟨"f"⟩, some 1, .ofList [("level", level), ("name", "f")]⟩]

theorem walk_levels {startLevel : Nat} {level : String}
    (hc : (Lister.compile (.levels startLevel) .core).toOption.any fun l =>
      !l.options.limits 0 && l.lists (.below ⟨"/t"⟩ ["f"] false) &&
        decide (l.folderOutcomes (.oneFile "f") .root (.root ⟨"/t"⟩)
          ((Forest.file "f" .nil).outcomes l (.oneFile "f") ⟨"/t"⟩ []) = (levelRecords level).map .ok)) :
    ∃ l, Lister.compile (.levels startLevel) .core = .ok l ∧
      l.walk (.oneFile "f") ⟨"/t"⟩ = .ok ((levelRecords level).map .ok) := by
  obtain ⟨l, hl, -⟩ := exists_eq_ok_of_any hc
  exact ⟨l, hl, walk_oneFile_of_compile hl ⟨by decide, by decide, by decide, by decide⟩ hc⟩

theorem levels_read_back_iff_lastWord : ∃ (l : Lister) (r : Record),
    Lister.compile (.levels 18446744073709551614) .core = .ok l ∧
      l.walk (.oneFile "f") ⟨"/t"⟩ = .ok ((levelRecords "18446744073709551615").map .ok) ∧
      r ∈ levelRecords "18446744073709551615" ∧ r.depth? = some 1 ∧
      r.props.get? "level" = some (toString (1 + 18446744073709551614)) ∧
      r.props.depth? 18446744073709551614 " " = some 1 := by
  obtain ⟨l, hl, hw⟩ := @walk_levels 18446744073709551614 "18446744073709551615"
    (by decide +kernel)
  let r : Record := ⟨.file, ⟨"f"⟩, some 1, .ofList [("level", "18446744073709551615"), ("name", "f")]⟩
  have hr : r ∈ levelRecords "18446744073709551615" := by decide
  have hstart : (Options.levels 18446744073709551614).startLevel ≤ Text.maxWord := by decide
  have hone : r.depth? = some 1 := rfl
  have hlevel : r.props.get? "level" = some "18446744073709551615" := by decide
  obtain ⟨-, hsum, hdepth⟩ := levels_read_back_iff hstart hl hw (List.mem_map_of_mem hr) hone
    (by decide) hlevel
  refine ⟨l, r, hl, hw, hr, hone, ?_, (hdepth (by decide)).trans (by decide)⟩
  rw [hlevel, hsum.mpr (by decide)]
  rfl

/-- With the last word as start level the first entry has the level zero, which tells no depth. -/
theorem level_of_entry_starts_again : ∃ (l : Lister) (r : Record),
    Lister.compile (.levels 18446744073709551615) .core = .ok l ∧
      l.walk (.oneFile "f") ⟨"/t"⟩ = .ok ((levelRecords "0").map .ok) ∧
      r ∈ levelRecords "0" ∧ r.depth? = some 1 ∧ r.props.get? "level" = some "0" ∧
      "0" ≠ toString (1 + 18446744073709551615) ∧
      r.props.depth? 18446744073709551615 " " = none := by
  obtain ⟨l, hl, hw⟩ := @walk_levels 18446744073709551615 "0" (by decide +kernel)
  exact ⟨l, ⟨.file, ⟨"f"⟩, some 1, .ofList [("level", "0"), ("name", "f")]⟩, hl, hw, by decide, rfl,
    by decide, by decide +kernel, by decide +kernel⟩

end TreeListing
