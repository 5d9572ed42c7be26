import TreeListing.Proofs.Path
import TreeListing.Props

/-!
The path of one line. Its depth and what it says of its entry are put together with the folders that
are open in front of it.
-/
namespace TreeListing

namespace Text

theorem isBlank_of_isDigit {c : Char} (h : c.isDigit = true) : isBlank c = false := by
  simp only [Char.isDigit, Bool.and_eq_true, decide_eq_true_eq] at h
  have hlow : 48 ≤ c.toNat := UInt32.le_iff_toNat_le.mp h.1
  have hhigh : c.toNat ≤ 57 := UInt32.le_iff_toNat_le.mp h.2
  simp only [isBlank, blankRanges, Ranges.contains, List.any_cons, List.any_nil, Bool.or_false,
    Bool.or_eq_false_iff, Bool.and_eq_false_iff, decide_eq_false_iff_not]
  omega

theorem trim_of_digits {s : List Char} (h : ∀ c ∈ s, c.isDigit = true) : trim s = s := by
  have hdrop : ∀ cs : List Char, (∀ c ∈ cs, c.isDigit = true) → cs.dropWhile isBlank = cs := by
    intro cs hcs
    cases cs with
    | nil => rfl
    | cons c cs =>
      exact List.dropWhile_cons_of_neg (by simp [isBlank_of_isDigit (hcs c List.mem_cons_self)])
  rw [trim, trimStart, hdrop _ h, trimEnd, hdrop _ fun c hc => h c (List.mem_reverse.mp hc),
    List.reverse_reverse]

theorem word?_of_digits {s : List Char} (hne : s ≠ []) (h : ∀ c ∈ s, c.isDigit = true)
    (hw : natOfDigits s ≤ maxWord) : word? s = some (natOfDigits s) := by
  rw [word?]
  · exact if_pos ⟨hne, List.all_eq_true.mpr h, hw⟩
  · intro rest he
    exact absurd (h '+' (he ▸ List.mem_cons_self)) (by decide)

/-- A number that is a word is read back from its decimal digits. -/
theorem word?_toString {n : Nat} (h : n ≤ maxWord) : word? (trim (toString n).toList) = some n := by
  have hdigits : (toString n).toList = Nat.toDigits 10 n := Nat.toList_repr
  have hall : ∀ c ∈ Nat.toDigits 10 n, c.isDigit = true := fun c hc =>
    Nat.isDigit_of_mem_toDigits (by decide) (by decide) hc
  have hvalue : natOfDigits (Nat.toDigits 10 n) = n := Nat.ofDigitChars_ten_toDigits
  have hne : Nat.toDigits 10 n ≠ [] := Nat.toDigits_ne_nil
  rw [hdigits, trim_of_digits hall, word?_of_digits hne hall (hvalue.symm ▸ h), hvalue]

theorem length_join_replicate (n : Nat) (text : String) :
    (String.join (List.replicate n text)).length = n * text.length := by
  induction n with
  | zero => simp
  | succ n ih => simp [List.replicate_succ, String.join_cons, ih, Nat.succ_mul, Nat.add_comm]

end Text

namespace Props

variable {p : Props} {startLevel : Nat} {indent : String} {position? : Option Nat}

/-- The depth is told by the properties, in the order in which they count, or else by the position. -/
inductive TellsDepth (startLevel : Nat) (indent : String) (p : Props) (position? : Option Nat)
    (depth : Nat) : Prop
  | depth (h : p.get? "depth" = some (toString depth))
  | level (hd : p.get? "depth" = none) (h : p.get? "level" = some (toString (depth + startLevel)))
  | indent (hd : p.get? "depth" = none) (hl : p.get? "level" = none) (hi : indent ≠ "")
      (h : p.get? "indent" = some (String.join (List.replicate (depth + startLevel) indent)))
  | position (hd : p.get? "depth" = none) (hl : p.get? "level" = none)
      (hi : p.get? "indent" = none ∨ indent = "") (h : position? = some depth)

theorem number?_eq_none {name : String} (h : p.get? name = none) : p.number? name = none := by
  rw [number?, h, Option.bind_none]

theorem number?_eq_some {name : String} {n : Nat} (h : p.get? name = some (toString n))
    (hw : n ≤ Text.maxWord) : p.number? name = some n := by
  rw [number?, h, Option.bind_some, Text.word?_toString hw]

theorem minus?_add (n start : Nat) : minus? (n + start) start = some n := by
  rw [minus?, if_pos (Nat.le_add_left _ _), Nat.add_sub_cancel]

theorem TellsDepth.or_eq {depth : Nat} (h : p.TellsDepth startLevel indent position? depth)
    (hw : depth + startLevel ≤ Text.maxWord) :
    (p.depth? startLevel indent).or position? = some depth := by
  cases h with
  | depth h =>
    have hnumber := number?_eq_some h (Nat.le_trans (Nat.le_add_right _ _) hw)
    rw [depth?, hnumber]
    rfl
  | level hd h =>
    rw [depth?, number?_eq_none hd, number?_eq_some h hw]
    simp only [minus?_add, Option.some_or]
  | indent hd hl hi h =>
    have hpos : 0 < indent.length := by
      rw [Nat.pos_iff_ne_zero]
      simpa [← String.length_toList] using hi
    rw [depth?, number?_eq_none hd, number?_eq_none hl, h]
    simp only [if_neg hi, Text.length_join_replicate, Nat.mul_div_cancel _ hpos, minus?_add,
      Option.some_or]
  | position hd hl hi h =>
    have hnone : p.depth? startLevel indent = none := by
      rw [depth?, number?_eq_none hd, number?_eq_none hl]
      rcases hi with hi | hi
      · rw [hi]
      · cases p.get? "indent" with
        | none => rfl
        | some text => exact if_pos hi
    rw [hnone, h, Option.none_or]

section
variable {names parents : List String} {kind : Kind}
  (hdepth : (p.depth? startLevel indent).or position? = some names.length)
include hdepth

theorem path?_of_relpath (hn : ∀ n ∈ names, Path.IsName n)
    (hr : p.get? "relpath" = some (Path.ofSegments names).text) :
    p.path? kind parents position? startLevel indent
      = some (.ofSegments names, openAfter kind names) := by
  have hpath : (⟨(Path.ofSegments names).text⟩ : Path) = .ofSegments names := rfl
  rw [path?, hdepth, hr]
  cases names using List.reverseRecOn with
  | nil => simp [openAfter]
  | append_singleton before n =>
    simp only [hpath, Path.names_ofSegments hn, openAfter]
    simp

/-- A name goes into the open folder just above. -/
theorem path?_of_name (hr : p.get? "relpath" = none) {n : String} (hname : p.name? = some n)
    (hlast : ∀ m ∈ names.getLast?, n = m) (hp : names.dropLast <+: parents) :
    p.path? kind parents position? startLevel indent
      = some (.ofSegments names, openAfter kind names) := by
  rw [path?, hdepth, hr]
  cases names using List.reverseRecOn with
  | nil => simp [hname, openAfter]; rfl
  | append_singleton before m =>
    obtain rfl := hlast m (by simp)
    rw [List.dropLast_concat] at hp
    simp only [List.length_append, List.length_singleton, Option.bind_some, hname,
      ← List.prefix_iff_eq_take.mp hp]

/-- A line without a name means the folder that is open at its depth. -/
theorem path?_of_nameless (hk : kind.isFolderMarker = true) (hroot : kind = .root → names = [])
    (hr : p.get? "relpath" = none) (hname : p.name? = none) (hp : names <+: parents) :
    p.path? kind parents position? startLevel indent
      = some (.ofSegments names, openAfter kind names) := by
  have htake := List.prefix_iff_eq_take.mp hp
  have hlast : parents.take (names.length - 1) = names.dropLast := by
    obtain ⟨rest, rfl⟩ := hp
    rw [List.dropLast_eq_take, List.take_append_of_le_length (Nat.sub_le _ _)]
  rw [path?, hdepth, hr]
  simp only [Option.bind_some, hname, hk, if_true, ← htake]
  cases kind with
  | folderEnd => simp [hlast, openAfter, Kind.leavesFolder]
  | root => simp [hroot rfl, openAfter, Kind.leavesFolder]
  | ellipsis => simp [openAfter, Kind.leavesFolder]
  | file => cases hk
  | folder => cases hk

end

end Props

end TreeListing
