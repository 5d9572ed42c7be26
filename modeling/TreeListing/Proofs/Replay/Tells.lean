import TreeListing.Proofs.Comparison.Order
import TreeListing.Proofs.Replay.Line
import TreeListing.Proofs.Usual

/-!
That the properties of a record tell its depth and its name: the indent is as many units as the
record is deep, and a line of an entry names it.
-/
namespace TreeListing

namespace LinePattern

variable {o : Options}

theorem mem_headings {nameType : NameType} {name : String} : name ∈ headings o nameType ↔
    nameOf nameType = some name ∨ o.showHidden = true ∧ name = "hidden" := by
  rw [headings, List.mem_append, mem_part, Option.mem_toList]

theorem mem_of_nameOf {nameType : NameType} {name : String} (h : nameOf nameType = some name) :
    name ∈ ["name", "relpath", "abspath"] := by
  cases nameType with
  | dot => cases h
  | name => exact Option.some.inj h ▸ by decide
  | relpath => exact Option.some.inj h ▸ by decide
  | abspath => exact Option.some.inj h ▸ by decide

/-- The names of properties that tell neither a name nor a depth. -/
def others : List String := ["hidden", "size", "ndate", "cdate", "mdate", "hash"]

theorem mem_names {kind : Kind} {name : String} (h : name ∈ names o kind) :
    o.showIndent = true ∧ name = "indent" ∨ name ∈ others ∨
      nameOf o.nameType = some name ∧ (kind = .file ∨ kind = .folder) ∨
        nameOf o.rootNameType = some name ∧ kind = .root := by
  have hheadings : ∀ nameType, name ∈ headings o nameType → name ∈ others ∨ nameOf nameType = some name := by
    intro nameType hm
    rcases mem_headings.mp hm with hm | ⟨-, rfl⟩
    · exact .inr hm
    · exact .inl (by decide)
  rcases List.mem_append.mp h with h | h
  · exact .inl (mem_part.mp h)
  · refine .inr ?_
    cases kind with
    | file =>
      rcases List.mem_append.mp h with h | h
      · exact (hheadings _ h).imp_right fun hn => .inl ⟨hn, .inl rfl⟩
      · rcases mem_details.mp h with ⟨-, rfl⟩ | ⟨-, rfl⟩ | ⟨-, rfl⟩
        · exact .inl (by decide)
        · exact .inl (by cases o.dateType <;> decide)
        · exact .inl (by decide)
    | folder => exact (hheadings _ h).imp_right fun hn => .inl ⟨hn, .inr rfl⟩
    | root => exact (hheadings _ h).imp_right fun hn => .inr ⟨hn, rfl⟩
    | folderEnd => cases h
    | ellipsis => cases h

theorem indent_mem_names {kind : Kind} : "indent" ∈ names o kind ↔ o.showIndent = true := by
  refine ⟨fun hm => ?_, fun hs => List.mem_append_left _ (mem_part.mpr ⟨hs, rfl⟩)⟩
  rcases mem_names hm with ⟨hs, -⟩ | hm | ⟨hm, -⟩ | ⟨hm, -⟩
  · exact hs
  · exact absurd hm (by decide)
  · exact absurd (mem_of_nameOf hm) (by decide)
  · exact absurd (mem_of_nameOf hm) (by decide)

theorem name_mem_names {kind : Kind} (hk : kind = .file ∨ kind = .folder) {name : String}
    (h : nameOf o.nameType = some name) : name ∈ names o kind := by
  refine List.mem_append_right _ ?_
  have hm : name ∈ headings o o.nameType := mem_headings.mpr (.inl h)
  rcases hk with rfl | rfl
  · exact List.mem_append_left _ hm
  · exact hm

end LinePattern

namespace Replay

open LinePattern (names others)

variable {o : Options} {l : Lister} {kind : Kind} {p : Props}

/-- The depth is read off the indent alone. -/
theorem depthOf_eq (hl : l.options = o) (hp : p.names = names o kind) :
    depthOf l p = match p.get? "indent" with
      | some text =>
        if o.indent = "" then none else Props.minus? (text.length / o.indent.length) o.startLevel
      | none => none := by
  have hnone : ∀ name, name ≠ "indent" → name ∉ others → name ∉ ["name", "relpath", "abspath"] →
      p.get? name = none := by
    intro name hi ho hn
    refine Props.get?_eq_none fun hm => ?_
    rw [hp] at hm
    rcases LinePattern.mem_names hm with ⟨-, hm⟩ | hm | ⟨hm, -⟩ | ⟨hm, -⟩
    · exact hi hm
    · exact ho hm
    · exact hn (LinePattern.mem_of_nameOf hm)
    · exact hn (LinePattern.mem_of_nameOf hm)
  have hdepth : p.number? "depth" = none := by
    rw [Props.number?, hnone "depth" (by decide) (by decide) (by decide)]
    rfl
  have hlevel : p.number? "level" = none := by
    rw [Props.number?, hnone "level" (by decide) (by decide) (by decide)]
    rfl
  cases hi : p.get? "indent" with
  | none => simp only [depthOf, Props.depth?, hdepth, hlevel, hi]
  | some text => simp only [depthOf, Props.depth?, hdepth, hlevel, hi, hl]

theorem levelOf_eq {start depth : Nat} (h : depth + start ≤ Text.maxWord) :
    Property.levelOf start depth = depth + start := Nat.mod_eq_of_lt (Nat.lt_succ_of_le h)

/-- The indent of an item tells how deep it is. -/
theorem depthOf_props (hl : l.options = o) (ho : o.IsUsual) {t : Template} (hu : Lister.Usual o kind t)
    {d : Disk} {i : Item} (hp : t.props d i = .ok p) (hw : i.depth + o.startLevel ≤ Text.maxWord) :
    depthOf l p = if o.showIndent = true ∧ o.indent ≠ "" then some i.depth else none := by
  have hnames := hu.names_eq ho hp
  rw [depthOf_eq hl hnames]
  cases hs : o.showIndent with
  | false =>
    have hnone : p.get? "indent" = none := by
      refine Props.get?_eq_none fun hm => ?_
      rw [hnames, LinePattern.indent_mem_names, hs] at hm
      cases hm
    rw [hnone]
    simp
  | true =>
    obtain ⟨property, value, hg, hv, he⟩ :=
      hu.exists_of_mem hp (LinePattern.indent_mem_names.mpr hs)
    obtain rfl : .indent = property := Option.some.inj hg
    rw [hv, ← Except.ok.inj he, levelOf_eq hw]
    simp only [Text.length_join_replicate]
    by_cases hi : o.indent = ""
    · simp [hi]
    · have hpos : 0 < o.indent.length := by
        rw [Nat.pos_iff_ne_zero]
        simpa [← String.length_toList] using hi
      simp [hi, Nat.mul_div_cancel _ hpos, Props.minus?_add]

theorem name?_eq_none (hp : p.names = names o kind) (hk : kind = .folderEnd ∨ kind = .ellipsis) :
    p.name? = none := by
  have hnone : ∀ name ∈ ["name", "relpath", "abspath"], p.get? name = none := by
    intro name hn
    refine Props.get?_eq_none fun hm => ?_
    rw [hp] at hm
    have hother : name ∉ others ∧ name ≠ "indent" := by
      clear hm
      revert name
      decide
    rcases LinePattern.mem_names hm with ⟨-, hm⟩ | hm | ⟨-, hm⟩ | ⟨-, hm⟩
    · exact hother.2 hm
    · exact hother.1 hm
    · rcases hk with rfl | rfl <;> simp at hm
    · rcases hk with rfl | rfl <;> simp at hm
  rw [Props.name?, hnone "name" (by decide), hnone "relpath" (by decide), hnone "abspath" (by decide)]
  rfl

/-- Where the name of an entry is not in its relative path, it is told by another property. -/
theorem name?_eq_some (ho : o.IsUsual) {t : Template} (hu : Lister.Usual o kind t) {d : Disk}
    {base : Path} {before : List String} {n : String} (hn : ∀ m ∈ before ++ [n], Path.IsName m)
    {isFolder : Bool} (hp : t.props d (.below base (before ++ [n]) isFolder) = .ok p)
    (hk : kind = .file ∨ kind = .folder) (hrel : p.get? "relpath" = none) : p.name? = some n := by
  obtain ⟨pattern, hc⟩ := hu.compiled
  have hlast : Path.IsName n := hn n (by simp)
  have hbefore : ∀ m ∈ before, Path.IsName m := fun m hm => hn m (by simp [hm])
  have hsome : ∃ m, p.name? = some m := by
    cases hnt : o.nameType with
    | dot => exact absurd hnt ho.name
    | name =>
      obtain ⟨property, value, -, hv, -⟩ :=
        hu.exists_of_mem hp (LinePattern.name_mem_names hk (by rw [hnt]; rfl))
      exact ⟨value, by rw [Props.name?, hv, Option.some_or]⟩
    | relpath =>
      obtain ⟨property, value, -, hv, -⟩ :=
        hu.exists_of_mem hp (LinePattern.name_mem_names hk (by rw [hnt]; rfl))
      simp [hrel] at hv
    | abspath =>
      obtain ⟨property, value, hg, hv, he⟩ :=
        hu.exists_of_mem hp (LinePattern.name_mem_names hk (by rw [hnt]; rfl))
      obtain rfl : .abspath = property := Option.some.inj hg
      have hfile := Item.fileName?_abspath_below_concat base hbefore hlast isFolder
      rw [← Except.ok.inj he] at hv
      cases hname : p.get? "name" with
      | some m => exact ⟨m, by rw [Props.name?, hname, Option.some_or]⟩
      | none => exact ⟨n, by rw [Props.name?, hname, hrel, hv]; exact hfile⟩
  obtain ⟨m, hm⟩ := hsome
  rw [hm, hc.name?_eq Registry.tellsNames_core hbefore hlast hp hm]

/-- The record of a mark tells where it belongs. -/
theorem tells_of_record? (hl : Lister.compile o .core = .ok l) (ho : o.IsUsual)
    (he : LinePattern.HasInnerEllipsis o) {d : Disk} {base : Path} {m : Mark}
    (hn : ∀ n ∈ m.names, Path.IsName n) (hne : m.kind = .file ∨ m.kind = .folder → m.names ≠ [])
    (hw : m.names.length + o.startLevel ≤ Text.maxWord)
    (hc : o.showIndent = true ∧ o.indent ≠ "" ∨ l.closesFolders = true) {r : Record}
    (hr : l.record? d m.kind (m.item base) = .ok (some r)) : Tells l m.names r := by
  obtain ⟨t, p, ht, hp, rfl⟩ := Lister.record?_eq_some hr
  have hu := Lister.usual_template hl ho he ht
  have hnames := hu.names_eq ho hp
  obtain ⟨pattern, hcomp⟩ := hu.compiled
  refine ⟨rfl, rfl, ?_, fun text hrel => ?_, fun hk hrel => ?_, name?_eq_none hnames⟩
  · have hdepth := depthOf_props (Lister.options_eq hl) ho hu hp hw
    rw [hdepth]
    split
    next => exact .inl rfl
    next hi => exact .inr ⟨rfl, hc.resolve_left hi⟩
  · have hm := Props.mem_names_of_get? hrel
    rw [hnames] at hm
    have hkind : m.kind = .file ∨ m.kind = .folder := by
      rcases LinePattern.mem_names hm with ⟨-, hm⟩ | hm | ⟨-, hm⟩ | ⟨hm, -⟩
      · simp at hm
      · exact absurd hm (by decide)
      · exact hm
      · cases hnt : o.rootNameType with
        | relpath => exact absurd hnt ho.rootName
        | dot => simp [hnt, LinePattern.nameOf] at hm
        | name => simp [hnt, LinePattern.nameOf] at hm
        | abspath => simp [hnt, LinePattern.nameOf] at hm
    obtain ⟨property, hg, hx⟩ := hcomp.exists_of_get? hp hrel
    obtain rfl : .relpath = property := Option.some.inj hg
    exact ⟨hkind, (Except.ok.inj hx).symm⟩
  · obtain ⟨before, n, he⟩ : ∃ before n, m.names = before ++ [n] :=
      ⟨_, _, (List.dropLast_append_getLast (hne hk)).symm⟩
    rw [Mark.item, he] at hp
    rw [he] at hn ⊢
    rw [List.getLast?_concat]
    exact name?_eq_some ho hu hn hp hk hrel

end Replay

end TreeListing
