import TreeListing.Proofs.Lister
import TreeListing.Proofs.Walk

/-!
Starts and ends of folders in the XML layout. Every folder that a walk enters has a start and an end,
each of which is only written if its kind has a pattern; so the ends fit the starts if both kinds have
one or neither has. The main statement is `walk_wellNested_iff`.
-/
namespace TreeListing

/-- What a line is for the folders around it. -/
structure Tag where
  kind : Kind
  path : Path

def Record.tag (r : Record) : Tag := ⟨r.kind, r.path⟩

def Mark.tag (m : Mark) : Tag := ⟨m.kind, .ofSegments m.names⟩

/-- The folders that are open behind a line, the innermost first; `none` if the line ends a folder
that is not the innermost one. -/
def Tag.open? (folders : List Path) (t : Tag) : Option (List Path) :=
  match t.kind with
  | .root | .folder => some (t.path :: folders)
  | .folderEnd =>
    match folders with
    | [] => none
    | innermost :: outer => if t.path = innermost then some outer else none
  | .file | .ellipsis => some folders

/-- Every end is that of the innermost folder that is open, and none is left open. -/
def WellNested (records : List Record) : Prop := (records.map Record.tag).foldlM Tag.open? [] = some []

instance (records : List Record) : Decidable (WellNested records) :=
  inferInstanceAs (Decidable (_ = some []))

namespace Tag

def starts (t : Tag) : Bool := t.kind = .root ∨ t.kind = .folder

def ends (t : Tag) : Bool := t.kind = .folderEnd

theorem length_of_open? {folders left : List Path} {t : Tag} (h : t.open? folders = some left) :
    folders.length + t.starts.toNat = left.length + t.ends.toNat := by
  obtain ⟨kind, path⟩ := t
  cases kind with
  | file => cases h; rfl
  | ellipsis => cases h; rfl
  | root => cases h; rfl
  | folder => cases h; rfl
  | folderEnd =>
    cases folders with
    | nil => cases h
    | cons innermost outer =>
      obtain ⟨-, he⟩ := Option.ite_none_right_eq_some.mp h
      cases he
      rfl

/-- A start is ended or left open, and an end takes away one that was open. -/
theorem length_of_foldlM {folders left : List Path} {tags : List Tag}
    (h : tags.foldlM open? folders = some left) :
    folders.length + tags.countP starts = left.length + tags.countP ends := by
  induction tags generalizing folders with
  | nil =>
    cases h
    rfl
  | cons t tags ih =>
    rw [List.foldlM_cons] at h
    obtain ⟨next, hn, h⟩ := Option.bind_eq_some_iff.mp h
    have hstep := length_of_open? hn
    have hrest := ih h
    have hone : ∀ b : Bool, (if b = true then 1 else 0) = b.toNat := by decide
    rw [List.countP_cons, List.countP_cons, hone, hone]
    omega

/-- The lines end what they start, and nothing else. -/
def Closed (tags : List Tag) : Prop := ∀ folders, tags.foldlM open? folders = some folders

theorem Closed.nil : Closed [] := fun _ => rfl

theorem Closed.append {tags others : List Tag} (h : Closed tags) (h' : Closed others) :
    Closed (tags ++ others) := fun folders => by
  rw [List.foldlM_append, h]
  exact h' folders

theorem closed_singleton {t : Tag} (hs : t.starts = false) (he : t.ends = false) : Closed [t] := by
  obtain ⟨kind, path⟩ := t
  cases kind with
  | file => exact fun _ => rfl
  | ellipsis => exact fun _ => rfl
  | root => cases hs
  | folder => cases hs
  | folderEnd => cases he

theorem Closed.folder {kind : Kind} (hk : kind = .root ∨ kind = .folder) {inner : List Tag}
    (h : Closed inner) (path : Path) :
    Closed ([⟨kind, path⟩] ++ inner ++ [⟨.folderEnd, path⟩]) := fun folders => by
  have hstart : open? folders ⟨kind, path⟩ = some (path :: folders) := by
    rcases hk with rfl | rfl <;> rfl
  have hend : open? (path :: folders) ⟨.folderEnd, path⟩ = some folders := if_pos rfl
  rw [List.append_assoc, List.singleton_append, List.foldlM_cons, hstart, Option.bind_eq_bind,
    Option.bind_some, List.foldlM_append, h]
  simp [hend]

end Tag

section
variable {l : Lister}

theorem Lister.map_tag_marks (kind : Kind) (names : List String) :
    (l.marks kind names).map Mark.tag = if l.shows kind then [⟨kind, .ofSegments names⟩] else [] := by
  rw [marks]
  split <;> rfl

/-- A folder whose start and end are both written, or both left out, is closed. -/
theorem Lister.closed_folderMarks {kind : Kind} (hk : kind = .root ∨ kind = .folder)
    (hs : l.shows kind = l.shows .folderEnd) (names : List String) {inner : List Mark}
    (h : Tag.Closed (inner.map Mark.tag)) :
    Tag.Closed ((l.folderMarks kind names inner).map Mark.tag) := by
  have hinner : Tag.Closed ((if l.options.limits names.length then l.marks .ellipsis names
      else inner).map Mark.tag) := by
    split
    · rw [map_tag_marks]
      split
      · exact Tag.closed_singleton rfl rfl
      · exact .nil
    · exact h
  rw [folderMarks, List.map_append, List.map_append, map_tag_marks, map_tag_marks, ← hs]
  split
  · exact hinner.folder hk _
  · exact (Tag.Closed.nil.append hinner).append .nil

/-- The lines of a forest are closed if folders in it have both a start and an end, or neither. -/
theorem Forest.closed_marks {f : Forest} (names : List String)
    (h : (∃ head ∈ f.heads, head.1 = true) → l.shows .folder = l.shows .folderEnd) :
    Tag.Closed ((f.marks l names).map Mark.tag) := by
  induction f generalizing names with
  | nil => exact .nil
  | file n rest ih =>
    rw [marks, List.map_append, Lister.map_tag_marks]
    refine Tag.Closed.append ?_
      (ih names fun hf => h (hf.imp fun _ hf => hf.imp_left (List.mem_cons_of_mem _)))
    split
    · exact Tag.closed_singleton rfl rfl
    · exact .nil
  | folder n inner rest ihi ihr =>
    have hs := h ⟨_, List.mem_cons_self, rfl⟩
    rw [marks, List.map_append]
    exact (Lister.closed_folderMarks (.inr rfl) hs _ (ihi _ fun _ => hs)).append (ihr names fun _ => hs)

theorem Lister.countP_marks (p : Tag → Bool) (kind : Kind) (names : List String) :
    ((l.marks kind names).map Mark.tag).countP p
      = (l.shows kind && p ⟨kind, .ofSegments names⟩).toNat := by
  rw [map_tag_marks]
  cases l.shows kind with
  | false => rfl
  | true =>
    rw [if_pos rfl, List.countP_singleton, Bool.true_and]
    cases p ⟨kind, .ofSegments names⟩ <;> rfl

/-- A folder adds its own start and its own end to those of the folders that are listed in it. -/
theorem Lister.exists_countP_folderMarks {kind : Kind} (hk : kind = .root ∨ kind = .folder)
    (names : List String) {inner : List Mark} {n : Nat}
    (hs : (inner.map Mark.tag).countP Tag.starts = n * (l.shows .folder).toNat)
    (he : (inner.map Mark.tag).countP Tag.ends = n * (l.shows .folderEnd).toNat) :
    ∃ m, (l.options.limits names.length = false → m = n) ∧
      ((l.folderMarks kind names inner).map Mark.tag).countP Tag.starts
        = (l.shows kind).toNat + m * (l.shows .folder).toNat ∧
      ((l.folderMarks kind names inner).map Mark.tag).countP Tag.ends
        = (m + 1) * (l.shows .folderEnd).toNat := by
  have hstarts : Tag.starts ⟨kind, .ofSegments names⟩ = true := by rcases hk with rfl | rfl <;> rfl
  have hends : Tag.ends ⟨kind, .ofSegments names⟩ = false := by rcases hk with rfl | rfl <;> rfl
  have hstarts' : Tag.starts ⟨.folderEnd, .ofSegments names⟩ = false := rfl
  have hends' : Tag.ends ⟨.folderEnd, .ofSegments names⟩ = true := rfl
  simp only [folderMarks, List.map_append, List.countP_append, countP_marks, hstarts, hends, hstarts',
    hends', Bool.and_true, Bool.and_false, Bool.toNat_false]
  cases hl : l.options.limits names.length with
  | true =>
    have hdots : ∀ p : Tag → Bool, p ⟨.ellipsis, .ofSegments names⟩ = false →
        ((l.marks .ellipsis names).map Mark.tag).countP p = 0 := fun p hp => by
      rw [countP_marks, hp, Bool.and_false, Bool.toNat_false]
    rw [if_pos rfl, hdots _ rfl, hdots _ rfl]
    exact ⟨0, (fun h => by cases h), by omega, by omega⟩
  | false =>
    rw [if_neg Bool.false_ne_true, hs, he]
    exact ⟨n, fun _ => rfl, by omega, by rw [Nat.add_mul]; omega⟩

theorem Forest.exists_countP_marks (f : Forest) (names : List String) : ∃ n,
    ((f.marks l names).map Mark.tag).countP Tag.starts = n * (l.shows .folder).toNat ∧
    ((f.marks l names).map Mark.tag).countP Tag.ends = n * (l.shows .folderEnd).toNat ∧
    ((∃ head ∈ f.heads, head.1 = true) → 0 < n) := by
  induction f generalizing names with
  | nil => exact ⟨0, by simp [marks], by simp [marks], by simp [heads]⟩
  | file n rest ih =>
    obtain ⟨count, hs, he, hpos⟩ := ih names
    simp only [marks, List.map_append, List.countP_append, Lister.countP_marks]
    refine ⟨count, ?_, ?_, ?_⟩
    · simp [hs, Tag.starts]
    · simp [he, Tag.ends]
    · rintro ⟨head, hm, hf⟩
      exact hpos ⟨head, (List.mem_cons.mp hm).resolve_left fun h => by simp [h] at hf, hf⟩
  | folder n inner rest ihi ihr =>
    obtain ⟨inside, hsi, hei, -⟩ := ihi (names ++ [n])
    obtain ⟨behind, hsr, her, -⟩ := ihr names
    obtain ⟨m, -, hs, he⟩ := Lister.exists_countP_folderMarks (.inr rfl) (names ++ [n]) hsi hei
    simp only [marks, List.map_append, List.countP_append, hs, he, hsr, her]
    refine ⟨m + 1 + behind, ?_, ?_, fun _ => by omega⟩
    · rw [Nat.add_mul, Nat.add_mul]
      omega
    · rw [Nat.add_mul (m + 1)]

/-- One start and `m` others are as many as `m + 1` ends only if all of them are written or none. -/
theorem eq_of_toNat_add {a b c : Bool} {m : Nat}
    (h : a.toNat + m * b.toNat = (m + 1) * c.toNat) : a = c ∧ (0 < m → b = c) := by
  cases a <;> cases b <;> cases c <;> simp at h ⊢ <;> omega

/-- The lines of a listing are well nested just if the listed folder has both a start and an end, or
neither, and so have the folders in it, if there are any. -/
theorem Forest.closed_iff {f : Forest} :
    ((l.folderMarks .root [] (f.marks l [])).map Mark.tag).foldlM Tag.open? [] = some [] ↔
      l.shows .root = l.shows .folderEnd ∧
        ((∃ head ∈ f.heads, head.1 = true) → l.shows .folder = l.shows .folderEnd) := by
  constructor
  · intro h
    -- a kind is written for all folders or for none, so the numbers of starts and ends decide
    obtain ⟨n, hstarts, hends, hpos⟩ := f.exists_countP_marks (l := l) []
    obtain ⟨m, hm, hs, he⟩ := Lister.exists_countP_folderMarks (.inl rfl) [] hstarts hends
    have hlimit : l.options.limits ([] : List String).length = false := by
      simp only [Options.limits, List.length_nil, Bool.and_eq_false_iff, decide_eq_false_iff_not]
      omega
    obtain rfl := hm hlimit
    have hsame := Tag.length_of_foldlM h
    rw [hs, he, Nat.add_left_cancel_iff] at hsame
    obtain ⟨hroot, hfolders⟩ := eq_of_toNat_add hsame
    exact ⟨hroot, fun hf => hfolders (hpos hf)⟩
  · rintro ⟨hroot, hfolders⟩
    exact Lister.closed_folderMarks (.inl rfl) hroot [] (f.closed_marks [] hfolders) []

end

/-- A walk of XML lines without a pattern of its own for the ends of folders is well nested just if
the folder that is listed has a start where folders are shown, and so have the folders in it, if it
lists any. -/
theorem walk_wellNested_iff {o : Options} {r : Registry} {l : Lister} (hx : o.layout = .xml)
    (he : o.folderEndPattern? = none) (hl : Lister.compile o r = .ok l) {d : Disk}
    {folder base : Path} (hb : folder.absolute? d.cwd = some base)
    (ht : d.Tree (fun _ names => ∀ n ∈ names, Path.IsName n) (.root base)) {records : List Record}
    (hw : l.walk d folder = .ok (records.map .ok)) :
    WellNested records ↔ (o.pattern? .root).isSome = o.showFolders ∧
      ((∃ i ∈ l.entries d (.root base), i.isFolder = true) →
        (o.pattern? .folder).isSome = o.showFolders) := by
  obtain ⟨f, hs, -⟩ := Disk.Tree.exists_shows (l := l) (P := fun _ _ => True) (fun _ _ h => h)
    (fun _ _ _ _ _ _ => trivial) (List.forall_mem_nil _) ht
  obtain ⟨hrecords, hmade⟩ := walk_eq_marks hb hs hw
  have htags : records.map Record.tag = (l.folderMarks .root [] (f.marks l [])).map Mark.tag := by
    rw [hrecords, List.map_map]
    refine List.map_congr_left fun m hm => ?_
    obtain ⟨t, p, -, -, hrecord⟩ := Lister.record?_eq_some (hmade m hm)
    rw [Function.comp_apply, hrecord]
    rfl
  have hfolders : (∃ i ∈ l.entries d (.root base), i.isFolder = true) ↔
      ∃ head ∈ f.heads, head.1 = true := by
    have heq : l.entries d (.root base) = f.heads.map fun head => .below base ([] ++ [head.2]) head.1 :=
      hs.items_eq
    rw [heq]
    simp only [List.mem_map, exists_exists_and_eq_and, Item.below]
  have hend : (o.pattern? .folderEnd).isSome = o.showFolders := by
    rw [Options.pattern?, LinePattern.given?, he]
    simp only [LinePattern.usual?, hx, true_and]
    cases o.showFolders <;> rfl
  rw [WellNested, htags, Forest.closed_iff, hfolders]
  simp only [Lister.shows, Lister.isSome_template? hl, hend]

namespace Record

/-- The start of the folder that is listed, in XML lines. -/
def rootStart : Record := ⟨.root, ⟨""⟩, some 0, .ofList [("indent", "")]⟩

def rootEnd : Record := ⟨.folderEnd, ⟨""⟩, some 0, .ofList [("indent", "")]⟩

def start (name : String) : Record :=
  ⟨.folder, ⟨name⟩, some 1, .ofList [("indent", " "), ("name", name)]⟩

def stop (name : String) : Record := ⟨.folderEnd, ⟨name⟩, some 1, .ofList [("indent", " ")]⟩

end Record

theorem walk_wellNested_emptyFolders :
    ∃ l, Lister.compile { layout := .xml } .core = .ok l ∧
      l.walk (.emptyFolders ["a"]) ⟨"/t"⟩
        = .ok ([Record.rootStart, .start "a", .stop "a", .rootEnd].map .ok) ∧
      WellNested [.rootStart, .start "a", .stop "a", .rootEnd] := by
  obtain ⟨l, hl⟩ : ∃ l, Lister.compile { layout := .xml } .core = .ok l :=
    exists_eq_ok_of_isOk (by decide +kernel)
  have hn : ∀ n ∈ ["a"], Path.IsName n :=
    List.forall_mem_singleton.mpr ⟨by decide, by decide, by decide, by decide⟩
  have hw : l.walk (.emptyFolders ["a"]) ⟨"/t"⟩
      = .ok ([Record.rootStart, .start "a", .stop "a", .rootEnd].map .ok) :=
    walk_emptyFolders_of_compile hl hn (by decide +kernel)
  refine ⟨l, hl, hw, ?_⟩
  exact (walk_wellNested_iff rfl rfl hl Path.absolute?_t (Disk.tree_emptyFolders hn hn fun _ => by simp)
    hw).mpr ⟨by decide, fun _ => by decide⟩

/-- Where the starts of folders are dropped their ends are still written. -/
theorem walk_not_wellNested :
    ∃ l, Lister.compile { layout := .xml, folderPattern? := some "" } .core = .ok l ∧
      (Disk.emptyFolders ["a"]).Tree (fun _ names => ∀ n ∈ names, Path.IsName n) (.root ⟨"/t"⟩) ∧
      l.walk (.emptyFolders ["a"]) ⟨"/t"⟩ = .ok ([Record.rootStart, .stop "a", .rootEnd].map .ok) ∧
      ¬ WellNested [.rootStart, .stop "a", .rootEnd] := by
  obtain ⟨l, hl⟩ : ∃ l, Lister.compile { layout := .xml, folderPattern? := some "" } .core = .ok l :=
    exists_eq_ok_of_isOk (by decide +kernel)
  have hn : ∀ n ∈ ["a"], Path.IsName n :=
    List.forall_mem_singleton.mpr ⟨by decide, by decide, by decide, by decide⟩
  exact ⟨l, hl, Disk.tree_emptyFolders hn hn fun _ => by simp,
    walk_emptyFolders_of_compile hl hn (by decide +kernel), by decide⟩

end TreeListing
