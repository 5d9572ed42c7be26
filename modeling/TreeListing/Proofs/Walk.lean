import TreeListing.Proofs.Mark

/-!
The listing of a folder as a recursion on what is in it. A walk that meets no failure gives the
records of the marks of a forest, in order; the main statement is `walk_eq_marks`.
-/
namespace TreeListing

namespace Lister

/-- What the item gives as a line of the kind. -/
def outcomes (l : Lister) (d : Disk) (kind : Kind) (i : Item) : List Signal.Outcome :=
  (Walk.yieldOf (l.record? d kind i)).toList

/-- What a folder gives, with `inner` for its entries. If its own record fails, that is all. -/
def folderOutcomes (l : Lister) (d : Disk) (kind : Kind) (i : Item) (inner : List Signal.Outcome) :
    List Signal.Outcome :=
  match l.record? d kind i with
  | .error e => [.error e]
  | .ok _ => l.outcomes d kind i
    ++ (if l.options.limits i.depth then l.outcomes d .ellipsis i else inner)
    ++ l.outcomes d .folderEnd i

end Lister

def Forest.outcomes (l : Lister) (d : Disk) (base : Path) (names : List String) :
    Forest → List Signal.Outcome
  | nil => []
  | file n rest => l.outcomes d .file (.below base (names ++ [n]) false) ++ rest.outcomes l d base names
  | folder n inner rest =>
    l.folderOutcomes d .folder (.below base (names ++ [n]) true)
        (inner.outcomes l d base (names ++ [n]))
      ++ rest.outcomes l d base names

namespace Walk

variable {d : Disk} {l : Lister}

/-- A task gives what it yields, and then what is left to do. -/
theorem run_cons (task : Task) (rest : List Task) :
    l.run d (task :: rest)
      = (l.run d (perform d l task rest).2).map ((perform d l task rest).1.toList ++ ·) := by
  rw [Lister.run]
  obtain ⟨outcome?, next⟩ := perform d l task rest
  cases outcome? with
  | none => simp
  | some outcome =>
    simp only [Option.pure_def, Option.bind_eq_bind, Option.toList_some, List.singleton_append]
    cases l.run d next <;> rfl

theorem run_ellipsis (i : Item) (rest : List Task) :
    l.run d (.ellipsis i :: rest) = (l.run d rest).map (l.outcomes d .ellipsis i ++ ·) :=
  run_cons _ _

theorem run_leave (i : Item) (rest : List Task) :
    l.run d (.leave i :: rest) = (l.run d rest).map (l.outcomes d .folderEnd i ++ ·) :=
  run_cons _ _

theorem run_visit_unlisted {i : Item} (h : l.lists i = false) (rest : List Task) :
    l.run d (.visit i :: rest) = l.run d rest := by
  rw [Lister.run]
  cases ho : l.options.leavesOut i with
  | true => simp [perform, ho]
  | false =>
    simp only [Lister.lists, ho, Bool.not_false, Bool.true_and, Bool.or_eq_false_iff, Lister.shows] at h
    have ht : l.template? .file = none := by simpa using h.2
    simp [perform, ho, h.1, Lister.record?, ht, yieldOf]

theorem run_visit_nil {items : List Item} (h : items.filter l.lists = []) (rest : List Task) :
    l.run d (items.map .visit ++ rest) = l.run d rest := by
  induction items with
  | nil => rfl
  | cons i items ih =>
    rw [List.filter_eq_nil_iff, List.forall_mem_cons] at h
    rw [List.map_cons, List.cons_append, run_visit_unlisted (by simpa using h.1)]
    exact ih (List.filter_eq_nil_iff.mpr h.2)

/-- Entries without a place in the listing can be passed over up to the first that has one. -/
theorem run_visit_cons {items listing : List Item} {i : Item}
    (h : items.filter l.lists = i :: listing) :
    l.lists i = true ∧ ∃ others : List Item, others.filter l.lists = listing ∧
      ∀ rest, l.run d (items.map .visit ++ rest) = l.run d (.visit i :: (others.map .visit ++ rest)) := by
  induction items with
  | nil => cases h
  | cons j items ih =>
    cases hj : l.lists j with
    | true =>
      rw [List.filter_cons_of_pos hj] at h
      obtain ⟨rfl, ht⟩ := List.cons.inj h
      exact ⟨hj, items, ht, fun _ => rfl⟩
    | false =>
      rw [List.filter_cons_of_neg (by simp [hj])] at h
      obtain ⟨hi, others, ho, hr⟩ := ih h
      refine ⟨hi, others, ho, fun rest => ?_⟩
      rw [List.map_cons, List.cons_append, run_visit_unlisted hj, hr]

theorem run_enter {i : Item} {inner : List Signal.Outcome}
    (h : l.options.limits i.depth = false → ∀ rest,
      l.run d ((l.options.order.sort (i.children d)).map .visit ++ rest)
        = (l.run d rest).map (inner ++ ·)) (rest : List Task) :
    (l.run d (enter d l i rest).2).map ((enter d l i rest).1.toList ++ ·)
      = (l.run d rest).map
          (l.folderOutcomes d (if i.depth = 0 then .root else .folder) i inner ++ ·) := by
  rw [enter, Lister.folderOutcomes]
  cases hr : l.record? d (if i.depth = 0 then .root else .folder) i with
  | error e => rfl
  | ok record? =>
    have hy : (record?.map Except.ok : Yield).toList
        = l.outcomes d (if i.depth = 0 then .root else .folder) i := by
      rw [Lister.outcomes, hr]
      cases record? <;> rfl
    simp only [hy, within]
    cases hl : l.options.limits i.depth with
    | true =>
      rw [if_pos rfl, if_pos rfl, List.singleton_append, List.cons_append, List.singleton_append,
        run_ellipsis, run_leave, Option.map_map, Option.map_map]
      simp [Function.comp_def]
    | false =>
      rw [if_neg Bool.false_ne_true, if_neg Bool.false_ne_true, List.append_assoc,
        List.singleton_append, h hl, run_leave, Option.map_map, Option.map_map]
      simp [Function.comp_def]

/-- The tasks of the entries of a folder give what their forest gives. -/
theorem run_visit {base : Path} {names : List String} {items : List Item} {f : Forest}
    (hs : f.Shows d l base names items) {all : List Item} (ha : all.filter l.lists = items)
    (rest : List Task) :
    l.run d (all.map .visit ++ rest) = (l.run d rest).map (f.outcomes l d base names ++ ·) := by
  induction hs generalizing all rest with
  | nil =>
    rw [run_visit_nil ha]
    simp [Forest.outcomes]
  | @file names n items f hr ih =>
    obtain ⟨hl, others, ho, he⟩ := run_visit_cons (d := d) ha
    have hout : l.options.leavesOut (.below base (names ++ [n]) false) = false := by
      simpa [Lister.lists] using (Bool.and_eq_true_iff.mp hl).1
    have hp : perform d l (.visit (.below base (names ++ [n]) false)) (others.map .visit ++ rest)
        = (yieldOf (l.record? d .file (.below base (names ++ [n]) false)), others.map .visit ++ rest) := by
      rw [perform, hout]
      rfl
    rw [he, run_cons, hp, ih ho, Option.map_map, Forest.outcomes]
    simp only [Function.comp_def, Lister.outcomes, List.append_assoc]
  | @folder names n items inner f hi hr ihi ihr =>
    obtain ⟨hl, others, ho, he⟩ := run_visit_cons (d := d) ha
    have hout : l.options.leavesOut (.below base (names ++ [n]) true) = false := by
      simpa [Lister.lists] using (Bool.and_eq_true_iff.mp hl).1
    have hp : perform d l (.visit (.below base (names ++ [n]) true)) (others.map .visit ++ rest)
        = enter d l (.below base (names ++ [n]) true) (others.map .visit ++ rest) := by
      rw [perform, hout]
      rfl
    have hd : (Item.below base (names ++ [n]) true).depth ≠ 0 := by simp [Item.below]
    have hin : l.options.limits (Item.below base (names ++ [n]) true).depth = false → ∀ rest,
        l.run d ((l.options.order.sort ((Item.below base (names ++ [n]) true).children d)).map .visit
          ++ rest) = (l.run d rest).map (inner.outcomes l d base (names ++ [n]) ++ ·) :=
      fun hl => ihi (by simp [Lister.entries, hl])
    rw [he, run_cons, hp, run_enter hin, if_neg hd, ihr ho, Option.map_map, Forest.outcomes]
    simp only [Function.comp_def, List.append_assoc]

theorem run_root {base : Path} {f : Forest}
    (hs : f.Shows d l base [] (l.entries d (.root base))) :
    l.run d [.enter (.root base)]
      = some (l.folderOutcomes d .root (.root base) (f.outcomes l d base [])) := by
  have hin : l.options.limits (Item.root base).depth = false → ∀ rest,
      l.run d ((l.options.order.sort ((Item.root base).children d)).map .visit ++ rest)
        = (l.run d rest).map (f.outcomes l d base [] ++ ·) :=
    fun hl => run_visit hs (by simp [Lister.entries, hl])
  rw [run_cons, perform, run_enter hin, Lister.run]
  simp [Item.root]

end Walk

namespace Lister

/-- The record that a mark stands for, where nothing fails. -/
def recordAt (l : Lister) (d : Disk) (base : Path) (m : Mark) : Record :=
  ((l.record? d m.kind (m.item base)).toOption.bind id).getD default

/-- The outcomes are the records of the marks. -/
structure Yields (l : Lister) (d : Disk) (base : Path) (ms : List Mark)
    (outcomes : List Signal.Outcome) : Prop where
  records : outcomes = (ms.map (l.recordAt d base)).map .ok
  made : ∀ m ∈ ms, l.record? d m.kind (m.item base) = .ok (some (l.recordAt d base m))

variable {l : Lister} {d : Disk} {base : Path}

theorem Yields.nil : l.Yields d base [] [] := ⟨rfl, by simp⟩

theorem Yields.append {ms ns : List Mark} {os ps : List Signal.Outcome} (h : l.Yields d base ms os)
    (k : l.Yields d base ns ps) : l.Yields d base (ms ++ ns) (os ++ ps) := by
  refine ⟨by rw [h.records, k.records, List.map_append, List.map_append], fun m hm => ?_⟩
  rcases List.mem_append.mp hm with hm | hm
  · exact h.made m hm
  · exact k.made m hm

theorem yields_marks (base : Path) (kind : Kind) (names : List String)
    (h : ∀ e, .error e ∉ l.outcomes d kind (Mark.item base ⟨kind, names⟩)) :
    l.Yields d base (l.marks kind names) (l.outcomes d kind (Mark.item base ⟨kind, names⟩)) := by
  cases ht : l.template? kind with
  | none =>
    have hm : l.marks kind names = [] := by simp [marks, shows, ht]
    have ho : l.outcomes d kind (Mark.item base ⟨kind, names⟩) = [] := by
      simp [outcomes, record?, ht, Walk.yieldOf]
    exact hm ▸ ho ▸ .nil
  | some t =>
    have hm : l.marks kind names = [⟨kind, names⟩] := by simp [marks, shows, ht]
    rw [hm]
    cases hp : t.props d (Mark.item base ⟨kind, names⟩) with
    | error e => exact absurd (by simp [outcomes, record?, ht, hp, Walk.yieldOf, Except.map,
        Except.mapError]) (h (.property e))
    | ok p => exact ⟨by simp [outcomes, record?, recordAt, ht, hp, Walk.yieldOf, Except.map,
        Except.mapError, Except.toOption], by simp [record?, recordAt, ht, hp, Except.map,
        Except.mapError, Except.toOption]⟩

theorem yields_folderMarks {kind : Kind} (hk : kind ≠ .file) (names : List String)
    {inner : List Mark} {os : List Signal.Outcome}
    (hi : (∀ e, .error e ∉ os) → l.Yields d base inner os)
    (h : ∀ e, .error e ∉ l.folderOutcomes d kind (.below base names true) os) :
    l.Yields d base (l.folderMarks kind names inner)
      (l.folderOutcomes d kind (.below base names true) os) := by
  have hitem : ∀ k : Kind, k ≠ .file → Mark.item base ⟨k, names⟩ = .below base names true := by
    intro k hk
    simp [Mark.item, hk]
  rw [folderOutcomes] at h ⊢
  split at h
  next e he => exact absurd (List.mem_singleton_self _) (h e)
  next r hr =>
    simp only [List.mem_append, not_or] at h
    have hopen := yields_marks (l := l) (d := d) base kind names
      (by rw [hitem kind hk]; exact fun e => (h e).1.1)
    have hend := yields_marks (l := l) (d := d) base .folderEnd names
      (by rw [hitem .folderEnd (by decide)]; exact fun e => (h e).2)
    rw [hitem kind hk] at hopen
    rw [hitem .folderEnd (by decide)] at hend
    refine (hopen.append ?_).append hend
    change l.Yields d base (if l.options.limits names.length then _ else _)
      (if l.options.limits names.length then _ else _)
    cases hl : l.options.limits names.length with
    | true =>
      have hdots := yields_marks (l := l) (d := d) base .ellipsis names
        (by rw [hitem .ellipsis (by decide)]; exact fun e => by simpa [hl, Item.below] using (h e).1.2)
      rwa [hitem .ellipsis (by decide)] at hdots
    | false => exact hi fun e => by simpa [hl, Item.below] using (h e).1.2

end Lister

namespace Forest

theorem yields {l : Lister} {d : Disk} {base : Path} {names : List String} {f : Forest}
    (h : ∀ e, .error e ∉ f.outcomes l d base names) :
    l.Yields d base (f.marks l names) (f.outcomes l d base names) := by
  induction f generalizing names with
  | nil => exact .nil
  | file n rest ih =>
    simp only [outcomes, List.mem_append, not_or] at h
    have hitem : Mark.item base ⟨.file, names ++ [n]⟩ = .below base (names ++ [n]) false := by
      simp [Mark.item]
    have hf := Lister.yields_marks (l := l) (d := d) base .file (names ++ [n])
      (by rw [hitem]; exact fun e => (h e).1)
    rw [hitem] at hf
    exact hf.append (ih fun e => (h e).2)
  | folder n inner rest ihi ihr =>
    simp only [outcomes, List.mem_append, not_or] at h
    exact (Lister.yields_folderMarks (by decide) _ ihi fun e => (h e).1).append
      (ihr fun e => (h e).2)

end Forest

theorem walk_eq {l : Lister} {d : Disk} {folder base : Path} {f : Forest}
    (hd : d.isFolder folder = true) (hb : folder.absolute? d.cwd = some base)
    (hs : f.Shows d l base [] (l.entries d (.root base))) :
    l.walk d folder = .ok (l.folderOutcomes d .root (.root base) (f.outcomes l d base [])) := by
  rw [Lister.walk, Walk.start, if_pos hd, hb]
  simp only [Except.map, Walk.run_root hs, Option.getD_some]

theorem isFolder_of_walk {l : Lister} {d : Disk} {folder : Path} {outcomes : List Signal.Outcome}
    (h : l.walk d folder = .ok outcomes) : d.isFolder folder = true := by
  by_contra hd
  rw [Lister.walk, Walk.start, if_neg hd] at h
  cases h

/-- A walk without failures gives the records of the marks of the folder's forest. -/
theorem walk_eq_marks {l : Lister} {d : Disk} {folder base : Path} {f : Forest}
    {records : List Record} (hb : folder.absolute? d.cwd = some base)
    (hs : f.Shows d l base [] (l.entries d (.root base)))
    (hw : l.walk d folder = .ok (records.map .ok)) :
    records = (l.folderMarks .root [] (f.marks l [])).map (l.recordAt d base) ∧
      ∀ m ∈ l.folderMarks .root [] (f.marks l []),
        l.record? d m.kind (m.item base) = .ok (some (l.recordAt d base m)) := by
  rw [walk_eq (isFolder_of_walk hw) hb hs] at hw
  have ho := Except.ok.inj hw
  have hy : l.Yields d base (l.folderMarks .root [] (f.marks l []))
      (l.folderOutcomes d .root (.root base) (f.outcomes l d base [])) :=
    Lister.yields_folderMarks (by decide) [] Forest.yields fun e he => by
      have he : .error e ∈ l.folderOutcomes d .root (.root base) (f.outcomes l d base []) := he
      simp [ho] at he
  exact ⟨List.map_injective_iff.mpr (fun _ _ => Except.ok.inj) (ho.symm.trans hy.records), hy.made⟩

theorem Path.absolute?_t : Path.absolute? ⟨"/t"⟩ ⟨"/"⟩ = some ⟨"/t"⟩ := by decide +kernel

/-- A disk with a folder that holds one file. -/
def Disk.oneFile (name : String) : Disk where
  cwd := ⟨"/"⟩
  stat p :=
    if p = ⟨"/t"⟩ then .ok ⟨.folder, 0, ⟨0, 0⟩, ⟨0, 0⟩⟩
    else if p = ⟨"/t/" ++ name⟩ then .ok ⟨.file, 4, ⟨0, 0⟩, ⟨0, 0⟩⟩
    else .error .notFound
  names p := if p = ⟨"/t"⟩ then .ok [name] else .error .notADirectory
  content p := if p = ⟨"/t/" ++ name⟩ then .ok [1, 2, 3, 4] else .error .isADirectory
  canonical? p := some p

theorem Item.abspath_below_singleton {name : String} (hn : Path.IsName name) (isFolder : Bool) :
    (Item.below ⟨"/t"⟩ [name] isFolder).abspath = ⟨"/t/" ++ name⟩ :=
  (@Item.abspath_below_concat ⟨"/t"⟩ [] (by simp) _ hn isFolder isFolder).trans
    (Path.join_name ⟨"/t"⟩ hn)

theorem Disk.children_oneFile {name : String} (hn : Path.IsName name) :
    (Item.root ⟨"/t"⟩).children (oneFile name) = [.below ⟨"/t"⟩ [name] false] := by
  have hp := Item.abspath_below_singleton hn true
  have hne : "/t/" ++ name ≠ "/t" := fun he => by
    have := congrArg (fun text : String => text.toList.length) he
    simp at this
  have hf : (oneFile name).isFolder ⟨"/t/" ++ name⟩ = false := by
    simp [isFolder, oneFile, hne]
  have hroot : (Item.root ⟨"/t"⟩).abspath = ⟨"/t"⟩ := by decide
  have hnames : (oneFile name).entryNames (.root ⟨"/t"⟩) = [name] := by
    simp [entryNames, hroot, oneFile, Except.toOption]
  have hchild := @Item.child_below (oneFile name) ⟨"/t"⟩ [] (by simp) _ hn
  rw [List.nil_append, hp, hf] at hchild
  rw [Item.children_eq, hnames, hroot, if_pos (by simp [isFolder, oneFile])]
  exact congrArg (fun i => [i]) hchild

theorem walk_oneFile {l : Lister} {name : String} (hn : Path.IsName name)
    (hl : l.options.limits 0 = false) (hf : l.lists (.below ⟨"/t"⟩ [name] false) = true) :
    l.walk (.oneFile name) ⟨"/t"⟩ = .ok (l.folderOutcomes (.oneFile name) .root (.root ⟨"/t"⟩)
      ((Forest.file name .nil).outcomes l (.oneFile name) ⟨"/t"⟩ [])) := by
  have he : l.entries (.oneFile name) (.root ⟨"/t"⟩) = [.below ⟨"/t"⟩ [name] false] := by
    rw [Lister.entries, Disk.children_oneFile hn, SiblingOrder.sort, List.mergeSort_singleton]
    simp [Item.root, hl, hf]
  have hs : (Forest.file name .nil).Shows (.oneFile name) l ⟨"/t"⟩ []
      [.below ⟨"/t"⟩ ([] ++ [name]) false] := .file .nil
  exact walk_eq (by simp [Disk.isFolder, Disk.oneFile]) Path.absolute?_t (he ▸ hs)

theorem walk_oneFile_of_compile {o : Options} {l : Lister} (hl : Lister.compile o .core = .ok l)
    {name : String} (hn : Path.IsName name) {records : List Record}
    (hc : ((Lister.compile o .core).toOption.any fun l =>
      !l.options.limits 0 && l.lists (.below ⟨"/t"⟩ [name] false) &&
        decide (l.folderOutcomes (.oneFile name) .root (.root ⟨"/t"⟩)
          ((Forest.file name .nil).outcomes l (.oneFile name) ⟨"/t"⟩ []) = records.map .ok)) = true) :
    l.walk (.oneFile name) ⟨"/t"⟩ = .ok (records.map .ok) := by
  rw [hl] at hc
  obtain ⟨hl, houtcomes⟩ := Bool.and_eq_true_iff.mp hc
  obtain ⟨hlimits, hlists⟩ := Bool.and_eq_true_iff.mp hl
  rw [walk_oneFile hn (by simpa using hlimits) hlists, of_decide_eq_true houtcomes]

/-- A disk with a folder that holds empty folders. -/
def Disk.emptyFolders (names : List String) : Disk where
  cwd := ⟨"/"⟩
  stat p :=
    if p = ⟨"/t"⟩ ∨ ∃ n ∈ names, p = ⟨"/t/" ++ n⟩ then .ok ⟨.folder, 0, ⟨0, 0⟩, ⟨0, 0⟩⟩
    else .error .notFound
  names p :=
    if p = ⟨"/t"⟩ then .ok names
    else if ∃ n ∈ names, p = ⟨"/t/" ++ n⟩ then .ok []
    else .error .notADirectory
  content _ := .error .isADirectory
  canonical? p := some p

theorem Disk.children_emptyFolders {names : List String} (hn : ∀ n ∈ names, Path.IsName n) :
    (Item.root ⟨"/t"⟩).children (emptyFolders names) = names.map fun n => .below ⟨"/t"⟩ [n] true := by
  have hroot : (Item.root ⟨"/t"⟩).abspath = ⟨"/t"⟩ := by decide
  have hnames : (emptyFolders names).entryNames (.root ⟨"/t"⟩) = names := by
    simp [entryNames, hroot, emptyFolders, Except.toOption]
  rw [Item.children_eq, hnames, hroot, if_pos (by simp [isFolder, emptyFolders])]
  refine List.map_congr_left fun n hm => ?_
  have hf : (emptyFolders names).isFolder (Item.below ⟨"/t"⟩ [n] true).abspath = true := by
    have hex : ∃ n' ∈ names, Path.mk ("/t/" ++ n) = ⟨"/t/" ++ n'⟩ := ⟨n, hm, rfl⟩
    rw [Item.abspath_below_singleton (hn n hm)]
    simp only [isFolder, emptyFolders, if_pos (Or.inr hex)]
    rfl
  exact (@Item.child_below _ ⟨"/t"⟩ [] (by simp) n (hn n hm)).trans (by rw [List.nil_append, hf])

theorem Disk.entryNames_emptyFolders {names : List String} {n : String} (hn : Path.IsName n)
    (hm : n ∈ names) : (emptyFolders names).entryNames (.below ⟨"/t"⟩ [n] true) = [] := by
  have hne : "/t/" ++ n ≠ "/t" := fun he => by
    have := congrArg (fun text : String => text.toList.length) he
    simp at this
  rw [entryNames, Item.abspath_below_singleton hn]
  simp only [emptyFolders, Path.mk.injEq, if_neg hne]
  rw [if_pos (by simpa using hm)]
  rfl

theorem Disk.children_emptyFolders_inner {names : List String} {n : String} (hn : Path.IsName n)
    (hm : n ∈ names) : (Item.below ⟨"/t"⟩ [n] true).children (emptyFolders names) = [] := by
  rw [Item.children_eq, entryNames_emptyFolders hn hm, List.map_nil, ite_self]

theorem Disk.tree_emptyFolders {names : List String} (hn : ∀ n ∈ names, Path.IsName n)
    {good : Item → List String → Prop} (hg : good (.root ⟨"/t"⟩) names)
    (hg' : ∀ i, good i []) : (emptyFolders names).Tree good (.root ⟨"/t"⟩) := by
  have hroot : (Item.root ⟨"/t"⟩).abspath = ⟨"/t"⟩ := by decide
  have hnames : (emptyFolders names).entryNames (.root ⟨"/t"⟩) = names := by
    simp [entryNames, hroot, emptyFolders, Except.toOption]
  refine .intro (hnames.symm ▸ hg) fun j hj _ => ?_
  rw [children_emptyFolders hn] at hj
  obtain ⟨n, hm, rfl⟩ := List.mem_map.mp hj
  refine .intro ((entryNames_emptyFolders (hn n hm) hm).symm ▸ hg' _) fun k hk _ => ?_
  rw [children_emptyFolders_inner (hn n hm) hm] at hk
  cases hk

def Forest.emptyFolders (names : List String) : Forest := names.foldr (.folder · .nil) .nil

theorem Forest.shows_emptyFolders {l : Lister} {names : List String} (hn : ∀ n ∈ names, Path.IsName n) :
    (Forest.emptyFolders names).Shows (.emptyFolders names) l ⟨"/t"⟩ []
      (names.map fun n => .below ⟨"/t"⟩ [n] true) := by
  have hall : ∀ some, (∀ n ∈ some, n ∈ names) → (Forest.emptyFolders some).Shows (.emptyFolders names) l
      ⟨"/t"⟩ [] (some.map fun n => .below ⟨"/t"⟩ [n] true) := by
    intro some
    induction some with
    | nil => exact fun _ => .nil
    | cons n some ih =>
      intro hs
      rw [List.forall_mem_cons] at hs
      have he : l.entries (.emptyFolders names) (.below ⟨"/t"⟩ [n] true) = [] := by
        refine List.eq_nil_iff_forall_not_mem.mpr fun j hj => ?_
        have hc := Lister.mem_children_of_mem_entries hj
        rw [Disk.children_emptyFolders_inner (hn n hs.1) hs.1] at hc
        cases hc
      exact @Shows.folder _ _ _ [] n _ _ _ (he ▸ .nil) (ih hs.2)
  exact hall names fun _ hm => hm

theorem walk_emptyFolders {l : Lister} {names : List String} (hn : ∀ n ∈ names, Path.IsName n)
    (hl : l.options.limits 0 = false)
    (hs : (names.map fun n => Item.below ⟨"/t"⟩ [n] true).Pairwise
      fun a b => (l.options.order.compare a b).isLE = true)
    (hf : ∀ n ∈ names, l.lists (.below ⟨"/t"⟩ [n] true) = true) :
    l.walk (.emptyFolders names) ⟨"/t"⟩ = .ok (l.folderOutcomes (.emptyFolders names) .root (.root ⟨"/t"⟩)
      ((Forest.emptyFolders names).outcomes l (.emptyFolders names) ⟨"/t"⟩ [])) := by
  have he : l.entries (.emptyFolders names) (.root ⟨"/t"⟩)
      = names.map fun n => .below ⟨"/t"⟩ [n] true := by
    rw [Lister.entries, Disk.children_emptyFolders hn, SiblingOrder.sort,
      List.mergeSort_of_pairwise hs, if_neg (by simp [Item.root, hl]), List.filter_eq_self]
    exact List.forall_mem_map.mpr hf
  exact walk_eq (by simp [Disk.isFolder, Disk.emptyFolders]) Path.absolute?_t
    (he ▸ Forest.shows_emptyFolders hn)

theorem walk_emptyFolders_of_compile {o : Options} {l : Lister} (hl : Lister.compile o .core = .ok l)
    {names : List String} (hn : ∀ n ∈ names, Path.IsName n) {records : List Record}
    (hc : ((Lister.compile o .core).toOption.any fun l =>
      !l.options.limits 0 && decide ((names.map fun n => Item.below ⟨"/t"⟩ [n] true).Pairwise
        fun a b => (l.options.order.compare a b).isLE = true)
      && names.all (fun n => l.lists (.below ⟨"/t"⟩ [n] true)) &&
        decide (l.folderOutcomes (.emptyFolders names) .root (.root ⟨"/t"⟩)
          ((Forest.emptyFolders names).outcomes l (.emptyFolders names) ⟨"/t"⟩ [])
            = records.map .ok)) = true) :
    l.walk (.emptyFolders names) ⟨"/t"⟩ = .ok (records.map .ok) := by
  rw [hl] at hc
  simp only [Except.toOption, Option.any_some, Bool.and_eq_true, decide_eq_true_eq, List.all_eq_true,
    Bool.not_eq_true'] at hc
  obtain ⟨⟨⟨hlimits, hsorted⟩, hlists⟩, houtcomes⟩ := hc
  rw [walk_emptyFolders hn hlimits hsorted hlists, houtcomes]

end TreeListing
