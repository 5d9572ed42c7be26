import Mathlib.Data.List.Nodup
import TreeListing.Comparison.Source
import TreeListing.Proofs.Comparison.Mirror
import TreeListing.Proofs.Comparison.Order
import TreeListing.Proofs.Table

/-!
A comparison of two folder trees is exact. Two forests behind the same names are merged entry by
entry: an entry that one side lacks goes by with all that is in it while the other side waits, and
two entries that stand for each other are merged within. The main statement is
`walks_compared_exactly`.
-/
namespace TreeListing.Comparison

open Std (TransCmp OrientedCmp)

/-- The events are for marks of the two sides: for each mark that both have, and for each that one
side alone has. -/
structure Splits (a b : Mark → Record) (ms ns : List Mark) (events : List Event) : Prop where
  pair : ∀ x y, .pair x y ∈ events → ∃ m ∈ ms, m ∈ ns ∧ x = a m ∧ y = b m
  deletion : ∀ x, .deletion x ∈ events → ∃ m ∈ ms, m ∉ ns ∧ x = a m
  addition : ∀ y, .addition y ∈ events → ∃ m ∈ ns, m ∉ ms ∧ y = b m

namespace Splits

variable {a b : Mark → Record} {ms ns ms' ns' : List Mark} {es es' : List Event}

theorem nil : Splits a b [] [] [] := ⟨by simp, by simp, by simp⟩

theorem deletions (ms : List Mark) : Splits a b ms [] ((ms.map a).map .deletion) := by
  refine ⟨by simp, fun x hx => ?_, by simp⟩
  simpa [eq_comm] using hx

theorem pairs (ms : List Mark) : Splits a b ms ms (ms.map fun m => .pair (a m) (b m)) := by
  refine ⟨fun x y hx => ?_, by simp, by simp⟩
  obtain ⟨m, hm, he⟩ := List.mem_map.mp hx
  obtain ⟨rfl, rfl⟩ := Event.pair.inj he
  exact ⟨m, hm, hm, rfl, rfl⟩

theorem append (h : Splits a b ms ns es) (h' : Splits a b ms' ns' es') (hd : ∀ m ∈ ms, m ∉ ns')
    (hd' : ∀ m ∈ ms', m ∉ ns) : Splits a b (ms ++ ms') (ns ++ ns') (es ++ es') := by
  refine ⟨fun x y hx => ?_, fun x hx => ?_, fun y hy => ?_⟩
  · rcases List.mem_append.mp hx with hx | hx
    · obtain ⟨m, hm, hn, he⟩ := h.pair x y hx
      exact ⟨m, List.mem_append_left _ hm, List.mem_append_left _ hn, he⟩
    · obtain ⟨m, hm, hn, he⟩ := h'.pair x y hx
      exact ⟨m, List.mem_append_right _ hm, List.mem_append_right _ hn, he⟩
  · rcases List.mem_append.mp hx with hx | hx
    · obtain ⟨m, hm, hn, he⟩ := h.deletion x hx
      exact ⟨m, List.mem_append_left _ hm, by simp [hn, hd m hm], he⟩
    · obtain ⟨m, hm, hn, he⟩ := h'.deletion x hx
      exact ⟨m, List.mem_append_right _ hm, by simp [hn, hd' m hm], he⟩
  · rcases List.mem_append.mp hy with hy | hy
    · obtain ⟨m, hm, hn, he⟩ := h.addition y hy
      exact ⟨m, List.mem_append_left _ hm, by simpa [hn] using fun hm' => hd' m hm' hm, he⟩
    · obtain ⟨m, hm, hn, he⟩ := h'.addition y hy
      exact ⟨m, List.mem_append_right _ hm, by simpa [hn] using fun hm' => hd m hm' hm, he⟩

theorem mirror (h : Splits a b ms ns es) : Splits b a ns ms (es.map .mirror) := by
  refine ⟨fun x y hx => ?_, fun x hx => ?_, fun y hy => ?_⟩
  · obtain ⟨e, he, hmirror⟩ := List.mem_map.mp hx
    cases e <;> cases hmirror
    obtain ⟨m, hm, hn, hy, hx⟩ := h.pair _ _ he
    exact ⟨m, hn, hm, hx, hy⟩
  · obtain ⟨e, he, hmirror⟩ := List.mem_map.mp hx
    cases e <;> cases hmirror
    exact h.addition _ he
  · obtain ⟨e, he, hmirror⟩ := List.mem_map.mp hy
    cases e <;> cases hmirror
    exact h.deletion _ he

end Splits

/-- What a mark needs to be for its record to have its place in a merge. Ellipses count as files, so
they only have one where folders do not come first. -/
structure Placed (o : SiblingOrder) (known : List String → Prop) (a : Mark → Record) (m : Mark) :
    Prop where
  made : m.Made (a m)
  isName : ∀ n ∈ m.names, Path.IsName n
  dots : m.kind = .ellipsis → o.grouping ≠ .foldersFirst
  known : known m.names

/-- The entries of a folder are shown, in order and each name once. -/
structure Ordered (l : Lister) (key : String → String) (heads : List (Bool × String)) : Prop where
  shown : ∀ head ∈ heads, head.1 = true ∨ l.shows .file = true
  sorted : heads.Pairwise fun a b =>
    (l.options.order.compareHeads key a b).isLE = true ∧ a.2 ≠ b.2

/-- A forest whose records can be merged. -/
structure Fits (l : Lister) (key : String → String) (known : List String → Prop) (a : Mark → Record)
    (names : List String) (f : Forest) : Prop where
  ordered : f.Each (fun _ => Ordered l key) names
  placed : ∀ m ∈ f.marks l names, Placed l.options.order known a m

/-- The first entry of a forest, as a forest of its own, and the other ones. -/
inductive Cut : Forest → Forest → Forest → Prop
  | file (n : String) (rest : Forest) : Cut (.file n rest) (.file n .nil) rest
  | folder (n : String) (inner rest : Forest) : Cut (.folder n inner rest) (.folder n inner .nil) rest

section
variable {l : Lister} {key : String → String} {known : List String → Prop} {a b : Mark → Record}
  {names : List String} {f one rest : Forest}

theorem Cut.marks (h : Cut f one rest) :
    f.marks l names = one.marks l names ++ rest.marks l names := by
  cases h <;> simp [Forest.marks]

theorem Cut.heads (h : Cut f one rest) : ∃ head, one.heads = [head] ∧ f.heads = head :: rest.heads := by
  cases h <;> exact ⟨_, rfl, rfl⟩

theorem Cut.each (h : Cut f one rest) (hf : f.Each (fun _ => Ordered l key) names) :
    one.Each (fun _ => Ordered l key) names ∧ rest.Each (fun _ => Ordered l key) names := by
  obtain ⟨⟨hshown, hsorted⟩, hin⟩ := hf
  have hrest : ∀ {head : Bool × String} {heads : List (Bool × String)}, f.heads = head :: heads →
      Ordered l key heads := by
    intro head heads he
    rw [he] at hshown hsorted
    exact ⟨fun other hm => hshown other (List.mem_cons_of_mem _ hm), (List.pairwise_cons.mp hsorted).2⟩
  cases h with
  | file n rest =>
    exact ⟨⟨⟨by simpa [Forest.heads] using hshown _ List.mem_cons_self, List.pairwise_singleton _ _⟩,
      trivial⟩, hrest rfl, hin⟩
  | folder n inner rest =>
    exact ⟨⟨⟨by simp [Forest.heads], List.pairwise_singleton _ _⟩, hin.1, trivial⟩, hrest rfl, hin.2⟩

theorem Cut.fits (h : Cut f one rest) (hf : Fits l key known a names f) :
    Fits l key known a names one ∧ Fits l key known a names rest := by
  obtain ⟨hone, hrest⟩ := h.each hf.ordered
  exact ⟨⟨hone, fun m hm => hf.placed m (h.marks ▸ List.mem_append_left _ hm)⟩,
    ⟨hrest, fun m hm => hf.placed m (h.marks ▸ List.mem_append_right _ hm)⟩⟩

theorem Cut.sizeOf_rest (h : Cut f one rest) : sizeOf rest < sizeOf f := by
  cases h with
  | file n rest =>
    rw [Forest.file.sizeOf_spec]
    omega
  | folder n inner rest =>
    rw [Forest.folder.sizeOf_spec]
    omega

theorem Cut.sizeOf_inner {n : String} {inner : Forest} (h : Cut f one rest)
    (hone : one = .folder n inner .nil) : sizeOf inner < sizeOf f := by
  cases h with
  | file n rest => cases hone
  | folder n inner rest =>
    obtain rfl := (Forest.folder.inj hone).2.1
    simp only [Forest.folder.sizeOf_spec]
    omega

theorem exists_cut (hf : f ≠ .nil) : ∃ one rest, Cut f one rest := by
  cases f with
  | nil => exact absurd rfl hf
  | file n rest => exact ⟨_, _, .file n rest⟩
  | folder n inner rest => exact ⟨_, _, .folder n inner rest⟩

/-- The record follows an entry behind the given names, as a later one of the same folder or outside
of it. -/
def Follows (o : SiblingOrder) (key : String → String) (names : List String) (head : Bool × String)
    (r : Record) : Prop :=
  ∃ m : Mark, m.Made r ∧ (m.names.length ≤ names.length ∨
    ∃ n, Path.IsName n ∧ m.names = names ++ [n] ∧
      o.compareHeads key head (m.kind.isFolderLike, n) = .lt)

/-- What is behind a folder is behind its marks, its ellipsis included where files come first. -/
theorem compareHeads_mark {o : SiblingOrder} {m : Mark} (hd : m.kind = .ellipsis → o.grouping ≠ .foldersFirst)
    {head other : Bool × String} (hk : head.1 = false ↔ m.kind = .file)
    (h : o.compareHeads key head other = .lt) :
    o.compareHeads key (m.kind.isFolderLike, head.2) other = .lt := by
  by_cases hdots : m.kind = .ellipsis
  · have htrue : head.1 = true := by simpa [hdots] using hk
    have hfile : m.kind.isFolderLike = false := by rw [hdots]; rfl
    rw [hfile]
    exact SiblingOrder.compareHeads_file_lt (hd hdots) (htrue ▸ h)
  · have hfolder : m.kind.isFolderLike = head.1 := by
      cases hh : head.1 with
      | false => rw [hk.mp hh]; rfl
      | true => cases hm : m.kind <;> simp_all [Kind.isFolderLike]
    rwa [hfolder]

theorem compareRecords_of_follows {o : SiblingOrder} (ho : o.ByName key) {head : Bool × String}
    (hone : one.heads = [head]) (hp : ∀ m ∈ one.marks l names, Placed o known a m) {m : Mark}
    (hm : m ∈ one.marks l names) {r : Record} (hr : Follows o key names head r) :
    compareRecords o (a m) r = .lt := by
  obtain ⟨head', hmem, more, hn, hkind⟩ := Forest.mem_marks hm
  obtain rfl : head' = head := by simpa [hone] using hmem
  obtain ⟨m', hmade, hplace⟩ := hr
  have hm' := hp m hm
  have hdeep : m'.names.length < m.names.length → compareRecords o (a m) r = .lt :=
    compareRecords_of_deeper hm'.made hmade
  rcases hplace with houter | ⟨n, hname, hn', hlt⟩
  · exact hdeep (by simp only [hn, List.length_append, List.length_cons]; omega)
  · cases more with
    | cons n' more => exact hdeep (by simp [hn, hn'])
    | nil =>
      have hbefore := compareHeads_mark hm'.dots (hkind.trans (and_iff_left rfl)) hlt
      have hlast : Path.IsName head'.2 := hm'.isName _ (by simp [hn])
      rw [compareRecords_siblings ho hm'.made hmade hn hn' hlast hname rfl]
      exact hbefore

/-- The next record is at most so deep. -/
def Within (depth : Nat) (records : List Record) : Prop :=
  ∀ r ∈ records.head?, ∃ m : Mark, m.Made r ∧ m.names.length ≤ depth

/-- In front of what is not deeper, the records of these marks are merged among themselves. -/
def Merges (c : Settings) (a b : Mark → Record) (depth : Nat) (ms ns : List Mark) : Prop :=
  ∀ old new, Within depth old → Within depth new → ∃ es,
    events c (ms.map a ++ old) (ns.map b ++ new) = es ++ events c old new ∧ Splits a b ms ns es

theorem compareRecords_same {o : SiblingOrder} (ho : o.ByName key) {m : Mark}
    (h : Placed o known a m) (h' : m.Made (b m)) (hk : m.kind.isFolderLike = true ∨ m.names ≠ []) :
    compareRecords o (a m) (b m) = .eq := by
  rcases m.names.eq_nil_or_concat with hn | ⟨before, n, hn⟩
  · have hk : m.kind.isFolderLike = true := hk.resolve_right (absurd hn)
    exact compareRecords_root h.made h' hn hn hk hk
  · rw [List.concat_eq_append] at hn
    have hlast : Path.IsName n := h.isName n (by simp [hn])
    rw [compareRecords_siblings ho h.made h' hn hn hlast hlast rfl]
    exact Std.ReflCmp.compare_self

variable {c : Settings}

theorem merges_marks (ho : c.order.ByName key) {kind : Kind}
    (hk : kind.isFolderLike = true ∨ names ≠ [])
    (ha : ∀ m ∈ l.marks kind names, Placed c.order known a m)
    (hb : ∀ m ∈ l.marks kind names, Placed c.order known b m) (old new : List Record) :
    events c ((l.marks kind names).map a ++ old) ((l.marks kind names).map b ++ new)
      = (l.marks kind names).map (fun m => .pair (a m) (b m)) ++ events c old new := by
  rw [Lister.marks] at ha hb ⊢
  split at ha
  next hs =>
    rw [if_pos hs]
    rw [if_pos hs] at hb
    exact events_pair (compareRecords_same ho (ha _ List.mem_cons_self)
      (hb _ List.mem_cons_self).made hk) old new
  next hs => rw [if_neg hs, List.map_nil, List.map_nil, List.map_nil]; rfl

/-- The marks between the start and the end of a folder: those of its entries, or an ellipsis if it
is too deep. -/
def innerMarks (l : Lister) (names : List String) (ms : List Mark) : List Mark :=
  if l.options.limits names.length then l.marks .ellipsis names else ms

theorem folderMarks_eq (kind : Kind) (ms : List Mark) : l.folderMarks kind names ms
    = l.marks kind names ++ (innerMarks l names ms ++ l.marks .folderEnd names) := by
  rw [Lister.folderMarks, List.append_assoc, innerMarks]

theorem not_mem_innerMarks {kind : Kind} (hk : kind ≠ .ellipsis) {ms : List Mark}
    (hms : ∀ m ∈ ms, names.length < m.names.length) {m : Mark} (h : m ∈ l.marks kind names) :
    m ∉ innerMarks l names ms := by
  rw [innerMarks]
  split
  · exact fun hm => hk ((Lister.kind_of_mem_marks h).symm.trans (Lister.kind_of_mem_marks hm))
  · exact Lister.not_mem_of_mem_marks hms h

theorem within_folderEnd {o : SiblingOrder} (h : ∀ m ∈ l.marks .folderEnd names, Placed o known a m)
    {records : List Record} (hr : Within names.length records) :
    Within names.length ((l.marks .folderEnd names).map a ++ records) := by
  rw [Lister.marks] at h ⊢
  split
  next hs =>
    rw [if_pos hs] at h
    intro r hmem
    obtain rfl := Option.some.inj hmem
    exact ⟨_, (h _ List.mem_cons_self).made, Nat.le_refl _⟩
  next => exact hr

theorem ne_nil_of_limits (h : l.options.limits names.length = true) : names ≠ [] := by
  rintro rfl
  simp [Options.limits] at h
  omega

theorem merges_innerMarks (ho : c.order.ByName key) {ms ns : List Mark}
    (ha : ∀ m ∈ innerMarks l names ms, Placed c.order known a m)
    (hb : ∀ m ∈ innerMarks l names ns, Placed c.order known b m)
    (h : l.options.limits names.length = false → Merges c a b names.length ms ns) :
    Merges c a b names.length (innerMarks l names ms) (innerMarks l names ns) := by
  rw [innerMarks] at ha hb ⊢
  rw [innerMarks]
  cases hl : l.options.limits names.length with
  | true =>
    rw [if_pos hl] at ha hb
    exact fun old new _ _ =>
      ⟨_, merges_marks ho (.inr (ne_nil_of_limits hl)) ha hb old new, .pairs _⟩
  | false => exact h hl

theorem merges_folderMarks (ho : c.order.ByName key) {kind : Kind} (hk : kind.isFolderLike = true)
    (hne : kind ≠ .folderEnd) {ms ns : List Mark} (hms : ∀ m ∈ ms, names.length < m.names.length)
    (hns : ∀ m ∈ ns, names.length < m.names.length)
    (ha : ∀ m ∈ l.folderMarks kind names ms, Placed c.order known a m)
    (hb : ∀ m ∈ l.folderMarks kind names ns, Placed c.order known b m)
    (hin : l.options.limits names.length = false → Merges c a b names.length ms ns) :
    Merges c a b names.length (l.folderMarks kind names ms) (l.folderMarks kind names ns) := by
  intro old new hold hnew
  rw [folderMarks_eq] at ha hb ⊢
  rw [folderMarks_eq]
  rw [List.forall_mem_append, List.forall_mem_append] at ha hb
  obtain ⟨hstart, hinner, hend⟩ := ha
  obtain ⟨hstart', hinner', hend'⟩ := hb
  obtain ⟨es, hes, hsplit⟩ := merges_innerMarks ho hinner hinner' hin _ _ (within_folderEnd hend hold)
    (within_folderEnd hend' hnew)
  have hdots : kind ≠ .ellipsis := by
    rintro rfl
    cases hk
  have hapart : ∀ {ns : List Mark}, (∀ m ∈ ns, names.length < m.names.length) →
      ∀ m ∈ l.marks kind names, m ∉ innerMarks l names ns ++ l.marks .folderEnd names := by
    intro ns hns m hm hm'
    rcases List.mem_append.mp hm' with hm' | hm'
    · exact not_mem_innerMarks hdots hns hm hm'
    · exact hne ((Lister.kind_of_mem_marks hm).symm.trans (Lister.kind_of_mem_marks hm'))
  refine ⟨_, ?_, (Splits.pairs _).append (hsplit.append (Splits.pairs _) ?_ ?_) (hapart hns)
    fun m hm' hm => hapart hms m hm hm'⟩
  · rw [List.map_append, List.map_append, List.map_append, List.map_append, List.append_assoc,
      List.append_assoc, List.append_assoc, List.append_assoc, merges_marks ho (.inl hk) hstart hstart',
      hes, merges_marks ho (.inl rfl) hend hend', List.append_assoc, List.append_assoc]
  · exact fun m hm hm' => not_mem_innerMarks (by decide) hms hm' hm
  · exact fun m hm hm' => not_mem_innerMarks (by decide) hns hm hm'

theorem not_mem_of_before {o : SiblingOrder} {head : Bool × String} {heads : List (Bool × String)}
    (hs : heads.Pairwise fun a b => (o.compareHeads key a b).isLE = true ∧ a.2 ≠ b.2)
    (h : ∀ first ∈ heads.head?, o.compareHeads key head first = .lt) : head ∉ heads := by
  cases heads with
  | nil => exact List.not_mem_nil
  | cons first heads =>
    intro hm
    have hlt : o.compareHeads key head first = .lt := h first rfl
    have hself : o.compareHeads key head head = .eq := Std.ReflCmp.compare_self
    rcases List.mem_cons.mp hm with rfl | hm
    · rw [hself] at hlt
      cases hlt
    · have hle := ((List.pairwise_cons.mp hs).1 head hm).1
      have := TransCmp.lt_of_lt_of_isLE hlt hle
      rw [hself] at this
      cases this

theorem head_marks (names : List String) (hf : l.shows .folder = true) (h : Ordered l key f.heads) :
    f.heads = [] ∧ f.marks l names = [] ∨ ∃ kind n ms, f.marks l names = ⟨kind, names ++ [n]⟩ :: ms ∧
      f.heads.head? = some (Kind.isFolderLike kind, n) := by
  cases f with
  | nil => exact .inl ⟨rfl, rfl⟩
  | file n rest =>
    have hs := (h.shown (false, n) List.mem_cons_self).resolve_left (by simp)
    exact .inr ⟨.file, n, _, by rw [Forest.marks, Lister.marks, if_pos hs]; rfl, rfl⟩
  | folder n inner rest =>
    exact .inr ⟨.folder, n, _, by rw [Forest.marks, Lister.folderMarks, Lister.marks, if_pos hf]; rfl, rfl⟩

/-- What comes next on the other side follows an entry that is before the first one there. -/
theorem follows_of_before {o : SiblingOrder} (hf : l.shows .folder = true)
    (hfit : Fits l key known b names f) {head : Bool × String}
    (h : ∀ first ∈ f.heads.head?, o.compareHeads key head first = .lt) {records : List Record}
    (hr : Within names.length records) :
    ∀ r ∈ ((f.marks l names).map b ++ records).head?, Follows o key names head r := by
  intro r hmem
  rcases head_marks names hf hfit.ordered.1 with ⟨-, hms⟩ | ⟨kind, n, ms, hms, hhead⟩
  · rw [hms] at hmem
    obtain ⟨m, hm, hd⟩ := hr r hmem
    exact ⟨m, hm, .inl hd⟩
  · have hp := hfit.placed ⟨kind, names ++ [n]⟩ (hms ▸ List.mem_cons_self)
    rw [hms] at hmem
    obtain rfl := Option.some.inj hmem
    exact ⟨_, hp.made, .inr ⟨n, hp.isName n (by simp), rfl, h _ hhead⟩⟩

theorem within_marks (hf : l.shows .folder = true) (hfit : Fits l key known a names f)
    {records : List Record} (hr : Within names.length records) :
    Within (names.length + 1) ((f.marks l names).map a ++ records) := by
  intro r hmem
  rcases head_marks names hf hfit.ordered.1 with ⟨-, hms⟩ | ⟨kind, n, ms, hms, -⟩
  · rw [hms] at hmem
    obtain ⟨m, hm, hd⟩ := hr r hmem
    exact ⟨m, hm, Nat.le_succ_of_le hd⟩
  · have hp := hfit.placed ⟨kind, names ++ [n]⟩ (hms ▸ List.mem_cons_self)
    rw [hms] at hmem
    obtain rfl := Option.some.inj hmem
    exact ⟨_, hp.made, by simp⟩

theorem known_head (hf : l.shows .folder = true) (hfit : Fits l key known a names f)
    {head : Bool × String} (h : f.heads.head? = some head) : known (names ++ [head.2]) := by
  rcases head_marks names hf hfit.ordered.1 with ⟨hn, -⟩ | ⟨kind, n, ms, hms, hhead⟩
  · rw [hn] at h
    cases h
  · obtain rfl := Option.some.inj (hhead.symm.trans h)
    exact (hfit.placed ⟨kind, names ++ [n]⟩ (hms ▸ List.mem_cons_self)).known

variable {g gone grest : Forest}

theorem merges_of_before (hc : c.skipChildren = false) (hl : c.order = l.options.order)
    (ho : c.order.ByName key) (hf : l.shows .folder = true) (hcut : Cut f one rest)
    (ha : Fits l key known a names f) (hb : Fits l key known b names g) {head : Bool × String}
    (hone : one.heads = [head])
    (h : ∀ first ∈ g.heads.head?, c.order.compareHeads key head first = .lt)
    (hrest : Merges c a b names.length (rest.marks l names) (g.marks l names)) :
    Merges c a b names.length (f.marks l names) (g.marks l names) := by
  intro old new hold hnew
  obtain ⟨es, hes, hsplit⟩ := hrest old new hold hnew
  have hdisjoint : ∀ m ∈ one.marks l names, m ∉ g.marks l names := fun m hm =>
    Forest.not_mem_marks (fun other hother => by
      obtain rfl : other = head := by simpa [hone] using hother
      exact not_mem_of_before (hl ▸ hb.ordered.1.sorted) h) hm
  refine ⟨_, ?_, hcut.marks ▸ (Splits.deletions _).append hsplit hdisjoint (by simp)⟩
  rw [hcut.marks, List.map_append, List.append_assoc, events_append_old hc, hes, List.append_assoc]
  intro x hx y hy
  obtain ⟨m, hm, rfl⟩ := List.mem_map.mp hx
  exact compareRecords_of_follows ho hone (hl ▸ (hcut.fits ha).1.placed) hm
    (follows_of_before hf hb h hnew y hy)

theorem Merges.mirror {depth : Nat} {ms ns : List Mark} (h : Merges c a b depth ms ns) :
    Merges c b a depth ns ms := by
  intro old new hold hnew
  obtain ⟨es, hes, hsplit⟩ := h new old hnew hold
  refine ⟨es.map .mirror, ?_, hsplit.mirror⟩
  rw [events_mirror, hes, List.map_append, ← events_mirror]

theorem merges_of_same (hf : l.shows .folder = true) (hcut : Cut f one rest) (hgcut : Cut g gone grest)
    (ha : Fits l key known a names f) (hb : Fits l key known b names g) {head : Bool × String}
    (hone : one.heads = [head]) (hgone : gone.heads = [head])
    (hfirst : Merges c a b (names.length + 1) (one.marks l names) (gone.marks l names))
    (hrest : Merges c a b names.length (rest.marks l names) (grest.marks l names)) :
    Merges c a b names.length (f.marks l names) (g.marks l names) := by
  intro old new hold hnew
  obtain ⟨es', hes', hsplit'⟩ := hrest old new hold hnew
  obtain ⟨es, hes, hsplit⟩ := hfirst _ _ (within_marks hf (hcut.fits ha).2 hold)
    (within_marks hf (hgcut.fits hb).2 hnew)
  have hother : ∀ {f one rest : Forest} {a : Mark → Record}, Cut f one rest →
      Fits l key known a names f → one.heads = [head] → head ∉ rest.heads := by
    intro f one rest a hcut hfit hone hm
    obtain ⟨first, hone', hheads⟩ := hcut.heads
    obtain rfl : first = head := by simpa [hone] using hone'.symm
    have hsorted := hfit.ordered.1.sorted
    rw [hheads] at hsorted
    exact ((List.pairwise_cons.mp hsorted).1 first hm).2 rfl
  refine ⟨es ++ es', ?_, hcut.marks ▸ hgcut.marks ▸ hsplit.append hsplit' ?_ ?_⟩
  · rw [hcut.marks, hgcut.marks, List.map_append, List.map_append, List.append_assoc,
      List.append_assoc, hes, hes', List.append_assoc]
  · exact fun m hm => Forest.not_mem_marks (fun other ho => by
      obtain rfl : other = head := by simpa [hone] using ho
      exact hother hgcut hb hgone) hm
  · exact fun m hm hm' => Forest.not_mem_marks (fun other ho => by
      obtain rfl : other = head := by simpa [hgone] using ho
      exact hother hcut ha hone) hm' hm

/-- The same entry on both sides, if the entries of a folder are merged among themselves. -/
theorem merges_first (hl : c.order = l.options.order) (ho : c.order.ByName key) (hcut : Cut f one rest) (hgcut : Cut g gone grest)
    (ha : Fits l key known a names one) (hb : Fits l key known b names gone) {head : Bool × String}
    (hone : one.heads = [head]) (hgone : gone.heads = [head])
    (hin : ∀ n inner ginner, one = .folder n inner .nil → gone = .folder n ginner .nil →
      Fits l key known a (names ++ [n]) inner → Fits l key known b (names ++ [n]) ginner →
      Merges c a b (names ++ [n]).length (inner.marks l (names ++ [n]))
        (ginner.marks l (names ++ [n]))) :
    Merges c a b (names.length + 1) (one.marks l names) (gone.marks l names) := by
  have hp : ∀ m ∈ one.marks l names, Placed c.order known a m := hl ▸ ha.placed
  have hq : ∀ m ∈ gone.marks l names, Placed c.order known b m := hl ▸ hb.placed
  cases hcut with
  | file n rest =>
    obtain rfl := (List.cons.inj hone).1
    cases hgcut with
    | folder m ginner grest => cases (List.cons.inj hgone).1
    | file m grest =>
      obtain rfl : m = n := congrArg Prod.snd (List.cons.inj hgone).1
      simp only [Forest.marks, List.append_nil] at hp hq ⊢
      exact fun old new _ _ => ⟨_, merges_marks ho (.inr (by simp)) hp hq old new, .pairs _⟩
  | folder n inner rest =>
    obtain rfl := (List.cons.inj hone).1
    cases hgcut with
    | file m grest => cases (List.cons.inj hgone).1
    | folder m ginner grest =>
      obtain rfl : m = n := congrArg Prod.snd (List.cons.inj hgone).1
      simp only [Forest.marks, List.append_nil] at hp hq ⊢
      have hdepth : names.length + 1 = (names ++ [m]).length := by simp
      rw [hdepth]
      refine merges_folderMarks ho rfl (by decide) Forest.deeper_of_mem_marks
        Forest.deeper_of_mem_marks hp hq fun hlimit => ?_
      exact hin m inner ginner rfl rfl
        ⟨ha.ordered.2.1, fun mark hm => hl ▸ hp mark (Lister.mem_folderMarks_of_mem hlimit hm)⟩
        ⟨hb.ordered.2.1, fun mark hm => hl ▸ hq mark (Lister.mem_folderMarks_of_mem hlimit hm)⟩

/-- The records of two forests behind the same names are merged among themselves. -/
theorem merges_forests (hc : c.skipChildren = false) (hl : c.order = l.options.order)
    (hg : c.order.grouping ≠ .mixed) (ho : c.order.ByName key) (hf : l.shows .folder = true)
    (hknown : ∀ names n n', known (names ++ [n]) → known (names ++ [n']) → key n = key n' → n = n')
    (names : List String) (f g : Forest) (ha : Fits l key known a names f)
    (hb : Fits l key known b names g) :
    Merges c a b names.length (f.marks l names) (g.marks l names) := by
  by_cases hfn : f = .nil
  · by_cases hgn : g = .nil
    · rw [hfn, hgn]
      exact fun old new _ _ => ⟨[], rfl, .nil⟩
    · obtain ⟨gone, grest, hgcut⟩ := exists_cut hgn
      obtain ⟨head, hgone, -⟩ := hgcut.heads
      exact (merges_of_before hc hl ho hf hgcut hb ha hgone (by simp [hfn, Forest.heads])
        (merges_forests hc hl hg ho hf hknown names f grest ha (hgcut.fits hb).2).mirror).mirror
  · obtain ⟨one, rest, hcut⟩ := exists_cut hfn
    obtain ⟨head, hone, hheads⟩ := hcut.heads
    by_cases hgn : g = .nil
    · exact merges_of_before hc hl ho hf hcut ha hb hone (by simp [hgn, Forest.heads])
        (merges_forests hc hl hg ho hf hknown names rest g (hcut.fits ha).2 hb)
    · obtain ⟨gone, grest, hgcut⟩ := exists_cut hgn
      obtain ⟨ghead, hgone, hgheads⟩ := hgcut.heads
      cases hcmp : c.order.compareHeads key head ghead with
      | lt =>
        exact merges_of_before hc hl ho hf hcut ha hb hone (by simp [hgheads, hcmp])
          (merges_forests hc hl hg ho hf hknown names rest g (hcut.fits ha).2 hb)
      | gt =>
        exact (merges_of_before hc hl ho hf hgcut hb ha hgone
          (by simpa [hheads] using OrientedCmp.gt_iff_lt.mp hcmp)
          (merges_forests hc hl hg ho hf hknown names f grest ha (hgcut.fits hb).2).mirror).mirror
      | eq =>
        obtain ⟨hsame, hkey⟩ := (SiblingOrder.compareHeads_eq hg).mp hcmp
        have hhead : head = ghead := Prod.ext hsame (hknown names _ _
          (known_head hf ha (by rw [hheads]; rfl)) (known_head hf hb (by rw [hgheads]; rfl)) hkey)
        exact merges_of_same hf hcut hgcut ha hb hone (hhead ▸ hgone)
          (merges_first hl ho hcut hgcut (hcut.fits ha).1 (hgcut.fits hb).1 hone (hhead ▸ hgone)
            fun n inner ginner hin hgin hi hj =>
              merges_forests hc hl hg ho hf hknown (names ++ [n]) inner ginner hi hj)
          (merges_forests hc hl hg ho hf hknown names rest grest (hcut.fits ha).2 (hgcut.fits hb).2)
termination_by sizeOf f + sizeOf g
decreasing_by
  · exact Nat.add_lt_add_left hgcut.sizeOf_rest _
  · exact Nat.add_lt_add_right hcut.sizeOf_rest _
  · exact Nat.add_lt_add_right hcut.sizeOf_rest _
  · exact Nat.add_lt_add (hcut.sizeOf_inner hin) (hgcut.sizeOf_inner hgin)
  · exact Nat.add_lt_add hcut.sizeOf_rest hgcut.sizeOf_rest
  · exact Nat.add_lt_add_left hgcut.sizeOf_rest _

end

/-- By what two records are the same entry. -/
def keyOfRecord (r : Record) : Kind × Path := (r.kind, r.path)

/-- The events report each record of two streams once: with the record of the same kind and path on
the other side, or alone if there is none. -/
structure Exact (old new : List Record) (events : List Event) : Prop where
  old_once : events.filterMap Event.old? = old
  new_once : events.filterMap Event.new? = new
  old_nodup : (old.map keyOfRecord).Nodup
  new_nodup : (new.map keyOfRecord).Nodup
  pair_iff : ∀ x y, .pair x y ∈ events ↔ x ∈ old ∧ y ∈ new ∧ keyOfRecord x = keyOfRecord y
  deletion_iff : ∀ x, .deletion x ∈ events ↔ x ∈ old ∧ keyOfRecord x ∉ new.map keyOfRecord
  addition_iff : ∀ y, .addition y ∈ events ↔ y ∈ new ∧ keyOfRecord y ∉ old.map keyOfRecord

structure Walked (o : SiblingOrder) (known : List String → Prop) (a : Mark → Record) (ms : List Mark)
    (records : List Record) : Prop where
  records_eq : records = ms.map a
  nodup : ms.Nodup
  placed : ∀ m ∈ ms, Placed o known a m

theorem Event.pair_or_deletion {events : List Event} {x : Record}
    (h : x ∈ events.filterMap Event.old?) : (∃ y, .pair x y ∈ events) ∨ .deletion x ∈ events := by
  obtain ⟨e, he, hex⟩ := List.mem_filterMap.mp h
  cases e with
  | pair x' y =>
    obtain rfl := Option.some.inj hex
    exact .inl ⟨y, he⟩
  | deletion x' =>
    obtain rfl := Option.some.inj hex
    exact .inr he
  | addition y => cases hex

theorem Event.pair_or_addition {events : List Event} {y : Record}
    (h : y ∈ events.filterMap Event.new?) : (∃ x, .pair x y ∈ events) ∨ .addition y ∈ events := by
  obtain ⟨e, he, hey⟩ := List.mem_filterMap.mp h
  cases e with
  | pair x y' =>
    obtain rfl := Option.some.inj hey
    exact .inl ⟨x, he⟩
  | deletion x => cases hey
  | addition y' =>
    obtain rfl := Option.some.inj hey
    exact .inr he

namespace Walked

variable {o : SiblingOrder} {known : List String → Prop} {a b : Mark → Record} {ms ns : List Mark}
  {old new : List Record}

theorem keyOfRecord_inj (h : Walked o known a ms old) (h' : Walked o known b ns new) {m m' : Mark}
    (hm : m ∈ ms) (hm' : m' ∈ ns) (he : keyOfRecord (a m) = keyOfRecord (b m')) : m = m' := by
  have hp := h.placed m hm
  have hp' := h'.placed m' hm'
  obtain ⟨hk, hn⟩ := Prod.mk.inj he
  rw [hp.made.kind, hp'.made.kind] at hk
  rw [hp.made.path, hp'.made.path, Path.ofSegments_inj hp.isName hp'.isName] at hn
  cases m
  cases m'
  exact congr (congrArg Mark.mk hk) hn

theorem nodup_keys (h : Walked o known a ms old) : (old.map keyOfRecord).Nodup := by
  rw [h.records_eq, List.map_map]
  exact h.nodup.map_on fun m hm m' hm' he => h.keyOfRecord_inj h hm hm' he

theorem key_mem_iff (h : Walked o known a ms old) (h' : Walked o known b ns new) {m : Mark} (hm : m ∈ ms) :
    keyOfRecord (a m) ∈ new.map keyOfRecord ↔ m ∈ ns ∧ keyOfRecord (a m) = keyOfRecord (b m) := by
  rw [h'.records_eq, List.map_map]
  constructor
  · intro hk
    obtain ⟨m', hm', he⟩ := List.mem_map.mp hk
    obtain rfl := h.keyOfRecord_inj h' hm hm' he.symm
    exact ⟨hm', he.symm⟩
  · exact fun hk => List.mem_map.mpr ⟨m, hk.1, hk.2.symm⟩

theorem keyOfRecord_eq (h : Walked o known a ms old) (h' : Walked o known b ns new) {m : Mark}
    (hm : m ∈ ms) (hm' : m ∈ ns) : keyOfRecord (a m) = keyOfRecord (b m) := by
  have hp := (h.placed m hm).made
  have hp' := (h'.placed m hm').made
  rw [keyOfRecord, keyOfRecord, hp.kind, hp.path, hp'.kind, hp'.path]

theorem exact {events : List Event} (h : Walked o known a ms old) (h' : Walked o known b ns new)
    (hs : Splits a b ms ns events) (ho : events.filterMap Event.old? = old)
    (hn : events.filterMap Event.new? = new) : Exact old new events where
  old_once := ho
  new_once := hn
  old_nodup := h.nodup_keys
  new_nodup := h'.nodup_keys
  pair_iff x y := by
    constructor
    · intro he
      obtain ⟨m, hm, hm', rfl, rfl⟩ := hs.pair x y he
      exact ⟨h.records_eq ▸ List.mem_map_of_mem hm, h'.records_eq ▸ List.mem_map_of_mem hm',
        h.keyOfRecord_eq h' hm hm'⟩
    · rintro ⟨hx, hy, hk⟩
      rcases Event.pair_or_deletion (ho ▸ hx) with ⟨y', he⟩ | he
      · obtain ⟨m, hm, hm', rfl, rfl⟩ := hs.pair _ _ he
        have hmem : b m ∈ new := h'.records_eq ▸ List.mem_map_of_mem hm'
        rwa [List.inj_on_of_nodup_map h'.nodup_keys hy hmem
          (hk.symm.trans (h.keyOfRecord_eq h' hm hm'))]
      · obtain ⟨m, hm, hm', rfl⟩ := hs.deletion _ he
        exact absurd ((h.key_mem_iff h' hm).mp (hk ▸ List.mem_map_of_mem hy)).1 hm'
  deletion_iff x := by
    constructor
    · intro he
      obtain ⟨m, hm, hm', rfl⟩ := hs.deletion x he
      exact ⟨h.records_eq ▸ List.mem_map_of_mem hm, fun hk => hm' ((h.key_mem_iff h' hm).mp hk).1⟩
    · rintro ⟨hx, hk⟩
      refine (Event.pair_or_deletion (ho ▸ hx)).resolve_left fun ⟨y, he⟩ => hk ?_
      obtain ⟨m, hm, hm', rfl, rfl⟩ := hs.pair _ _ he
      exact (h.key_mem_iff h' hm).mpr ⟨hm', h.keyOfRecord_eq h' hm hm'⟩
  addition_iff y := by
    constructor
    · intro he
      obtain ⟨m, hm, hm', rfl⟩ := hs.addition y he
      exact ⟨h'.records_eq ▸ List.mem_map_of_mem hm, fun hk => hm' ((h'.key_mem_iff h hm).mp hk).1⟩
    · rintro ⟨hy, hk⟩
      refine (Event.pair_or_addition (hn ▸ hy)).resolve_left fun ⟨x, he⟩ => hk ?_
      obtain ⟨m, hm, hm', rfl, rfl⟩ := hs.pair _ _ he
      exact (h'.key_mem_iff h hm').mpr ⟨hm, (h.keyOfRecord_eq h' hm hm').symm⟩

end Walked

/-- The names in a folder are proper ones, and each comes once. -/
def DistinctNames (_ : Item) (names : List String) : Prop :=
  names.Nodup ∧ ∀ n ∈ names, Path.IsName n

instance (i : Item) (names : List String) : Decidable (DistinctNames i names) :=
  inferInstanceAs (Decidable (_ ∧ _))

/-- No two different names behind the same path are the same without upper and lower case. -/
def NoCaseClash (records : List Record) : Prop :=
  ∀ r ∈ records, ∀ r' ∈ records, ∀ (path : List String) (n n' : String), r.path.names = path ++ [n] →
    r'.path.names = path ++ [n'] → Text.lower n = Text.lower n' → n = n'

theorem ordered_entries {l : Lister} {key : String → String} (hk : l.options.order.ByName key)
    {d : Disk} {base : Path} {names : List String} {heads : List (Bool × String)}
    (hn : ∀ n ∈ names, Path.IsName n)
    (hgood : DistinctNames (.below base names true) (d.entryNames (.below base names true)))
    (hentries : l.entries d (.below base names true)
      = heads.map fun head => .below base (names ++ [head.2]) head.1)
    (hhas : ∀ head ∈ heads, d.Has base names head) :
    Ordered l key heads ∧ ∀ head ∈ heads, Path.IsName head.2 := by
  refine ⟨⟨fun head hm => ?_, SiblingOrder.pairwise_heads hk hn hgood.2 hgood.1 hentries hhas⟩,
    fun head hm => hgood.2 _ (hhas head hm).named⟩
  have hmem : .below base (names ++ [head.2]) head.1 ∈ l.entries d (.below base names true) :=
    hentries ▸ List.mem_map_of_mem hm
  have hlists := Lister.lists_of_mem_entries hmem
  simpa [Lister.lists, Item.below] using (Bool.and_eq_true_iff.mp hlists).2

theorem exists_walked {o : Options} {r : Registry} {l : Lister} (hl : Lister.compile o r = .ok l)
    (hr : r.TellsNames) {key : String → String} (hk : l.options.order.ByName key)
    {d : Disk} {folder base : Path} (hb : folder.absolute? d.cwd = some base)
    (ht : d.Tree DistinctNames (.root base)) {records : List Record}
    (hw : l.walk d folder = .ok (records.map .ok))
    (hdots : ∀ r ∈ records, r.kind = .ellipsis → l.options.order.grouping ≠ .foldersFirst)
    {known : List String → Prop} (hknown : ∀ r ∈ records, known r.path.names) :
    ∃ f : Forest, f.Each (fun _ => Ordered l key) [] ∧
      Walked l.options.order known (l.recordAt d base) (l.folderMarks .root [] (f.marks l [])) records := by
  obtain ⟨f, hs, he⟩ := Disk.Tree.exists_shows (fun _ _ h => h.2)
    (fun names heads hn => ordered_entries hk hn) (List.forall_mem_nil _) ht
  obtain ⟨hrecords, hmade⟩ := walk_eq_marks hb hs hw
  have hnames : ∀ m ∈ l.folderMarks .root [] (f.marks l []), ∀ n ∈ m.names, Path.IsName n := by
    intro m hm
    rcases Lister.mem_folderMarks hm with ⟨hn, -⟩ | hm
    · simp [hn]
    · exact Forest.forall_names (by simp) (he.imp fun _ _ h => h.2) hm
  refine ⟨f, he.imp fun _ _ h => h.1, hrecords, ?_, fun m hm => ?_⟩
  · refine Lister.nodup_folderMarks (by decide) (by decide)
      (Forest.nodup_marks (he.imp fun _ heads h => ?_)) Forest.deeper_of_mem_marks
    exact List.pairwise_map.mpr (h.1.sorted.imp fun h => h.2)
  · have hrecord : l.recordAt d base m ∈ records := hrecords ▸ List.mem_map_of_mem hm
    have made := Mark.made_of_record? hl hr (hnames m hm) (hmade m hm)
    refine ⟨made, hnames m hm, fun hk => hdots _ hrecord (made.kind.trans hk), ?_⟩
    have hk := hknown _ hrecord
    rwa [made.path, Path.names_ofSegments (hnames m hm)] at hk

/-- The records of a walk are for marks of a forest that is as the disk has it. -/
theorem exists_forest_of_walk {l : Lister} {d : Disk} {folder base : Path}
    (hb : folder.absolute? d.cwd = some base) (ht : d.Tree DistinctNames (.root base))
    {records : List Record} (hw : l.walk d folder = .ok (records.map .ok)) :
    ∃ f : Forest, f.Each (fun names heads => ∀ head ∈ heads, d.Has base names head) [] ∧
      ∀ r ∈ records, ∃ m ∈ l.folderMarks .root [] (f.marks l []),
        r.kind = m.kind ∧ r.path = .ofSegments m.names := by
  obtain ⟨f, hs, he⟩ := Disk.Tree.exists_shows (l := l)
    (P := fun names heads => ∀ head ∈ heads, d.Has base names head) (fun _ _ h => h.2)
    (fun _ _ _ _ _ hhas => hhas) (List.forall_mem_nil _) ht
  obtain ⟨hrecords, hmade⟩ := walk_eq_marks hb hs hw
  refine ⟨f, he, fun r hr => ?_⟩
  rw [hrecords] at hr
  obtain ⟨m, hm, rfl⟩ := List.mem_map.mp hr
  obtain ⟨t, p, -, -, hrecord⟩ := Lister.record?_eq_some (hmade m hm)
  exact ⟨m, hm, by rw [hrecord], by rw [hrecord]; rfl⟩

/-- One of the records has a path with the names. -/
def KnownIn (records : List Record) (names : List String) : Prop :=
  ∃ r ∈ records, r.path.names = names

/-- The key of names, and that it tells names in one folder apart. -/
theorem exists_key (order : SiblingOrder) {records : List Record}
    (hk : order.key? = none ∨ order.key? = some SiblingOrder.ignoringCase ∧ NoCaseClash records) :
    ∃ key, order.ByName key ∧ ∀ names n n', KnownIn records (names ++ [n]) →
      KnownIn records (names ++ [n']) → key n = key n' → n = n' := by
  rcases hk with hk | ⟨hk, hclash⟩
  · exact ⟨id, SiblingOrder.byName_id hk, fun _ _ _ _ _ he => he⟩
  · refine ⟨Text.lower, SiblingOrder.byName_lower hk, ?_⟩
    rintro names n n' ⟨r, hr, hn⟩ ⟨r', hr', hn'⟩ he
    exact hclash r hr r' hr' names n n' hn hn' he

theorem shows_of_showFolders {o : Options} {r : Registry} {l : Lister} (hl : Lister.compile o r = .ok l)
    (hd : ∀ kind, LinePattern.given? o kind = none) (hf : o.showFolders = true) {kind : Kind}
    (hk : kind = .folder ∨ kind = .root) : l.shows kind = true := by
  rw [Lister.shows, Lister.isSome_template?_of_usual hl hd]
  rcases hk with rfl | rfl <;> rw [LinePattern.usual?, if_pos hf] <;> rfl

/-- The events of two walks are exact. Ellipses may be among the records where folders do not come
first. -/
theorem exact_events {o : Options} {r : Registry} {l : Lister}
    (hd : ∀ kind, LinePattern.given? o kind = none) (hf : o.showFolders = true)
    (hr : r.TellsNames) (hl : Lister.compile o r = .ok l) (hg : o.grouping ≠ .mixed)
    {d d' : Disk} {folder folder' base base' : Path} (hb : folder.absolute? d.cwd = some base)
    (hb' : folder'.absolute? d'.cwd = some base') (ht : d.Tree DistinctNames (.root base))
    (ht' : d'.Tree DistinctNames (.root base')) {old new : List Record}
    (hw : l.walk d folder = .ok (old.map .ok)) (hw' : l.walk d' folder' = .ok (new.map .ok))
    (hk : o.sortKey? = none ∨ o.sortKey? = some SiblingOrder.ignoringCase ∧ NoCaseClash (old ++ new))
    (hdots : ∀ r ∈ old ++ new, r.kind = .ellipsis → o.grouping ≠ .foldersFirst) (namesOnly : Bool) :
    Exact old new (events (settings l false namesOnly) old new) := by
  have hopt : l.options = o := Lister.options_eq hl
  have hfolder := shows_of_showFolders hl hd hf (.inl rfl)
  obtain ⟨key, hkey, hknown⟩ := exists_key l.options.order (hopt ▸ hk)
  have hold : ∀ r ∈ old, KnownIn (old ++ new) r.path.names :=
    fun r hr => ⟨r, List.mem_append_left _ hr, rfl⟩
  have hnew : ∀ r ∈ new, KnownIn (old ++ new) r.path.names :=
    fun r hr => ⟨r, List.mem_append_right _ hr, rfl⟩
  obtain ⟨f, hordered, hwalked⟩ := exists_walked hl hr hkey hb ht hw
    (fun r hr => hopt ▸ hdots r (List.mem_append_left _ hr)) hold
  obtain ⟨g, hordered', hwalked'⟩ := exists_walked hl hr hkey hb' ht' hw'
    (fun r hr => hopt ▸ hdots r (List.mem_append_right _ hr)) hnew
  have hmerges := merges_folderMarks (c := settings l false namesOnly) hkey rfl (by decide)
    Forest.deeper_of_mem_marks Forest.deeper_of_mem_marks
    hwalked.placed hwalked'.placed fun hl => merges_forests rfl rfl (by rwa [settings, hopt]) hkey
      hfolder hknown [] f g
      ⟨hordered, fun m hm => hwalked.placed m (Lister.mem_folderMarks_of_mem hl hm)⟩
      ⟨hordered', fun m hm => hwalked'.placed m (Lister.mem_folderMarks_of_mem hl hm)⟩
  obtain ⟨es, hes, hsplit⟩ := hmerges [] [] (by simp [Within]) (by simp [Within])
  have hevents : events (settings l false namesOnly) old new = es := by
    simpa [events, ← hwalked.records_eq, ← hwalked'.records_eq] using hes
  refine hwalked.exact hwalked' (hevents ▸ hsplit) ?_ ?_
  · rw [filterMap_old?_events rfl]
  · rw [filterMap_new?_events rfl]

end TreeListing.Comparison
