import TreeListing.Proofs.LimitedWalk

/-!
Disks that answer alike about an item. A step of a walk is the same on both, and failures differ in nothing
but their cause.
-/
namespace TreeListing

section
variable {ε δ α β : Type}

theorem toOption_map (x : Except ε α) (f : α → β) : (x.map f).toOption = x.toOption.map f := by
  cases x with
  | error e => rfl
  | ok a => rfl

theorem toOption_mapError (x : Except ε α) (f : ε → δ) : (x.mapError f).toOption = x.toOption := by
  cases x with
  | error e => rfl
  | ok a => rfl

theorem toOption_bind (x : Except ε α) (f : α → Except ε β) :
    (x >>= f).toOption = x.toOption.bind fun a => (f a).toOption := by
  cases x with
  | error e => rfl
  | ok a => rfl

theorem toOption_mapM (f : α → Except ε β) (xs : List α) :
    (xs.mapM f).toOption = xs.mapM fun x => (f x).toOption := by
  induction xs with
  | nil => rfl
  | cons x xs ih =>
    rw [List.mapM_cons, List.mapM_cons, toOption_bind]
    cases (f x).toOption with
    | none => rfl
    | some y =>
      simp only [Option.bind_some, toOption_bind, ih]
      rfl

/-- Two results that are alike are the same value or both failures. -/
theorem alike_cases {x y : Except ε α} (h : x.toOption = y.toOption) :
    (∃ a, x = .ok a ∧ y = .ok a) ∨ ∃ e e', x = .error e ∧ y = .error e' := by
  cases x with
  | ok a =>
    cases y with
    | ok b => exact .inl ⟨a, rfl, by rw [Option.some.inj h]⟩
    | error e => cases h
  | error e =>
    cases y with
    | ok b => cases h
    | error e' => exact .inr ⟨e, e', rfl, rfl⟩

end

structure Disk.AlikeAt (d e : Disk) (i : Item) : Prop where
  stat : (e.stat i.abspath).toOption = (d.stat i.abspath).toOption
  names : (e.names i.abspath).toOption = (d.names i.abspath).toOption
  content : (e.content i.abspath).toOption = (d.content i.abspath).toOption

namespace Disk.AlikeAt

variable {d e : Disk} {i : Item} (h : d.AlikeAt e i)
include h

theorem metadata : (i.metadata e).toOption = (i.metadata d).toOption := by
  rw [Item.metadata, Item.metadata, toOption_mapError, toOption_mapError, h.stat]

theorem size : (i.size e).toOption = (i.size d).toOption := by
  rw [Item.size, Item.size, toOption_map, toOption_map, h.metadata]

theorem modified : (i.modified e).toOption = (i.modified d).toOption := by
  rw [Item.modified, Item.modified, toOption_map, toOption_map, h.metadata]

theorem changed : (i.changed e).toOption = (i.changed d).toOption := by
  rw [Item.changed, Item.changed, toOption_map, toOption_map, h.metadata]

theorem hashOf (m : Metadata) : (i.hashOf e m).toOption = (i.hashOf d m).toOption := by
  rw [Item.hashOf, Item.hashOf]
  split
  · rw [toOption_mapError, toOption_mapError, toOption_map, toOption_map, h.content]
  · rfl

theorem contentHash : (i.contentHash e).toOption = (i.contentHash d).toOption := by
  simp only [Item.contentHash, toOption_bind, h.metadata, h.hashOf]

theorem extract (o : Options) (p : Property) : (p.extract e o i).toOption = (p.extract d o i).toOption := by
  cases p with
  | size => simp only [Property.extract, toOption_map, h.size]
  | cdate => simp only [Property.extract, toOption_bind, h.changed]
  | mdate => simp only [Property.extract, toOption_bind, h.modified]
  | ndate => simp only [Property.extract, toOption_bind, h.changed, h.modified]
  | hash => exact h.contentHash
  | _ => rfl

theorem props (t : Template) : (t.props e i).toOption = (t.props d i).toOption := by
  simp only [Template.props, toOption_bind, toOption_mapM, toOption_map, h.extract]

theorem record? (l : Lister) (kind : Kind) :
    (l.record? e kind i).toOption = (l.record? d kind i).toOption := by
  rw [Lister.record?, Lister.record?]
  split
  · rfl
  · rw [toOption_mapError, toOption_mapError, toOption_map, toOption_map, h.props]

theorem entryNames : e.entryNames i = d.entryNames i := by
  rw [Disk.entryNames, Disk.entryNames, h.names]

theorem children (hf : ∀ p, e.isFolder p = d.isFolder p) : i.children e = i.children d := by
  have hchild : i.child e = i.child d := by
    funext n
    rw [Item.child, Item.child, hf]
  rw [Item.children_eq, Item.children_eq, hf, h.entryNames, hchild]

end Disk.AlikeAt

namespace Walk

variable {d e : Disk} {l : Lister}

theorem toOption_yieldOf {x y : Except ListError (Option Record)} (h : x.toOption = y.toOption) :
    (yieldOf x).map Except.toOption = (yieldOf y).map Except.toOption := by
  rcases alike_cases h with ⟨r?, rfl, rfl⟩ | ⟨e, e', rfl, rfl⟩
  · rfl
  · rfl

/-- A step on one disk leaves the tasks that it leaves on the other, and what it gives is alike. -/
def SameStep (d e : Disk) (l : Lister) (task : Task) (rest : List Task) : Prop :=
  (perform e l task rest).2 = (perform d l task rest).2 ∧
    (perform e l task rest).1.map Except.toOption = (perform d l task rest).1.map Except.toOption

theorem SameStep.silent {task : Task} {rest : List Task} (h : SameStep d e l task rest)
    (he : (perform e l task rest).1 = none) : (perform d l task rest).1 = none := by
  have hyield := h.2
  rw [he] at hyield
  exact Option.map_eq_none_iff.mp hyield.symm

theorem SameStep.record {task : Task} {rest : List Task} (h : SameStep d e l task rest) {r : Record}
    (he : (perform e l task rest).1 = some (.ok r)) : (perform d l task rest).1 = some (.ok r) := by
  have hyield := h.2
  rw [he] at hyield
  obtain ⟨outcome, ho, hr⟩ := Option.map_eq_some_iff.mp hyield.symm
  cases outcome with
  | ok r' => rw [ho, Option.some.inj hr]
  | error e' => cases hr

theorem SameStep.failure {task : Task} {rest : List Task} (h : SameStep d e l task rest) {x : ListError}
    (he : (perform e l task rest).1 = some (.error x)) : ∃ y, (perform d l task rest).1 = some (.error y) := by
  have hyield := h.2
  rw [he] at hyield
  obtain ⟨outcome, ho, hr⟩ := Option.map_eq_some_iff.mp hyield.symm
  cases outcome with
  | ok r => cases hr
  | error y => exact ⟨y, ho⟩

theorem enter_alike {i : Item} (h : d.AlikeAt e i) (hf : ∀ p, e.isFolder p = d.isFolder p) (rest : List Task) :
    (enter e l i rest).2 = (enter d l i rest).2 ∧
      (enter e l i rest).1.map Except.toOption = (enter d l i rest).1.map Except.toOption := by
  have hrecord := h.record? l (if i.depth = 0 then .root else .folder)
  rw [enter, enter, within, within, h.children hf]
  rcases alike_cases hrecord with ⟨r?, he, hd⟩ | ⟨e', d', he, hd⟩
  · rw [he, hd]
    exact ⟨rfl, rfl⟩
  · rw [he, hd]
    exact ⟨rfl, rfl⟩

theorem sameStep_of_alike {task : Task} (h : d.AlikeAt e task.item) (hf : ∀ p, e.isFolder p = d.isFolder p)
    (rest : List Task) : SameStep d e l task rest := by
  cases task with
  | enter i => exact enter_alike h hf rest
  | visit i =>
    rw [SameStep, perform, perform]
    split
    · exact ⟨rfl, rfl⟩
    · split
      · exact enter_alike h hf rest
      · exact ⟨rfl, toOption_yieldOf (h.record? l .file)⟩
  | ellipsis i => exact ⟨rfl, toOption_yieldOf (h.record? l .ellipsis)⟩
  | leave i => exact ⟨rfl, toOption_yieldOf (h.record? l .folderEnd)⟩

end Walk

/-- An item that is somewhere below another one, as the disk shows it: itself, or below one of its entries. -/
inductive Item.Within (d : Disk) (i : Item) : Item → Prop
  | self : Within d i i
  | entry {j k : Item} (h : Within d i j) (hk : k ∈ j.children d) : Within d i k

namespace Walk

variable {d : Disk} {l : Lister}

/-- All that is to be done is about items below the same one. -/
def AllWithin (d : Disk) (i : Item) (tasks : List Task) : Prop := ∀ t ∈ tasks, i.Within d t.item

/-- A step goes no further than to the entries of the folder that it is about. -/
theorem AllWithin.perform {i : Item} {task : Task} {rest : List Task} (h : AllWithin d i (task :: rest)) :
    AllWithin d i (perform d l task rest).2 := by
  obtain ⟨htask, hrest⟩ := List.forall_mem_cons.mp h
  rcases (perform_cases task rest).2 with hnext | ⟨-, hnext⟩
  · rw [hnext]
    exact hrest
  · rw [hnext]
    intro t ht
    rcases List.mem_append.mp ht with ht | ht
    · rcases mem_within ht with rfl | rfl | ⟨-, j, hj, rfl⟩
      · exact htask
      · exact htask
      · exact .entry htask hj
    · exact hrest t ht

end Walk

end TreeListing
