import Mathlib.Data.List.Nodup
import TreeListing.Proofs.Forest

/-!
The order of the entries of one folder, told by what an entry is called and whether it is a folder.
It is strict where no two names have the same key.
-/
namespace TreeListing.SiblingOrder

open Std (TransCmp OrientedCmp LawfulEqCmp)

instance (grouping : Grouping) : TransCmp (compareGroups grouping) := by
  cases grouping with
  | filesFirst => exact inferInstanceAs (TransCmp fun a b : Bool => Ord.compare a b)
  | foldersFirst => exact inferInstanceAs (TransCmp fun a b : Bool => Ord.compare b a)
  | mixed => exact { eq_swap := rfl, isLE_trans := fun _ _ => rfl }

theorem compareGroups_eq {grouping : Grouping} (hg : grouping ≠ .mixed) {a b : Bool} :
    compareGroups grouping a b = .eq ↔ a = b := by
  cases grouping with
  | filesFirst => cases a <;> cases b <;> decide
  | foldersFirst => cases a <;> cases b <;> decide
  | mixed => exact absurd rfl hg

theorem transCmp_groups {α : Type} (grouping : Grouping) (isFolder : α → Bool) :
    TransCmp fun a b => compareGroups grouping (isFolder a) (isFolder b) where
  eq_swap {a b} := @OrientedCmp.eq_swap _ (compareGroups grouping) _ (isFolder a) (isFolder b)
  isLE_trans h k := @TransCmp.isLE_trans _ (compareGroups grouping) _ _ _ _ h k

instance (o : SiblingOrder) : TransCmp o.compare :=
  have := transCmp_groups o.grouping Item.isFolder
  inferInstanceAs (TransCmp (compareLex
    (fun a b : Item => compareGroups o.grouping a.isFolder b.isFolder) (compareOn o.key)))

theorem isLE_total (o : SiblingOrder) (a b : Item) :
    ((o.compare a b).isLE || (o.compare b a).isLE) = true := by
  have hs : o.compare b a = (o.compare a b).swap := OrientedCmp.eq_swap
  rw [hs]
  cases o.compare a b <;> rfl

theorem pairwise_sort (o : SiblingOrder) (items : List Item) :
    (o.sort items).Pairwise fun a b => (o.compare a b).isLE = true :=
  List.pairwise_mergeSort (fun _ _ _ => TransCmp.isLE_trans) o.isLE_total items

theorem isFolder_of_isLE {o : SiblingOrder} (hg : o.grouping = .filesFirst) {a b : Item}
    (h : (o.compare a b).isLE = true) (ha : a.isFolder = true) : b.isFolder = true := by
  rw [compare, hg, ha] at h
  cases hb : b.isFolder with
  | true => rfl
  | false =>
    rw [hb] at h
    cases h

/-- The key of an item is a matter of its name. -/
def ByName (o : SiblingOrder) (key : String → String) : Prop := ∀ i, o.key i = key i.name

theorem byName_id {o : SiblingOrder} (h : o.key? = none) : o.ByName id := by
  intro i
  rw [key, h]
  rfl

theorem byName_lower {o : SiblingOrder} (h : o.key? = some ignoringCase) : o.ByName Text.lower := by
  intro i
  rw [key, h]
  rfl

/-- The order of siblings that are told by what they are called and whether they are folders. -/
def compareHeads (o : SiblingOrder) (key : String → String) (a b : Bool × String) : Ordering :=
  (compareGroups o.grouping a.1 b.1).then (Ord.compare (key a.2) (key b.2))

instance (o : SiblingOrder) (key : String → String) : TransCmp (o.compareHeads key) :=
  have := transCmp_groups o.grouping (Prod.fst : Bool × String → Bool)
  inferInstanceAs (TransCmp (compareLex
    (fun a b : Bool × String => compareGroups o.grouping a.1 b.1) (compareOn fun a => key a.2)))

theorem compareHeads_eq {o : SiblingOrder} (hg : o.grouping ≠ .mixed) {key : String → String}
    {a b : Bool × String} : o.compareHeads key a b = .eq ↔ a.1 = b.1 ∧ key a.2 = key b.2 := by
  rw [compareHeads, Ordering.then_eq_eq, compareGroups_eq hg, Std.LawfulEqOrd.compare_eq_iff_eq]

/-- Where folders do not come first, what is behind a folder is behind a file of its name. -/
theorem compareHeads_file_lt {o : SiblingOrder} (hg : o.grouping ≠ .foldersFirst) {key : String → String}
    {n : String} {other : Bool × String} (h : o.compareHeads key (true, n) other = .lt) :
    o.compareHeads key (false, n) other = .lt := by
  obtain ⟨isFolder, n'⟩ := other
  rw [compareHeads, Ordering.then_eq_lt] at h ⊢
  cases hf : o.grouping with
  | filesFirst =>
    rw [hf] at h
    cases isFolder with
    | false => exact absurd h (by simp [compareGroups, show Ord.compare true false = .gt from rfl])
    | true => exact .inl rfl
  | foldersFirst => exact absurd hf hg
  | mixed => simpa [hf, compareGroups] using h

/-- Siblings compare by name and group; where their trees start plays no role. -/
theorem compare_below {o : SiblingOrder} {key : String → String} (hk : o.ByName key)
    (base base' : Path) (names : List String) {a b : Bool × String} (ha : Path.IsName a.2)
    (hb : Path.IsName b.2) :
    o.compare (.below base (names ++ [a.2]) a.1) (.below base' (names ++ [b.2]) b.1)
      = o.compareHeads key a b := by
  rw [compare, hk, hk, Item.name_below_concat base names ha, Item.name_below_concat base' names hb]
  rfl

/-- The entries of a folder come in order, each name once. -/
theorem pairwise_heads {l : Lister} {d : Disk} {base : Path} {names : List String}
    {heads : List (Bool × String)} {key : String → String} (hk : l.options.order.ByName key)
    (hn : ∀ n ∈ names, Path.IsName n)
    (hnames : ∀ n ∈ d.entryNames (.below base names true), Path.IsName n)
    (hnodup : (d.entryNames (.below base names true)).Nodup)
    (he : l.entries d (.below base names true)
      = heads.map fun head => .below base (names ++ [head.2]) head.1)
    (hh : ∀ head ∈ heads, d.Has base names head) :
    heads.Pairwise fun a b => (l.options.order.compareHeads key a b).isLE = true ∧ a.2 ≠ b.2 := by
  have hsub := l.entries_sublist d (.below base names true)
  have hname : ∀ head ∈ heads, Path.IsName head.2 := fun head hm => hnames _ (hh head hm).named
  have hchild : (d.entryNames (.below base names true)).map
      (Item.name ∘ (Item.below base names true).child d) = d.entryNames (.below base names true) := by
    refine (List.map_congr_left fun n hm => ?_).trans (List.map_id _)
    exact (congrArg Item.name (Item.child_below d base hn (hnames n hm))).trans
      (Item.name_below_concat base names (hnames n hm) _)
  have hdistinct : ((l.entries d (.below base names true)).map Item.name).Nodup := by
    refine (hsub.map Item.name).nodup (((List.mergeSort_perm _ _).map Item.name).nodup_iff.mpr ?_)
    rw [Item.children_eq]
    split
    · rwa [List.map_map, hchild]
    · exact .nil
  have hsorted := (pairwise_sort l.options.order _).sublist hsub
  rw [he, List.map_map] at hdistinct
  rw [he, List.pairwise_map] at hsorted
  refine (hsorted.and (List.pairwise_map.mp hdistinct)).imp_of_mem fun ha hb h => ?_
  rw [compare_below hk base base names (hname _ ha) (hname _ hb)] at h
  refine ⟨h.1, fun heq => h.2 ?_⟩
  simpa [Item.name_below_concat base names (hname _ ha), Item.name_below_concat base names (hname _ hb)]
    using heq

end TreeListing.SiblingOrder
