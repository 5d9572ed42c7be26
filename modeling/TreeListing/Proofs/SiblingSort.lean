import Mathlib.Data.List.Forall2
import TreeListing.Proofs.SiblingOrder

/-!
What sorting the entries of a folder comes to. An entry is sorted by a rank of its group and by its
key, and entries that agree in both stay as the system lists them. So a list of entries is sorted
the same in every order of listing in which such entries come one behind the other in the same way.
-/
namespace TreeListing.SiblingOrder

open Std (TransCmp OrientedCmp ReflCmp)

/-- The place of a group among the groups; all entries are one group where they are mixed. -/
def rank (grouping : Grouping) (isFolder : Bool) : Nat :=
  match grouping with
  | .filesFirst => isFolder.toNat
  | .foldersFirst => (!isFolder).toNat
  | .mixed => 0

theorem compareGroups_eq_compare (grouping : Grouping) (a b : Bool) :
    compareGroups grouping a b = Ord.compare (rank grouping a) (rank grouping b) := by
  cases grouping <;> cases a <;> cases b <;> rfl

/-- All that sorting looks at. -/
def rankedKey (o : SiblingOrder) (i : Item) : Nat × String := (rank o.grouping i.isFolder, o.key i)

def compareKeys (a b : Nat × String) : Ordering := (Ord.compare a.1 b.1).then (Ord.compare a.2 b.2)

variable {o : SiblingOrder}

theorem compare_eq_compareKeys (o : SiblingOrder) (a b : Item) :
    o.compare a b = compareKeys (o.rankedKey a) (o.rankedKey b) := by
  rw [compare, compareGroups_eq_compare]
  rfl

theorem compareKeys_eq {a b : Nat × String} : compareKeys a b = .eq ↔ a = b := by
  rw [compareKeys, Ordering.then_eq_eq, Std.LawfulEqOrd.compare_eq_iff_eq,
    Std.LawfulEqOrd.compare_eq_iff_eq, Prod.ext_iff]

theorem compare_eq {a b : Item} : o.compare a b = .eq ↔ o.rankedKey a = o.rankedKey b := by
  rw [compare_eq_compareKeys, compareKeys_eq]

theorem sort_eq_mergeSort_keys (o : SiblingOrder) (items : List Item) :
    o.sort items
      = items.mergeSort fun a b => (compareKeys (o.rankedKey a) (o.rankedKey b)).isLE := by
  simp only [sort, compare_eq_compareKeys]

theorem perm_sort (o : SiblingOrder) (items : List Item) : (o.sort items).Perm items :=
  List.mergeSort_perm items _

/-- Sorting does not tell the entries apart. -/
def ties (o : SiblingOrder) (a b : Item) : Bool := o.compare a b = .eq

theorem ties_iff {a b : Item} : o.ties a b = true ↔ o.compare a b = .eq := decide_eq_true_iff

theorem ties_self (o : SiblingOrder) (i : Item) : o.ties i i = true :=
  ties_iff.mpr ReflCmp.compare_self

theorem ties_of_isLE {a b : Item} (h : (o.compare a b).isLE = true)
    (h' : (o.compare b a).isLE = true) : o.ties a b = true :=
  ties_iff.mpr (OrientedCmp.isLE_antisymm h h')

section
variable {items others : List Item}

/-- Entries that tie with one another are kept in the order in which they come. -/
theorem filter_sort (o : SiblingOrder) (items : List Item) (i : Item) :
    (o.sort items).filter (o.ties i) = items.filter (o.ties i) := by
  have hperm : ((o.sort items).filter (o.ties i)).Perm (items.filter (o.ties i)) :=
    (o.perm_sort items).filter _
  have hsorted : (items.filter (o.ties i)).Pairwise fun a b => (o.compare a b).isLE = true := by
    refine List.pairwise_of_forall_mem_list fun a ha b hb => ?_
    have hi := compare_eq.mp (ties_iff.mp (List.mem_filter.mp ha).2)
    have hj := compare_eq.mp (ties_iff.mp (List.mem_filter.mp hb).2)
    rw [compare_eq.mpr (hi.symm.trans hj)]
    rfl
  have hsub : (items.filter (o.ties i)).Sublist (o.sort items) :=
    List.sublist_mergeSort (fun _ _ _ => TransCmp.isLE_trans) o.isLE_total hsorted List.filter_sublist
  have hsub' : (items.filter (o.ties i)).Sublist ((o.sort items).filter (o.ties i)) := by
    simpa only [List.filter_filter, Bool.and_self] using hsub.filter (o.ties i)
  exact (hsub'.eq_of_length hperm.length_eq.symm).symm

theorem isLE_head {a b : Item} (h : (a :: items).Pairwise fun a b => (o.compare a b).isLE = true)
    (hb : b ∈ a :: items) : (o.compare a b).isLE = true := by
  rcases List.mem_cons.mp hb with rfl | hb
  · exact ReflCmp.isLE_rfl
  · exact (List.pairwise_cons.mp h).1 b hb

/-- An entry is found among those that it ties with. -/
theorem mem_iff_of_filters (hf : ∀ i, items.filter (o.ties i) = others.filter (o.ties i)) (i : Item) :
    i ∈ items ↔ i ∈ others := by
  have hi := congrArg (i ∈ ·) (hf i)
  simpa [ties_self] using hi

/-- Sorted lists are the same if entries that tie come in the same order. -/
theorem eq_of_filters (h : items.Pairwise fun a b => (o.compare a b).isLE = true)
    (h' : others.Pairwise fun a b => (o.compare a b).isLE = true)
    (hf : ∀ i, items.filter (o.ties i) = others.filter (o.ties i)) : items = others := by
  have hmem := mem_iff_of_filters hf
  induction items generalizing others with
  | nil =>
    symm
    rw [List.eq_nil_iff_forall_not_mem]
    intro i hi
    exact List.not_mem_nil ((hmem i).mpr hi)
  | cons a items ih =>
    cases others with
    | nil => exact absurd ((hmem a).mp List.mem_cons_self) List.not_mem_nil
    | cons b others =>
      have hties : o.ties a b = true :=
        ties_of_isLE (isLE_head h ((hmem b).mpr List.mem_cons_self))
          (isLE_head h' ((hmem a).mp List.mem_cons_self))
      have hheads := hf a
      rw [List.filter_cons_of_pos (o.ties_self a), List.filter_cons_of_pos hties] at hheads
      obtain rfl := (List.cons.inj hheads).1
      have htails : ∀ i, items.filter (o.ties i) = others.filter (o.ties i) := by
        intro i
        have hi := hf i
        rw [List.filter_cons, List.filter_cons] at hi
        split at hi
        · exact (List.cons.inj hi).2
        · exact hi
      rw [ih h.of_cons h'.of_cons htails (mem_iff_of_filters htails)]

/-- Lists are sorted the same just if entries that tie come in the same order. -/
theorem sort_eq_sort_iff :
    o.sort items = o.sort others ↔ ∀ i, items.filter (o.ties i) = others.filter (o.ties i) := by
  constructor
  · intro h i
    rw [← filter_sort o items, ← filter_sort o others, h]
  · intro h
    apply eq_of_filters (o.pairwise_sort items) (o.pairwise_sort others)
    intro i
    rw [filter_sort, filter_sort, h i]

/-- In whatever order entries are listed, sorting brings entries that tie to each place. -/
theorem forall₂_sort (hp : items.Perm others) :
    List.Forall₂ (fun a b => o.ties a b = true) (o.sort items) (o.sort others) := by
  have hkeys : ((o.sort items).map o.rankedKey).Perm ((o.sort others).map o.rankedKey) :=
    (((o.perm_sort items).trans hp).trans (o.perm_sort others).symm).map _
  have hsorted : ∀ items : List Item, ((o.sort items).map o.rankedKey).Pairwise
      fun a b => (compareKeys a b).isLE = true := by
    intro items
    rw [List.pairwise_map]
    simpa only [compare_eq_compareKeys] using o.pairwise_sort items
  have heq : (o.sort items).map o.rankedKey = (o.sort others).map o.rankedKey := by
    refine hkeys.eq_of_pairwise (fun a b ha hb hab hba => ?_) (hsorted items) (hsorted others)
    obtain ⟨i, -, rfl⟩ := List.mem_map.mp ha
    obtain ⟨j, -, rfl⟩ := List.mem_map.mp hb
    rw [← compare_eq_compareKeys] at hab hba
    exact compare_eq.mp (ties_iff.mp (ties_of_isLE hab hba))
  have hforall := List.forall₂_eq_eq_eq.symm ▸ heq
  rw [List.forall₂_map_left_iff, List.forall₂_map_right_iff] at hforall
  exact hforall.imp fun a b h => ties_iff.mpr (compare_eq.mpr h)

/-- Entries of which no two tie are sorted the same in whatever order they are listed. -/
theorem sort_eq_of_perm (hp : items.Perm others)
    (h : ∀ a ∈ items, ∀ b ∈ items, o.ties a b = true → a = b) : o.sort items = o.sort others := by
  refine List.Perm.eq_of_pairwise (fun a b ha hb hab hba => ?_) (o.pairwise_sort items)
    (o.pairwise_sort others) (((o.perm_sort items).trans hp).trans (o.perm_sort others).symm)
  have hb := hp.mem_iff.mpr ((o.perm_sort others).mem_iff.mp hb)
  exact h a ((o.perm_sort items).mem_iff.mp ha) b hb (ties_of_isLE hab hba)

end

end TreeListing.SiblingOrder
