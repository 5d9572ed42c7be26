import TreeListing.CommandLine
import TreeListing.Proofs.SiblingSort
import TreeListing.Proofs.ValidDates

/-!
Whether a listing depends on the order in which the system lists a folder. The options have two keys
for siblings, the name and the name in lower case. Names are told apart by the first key, so siblings
are sorted the same in every order of the system; the second ties names that differ in case only, and
siblings that tie stay as the system lists them.
-/
namespace TreeListing

/-- Siblings are told apart by their names, with or without their case. -/
def Options.SortsByName (o : Options) : Prop :=
  o.sortKey? = none ∨ o.sortKey? = some SiblingOrder.ignoringCase

namespace OptionsFile

/-- The setting gives no other key. -/
def Setting.KeepsKeys (s : Setting) : Prop :=
  ∀ value write, s value = .ok write → ∀ o : Options, o.SortsByName → (write o).SortsByName

theorem keepsKeys_setting {α : Type} {read : Yaml.Node → Reading α} {write : α → Options → Options}
    (h : ∀ a o, o.SortsByName → (write a o).SortsByName) : (setting read write).KeepsKeys := by
  intro value write' hw o ho
  obtain ⟨a, -, rfl⟩ := map_eq_ok.mp hw
  exact h a o ho

theorem keepsKeys_settings : ∀ entry ∈ settings, Setting.KeepsKeys entry.2 := by
  have hcase : (setting boolean fun b o =>
      { o with sortKey? := if b then some SiblingOrder.ignoringCase else none }).KeepsKeys := by
    refine keepsKeys_setting fun b o _ => ?_
    cases b with
    | true => exact .inr rfl
    | false => exact .inl rfl
  simp only [settings, List.forall_mem_cons]
  and_intros
  all_goals first
    | exact keepsKeys_setting fun _ _ h => h
    | exact hcase
    | exact List.forall_mem_nil _

variable {o o' : Options}

theorem sortsByName_of_applyEntry {key value : Yaml.Node} (ho : o.SortsByName)
    (h : applyEntry o key value = .ok o') : o'.SortsByName := by
  unfold applyEntry at h
  split at h
  next name =>
    split at h
    next => cases h
    next read hr =>
      obtain ⟨write, hw, rfl⟩ := map_eq_ok.mp (mapError_eq_ok.mp h)
      exact keepsKeys_settings _ (mem_of_lookup hr) value write hw o ho
  next => cases h

/-- Also where an entry is wrong and the rest is left out. -/
theorem sortsByName_applyEntries (entries : List (Yaml.Node × Yaml.Node)) (ho : o.SortsByName) :
    (applyEntries o entries).2.SortsByName := by
  induction entries generalizing o with
  | nil => exact ho
  | cons entry rest ih =>
    rw [applyEntries]
    split
    next h => exact ih (sortsByName_of_applyEntry ho h)
    next => exact ho

theorem sortsByName_apply (text : String) (ho : o.SortsByName) : (apply o text).2.SortsByName := by
  unfold apply
  split
  next => exact ho
  next => exact ho
  next pairs _ _ =>
    have hentries := sortsByName_applyEntries pairs ho
    split
    next h => rwa [h] at hentries
    next h => rwa [h] at hentries
  next => exact ho

theorem sortsByName_of_read {d : Disk} {path : Path} (h : read d path = .ok o) : o.SortsByName := by
  rw [read] at h
  split at h
  next => cases h
  next =>
    split at h
    next => cases h
    next text _ =>
      have happly := sortsByName_apply text (o := {}) (.inl rfl)
      split at h
      next he =>
        obtain rfl := Except.ok.inj h
        rwa [he] at happly
      next => cases h

end OptionsFile

theorem ListingFlags.sortsByName_overlay (f : ListingFlags) {o : Options} (ho : o.SortsByName) :
    (f.overlay o).SortsByName := by
  rw [Options.SortsByName, overlay]
  cases f.ignoreCase with
  | true => exact .inr rfl
  | false => exact ho

theorem ListingFlags.sortsByName_of_apply {f : ListingFlags} {o o' : Options} (ho : o.SortsByName)
    (h : f.apply o = .ok o') : o'.SortsByName := by
  obtain ⟨_, -, h⟩ := bind_eq_ok.mp h
  obtain rfl := Except.ok.inj h
  exact f.sortsByName_overlay ho

/-- Neither a command line nor an options file can give another key. -/
theorem Invocation.sortsByName_of_options {i : Invocation} {d : Disk} {o : Options}
    (h : i.options d = .ok o) : o.SortsByName := by
  rw [options] at h
  split at h
  next =>
    obtain ⟨o', ho', h⟩ := bind_eq_ok.mp h
    exact ListingFlags.sortsByName_of_apply (OptionsFile.sortsByName_of_read ho') h
  next => exact ListingFlags.sortsByName_of_apply (.inl rfl) h

/-- The two are in one group, and their names are the same but for case. -/
def Item.Clashes (grouping : Grouping) (a b : Item) : Prop :=
  (grouping = .mixed ∨ a.isFolder = b.isFolder) ∧ Text.lower a.name = Text.lower b.name

instance (grouping : Grouping) (a b : Item) : Decidable (a.Clashes grouping b) :=
  inferInstanceAs (Decidable (_ ∧ _))

namespace SiblingOrder

variable {o : SiblingOrder} {a b : Item}

theorem rank_eq {grouping : Grouping} {a b : Bool} :
    rank grouping a = rank grouping b ↔ grouping = .mixed ∨ a = b := by
  cases grouping <;> cases a <;> cases b <;> decide

theorem ties_iff_clashes (hk : o.key? = some ignoringCase) :
    o.ties a b = true ↔ a.Clashes o.grouping b := by
  rw [ties_iff, compare_eq, rankedKey, rankedKey, Prod.mk.injEq, rank_eq, byName_lower hk, byName_lower hk]
  rfl

theorem name_eq_of_ties (hk : o.key? = none) (h : o.ties a b = true) : a.name = b.name := by
  rw [ties_iff, compare_eq, rankedKey, rankedKey, Prod.mk.injEq, byName_id hk, byName_id hk] at h
  exact h.2

end SiblingOrder

/-- With options from a command line and an options file, siblings with different names are sorted the
same in every order of the system if case counts. If it does not, two orders lead to the same listing
just if siblings that clash come in the same order in both, so in any case if there are none; and
whatever the orders are, the listings differ at most in places where siblings clash. -/
theorem siblings_sorted_up_to_case {i : Invocation} {d : Disk} {o : Options} (h : i.options d = .ok o)
    {items others : List Item} (hp : items.Perm others) (hn : (items.map Item.name).Nodup) :
    (o.sortKey? = none ∧ o.order.sort items = o.order.sort others) ∨
    (o.sortKey? = some SiblingOrder.ignoringCase ∧
      (o.order.sort items = o.order.sort others ↔
        ∀ a : Item, items.filter (a.Clashes o.grouping ·) = others.filter (a.Clashes o.grouping ·)) ∧
      ((∀ a ∈ items, ∀ b ∈ items, a.Clashes o.grouping b → a = b) →
        o.order.sort items = o.order.sort others) ∧
      List.Forall₂ (Item.Clashes o.grouping) (o.order.sort items) (o.order.sort others)) := by
  rcases Invocation.sortsByName_of_options h with hk | hk
  · refine .inl ⟨hk, SiblingOrder.sort_eq_of_perm hp fun a ha b hb hties => ?_⟩
    exact List.inj_on_of_nodup_map hn ha hb (SiblingOrder.name_eq_of_ties hk hties)
  · have hties : ∀ {a b : Item}, o.order.ties a b = true ↔ a.Clashes o.grouping b :=
      SiblingOrder.ties_iff_clashes hk
    have hfilter : ∀ (a : Item) (items : List Item),
        items.filter (o.order.ties a) = items.filter (a.Clashes o.grouping ·) := by
      intro a items
      exact List.filter_congr fun b _ => Bool.eq_iff_iff.mpr (by rw [hties, decide_eq_true_iff])
    refine .inr ⟨hk, ?_, fun hclash => ?_, ?_⟩
    · simp only [SiblingOrder.sort_eq_sort_iff, hfilter]
    · exact SiblingOrder.sort_eq_of_perm hp fun a ha b hb h => hclash a ha b hb (hties.mp h)
    · exact (SiblingOrder.forall₂_sort hp).imp fun _ _ => hties.mp

/-- The flag alone, and two files that do not clash. -/
theorem siblings_sorted_up_to_case_a_B :
    let i : Invocation := ⟨.warn, none, .list [Invocation.here] .stdout, { ignoreCase := true }⟩
    let o : Options := { sortKey? := some SiblingOrder.ignoringCase }
    let a := Item.below ⟨"/t"⟩ ["a"] false
    let b := Item.below ⟨"/t"⟩ ["B"] false
    (∀ d, i.options d = .ok o) ∧ [b, a].Perm [a, b] ∧ ([b, a].map Item.name).Nodup ∧
      (∀ x ∈ [b, a], ∀ y ∈ [b, a], x.Clashes o.grouping y → x = y) ∧
      o.order.sort [b, a] = o.order.sort [a, b] := by
  intro i o a b
  have ho : ∀ d, i.options d = .ok o := fun d => ListingFlags.apply_of_isValid (by decide)
  have hp : [b, a].Perm [a, b] := List.Perm.swap a b []
  have hn : ([b, a].map Item.name).Nodup := by decide
  have hclash : ∀ x ∈ [b, a], ∀ y ∈ [b, a], x.Clashes o.grouping y → x = y := by decide +kernel
  obtain ⟨hk, -⟩ | ⟨-, -, hsort, -⟩ := siblings_sorted_up_to_case (ho (.oneFile "a")) hp hn
  · cases hk
  · exact ⟨ho, hp, hn, hclash, hsort hclash⟩

/-- Names that differ in case only stay in the order of the system. -/
theorem siblings_left_in_system_order :
    let i : Invocation := ⟨.warn, none, .list [Invocation.here] .stdout, { ignoreCase := true }⟩
    let o : Options := { sortKey? := some SiblingOrder.ignoringCase }
    let lower := Item.below ⟨"/t"⟩ ["a"] false
    let upper := Item.below ⟨"/t"⟩ ["A"] false
    (∀ d, i.options d = .ok o) ∧ [lower, upper].Perm [upper, lower] ∧
      ([lower, upper].map Item.name).Nodup ∧ o.order.sort [lower, upper] = [lower, upper] ∧
      o.order.sort [upper, lower] = [upper, lower] ∧
      o.order.sort [lower, upper] ≠ o.order.sort [upper, lower] := by
  intro i o lower upper
  have hsorted : ∀ items : List Item,
      (items.Pairwise fun a b => (o.order.compare a b).isLE = true) → o.order.sort items = items :=
    fun items h => List.mergeSort_of_pairwise h
  have hlower : o.order.sort [lower, upper] = [lower, upper] := hsorted _ (by decide +kernel)
  have hupper : o.order.sort [upper, lower] = [upper, lower] := hsorted _ (by decide +kernel)
  refine ⟨fun d => ListingFlags.apply_of_isValid (by decide), List.Perm.swap upper lower [], by decide,
    hlower, hupper, ?_⟩
  rw [hlower, hupper]
  decide

end TreeListing
