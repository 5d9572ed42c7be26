import Mathlib.Order.Compare
import Mathlib.Order.Lattice
import TreeListing.Proofs.Comparison.Exactness

/-!
Merging two streams that are in the order of a key. The merge only ever looks at two heads that have
left nothing of the other side behind. Where it compares such heads as their keys, it reports together
what has one key, and everything else alone.
-/
namespace TreeListing.Comparison

variable {K : Type} {key : Record → K} {old new : List Record}

/-- The events report each record of two streams once: with the record of the same key on the other
side, or alone if there is none. -/
structure Keyed (key : Record → K) (old new : List Record) (events : List Event) : Prop where
  old_once : events.filterMap Event.old? = old
  new_once : events.filterMap Event.new? = new
  old_nodup : (old.map key).Nodup
  new_nodup : (new.map key).Nodup
  pair_iff : ∀ x y, .pair x y ∈ events ↔ x ∈ old ∧ y ∈ new ∧ key x = key y
  deletion_iff : ∀ x, .deletion x ∈ events ↔ x ∈ old ∧ key x ∉ new.map key
  addition_iff : ∀ y, .addition y ∈ events ↔ y ∈ new ∧ key y ∉ old.map key

theorem Exact.keyed {events : List Event} (h : Exact old new events) :
    Keyed keyOfRecord old new events :=
  ⟨h.old_once, h.new_once, h.old_nodup, h.new_nodup, h.pair_iff, h.deletion_iff, h.addition_iff⟩

theorem filter_eq_singleton {α β : Type} [DecidableEq β] {f : α → Option β} {xs : List α}
    (hn : (xs.filterMap f).Nodup) {a : α} (ha : a ∈ xs) {b : β} (hb : f a = some b) :
    xs.filter (fun x => f x = some b) = [a] := by
  induction xs with
  | nil => cases ha
  | cons x xs ih =>
    by_cases hx : f x = some b
    · rw [List.filterMap_cons_some hx, List.nodup_cons] at hn
      have hrest : xs.filter (fun x => f x = some b) = [] := by
        apply List.filter_eq_nil_iff.mpr
        intro y hy he
        exact hn.1 (List.mem_filterMap.mpr ⟨y, hy, of_decide_eq_true he⟩)
      rcases List.mem_cons.mp ha with rfl | ha
      · rw [List.filter_cons_of_pos (by simpa using hx), hrest]
      · exact absurd (List.mem_filterMap.mpr ⟨a, ha, hb⟩) hn.1
    · have hmem : a ∈ xs := (List.mem_cons.mp ha).resolve_left fun he => hx (he ▸ hb)
      have hrest : (xs.filterMap f).Nodup := by
        cases hfx : f x with
        | none => rwa [List.filterMap_cons_none hfx] at hn
        | some other =>
          rw [List.filterMap_cons_some hfx] at hn
          exact (List.nodup_cons.mp hn).2
      rw [List.filter_cons_of_neg (by simpa using hx), ih hrest hmem]

namespace Keyed

variable {events : List Event} (h : Keyed key old new events)
include h

theorem filter_old {e : Event} (he : e ∈ events) {x : Record} (hx : e.old? = some x) :
    events.filter (fun e => e.old? = some x) = [e] :=
  filter_eq_singleton (h.old_once ▸ h.old_nodup.of_map key) he hx

theorem filter_new {e : Event} (he : e ∈ events) {y : Record} (hy : e.new? = some y) :
    events.filter (fun e => e.new? = some y) = [e] :=
  filter_eq_singleton (h.new_once ▸ h.new_nodup.of_map key) he hy

end Keyed

/-- The event is right about the keys of both streams. -/
def Event.IsRight (key : Record → K) (old new : List Record) : Event → Prop
  | pair x y => key x = key y
  | deletion x => key x ∉ new.map key
  | addition y => key y ∉ old.map key

/-- Events that take all records of both sides, and are right about their keys, report them by their
keys. -/
theorem keyed_of_isRight {events : List Event} (hold : events.filterMap Event.old? = old)
    (hnew : events.filterMap Event.new? = new) (ho : (old.map key).Nodup) (hn : (new.map key).Nodup)
    (hright : ∀ e ∈ events, e.IsRight key old new) : Keyed key old new events := by
  have hmem : ∀ {e : Event} {x : Record}, e ∈ events → e.old? = some x → x ∈ old := by
    intro e x he hx
    rw [← hold]
    exact List.mem_filterMap.mpr ⟨e, he, hx⟩
  have hmem' : ∀ {e : Event} {y : Record}, e ∈ events → e.new? = some y → y ∈ new := by
    intro e y he hy
    rw [← hnew]
    exact List.mem_filterMap.mpr ⟨e, he, hy⟩
  refine ⟨hold, hnew, ho, hn, ?_, ?_, ?_⟩
  · intro x y
    constructor
    · exact fun he => ⟨hmem he rfl, hmem' he rfl, hright _ he⟩
    · rintro ⟨hx, hy, hk⟩
      rcases Event.pair_or_deletion (hold.symm ▸ hx) with ⟨y', he⟩ | he
      · have hk' : key x = key y' := hright _ he
        rwa [List.inj_on_of_nodup_map hn hy (hmem' he rfl) (hk.symm.trans hk')]
      · exact absurd (hk ▸ List.mem_map_of_mem hy) (hright _ he)
  · intro x
    constructor
    · exact fun he => ⟨hmem he rfl, hright _ he⟩
    · rintro ⟨hx, hk⟩
      rcases Event.pair_or_deletion (hold.symm ▸ hx) with ⟨y, he⟩ | he
      · have hk' : key x = key y := hright _ he
        exact absurd (hk' ▸ List.mem_map_of_mem (hmem' he rfl)) hk
      · exact he
  · intro y
    constructor
    · exact fun he => ⟨hmem' he rfl, hright _ he⟩
    · rintro ⟨hy, hk⟩
      rcases Event.pair_or_addition (hnew.symm ▸ hy) with ⟨x, he⟩ | he
      · have hk' : key x = key y := hright _ he
        exact absurd (hk' ▸ List.mem_map_of_mem (hmem he rfl)) hk
      · exact he

section
variable [LinearOrder K]

/-- Two heads that have left nothing of the other side behind compare as their keys. -/
def Agrees (o : SiblingOrder) (key : Record → K) (old new : List Record) : Prop :=
  ∀ {us vs as bs : List Record} {a b : Record}, old = us ++ a :: as → new = vs ++ b :: bs →
    (∀ u ∈ us, key u < key b) → (∀ v ∈ vs, key v < key a) →
      compareRecords o a b = Ord.compare (key a) (key b)

/-- A comparison is one of keys if it is so for keys that are apart and for keys that are the same. -/
theorem compareRecords_eq_compare {o : SiblingOrder} {a b : Record}
    (hlt : key a < key b → compareRecords o a b = .lt) (hgt : key b < key a → compareRecords o b a = .lt)
    (heq : key a = key b → compareRecords o a b = .eq) :
    compareRecords o a b = Ord.compare (key a) (key b) := by
  rcases lt_trichotomy (key a) (key b) with h | h | h
  · rw [hlt h, compare_lt_iff_lt.mpr h]
  · rw [heq h, compare_eq_iff_eq.mpr h]
  · rw [compareRecords_gt_iff_lt.mpr (hgt h), compare_gt_iff_gt.mpr h]

variable {c : Settings}

theorem notMem_of_apart {records : List Record} {k : K}
    (h : ∀ r ∈ records, key r < k ∨ k < key r) : k ∉ records.map key := by
  intro hm
  obtain ⟨r, hr, rfl⟩ := List.mem_map.mp hm
  exact (h r hr).elim (lt_irrefl _) (lt_irrefl _)

theorem key_lt_of_mem {records us as : List Record} {a : Record} (hs : records = us ++ a :: as)
    (h : records.Pairwise fun x y => key x < key y) : ∀ a' ∈ as, key a < key a' := by
  rw [hs, List.pairwise_append] at h
  exact (List.pairwise_cons.mp h.2.1).1

/-- The head of a side can be left behind once it comes before all that is left of the other side. -/
theorem forall_mem_concat {us bs : List Record} {a : Record} (hu : ∀ u ∈ us, ∀ b ∈ bs, key u < key b)
    (ha : ∀ b ∈ bs, key a < key b) : ∀ u ∈ us ++ [a], ∀ b ∈ bs, key u < key b :=
  List.forall_mem_append.mpr ⟨hu, List.forall_mem_singleton.mpr ha⟩

theorem deletion_isRight {vs bs : List Record} {a : Record} (hnew : new = vs ++ bs)
    (hv : ∀ v ∈ vs, key v < key a) (hb : ∀ b ∈ bs, key a < key b) :
    (Event.deletion a).IsRight key old new := by
  apply notMem_of_apart
  rw [hnew]
  exact List.forall_mem_append.mpr ⟨fun v hm => .inl (hv v hm), fun b hm => .inr (hb b hm)⟩

theorem addition_isRight {us as : List Record} {b : Record} (hold : old = us ++ as)
    (hu : ∀ u ∈ us, key u < key b) (ha : ∀ a ∈ as, key b < key a) :
    (Event.addition b).IsRight key old new := by
  apply notMem_of_apart
  rw [hold]
  exact List.forall_mem_append.mpr ⟨fun u hm => .inl (hu u hm), fun a hm => .inr (ha a hm)⟩

/-- From anywhere in a merge, with nothing left behind, all events are right. -/
theorem isRight_of_mem_events (hc : c.skipChildren = false) (hagree : Agrees c.order key old new)
    (ho : old.Pairwise fun x y => key x < key y) (hn : new.Pairwise fun x y => key x < key y)
    {us as vs bs : List Record} (hold : old = us ++ as) (hnew : new = vs ++ bs)
    (hu : ∀ u ∈ us, ∀ b ∈ bs, key u < key b) (hv : ∀ v ∈ vs, ∀ a ∈ as, key v < key a) :
    ∀ e ∈ events c as bs, e.IsRight key old new := by
  have hcompare : ∀ {a b : Record} {us vs as bs : List Record}, old = us ++ a :: as → new = vs ++ b :: bs →
      (∀ u ∈ us, ∀ b' ∈ b :: bs, key u < key b') → (∀ v ∈ vs, ∀ a' ∈ a :: as, key v < key a') →
      compareRecords c.order a b = Ord.compare (key a) (key b) := by
    intro a b us vs as bs hold hnew hu hv
    exact hagree hold hnew (fun u hm => hu u hm b List.mem_cons_self) fun v hm => hv v hm a List.mem_cons_self
  have hrest : ∀ {us xs : List Record} {y : Record}, (∀ u ∈ us, ∀ x ∈ y :: xs, key u < key x) →
      ∀ u ∈ us, ∀ x ∈ xs, key u < key x := fun hu u hm x hx => hu u hm x (List.mem_cons_of_mem _ hx)
  fun_induction events c as bs generalizing us vs with
  | case1 => exact List.forall_mem_nil _
  | case2 a as ih =>
    rw [behind_of_not_skipChildren hc] at ih ⊢
    have hright : (Event.deletion a).IsRight key old new :=
      deletion_isRight hnew (fun v hm => hv v hm a List.mem_cons_self) (List.forall_mem_nil _)
    exact List.forall_mem_cons.mpr ⟨hright,
      ih (hold.trans (List.append_cons us a as)) hnew (fun _ _ => List.forall_mem_nil _) (hrest hv)⟩
  | case3 b bs ih =>
    rw [behind_of_not_skipChildren hc] at ih ⊢
    have hright : (Event.addition b).IsRight key old new :=
      addition_isRight hold (fun u hm => hu u hm b List.mem_cons_self) (List.forall_mem_nil _)
    exact List.forall_mem_cons.mpr ⟨hright,
      ih hold (hnew.trans (List.append_cons vs b bs)) (hrest hu) (fun _ _ => List.forall_mem_nil _)⟩
  | case4 a as b bs hcmp ih =>
    rw [behind_of_not_skipChildren hc] at ih ⊢
    rw [hcompare hold hnew hu hv, compare_lt_iff_lt] at hcmp
    have hfirst : ∀ b' ∈ b :: bs, key a < key b' :=
      List.forall_mem_cons.mpr ⟨hcmp, fun b' hm => hcmp.trans (key_lt_of_mem hnew hn b' hm)⟩
    have hright : (Event.deletion a).IsRight key old new :=
      deletion_isRight hnew (fun v hm => hv v hm a List.mem_cons_self) hfirst
    exact List.forall_mem_cons.mpr ⟨hright,
      ih (hold.trans (List.append_cons us a as)) hnew (forall_mem_concat hu hfirst) (hrest hv)⟩
  | case5 a as b bs hcmp ih =>
    rw [behind_of_not_skipChildren hc] at ih ⊢
    rw [hcompare hold hnew hu hv, compare_gt_iff_gt] at hcmp
    have hfirst : ∀ a' ∈ a :: as, key b < key a' :=
      List.forall_mem_cons.mpr ⟨hcmp, fun a' hm => hcmp.trans (key_lt_of_mem hold ho a' hm)⟩
    have hright : (Event.addition b).IsRight key old new :=
      addition_isRight hold (fun u hm => hu u hm b List.mem_cons_self) hfirst
    exact List.forall_mem_cons.mpr ⟨hright,
      ih hold (hnew.trans (List.append_cons vs b bs)) (hrest hu) (forall_mem_concat hv hfirst)⟩
  | case6 a as b bs hcmp ih =>
    rw [hcompare hold hnew hu hv, compare_eq_iff_eq] at hcmp
    have hfirst : ∀ b' ∈ bs, key a < key b' := hcmp ▸ key_lt_of_mem hnew hn
    have hfirst' : ∀ a' ∈ as, key b < key a' := hcmp ▸ key_lt_of_mem hold ho
    exact List.forall_mem_cons.mpr ⟨hcmp, ih (hold.trans (List.append_cons us a as))
      (hnew.trans (List.append_cons vs b bs)) (forall_mem_concat (hrest hu) hfirst)
      (forall_mem_concat (hrest hv) hfirst')⟩

theorem nodup_of_pairwise_lt {records : List Record} (h : records.Pairwise fun x y => key x < key y) :
    (records.map key).Nodup := List.pairwise_map.mpr (h.imp fun hlt => hlt.ne)

/-- A merge of two streams in the order of their keys reports them by their keys. -/
theorem keyed_events (hc : c.skipChildren = false) (hagree : Agrees c.order key old new)
    (ho : old.Pairwise fun x y => key x < key y) (hn : new.Pairwise fun x y => key x < key y) :
    Keyed key old new (events c old new) := by
  apply keyed_of_isRight (filterMap_old?_events hc old new) (filterMap_new?_events hc old new)
    (nodup_of_pairwise_lt ho) (nodup_of_pairwise_lt hn)
  exact isRight_of_mem_events hc hagree ho hn (List.nil_append old).symm (List.nil_append new).symm
    (List.forall_mem_nil _) (List.forall_mem_nil _)

end

end TreeListing.Comparison
