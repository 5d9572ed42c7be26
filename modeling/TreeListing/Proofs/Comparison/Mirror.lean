import Mathlib.Data.List.Forall2
import TreeListing.Proofs.Comparison.Events
import TreeListing.Proofs.SiblingOrder

/-!
Swapping the sides of a merge mirrors its events: what was deleted is added, and pairs are turned
round (`events_mirror`). The main statement is `report_mirrored`: so are the entries, unless a file is
paired with something else and its content is looked at.
-/
namespace TreeListing.Comparison

open Std (OrientedCmp)

theorem compareSiblings_swap (o : SiblingOrder) (a b : Record) :
    compareSiblings o b a = (compareSiblings o a b).swap := by
  have hgroups : SiblingOrder.compareGroups o.grouping b.kind.isFolderLike a.kind.isFolderLike
      = (SiblingOrder.compareGroups o.grouping a.kind.isFolderLike b.kind.isFolderLike).swap :=
    OrientedCmp.eq_swap
  rw [compareSiblings, compareSiblings, Ordering.swap_then, hgroups]
  congr 1
  cases a.name? with
  | none => cases b.name? <;> rfl
  | some n =>
    cases b.name? with
    | none => rfl
    | some n' =>
      simp only
      split
      · exact OrientedCmp.eq_swap
      · exact OrientedCmp.eq_swap

theorem compareRecords_swap (o : SiblingOrder) (a b : Record) :
    compareRecords o b a = (compareRecords o a b).swap := by
  rw [compareRecords, compareRecords]
  cases a.depth? with
  | none => cases b.depth? <;> exact compareSiblings_swap o a b
  | some depth =>
    cases b.depth? with
    | none => exact compareSiblings_swap o a b
    | some depth' =>
      simp only
      by_cases hd : depth = depth'
      · subst hd
        simp only [ne_eq, not_true_eq_false, if_false]
        by_cases hroots : depth = 0 ∧ a.kind.isFolderLike = true ∧ b.kind.isFolderLike = true
        · rw [if_pos hroots, if_pos ⟨hroots.1, hroots.2.2, hroots.2.1⟩]
          rfl
        · rw [if_neg hroots, if_neg fun h => hroots ⟨h.1, h.2.2, h.2.1⟩]
          exact compareSiblings_swap o a b
      · rw [if_pos hd, if_pos (Ne.symm hd)]
        exact OrientedCmp.eq_swap

theorem compareRecords_gt_iff_lt {o : SiblingOrder} {a b : Record} :
    compareRecords o a b = .gt ↔ compareRecords o b a = .lt := by
  rw [compareRecords_swap o b a, Ordering.swap_eq_gt]

/-- The event as it is when the sides are swapped. -/
def Event.mirror : Event → Event
  | pair old new => pair new old
  | deletion r => addition r
  | addition r => deletion r

theorem events_mirror (c : Settings) (old new : List Record) :
    events c new old = (events c old new).map Event.mirror := by
  fun_induction events c old new with
  | case1 => rw [events, List.map_nil]
  | case2 a old ih => rw [events, ih]; rfl
  | case3 b new ih => rw [events, ih]; rfl
  | case4 a old b new h ih =>
    rw [events, compareRecords_gt_iff_lt.mpr h]
    exact congrArg _ ih
  | case5 a old b new h ih =>
    rw [events, compareRecords_gt_iff_lt.mp h]
    exact congrArg _ ih
  | case6 a old b new h ih =>
    have hs : compareRecords c.order b a = .eq := by
      rw [compareRecords_swap, h]
      rfl
    rw [events, hs]
    exact congrArg _ ih

theorem shared?_swap (old new : Props) (name : String) :
    shared? new old name = (shared? old new name).map Prod.swap := by
  rw [shared?, shared?]
  cases old.get? name <;> cases new.get? name <;> rfl

theorem filesMatch_comm (old new : Props) : filesMatch new old = filesMatch old new := by
  have hdate : (shared? new old "mdate").or (shared? new old "ndate")
      = ((shared? old new "mdate").or (shared? old new "ndate")).map Prod.swap := by
    rw [shared?_swap, shared?_swap old new]
    cases shared? old new "mdate" <;> rfl
  have hflip : ∀ a b : String, decide (b = a) = decide (a = b) := fun a b => decide_eq_decide.mpr eq_comm
  rw [filesMatch, filesMatch, hdate, shared?_swap old new "hash", shared?_swap old new "size"]
  generalize (shared? old new "mdate").or (shared? old new "ndate") = date?
  cases shared? old new "hash" with
  | some pair => exact hflip _ _
  | none =>
    simp only [Option.map_none]
    congr 1
    · cases shared? old new "size" with
      | none => rfl
      | some pair => exact hflip _ _
    · cases date? with
      | none => rfl
      | some pair => exact hflip _ _

def Diff.mirror : Diff → Diff
  | kept => kept
  | changed => changed
  | added => deleted
  | deleted => added

/-- The entries say the same with the sides exchanged. -/
structure Mirrors (e e' : Entry) : Prop where
  diff : e'.diff = e.diff.mirror
  old? : e'.old? = e.new?
  new? : e'.new? = e.old?
  /-- what only one side has is told alike; a pair is told as its new side has it -/
  alone : e.diff = .added ∨ e.diff = .deleted → e'.kind = e.kind ∧ e'.path = e.path

theorem mirrors_entry {c : Settings} {e : Event}
    (h : ∀ x y, e = .pair x y → c.namesOnly = true ∨ (x.kind = .file ↔ y.kind = .file)) :
    Mirrors (e.entry c) (e.mirror.entry c) := by
  cases e with
  | pair x y =>
    have hdiff : (aligned c y x).diff = (aligned c x y).diff := by
      simp only [aligned, filesMatch_comm x.props y.props]
      rcases h x y rfl with hn | hk
      · simp [hn]
      · simp only [hk]
    have hkept : (aligned c x y).diff = .kept ∨ (aligned c x y).diff = .changed := by
      rw [aligned]
      split
      · exact .inr rfl
      · exact .inl rfl
    refine ⟨hdiff.trans ?_, rfl, rfl, fun halone => ?_⟩
    · rcases hkept with hd | hd <;> rw [Event.entry, hd, Diff.mirror]
    · rcases hkept with hd | hd <;> simp [Event.entry, hd] at halone
  | deletion r => exact ⟨rfl, rfl, rfl, fun _ => ⟨rfl, rfl⟩⟩
  | addition r => exact ⟨rfl, rfl, rfl, fun _ => ⟨rfl, rfl⟩⟩

/-- Two streams of records, sorted or not, are told by the merge with the sides swapped as they are
told by the merge, entry by entry: deletions are additions and additions are deletions, and pairs are
kept or changed as they were. Where content is looked at, files must be paired with files only. -/
theorem report_mirrored (c : Settings) {old new : List Record}
    (h : c.namesOnly = true ∨
      ∀ x y, .pair x y ∈ events c old new → (x.kind = .file ↔ y.kind = .file)) :
    ∃ told told' : List Entry,
      results (run c (.ofSignals (old.map .record) (new.map .record))) = told.map .ok ∧
      results (run c (.ofSignals (new.map .record) (old.map .record))) = told'.map .ok ∧
      List.Forall₂ Mirrors told told' := by
  have hentries : ∀ old new : List Record,
      results (run c (.ofSignals (old.map .record) (new.map .record)))
        = ((events c old new).map (·.entry c)).map .ok := by
    intro old new
    rw [results_run_records, List.map_map]
    rfl
  refine ⟨_, _, hentries old new, hentries new old, ?_⟩
  rw [events_mirror c old new, List.map_map, List.forall₂_map_left_iff, List.forall₂_map_right_iff]
  refine List.forall₂_same.mpr fun e he => mirrors_entry ?_
  rintro x y rfl
  exact h.imp_right fun h => h x y he

/-- A folder that only the old side has is skipped there as a deletion, and as an addition with the
sides swapped. -/
theorem report_mirrored_skipped :
    let c : Settings := ⟨⟨.filesFirst, none⟩, true, false⟩
    let old : List Record := [⟨.file, ⟨"a"⟩, some 1, .ofList [("hash", "00")]⟩,
      ⟨.folder, ⟨"d"⟩, some 1, .empty⟩, ⟨.file, ⟨"d/x"⟩, some 2, .empty⟩]
    let new : List Record := [⟨.file, ⟨"a"⟩, some 1, .ofList [("hash", "ff")]⟩]
    events c old new = [.pair ⟨.file, ⟨"a"⟩, some 1, .ofList [("hash", "00")]⟩
        ⟨.file, ⟨"a"⟩, some 1, .ofList [("hash", "ff")]⟩, .deletion ⟨.folder, ⟨"d"⟩, some 1, .empty⟩] ∧
      (∀ x y, .pair x y ∈ events c old new → (x.kind = .file ↔ y.kind = .file)) ∧
      ∃ told told' : List Entry,
        results (run c (.ofSignals (old.map .record) (new.map .record))) = told.map .ok ∧
        results (run c (.ofSignals (new.map .record) (old.map .record))) = told'.map .ok ∧
        List.Forall₂ Mirrors told told' := by
  intro c old new
  have he : events c old new = [.pair ⟨.file, ⟨"a"⟩, some 1, .ofList [("hash", "00")]⟩
      ⟨.file, ⟨"a"⟩, some 1, .ofList [("hash", "ff")]⟩, .deletion ⟨.folder, ⟨"d"⟩, some 1, .empty⟩] := by
    have hb : behind c ⟨.folder, ⟨"d"⟩, some 1, .empty⟩ [⟨.file, ⟨"d/x"⟩, some 2, .empty⟩] = [] := by
      decide
    rw [events_pair (by decide), events, hb, events]
  have hk : ∀ x y, .pair x y ∈ events c old new → (x.kind = .file ↔ y.kind = .file) := by
    intro x y hm
    rw [he] at hm
    simp only [List.mem_cons, Event.pair.injEq, reduceCtorEq, List.not_mem_nil, or_false] at hm
    obtain ⟨rfl, rfl⟩ := hm
    rfl
  exact ⟨he, hk, report_mirrored c (.inr hk)⟩

end TreeListing.Comparison
