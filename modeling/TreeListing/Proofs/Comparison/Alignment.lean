import TreeListing.Proofs.Comparison.Events
import TreeListing.Proofs.Path
import TreeListing.Proofs.SiblingOrder

/-!
Two streams that agree record by record are reported pair by pair, in whatever order their records
come. The main statement is `agreeing_streams_paired`.
-/
namespace TreeListing.Comparison

open Std (ReflCmp)

/-- The records are alike in all that a merge looks at before it reports them. -/
structure Agree (o : SiblingOrder) (a b : Record) : Prop where
  kind : a.kind = b.kind
  path : a.path.same b.path = true
  depth : a.depth? = b.depth?
  name : a.name? = b.name?
  /-- another key than these may look at how a path is written -/
  written : o.key? = none ∨ o.key? = some SiblingOrder.ignoringCase ∨ a.path = b.path

variable {o : SiblingOrder} {a b : Record}

theorem keyOf_of_agree (h : Agree o a b) (hk : o.key?.isSome = true) : keyOf o a = keyOf o b := by
  rw [keyOf, keyOf, ← h.kind, ← h.depth]
  rcases h.written with hn | hc | hp
  · simp [hn] at hk
  · simp only [SiblingOrder.key, hc, SiblingOrder.ignoringCase, Item.name, Item.detached,
      Path.fileName?_of_same h.path]
  · rw [hp]

theorem compareSiblings_of_agree (h : Agree o a b) : compareSiblings o a b = .eq := by
  have hgroups : SiblingOrder.compareGroups o.grouping b.kind.isFolderLike b.kind.isFolderLike = .eq :=
    ReflCmp.compare_self
  rw [compareSiblings, h.kind, h.name, hgroups, Ordering.eq_then]
  cases b.name? with
  | none => rfl
  | some n =>
    simp only
    split
    next hk =>
      rw [keyOf_of_agree h hk]
      exact ReflCmp.compare_self
    next => exact ReflCmp.compare_self

theorem compareRecords_of_agree (h : Agree o a b) : compareRecords o a b = .eq := by
  rw [compareRecords, ← h.depth]
  cases a.depth? with
  | none => exact compareSiblings_of_agree h
  | some depth =>
    simp only [ne_eq, not_true_eq_false, if_false]
    split
    · rfl
    · exact compareSiblings_of_agree h

/-- Both sides go on in step, so no folder is ever skipped. -/
theorem events_of_agree {c : Settings} {old new : List Record}
    (h : List.Forall₂ (Agree c.order) old new) : events c old new = List.zipWith .pair old new := by
  induction h with
  | nil => rw [events, List.zipWith_nil_left]
  | cons hab _ ih => rw [events_pair (compareRecords_of_agree hab), ih, List.zipWith_cons_cons]

theorem filesMatch_self (p : Props) : filesMatch p p = true := by
  have hshared : ∀ name, ∀ pair ∈ shared? p p name, pair.1 = pair.2 := by
    intro name pair hp
    rw [shared?] at hp
    split at hp
    next v w hv hw =>
      obtain rfl := Option.some.inj hp
      exact Option.some.inj (hv.symm.trans hw)
    next => cases hp
  have hdate : ∀ pair ∈ (shared? p p "mdate").or (shared? p p "ndate"), pair.1 = pair.2 := by
    intro pair hp
    rcases Option.or_eq_some_iff.mp hp with hp | ⟨-, hp⟩
    · exact hshared _ pair hp
    · exact hshared _ pair hp
  rw [filesMatch]
  split
  next hp => exact decide_eq_true (hshared "hash" _ hp)
  next =>
    refine Bool.and_eq_true_iff.mpr ⟨?_, ?_⟩
    · split
      next hp => exact decide_eq_true (hshared "size" _ hp)
      next => rfl
    · split
      next hp => exact decide_eq_true (hdate _ hp)
      next => rfl

theorem entry_pair (c : Settings) (x y : Record) : (Event.pair x y).entry c =
    ⟨if x.kind = .file ∧ c.namesOnly = false ∧ filesMatch x.props y.props = false
      then .changed else .kept, y.kind, y.path, some x.props, some y.props⟩ := by
  simp [Event.entry, aligned]

theorem results_of_agree {c : Settings} {old new : List Record}
    (h : List.Forall₂ (Agree c.order) old new) :
    results (run c (.ofSignals (old.map .record) (new.map .record)))
      = List.zipWith (fun x y => .ok ((Event.pair x y).entry c)) old new := by
  rw [results_run_records, events_of_agree h, List.map_zipWith]
  rfl

/-- Two streams that agree record by record give one entry for each two records in the same place,
in order. A file is changed if its content is looked at and does not match, and all else is kept; so
a stream compared with itself gives kept entries only. -/
theorem agreeing_streams_paired (c : Settings) {old new : List Record}
    (h : List.Forall₂ (Agree c.order) old new) :
    results (run c (.ofSignals (old.map .record) (new.map .record)))
      = List.zipWith (fun x y => .ok ⟨if x.kind = .file ∧ c.namesOnly = false
          ∧ filesMatch x.props y.props = false then .changed else .kept,
          y.kind, y.path, some x.props, some y.props⟩) old new ∧
    ∀ stream : List Record, results (run c (.ofSignals (stream.map .record) (stream.map .record)))
      = stream.map fun r => .ok ⟨.kept, r.kind, r.path, some r.props, some r.props⟩ := by
  constructor
  · rw [results_of_agree h]
    simp only [entry_pair]
  · intro stream
    have hself : List.Forall₂ (Agree c.order) stream stream :=
      List.forall₂_same.mpr fun r _ => ⟨rfl, decide_eq_true rfl, rfl, rfl, .inr (.inr rfl)⟩
    rw [results_of_agree hself, List.zipWith_self]
    simp [entry_pair, filesMatch_self]

theorem agreeing_streams_paired_unsorted :
    let c : Settings := ⟨⟨.foldersFirst, some SiblingOrder.ignoringCase⟩, true, false⟩
    let old : List Record := [⟨.file, ⟨"z"⟩, some 1, .ofList [("hash", "00")]⟩,
      ⟨.folder, ⟨"d"⟩, some 1, .empty⟩, ⟨.file, ⟨"d//A"⟩, none, .empty⟩]
    let new : List Record := [⟨.file, ⟨"z"⟩, some 1, .ofList [("hash", "ff")]⟩,
      ⟨.folder, ⟨"d"⟩, some 1, .empty⟩, ⟨.file, ⟨"d/A"⟩, none, .ofList [("size", "3")]⟩]
    List.Forall₂ (Agree c.order) old new ∧
      results (run c (.ofSignals (old.map .record) (new.map .record))) = [
        .ok ⟨.changed, .file, ⟨"z"⟩, some (.ofList [("hash", "00")]), some (.ofList [("hash", "ff")])⟩,
        .ok ⟨.kept, .folder, ⟨"d"⟩, some .empty, some .empty⟩,
        .ok ⟨.kept, .file, ⟨"d/A"⟩, some .empty, some (.ofList [("size", "3")])⟩] := by
  intro c old new
  have h : List.Forall₂ (Agree c.order) old new :=
    .cons ⟨rfl, by decide, rfl, by decide, .inr (.inl rfl)⟩
      (.cons ⟨rfl, by decide, rfl, by decide, .inr (.inl rfl)⟩
        (.cons ⟨rfl, by decide, rfl, by decide, .inr (.inl rfl)⟩ .nil))
  exact ⟨h, (agreeing_streams_paired c h).1.trans (by decide)⟩

end TreeListing.Comparison
