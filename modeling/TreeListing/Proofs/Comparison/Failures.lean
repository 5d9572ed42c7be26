import Mathlib.Data.List.Basic
import TreeListing.Proofs.Comparison.Events

/-!
Failures of a side pass by without a trace in the comparison. What a merge still has to answer is the
failures that wait on each side and the events of the records that are left; every step answers one
of these and leaves the others as they are, wherever it is interrupted. The main statement is
`failures_pass_by`.
-/
namespace TreeListing.Comparison

/-- The last list is put together from the other two, each in its order. -/
inductive Interleaves {α : Type} : List α → List α → List α → Prop
  | nil : Interleaves [] [] []
  | left {a : α} {xs ys zs : List α} (h : Interleaves xs ys zs) : Interleaves (a :: xs) ys (a :: zs)
  | right {a : α} {xs ys zs : List α} (h : Interleaves xs ys zs) : Interleaves xs (a :: ys) (a :: zs)

/-- What a merge answers when it is asked once more after `n` answers. -/
def answer? (c : Settings) (s : State) : Nat → Option (Except ListError Entry)
  | 0 => (step c s).1.result?
  | n + 1 => answer? c (step c s).2 n

def failureOf? : Except ListError Entry → Option ListError
  | .error e => some e
  | .ok _ => none

namespace Side

/-- The records behind the head. -/
def waiting (s : Side) : List Record := s.signals.filterMap Signal.record?

/-- The failures that are still to be reported. -/
def failures (s : Side) : List ListError := s.signals.filterMap Signal.failure?

/-- The records that can still be a head. -/
def left (s : Side) : List Record :=
  match s.head? with
  | some r => r :: s.waiting
  | none => uncovered s.skipping? s.waiting

/-- A folder is skipped only while there is no head. -/
def Settled (s : Side) : Prop := s.head?.isSome → s.skipping? = none

theorem settled_of_head {s : Side} (h : s.head? = none) : s.Settled := fun hs => by simp [h] at hs

/-- The side `t` is what `s` comes to when it is asked for a head, with the failure that came in
between. -/
structure Fills (s : Side) (e? : Option ListError) (t : Side) : Prop where
  settled : t.Settled
  left : t.left = s.left
  failures : s.failures = e?.toList ++ t.failures
  spent : e? = none → t.head? = none → t.signals = []

theorem fills_pull (skipping? : Option Skipped) (signals : List Signal) :
    Fills ⟨signals, none, skipping?⟩ (pull skipping? signals).2.1 (pull skipping? signals).2.2 := by
  induction signals with
  | nil => exact ⟨settled_of_head rfl, rfl, rfl, fun _ _ => rfl⟩
  | cons signal rest ih =>
    cases signal with
    | warning w => exact ⟨ih.settled, ih.left, ih.failures, ih.spent⟩
    | failure e => exact ⟨settled_of_head rfl, rfl, rfl, fun h => by cases h⟩
    | record r =>
      rw [pull]
      cases skipping? with
      | none => exact ⟨fun _ => rfl, rfl, rfl, fun _ h => by cases h⟩
      | some k =>
        cases hk : k.covers r with
        | true =>
          have hl : Side.left ⟨.record r :: rest, none, some k⟩ = Side.left ⟨rest, none, some k⟩ :=
            List.dropWhile_cons_of_pos hk
          simp only [Option.map_some, Option.getD_some, hk, if_true]
          exact ⟨ih.settled, ih.left.trans hl.symm, ih.failures, ih.spent⟩
        | false =>
          have hl : Side.left ⟨.record r :: rest, none, some k⟩ = r :: Side.waiting ⟨rest, none, some k⟩ :=
            List.dropWhile_cons_of_neg (by simp [hk])
          simp only [Option.map_some, Option.getD_some, hk, Bool.false_eq_true, if_false]
          exact ⟨fun _ => rfl, hl.symm, rfl, fun _ h => by cases h⟩

theorem fills_fill {s : Side} (h : s.Settled) : Fills s s.fill.2.1 s.fill.2.2 := by
  obtain ⟨signals, head?, skipping?⟩ := s
  cases head? with
  | some r => exact ⟨h, rfl, rfl, fun _ he => by cases he⟩
  | none => exact fills_pull skipping? signals

theorem left_of_head {s : Side} {r : Record} (h : s.head? = some r) : s.left = r :: s.waiting := by
  rw [left, h]

theorem left_of_spent {s : Side} (h : s.head? = none) (hs : s.signals = []) : s.left = [] := by
  rw [left, h, waiting, hs]
  cases s.skipping? <;> rfl

theorem settled_advance (s : Side) (skip : Bool) (r : Record) : (s.advance skip r).Settled :=
  settled_of_head rfl

theorem left_advance {s : Side} {r : Record} (h : s.Settled) (hr : s.head? = some r) (c : Settings) :
    (s.advance c.skipChildren r).left = behind c r s.waiting := by
  simp only [left, advance, behind, Settings.skipped?, h (by simp [hr]), waiting]

theorem left_advance_false {s : Side} {r : Record} (h : s.Settled) (hr : s.head? = some r) :
    (s.advance false r).left = s.waiting := by
  simp only [left, advance, h (by simp [hr]), waiting]
  rfl

end Side

/-- What a merge still has to answer. -/
structure Due where
  /-- the failures of the old side -/
  old : List ListError
  /-- the failures of the new side -/
  new : List ListError
  events : List Event

namespace State

def due (c : Settings) (s : State) : Due :=
  ⟨s.old.failures, s.new.failures, events c s.old.left s.new.left⟩

def Settled (s : State) : Prop := s.old.Settled ∧ s.new.Settled

theorem settled_ofSignals (old new : List Signal) : (ofSignals old new).Settled :=
  ⟨Side.settled_of_head rfl, Side.settled_of_head rfl⟩

end State

/-- One answer settles one thing that is due, and there is none only when nothing is. -/
inductive Due.Settles (c : Settings) : Due → Option (Except ListError Entry) → Due → Prop
  | oldFailure {e : ListError} {old new : List ListError} {events : List Event} :
      Settles c ⟨e :: old, new, events⟩ (some (.error e)) ⟨old, new, events⟩
  | newFailure {e : ListError} {old new : List ListError} {events : List Event} :
      Settles c ⟨old, e :: new, events⟩ (some (.error e)) ⟨old, new, events⟩
  | event {e : Event} {old new : List ListError} {events : List Event} :
      Settles c ⟨old, new, e :: events⟩ (some (e.answer c)) ⟨old, new, events⟩
  | nothing : Settles c ⟨[], [], []⟩ none ⟨[], [], []⟩

/-- With both sides filled, the report settles an event if there is one. -/
theorem settles_report {c : Settings} {warnings : List Warning} {old new : Side}
    (ho : old.Settled) (hn : new.Settled) (hos : old.head? = none → old.signals = [])
    (hns : new.head? = none → new.signals = []) :
    (State.due c ⟨old, new⟩).Settles c (report c warnings old new).1.result?
        ((report c warnings old new).2.due c) ∧
      (report c warnings old new).2.Settled := by
  rw [report]
  cases ha : old.head? with
  | none =>
    have hleft := Side.left_of_spent ha (hos ha)
    cases hb : new.head? with
    | none =>
      have hdue : State.due c ⟨old, new⟩ = ⟨[], [], []⟩ := by
        simp [State.due, Side.failures, hos ha, hns hb, hleft, Side.left_of_spent hb (hns hb), events]
      simp only [hdue]
      exact ⟨.nothing, ho, hn⟩
    | some b =>
      refine ⟨?_, ho, new.settled_advance _ b⟩
      simp only [State.due, hleft, Side.left_of_head hb, Side.left_advance hn hb]
      rw [events]
      exact .event
  | some a =>
    cases hb : new.head? with
    | none =>
      have hleft := Side.left_of_spent hb (hns hb)
      refine ⟨?_, old.settled_advance _ a, hn⟩
      simp only [State.due, hleft, Side.left_of_head ha, Side.left_advance ho ha]
      rw [events]
      exact .event
    | some b =>
      simp only [State.due, Side.left_of_head ha, Side.left_of_head hb]
      rw [events]
      cases hab : compareRecords c.order a b with
      | lt =>
        refine ⟨?_, old.settled_advance _ a, hn⟩
        simp only [Side.left_advance ho ha, Side.left_of_head hb]
        exact .event
      | gt =>
        refine ⟨?_, ho, new.settled_advance _ b⟩
        simp only [Side.left_advance hn hb, Side.left_of_head ha]
        exact .event
      | eq =>
        refine ⟨?_, old.settled_advance _ a, new.settled_advance _ b⟩
        simp only [Side.left_advance_false ho ha, Side.left_advance_false hn hb]
        exact .event

theorem settles_step {c : Settings} {s : State} (h : s.Settled) :
    (s.due c).Settles c (step c s).1.result? ((step c s).2.due c) ∧ (step c s).2.Settled := by
  have ho := Side.fills_fill h.1
  have hn := Side.fills_fill h.2
  rw [step]
  generalize s.old.fill = filledOld at ho ⊢
  generalize s.new.fill = filledNew at hn ⊢
  obtain ⟨warnings, e?, old⟩ := filledOld
  obtain ⟨others, e'?, new⟩ := filledNew
  cases e? with
  | some e =>
    simp only [State.due, ho.failures, ho.left]
    exact ⟨.oldFailure, ho.settled, h.2⟩
  | none =>
    cases e'? with
    | some e =>
      simp only [State.due, ho.failures, hn.failures, ho.left, hn.left]
      exact ⟨.newFailure, ho.settled, hn.settled⟩
    | none =>
      have hdue : s.due c = State.due c ⟨old, new⟩ := by
        simp only [State.due, ho.failures, hn.failures, ho.left, hn.left, Option.toList_none,
          List.nil_append]
      rw [hdue]
      exact settles_report ho.settled hn.settled (ho.spent rfl) (hn.spent rfl)

/-- A whole merge answers with all events, and with all failures of both sides on the way. -/
theorem settled_run {c : Settings} {s : State} (h : s.Settled) :
    (results (run c s)).filter Except.isOk = (s.due c).events.map (·.answer c) ∧
      Interleaves (s.due c).old (s.due c).new ((results (run c s)).filterMap failureOf?) := by
  fun_induction run c s with
  | case1 s more ih =>
    obtain ⟨settles, settled⟩ := settles_step h
    obtain ⟨oks, failures⟩ := ih settled
    obtain ⟨answer, ha⟩ := Option.isSome_iff_exists.mp more
    have hr : results ((step c s).1 :: run c (step c s).2) = answer :: results (run c (step c s).2) :=
      List.filterMap_cons_some ha
    rw [hr]
    rw [ha] at settles
    generalize s.due c = due, (step c s).2.due c = next at settles oks failures ⊢
    cases settles with
    | oldFailure => exact ⟨oks, .left failures⟩
    | newFailure => exact ⟨oks, .right failures⟩
    | event => exact ⟨congrArg _ oks, failures⟩
  | case2 s done =>
    have ha : (step c s).1.result? = none := by simpa using done
    have hr : results [(step c s).1] = [] := List.filterMap_cons_none ha
    obtain ⟨settles, -⟩ := settles_step (c := c) h
    rw [hr]
    rw [ha] at settles
    generalize s.due c = due, (step c s).2.due c = next at settles ⊢
    cases settles
    exact ⟨rfl, .nil⟩

theorem result?_of_done {c : Settings} {s : State} (h : s.Settled) (hd : (step c s).1.result? = none) :
    (step c (step c s).2).1.result? = none := by
  obtain ⟨settles, settled⟩ := settles_step h
  obtain ⟨again, -⟩ := settles_step (c := c) settled
  rw [hd] at settles
  generalize s.due c = due, (step c s).2.due c = next at settles again
  cases settles
  generalize (step c (step c s).2).1.result? = answer, (step c (step c s).2).2.due c = last at again ⊢
  cases again
  rfl

theorem answer?_eq (c : Settings) {s : State} (h : s.Settled) (n : Nat) :
    answer? c s n = (results (run c s))[n]? := by
  induction n generalizing s with
  | zero =>
    rw [answer?, results_run_step]
    cases (step c s).1.result? <;> rfl
  | succ n ih =>
    rw [answer?, ih (settles_step h).2, results_run_step c s]
    cases hd : (step c s).1.result? with
    | some answer => rfl
    | none =>
      rw [results_run_step, result?_of_done h hd]
      rfl

theorem Interleaves.eq_nil {α : Type} {zs : List α} (h : Interleaves [] [] zs) : zs = [] := by
  cases h
  rfl

/-- The stream without its failures. -/
def withoutFailures (signals : List Signal) : List Signal := signals.filter (·.failure?.isNone)

theorem due_withoutFailures (c : Settings) (old new : List Signal) :
    (State.ofSignals (withoutFailures old) (withoutFailures new)).due c
      = ⟨[], [], ((State.ofSignals old new).due c).events⟩ := by
  have hrecords : ∀ signals, (withoutFailures signals).filterMap Signal.record?
      = signals.filterMap Signal.record? := by
    intro signals
    rw [withoutFailures, List.filterMap_filter]
    refine List.filterMap_congr fun signal _ => ?_
    cases signal <;> rfl
  have hfailures : ∀ signals, (withoutFailures signals).filterMap Signal.failure? = [] := by
    intro signals
    rw [withoutFailures, List.filterMap_filter, List.filterMap_eq_nil_iff]
    intro signal _
    cases signal <;> rfl
  simp only [State.due, State.ofSignals, Side.failures, Side.left, Side.waiting, hrecords, hfailures]

/-- Two streams with failures at any place are compared as they are without them: a merge answers
with the entries of the streams that are left when all failures are taken out, in the same order, and
with each failure once, those of either side in the order of the stream. When it is asked again
behind its last answer, it has none. -/
theorem failures_pass_by (c : Settings) (old new : List Signal) :
    (results (run c (.ofSignals old new))).filter Except.isOk
      = results (run c (.ofSignals (withoutFailures old) (withoutFailures new))) ∧
    Interleaves (old.filterMap Signal.failure?) (new.filterMap Signal.failure?)
      ((results (run c (.ofSignals old new))).filterMap failureOf?) ∧
    ∀ n, answer? c (.ofSignals old new) n = (results (run c (.ofSignals old new)))[n]? := by
  have hs := State.settled_ofSignals old new
  obtain ⟨oks, failures⟩ := settled_run (c := c) hs
  obtain ⟨oks', failures'⟩ := settled_run (c := c)
    (State.settled_ofSignals (withoutFailures old) (withoutFailures new))
  rw [due_withoutFailures] at oks' failures'
  refine ⟨?_, failures, answer?_eq c hs⟩
  rw [oks, ← oks', List.filter_eq_self]
  intro answer ha
  have hn := List.filterMap_eq_nil_iff.mp failures'.eq_nil answer ha
  cases answer with
  | ok entry => rfl
  | error e => cases hn

end TreeListing.Comparison
