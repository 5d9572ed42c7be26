import TreeListing.Comparison.Merge

/-!
What a merge of two streams of records reports, told by the records themselves. The main statement
is `results_run`: the entries of a merge are those of the events, which are a plain recursion on the
two streams. A folder that is skipped takes a whole run of records with it.
-/
namespace TreeListing.Comparison

/-- What one step reports, with the records that it takes from the sides. -/
inductive Event where
  | pair (old new : Record)
  | deletion (r : Record)
  | addition (r : Record)
deriving DecidableEq

namespace Event

def old? : Event → Option Record
  | pair old _ => some old
  | deletion r => some r
  | addition _ => none

def new? : Event → Option Record
  | pair _ new => some new
  | deletion _ => none
  | addition r => some r

def entry (c : Settings) : Event → Entry
  | pair old new => aligned c old new
  | deletion r => Comparison.deletion r
  | addition r => Comparison.addition r

/-- What a merge answers with the event. -/
def answer (c : Settings) (e : Event) : Except ListError Entry := .ok (e.entry c)

end Event

/-- A folder that is skipped once its record is reported for one side alone. -/
def Settings.skipped? (c : Settings) (r : Record) : Option Skipped :=
  if c.skipChildren ∧ r.kind = .folder then some ⟨r.depth?, r.path⟩ else none

def uncovered (skipping? : Option Skipped) (records : List Record) : List Record :=
  match skipping? with
  | none => records
  | some s => records.dropWhile s.covers

/-- What is left of a stream behind a record that is reported for one side alone. -/
def behind (c : Settings) (r : Record) (rest : List Record) : List Record :=
  uncovered (c.skipped? r) rest

theorem uncovered_length_le (skipping? : Option Skipped) (records : List Record) :
    (uncovered skipping? records).length ≤ records.length := by
  cases skipping? with
  | none => exact Nat.le_refl _
  | some s => exact (List.dropWhile_sublist _).length_le

theorem behind_length_le (c : Settings) (r : Record) (rest : List Record) :
    (behind c r rest).length ≤ rest.length := uncovered_length_le _ rest

theorem behind_of_not_skipChildren {c : Settings} (h : c.skipChildren = false) (r : Record)
    (rest : List Record) : behind c r rest = rest := by
  simp [behind, Settings.skipped?, uncovered, h]

/-- The events of a merge of two streams. -/
def events (c : Settings) : List Record → List Record → List Event
  | [], [] => []
  | a :: old, [] => .deletion a :: events c (behind c a old) []
  | [], b :: new => .addition b :: events c [] (behind c b new)
  | a :: old, b :: new =>
    match compareRecords c.order a b with
    | .lt => .deletion a :: events c (behind c a old) (b :: new)
    | .gt => .addition b :: events c (a :: old) (behind c b new)
    | .eq => .pair a b :: events c old new
termination_by old new => old.length + new.length
decreasing_by all_goals grind [behind_length_le]

namespace Side

/-- A side that has looked at the front of a stream. -/
def filled (skipping? : Option Skipped) : List Record → Side
  | [] => ⟨[], none, skipping?⟩
  | r :: rest => ⟨rest.map .record, some r, none⟩

theorem pull_records (skipping? : Option Skipped) (records : List Record) :
    pull skipping? (records.map .record) = ([], none, filled skipping? (uncovered skipping? records)) := by
  induction records with
  | nil => cases skipping? <;> rfl
  | cons r rest ih =>
    cases skipping? with
    | none => rfl
    | some s =>
      rw [List.map_cons, pull, ih]
      cases h : s.covers r <;> simp [uncovered, filled, h]

/-- The side comes down to a stream of records once it is filled. -/
def Holds (s : Side) (records : List Record) : Prop :=
  ∃ skipping?, s.fill = ([], none, filled skipping? records)

theorem holds_ofRecords (records : List Record) : Holds ⟨records.map .record, none, none⟩ records :=
  ⟨none, pull_records none records⟩

theorem holds_filled (skipping? : Option Skipped) (records : List Record) :
    (filled skipping? records).Holds records := by
  refine ⟨skipping?, ?_⟩
  cases records with
  | nil => rfl
  | cons r rest => rfl

theorem holds_advance (c : Settings) (skipping? : Option Skipped) (r : Record) (rest : List Record) :
    ((filled skipping? (r :: rest)).advance c.skipChildren r).Holds (behind c r rest) := by
  refine ⟨c.skipped? r, ?_⟩
  simpa only [advance, filled, fill, Settings.skipped?, behind] using pull_records (c.skipped? r) rest

theorem holds_advance_false (skipping? : Option Skipped) (r : Record) (rest : List Record) :
    ((filled skipping? (r :: rest)).advance false r).Holds rest := by
  refine ⟨none, ?_⟩
  simp only [advance, filled, fill, Bool.false_eq_true, false_and, if_false]
  exact pull_records none rest

end Side

theorem step_eq_report {c : Settings} {s : State} {old new : List Record} {o n : Option Skipped}
    (ho : s.old.fill = ([], none, Side.filled o old)) (hn : s.new.fill = ([], none, Side.filled n new)) :
    step c s = report c [] (Side.filled o old) (Side.filled n new) := by
  simp only [step, ho, hn, List.append_nil]

theorem results_run_step (c : Settings) (s : State) :
    results (run c s) = match (step c s).1.result? with
      | some r => r :: results (run c (step c s).2)
      | none => [] := by
  rw [run]
  cases h : (step c s).1.result? with
  | none => simp [results, h]
  | some r => simp [results, h]

/-- The entries that a merge reports are those of the events of the two streams. -/
theorem results_run (c : Settings) {s : State} {old new : List Record} (ho : s.old.Holds old)
    (hn : s.new.Holds new) : results (run c s) = (events c old new).map (·.answer c) := by
  fun_induction events c old new generalizing s with
  | case1 =>
    obtain ⟨⟨o, ho⟩, ⟨n, hn⟩⟩ := ho, hn
    rw [results_run_step, step_eq_report ho hn]
    rfl
  | case2 a old ih =>
    obtain ⟨⟨o, ho⟩, ⟨n, hn⟩⟩ := ho, hn
    rw [results_run_step, step_eq_report ho hn]
    exact congrArg _ (ih (Side.holds_advance c o a old) (Side.holds_filled n []))
  | case3 b new ih =>
    obtain ⟨⟨o, ho⟩, ⟨n, hn⟩⟩ := ho, hn
    rw [results_run_step, step_eq_report ho hn]
    exact congrArg _ (ih (Side.holds_filled o []) (Side.holds_advance c n b new))
  | case4 a old b new h ih =>
    obtain ⟨⟨o, ho⟩, ⟨n, hn⟩⟩ := ho, hn
    rw [results_run_step, step_eq_report ho hn]
    simp only [report, Side.filled, h]
    exact congrArg _ (ih (Side.holds_advance c o a old) (Side.holds_filled n (b :: new)))
  | case5 a old b new h ih =>
    obtain ⟨⟨o, ho⟩, ⟨n, hn⟩⟩ := ho, hn
    rw [results_run_step, step_eq_report ho hn]
    simp only [report, Side.filled, h]
    exact congrArg _ (ih (Side.holds_filled o (a :: old)) (Side.holds_advance c n b new))
  | case6 a old b new h ih =>
    obtain ⟨⟨o, ho⟩, ⟨n, hn⟩⟩ := ho, hn
    rw [results_run_step, step_eq_report ho hn]
    simp only [report, Side.filled, h]
    exact congrArg _ (ih (Side.holds_advance_false o a old) (Side.holds_advance_false n b new))

theorem results_run_records (c : Settings) (old new : List Record) :
    results (run c (.ofSignals (old.map .record) (new.map .record)))
      = (events c old new).map (·.answer c) :=
  results_run c (Side.holds_ofRecords old) (Side.holds_ofRecords new)

/-- Where no folder is skipped, the events take all records of a side in order. -/
theorem filterMap_old?_events {c : Settings} (h : c.skipChildren = false) (old new : List Record) :
    (events c old new).filterMap Event.old? = old := by
  fun_induction events c old new with
  | case1 => rfl
  | case2 a old ih => simpa [behind_of_not_skipChildren h, Event.old?] using ih
  | case3 b new ih => rwa [List.filterMap_cons_none rfl]
  | case4 a old b new _ ih => simpa [behind_of_not_skipChildren h, Event.old?] using ih
  | case5 a old b new _ ih => rwa [List.filterMap_cons_none rfl]
  | case6 a old b new _ ih => simpa [Event.old?] using ih

theorem filterMap_new?_events {c : Settings} (h : c.skipChildren = false) (old new : List Record) :
    (events c old new).filterMap Event.new? = new := by
  fun_induction events c old new with
  | case1 => rfl
  | case2 a old ih => rwa [List.filterMap_cons_none rfl]
  | case3 b new ih => simpa [behind_of_not_skipChildren h, Event.new?] using ih
  | case4 a old b new _ ih => rwa [List.filterMap_cons_none rfl]
  | case5 a old b new _ ih => simpa [behind_of_not_skipChildren h, Event.new?] using ih
  | case6 a old b new _ ih => simpa [Event.new?] using ih

theorem events_pair {c : Settings} {x y : Record} (h : compareRecords c.order x y = .eq)
    (old new : List Record) : events c (x :: old) (y :: new) = .pair x y :: events c old new := by
  rw [events, h]

/-- A record that comes before the next one of the other side is on this side alone. -/
theorem events_deletion {c : Settings} (hc : c.skipChildren = false) {x : Record} {new : List Record}
    (h : ∀ y ∈ new.head?, compareRecords c.order x y = .lt) (old : List Record) :
    events c (x :: old) new = .deletion x :: events c old new := by
  cases new with
  | nil => rw [events, behind_of_not_skipChildren hc]
  | cons y new =>
    rw [events, h y rfl]
    simp only [behind_of_not_skipChildren hc]

theorem events_addition {c : Settings} (hc : c.skipChildren = false) {y : Record} {old : List Record}
    (h : ∀ x ∈ old.head?, compareRecords c.order x y = .gt) (new : List Record) :
    events c old (y :: new) = .addition y :: events c old new := by
  cases old with
  | nil => rw [events, behind_of_not_skipChildren hc]
  | cons x old =>
    rw [events, h x rfl]
    simp only [behind_of_not_skipChildren hc]

theorem events_append_old {c : Settings} (hc : c.skipChildren = false) {xs old new : List Record}
    (h : ∀ x ∈ xs, ∀ y ∈ new.head?, compareRecords c.order x y = .lt) :
    events c (xs ++ old) new = xs.map .deletion ++ events c old new := by
  induction xs with
  | nil => rfl
  | cons x xs ih =>
    rw [List.forall_mem_cons] at h
    rw [List.map_cons, List.cons_append, List.cons_append, ← ih h.2, events_deletion hc h.1]

end TreeListing.Comparison
