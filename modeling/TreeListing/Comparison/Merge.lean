import TreeListing.Comparison.Entry
import TreeListing.Signal

/-!
Merging two listings in the same order. Every step looks at the heads of both sides: if they stand
for each other they are reported together, else the one that comes first is missing on the other
side. Every step that reports something takes something from a side, so a merge ends.
-/
namespace TreeListing.Comparison

structure Settings where
  order : SiblingOrder
  /-- an added or deleted folder is reported without what is in it -/
  skipChildren : Bool := false
  /-- what files hold is not looked at -/
  namesOnly : Bool := true

/-- A folder whose content is left out on one side. -/
structure Skipped where
  depth? : Option Nat
  path : Path
deriving DecidableEq

/-- What lies deeper than the folder, and the lines that carry its own path. -/
def Skipped.covers (s : Skipped) (r : Record) : Bool :=
  (match s.depth?, r.depth? with
    | some limit, some depth => decide (limit < depth)
    | _, _ => false)
  || (decide (r.kind = .folderEnd ∨ r.kind = .ellipsis) && r.path.same s.path)

structure Side where
  signals : List Signal
  head? : Option Record := none
  skipping? : Option Skipped := none

namespace Side

def size (s : Side) : Nat := s.signals.length + if s.head?.isSome then 1 else 0

/-- Takes signals until there is a head, a failure or nothing left. -/
def pull (skipping? : Option Skipped) : List Signal → List Warning × Option ListError × Side
  | [] => ([], none, ⟨[], none, skipping?⟩)
  | .warning w :: rest =>
    let pulled := pull skipping? rest
    (w :: pulled.1, pulled.2)
  | .failure e :: rest => ([], some e, ⟨rest, none, skipping?⟩)
  | .record r :: rest =>
    if (skipping?.map (·.covers r)).getD false then pull skipping? rest
    else ([], none, ⟨rest, some r, none⟩)

/-- Sees to it that there is a head if there can be one. -/
def fill (s : Side) : List Warning × Option ListError × Side :=
  match s.head? with
  | some _ => ([], none, s)
  | none => pull s.skipping? s.signals

/-- Takes the head away. The content of a folder goes with it when it is to be skipped. -/
def advance (s : Side) (skipChildren : Bool) (r : Record) : Side :=
  { s with
    head? := none
    skipping? := if skipChildren ∧ r.kind = .folder then some ⟨r.depth?, r.path⟩ else s.skipping? }

theorem pull_size (skipping? : Option Skipped) (signals : List Signal) :
    (pull skipping? signals).2.2.size ≤ signals.length ∧
      ((pull skipping? signals).2.1.isSome → (pull skipping? signals).2.2.size < signals.length) := by
  induction signals with
  | nil => simp [pull, size]
  | cons signal rest ih =>
    cases signal with
    | warning w => simp only [pull, List.length_cons]; omega
    | failure e => simp [pull, size]
    | record r =>
      simp only [pull]
      split
      · simp only [List.length_cons]; omega
      · simp [size]

theorem fill_size (s : Side) :
    s.fill.2.2.size ≤ s.size ∧ (s.fill.2.1.isSome → s.fill.2.2.size < s.size) := by
  unfold fill
  split
  · simp
  next h =>
    have := pull_size s.skipping? s.signals
    simpa [size, h] using this

theorem advance_size {s : Side} {r : Record} (h : s.head? = some r) (skipChildren : Bool) :
    (s.advance skipChildren r).size < s.size := by
  simp [advance, size, h]

end Side

structure State where
  old : Side
  new : Side

namespace State

def ofSignals (old new : List Signal) : State := ⟨⟨old, none, none⟩, ⟨new, none, none⟩⟩

def size (s : State) : Nat := s.old.size + s.new.size

end State

structure Turn where
  warnings : List Warning
  result? : Option (Except ListError Entry)

def deletion (r : Record) : Entry := ⟨.deleted, r.kind, r.path, some r.props, none⟩

def addition (r : Record) : Entry := ⟨.added, r.kind, r.path, none, some r.props⟩

def aligned (c : Settings) (old new : Record) : Entry :=
  let diff :=
    if old.kind = .file ∧ !c.namesOnly ∧ !filesMatch old.props new.props then .changed else .kept
  ⟨diff, new.kind, new.path, some old.props, some new.props⟩

def alignedWarnings (old new : Record) : List Warning :=
  if old.path.same new.path then [] else [.pathsDiffer old.path new.path]

def report (c : Settings) (warnings : List Warning) (old new : Side) : Turn × State :=
  match old.head?, new.head? with
  | none, none => (⟨warnings, none⟩, ⟨old, new⟩)
  | some r, none => (⟨warnings, some (.ok (deletion r))⟩, ⟨old.advance c.skipChildren r, new⟩)
  | none, some r => (⟨warnings, some (.ok (addition r))⟩, ⟨old, new.advance c.skipChildren r⟩)
  | some a, some b =>
    match compareRecords c.order a b with
    | .lt => (⟨warnings, some (.ok (deletion a))⟩, ⟨old.advance c.skipChildren a, new⟩)
    | .gt => (⟨warnings, some (.ok (addition b))⟩, ⟨old, new.advance c.skipChildren b⟩)
    | .eq =>
      (⟨warnings ++ alignedWarnings a b, some (.ok (aligned c a b))⟩,
        ⟨old.advance false a, new.advance false b⟩)

/-- One step of the merge. A failure of the old side is reported before the new side is asked. -/
def step (c : Settings) (s : State) : Turn × State :=
  match s.old.fill with
  | (warnings, some e, old) => (⟨warnings, some (.error e)⟩, ⟨old, s.new⟩)
  | (warnings, none, old) =>
    match s.new.fill with
    | (others, some e, new) => (⟨warnings ++ others, some (.error e)⟩, ⟨old, new⟩)
    | (others, none, new) => report c (warnings ++ others) old new

theorem report_size {c : Settings} {warnings : List Warning} {old new : Side}
    (h : (report c warnings old new).1.result?.isSome) :
    (report c warnings old new).2.size < old.size + new.size := by
  unfold report at h ⊢
  split
  · simp_all
  next a ha _ => have := Side.advance_size ha c.skipChildren; simp only [State.size]; omega
  next b _ hb => have := Side.advance_size hb c.skipChildren; simp only [State.size]; omega
  next a b ha hb =>
    have ha' := Side.advance_size ha
    have hb' := Side.advance_size hb
    split
    · have := ha' c.skipChildren; simp only [State.size]; omega
    · have := hb' c.skipChildren; simp only [State.size]; omega
    · have := ha' false; have := hb' false; simp only [State.size]; omega

/-- A step that reports something leaves less to be taken. -/
theorem step_size {c : Settings} {s : State} (h : (step c s).1.result?.isSome) :
    (step c s).2.size < s.size := by
  have ho := Side.fill_size s.old
  have hn := Side.fill_size s.new
  unfold step at h ⊢
  split
  next e => simp_all [State.size]
  next warnings old heq =>
    rw [heq] at ho h
    split
    next e => simp_all [State.size]; omega
    next others new heq' =>
      rw [heq'] at hn h
      have := report_size h
      simp only [State.size] at this ⊢
      simp only at ho hn
      omega

def run (c : Settings) (s : State) : List Turn :=
  if (step c s).1.result?.isSome then (step c s).1 :: run c (step c s).2 else [(step c s).1]
termination_by s.size
decreasing_by exact step_size ‹_›

def results (turns : List Turn) : List (Except ListError Entry) := turns.filterMap (·.result?)

end TreeListing.Comparison
