import TreeListing.Signal

/-!
Listing a folder. What is left to do is a list of tasks, and a step does the first of them: to enter
a folder puts its entries and its end in front of the other tasks. So entries are only read from the
disk when their folder is entered.

The listing of a folder is its own record, the listings of its entries in order, and its end; a
folder that is too deep has an ellipsis in place of its entries.
-/
namespace TreeListing.Walk

inductive Task where
  /-- a folder that is listed in any case -/
  | enter (i : Item)
  /-- an entry, unless it is left out -/
  | visit (i : Item)
  | ellipsis (i : Item)
  | leave (i : Item)
deriving DecidableEq

abbrev Yield := Option Signal.Outcome

def yieldOf : Except ListError (Option Record) → Yield
  | .ok none => none
  | .ok (some r) => some (.ok r)
  | .error e => some (.error e)

def within (d : Disk) (o : Options) (i : Item) : List Task :=
  (if o.limits i.depth then [.ellipsis i] else (o.order.sort (i.children d)).map .visit) ++ [.leave i]

/-- Enters a folder. If its record fails, nothing of it is listed. -/
def enter (d : Disk) (l : Lister) (i : Item) (rest : List Task) : Yield × List Task :=
  match l.record? d (if i.depth = 0 then .root else .folder) i with
  | .error e => (some (.error e), rest)
  | .ok record? => (record?.map .ok, within d l.options i ++ rest)

def perform (d : Disk) (l : Lister) (task : Task) (rest : List Task) : Yield × List Task :=
  match task with
  | .enter i => enter d l i rest
  | .visit i =>
    if l.options.leavesOut i then (none, rest)
    else if i.isFolder then enter d l i rest
    else (yieldOf (l.record? d .file i), rest)
  | .ellipsis i => (yieldOf (l.record? d .ellipsis i), rest)
  | .leave i => (yieldOf (l.record? d .folderEnd i), rest)

def start (d : Disk) (folder : Path) : Except ListError (List Task) :=
  if d.isFolder folder then
    match folder.absolute? d.cwd with
    | some base => .ok [.enter (.root base)]
    | none => .error (.openFailed folder .invalidInput)
  else .error (.notADirectory folder)

end Walk

/-- What the tasks give, one after the other; `none` when they never end. -/
def Lister.run (l : Lister) (d : Disk) : List Walk.Task → Option (List Signal.Outcome)
  | [] => some []
  | task :: rest =>
    let (outcome?, rest) := Walk.perform d l task rest
    match outcome? with
    | some outcome => do return outcome :: (← l |>.run d rest)
    | none => l |>.run d rest
partial_fixpoint

/-- What a folder has to list; nothing if that never ends. -/
def Lister.walk (l : Lister) (d : Disk) (folder : Path) : Except ListError (List Signal.Outcome) :=
  (Walk.start d folder).map fun tasks => (l.run d tasks).getD []

end TreeListing
