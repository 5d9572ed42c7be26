import TreeListing.Signal
import TreeListing.Text.Utf8

/-!
Reading the text of a listing back into records, line by line. A line is told by its shape and by
what came before: a root is expected first and wherever no folder is open, and an ellipsis only just
behind the start of its folder. Paths are put together from the folders that are open.
-/
namespace TreeListing.Replay

structure State where
  line : Nat := 0
  /-- the folders that hold the next entry -/
  parents : List String := []
  /-- how many folders are open, where every folder has an end -/
  open? : Option Nat
  rootSeen : Bool := false
  /-- the depth, as far as it is known, of the folder that the last record has opened -/
  opened? : Option (Option Nat) := none
deriving DecidableEq

def State.start (l : Lister) : State := { open? := if l.closesFolders then some 1 else none }

variable (l : Lister)

def depthOf (p : Props) : Option Nat := p.depth? l.options.startLevel l.options.indent

def match? (kind : Kind) (text : String) : Option Props :=
  (l.template? kind).bind (·.matchLine? text)

def root? (s : State) (text : String) : Option Props :=
  (match? l .root text).filter fun p =>
    !s.rootSeen || depthOf l p = some 0 || s.open? = some 0

def ellipsis? (s : State) (text : String) : Option Props :=
  s.opened?.bind fun folderDepth? =>
    (match? l .ellipsis text).filter fun p =>
      depthOf l p = none || folderDepth? = none || depthOf l p = folderDepth?

def trimmed (text : String) : String := String.ofList (Text.trimEnd text.toList)

/-- The kind of a line with its properties, and a warning if no template or more than one fits. -/
def classify (s : State) (text : String) : Option (Kind × Props) × List Warning :=
  match root? l s text with
  | some p => (some (.root, p), [])
  | none =>
    match ellipsis? l s text with
    | some p => (some (.ellipsis, p), [])
    | none =>
      match Kind.tried.filterMap fun kind => (match? l kind text).map (kind, ·) with
      | [] => (none, [.unparsed s.line (trimmed text)])
      | [found] => (some found, [])
      | found :: others => (some found, [.ambiguous s.line (trimmed text) found.1 (others.map (·.1))])

/-- The depth of a line that follows from its place among the folders that are open, and how many
are open behind it. -/
def position (kind : Kind) (opened : Nat) : Nat × Nat :=
  match kind with
  | .root => (0, 1)
  | .folder => (opened, opened + 1)
  | .file => (opened, opened)
  | .ellipsis => (opened - 1, opened)
  | .folderEnd => (opened - 1, opened - 1)

def place (s : State) (text : String) (kind : Kind) (p : Props) : List Signal × State :=
  let position? := s.open?.map (position kind)
  let s := { s with
    open? := position?.map (·.2)
    rootSeen := s.rootSeen || kind = .root }
  let depth? := if kind = .root then some 0 else (depthOf l p).or (position?.map (·.1))
  match p.path? kind s.parents depth? l.options.startLevel l.options.indent with
  | none => ([.warning (.pathless s.line (trimmed text))], s)
  | some (path, parents) =>
    ([.record ⟨kind, path, depth?, p⟩],
      { s with parents, opened? := if kind = .root ∨ kind = .folder then some depth? else none })

def step (s : State) (text : String) : List Signal × State :=
  let s := { s with line := s.line + 1 }
  let (found?, warnings) := classify l s text
  match found? with
  | none => (warnings.map .warning, s)
  | some (kind, p) =>
    let (signals, s) := place l s text kind p
    (warnings.map .warning ++ signals, s)

def linesFrom (line : List UInt8) : List UInt8 → List (List UInt8)
  | [] => if line = [] then [] else [line.reverse]
  | b :: rest => if b = 10 then (b :: line).reverse :: linesFrom [] rest else linesFrom (b :: line) rest

/-- A line with the end that the templates expect, put there if it is missing. -/
def terminated (newline text : String) : String :=
  if newline = "" ∨ newline.toList.isSuffixOf text.toList then text else text ++ newline

/-- Reads lines one after the other; bytes that are no text end the reading. -/
def readLines (s : State) : List (List UInt8) → List Signal
  | [] => []
  | bytes :: rest =>
    match Text.decode? bytes with
    | none => [.failure (.readFailed (s.line + 1) .invalidData)]
    | some text =>
      let (signals, s) := step l s (terminated l.options.newline text)
      signals ++ readLines s rest

end Replay

/-- What the bytes of a listing hold. -/
def Lister.replay (l : Lister) (bytes : List UInt8) : List Signal :=
  Replay.readLines l (Replay.State.start l) (Replay.linesFrom [] bytes)

def Lister.replayFile (l : Lister) (d : Disk) (path : Path) : Except ListError (List Signal) :=
  match d.content path with
  | .ok bytes => .ok (l.replay bytes)
  | .error .isADirectory => .ok [.failure (.readFailed 1 .isADirectory)]
  | .error e => .error (.openFailed path e)

end TreeListing
