/-!
Reading the words of a command line. Flags may be written long or short, with their value attached
or in the next word; everything else fills the positions of the command. A flag that waits for its
value is settled when the next one begins, so of two mistakes the one that is met first counts.
-/
namespace TreeListing

/-- What is wrong with a command line, or what it asks for instead of a run. -/
inductive UsageError where
  | unknownArgument
  | invalidValue
  | valueValidation
  | missingRequiredArgument
  | argumentConflict
  | tooManyValues
  | invalidSubcommand
  | missingSubcommand
  | displayHelp
  | displayVersion
  | displayHelpOnMissing
deriving DecidableEq

namespace Arguments

inductive Takes where
  | nothing
  | one
  | atMostOne
  /-- one each time, and it can be given again -/
  | many
deriving DecidableEq

abbrev Check := String → Option UsageError

def anything : Check := fun _ => none

structure Flag where
  /-- the name that the values are found under -/
  name : String
  long : List String
  short? : Option Char := none
  takes : Takes := .nothing
  check : Check := anything
  /-- the flag asks for something else than a run -/
  instead? : Option UsageError := none

structure Position where
  name : String
  repeated : Bool := false
  required : Bool := false
  check : Check := anything

structure Command where
  flags : List Flag
  positions : List Position
  commands : List String

abbrev Given := List (String × List String)

structure Pending where
  name : String
  takes : Takes
  check : Check
  values : List String

structure State where
  given : Given := []
  pending? : Option Pending := none
  /-- the next word may be a value of the flag that is pending -/
  waiting : Bool := false
  /-- no word is a flag any more -/
  literal : Bool := false
  filled : Nat := 0

def Given.add : Given → String → List String → Given
  | [], name, values => [(name, values)]
  | (other, old) :: rest, name, values =>
    if other = name then (name, old ++ values) :: rest else (other, old) :: add rest name values

def take (given : Given) (p : Pending) : Except UsageError Given :=
  if (p.takes = .one ∨ p.takes = .many) ∧ p.values = [] then .error .invalidValue
  else if p.takes ≠ .many ∧ (given.lookup p.name).isSome then .error .argumentConflict
  else match p.values.findSome? p.check with
    | some e => .error e
    | none => .ok (given.add p.name p.values)

def State.settle (s : State) : Except UsageError State :=
  match s.pending? with
  | none => .ok { s with waiting := false }
  | some p => do
    let given ← take s.given p
    return { s with given, pending? := none, waiting := false }

def beginFlag (s : State) (f : Flag) (attached? : Option String) : Except UsageError State := do
  match f.takes, attached? with
  | .nothing, some _ => throw .tooManyValues
  | .nothing, none =>
    let s ← s.settle
    match f.instead? with
    | some e => throw e
    | none => return { s with given := ← take s.given ⟨f.name, .nothing, f.check, []⟩ }
  | takes, some value =>
    let s ← s.settle
    return { s with given := ← take s.given ⟨f.name, takes, f.check, [value]⟩ }
  | takes, none =>
    let s ← s.settle
    return { s with pending? := some ⟨f.name, takes, f.check, []⟩, waiting := true }

/-- A word of short flags; the rest of the word is the value of the first one that takes a value. -/
def readShort (c : Command) (s : State) : List Char → Except UsageError State
  | [] => .ok s
  | x :: rest =>
    match c.flags.find? (·.short? = some x) with
    | none => .error .unknownArgument
    | some f =>
      if f.takes = .nothing then (beginFlag s f none).bind (readShort c · rest)
      else
        let value := match rest with
          | '=' :: value => value
          | value => value
        beginFlag s f (if rest = [] then none else some (String.ofList value))

def readLong (c : Command) (s : State) (word : List Char) : Except UsageError State :=
  let name := word.takeWhile (· ≠ '=')
  let rest := word.drop name.length
  match c.flags.find? (·.long.contains (String.ofList name)) with
  | none => .error .unknownArgument
  | some f => beginFlag s f (if rest = [] then none else some (String.ofList (rest.drop 1)))

def fillPosition (p : Position) (word : String) (s : State) : State :=
  { s with
    pending? := some ⟨p.name, if p.repeated then .many else .one, p.check, [word]⟩
    waiting := false
    filled := if p.repeated then s.filled else s.filled + 1 }

def readPosition (c : Command) (s : State) (word : String) : Except UsageError State :=
  match c.positions[s.filled]? with
  | none =>
    if c.commands = [] ∨ (s.literal ∧ c.commands.contains word) then .error .unknownArgument
    else .error .invalidSubcommand
  | some p =>
    match s.pending? with
    | some pending =>
      if p.repeated ∧ pending.name = p.name then
        .ok { s with pending? := some { pending with values := pending.values ++ [word] } }
      else s.settle.map (fillPosition p word)
    | none => .ok (fillPosition p word s)

def readWords (c : Command) (s : State) :
    List String → Except UsageError (State × Option (String × List String))
  | [] => .ok (s, none)
  | word :: rest => do
    if s.literal then readWords c (← readPosition c s word) rest
    else if !s.waiting && c.commands.contains word then return (s, some (word, rest))
    else match word.toList with
      | ['-', '-'] => readWords c { s with literal := true } rest
      | '-' :: '-' :: long => readWords c (← readLong c s long) rest
      | '-' :: x :: short => readWords c (← readShort c s (x :: short)) rest
      | _ =>
        match s.waiting, s.pending? with
        | true, some p =>
          let pending := { p with values := p.values ++ [word] }
          readWords c { s with pending? := some pending, waiting := false } rest
        | _, _ => readWords c (← readPosition c s word) rest

def missing (c : Command) (given : Given) : Bool :=
  c.positions.any fun p => p.required && (given.lookup p.name).isNone

structure Call where
  command : String
  outer : Given
  given : Given

def helpError (commands : List String) : List String → UsageError
  | [] => .displayHelp
  | [name] => if commands.contains name then .displayHelp else .invalidSubcommand
  | _ => .invalidSubcommand

/-- Reads a command line; `command?` tells how a command goes on behind its name. -/
def parse (program : Command) (command? : String → Option Command) (words : List String) :
    Except UsageError Call := do
  let (s, rest?) ← readWords program {} words
  match rest? with
  | none =>
    let s ← s.settle
    throw (if s.given = [] then .displayHelpOnMissing else .missingSubcommand)
  | some (name, rest) =>
    match command? name with
    | none => throw (helpError program.commands rest)
    | some c =>
      let (inner, _) ← readWords c {} rest
      let inner ← inner.settle
      if missing c inner.given then throw .missingRequiredArgument
      let s ← s.settle
      return ⟨name, s.given, inner.given⟩

end Arguments

end TreeListing
