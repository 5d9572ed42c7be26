import TreeListing.Regex.Basic
import TreeListing.Regex.Escape

/-!
Reading a regular expression, character by character. What is read so far is a state of its own, so
the reading of a text that is put together from pieces is the reading of its pieces, one after the
other.

Read are literals, escapes, dots, anchors, classes, alternatives, groups with and without names, and
greedy and lazy repetitions. Flags, assertions about neighbours and set operations inside a class
are refused.
-/
namespace TreeListing.Regex.Parser

/-- A repetition: at least so many rounds, at most so many. -/
structure Rounds where
  least : Nat
  most : Option Nat
deriving DecidableEq

def Rounds.apply (rounds : Rounds) (greedy : Bool) (a : Regex) : Regex :=
  match rounds.least, rounds.most with
  | 0, some 1 => maybe greedy a
  | 0, none => star greedy a
  | 1, none => plus greedy a
  | least, none => concat (List.replicate (least - 1) a ++ [plus greedy a])
  | least, some most =>
    concat (List.replicate least a
      ++ (List.range (most - least)).foldl (fun inner _ => [maybe greedy (concat (a :: inner))]) [])

/-- The rounds between braces: a number, or two bounds of which one may be missing. -/
def Rounds.ofText? (s : List Char) : Option Rounds :=
  let number (digits : List Char) : Option Nat :=
    if digits ≠ [] ∧ digits.all Char.isDigit then some (Text.natOfDigits digits) else none
  match s.span (· ≠ ',') with
  | (digits, []) => (number digits).map fun n => ⟨n, some n⟩
  | ([], [_]) => none
  | (digits, [_]) => (number digits).map fun n => ⟨n, none⟩
  | (digits, _ :: more) => do
    let least ← if digits = [] then some 0 else number digits
    let most ← number more
    if least ≤ most then some ⟨least, some most⟩ else none

/-- A class that is being read: what it holds so far, and the item that a dash may still turn into a
range. -/
structure ClassFrame where
  negated : Bool := false
  items : Option CharSet := none
  pending : Option Char := none
deriving DecidableEq

namespace ClassFrame

def add (f : ClassFrame) (set : CharSet) : ClassFrame :=
  { f with items := some (match f.items with
      | none => set
      | some items => .either items set) }

/-- The pending item stands for itself. -/
def settle (f : ClassFrame) : ClassFrame :=
  match f.pending with
  | none => f
  | some c => { f.add (.one c) with pending := none }

def close? (f : ClassFrame) : Option CharSet :=
  let f := f.settle
  f.items.map fun items => if f.negated then .outside items else items

end ClassFrame

inductive ClassMode where
  /-- directly behind the bracket; `caret` tells whether a caret was there -/
  | opened (caret : Bool)
  | items
  | escaped
  /-- behind the dash of a range that begins with `first` -/
  | dash (first : Char)
  /-- behind a backslash at the end of a range -/
  | dashEscaped (first : Char)
deriving DecidableEq

inductive Mode where
  | plain
  | escaped
  /-- behind a repetition, which a question mark makes lazy -/
  | repeated (rounds : Rounds)
  /-- between the braces of a repetition -/
  | counting (text : List Char)
  | opened
  /-- behind an opening parenthesis and a question mark -/
  | query
  /-- where the name of a group must begin with an angle -/
  | angle
  | naming (text : List Char)
  | inClass (mode : ClassMode) (frame : ClassFrame) (outer : List ClassFrame)
deriving DecidableEq

/-- A group that is being read: its name, its finished branches and the items of the current one,
each the latest first. -/
structure Frame where
  name : Option String := none
  branches : List Regex := []
  items : List Regex := []
deriving DecidableEq

def Frame.close (f : Frame) : Regex :=
  choice ((concat f.items.reverse :: f.branches).reverse)

/-- The state of the reading: the frame of the innermost group, those around it, and the names
taken. -/
structure State where
  mode : Mode := .plain
  frame : Frame := {}
  outer : List Frame := []
  names : List String := []
deriving DecidableEq

namespace State

def push (s : State) (a : Regex) : State :=
  { s with mode := .plain, frame := { s.frame with items := a :: s.frame.items } }

def enter (s : State) : State := { s with mode := .plain, frame := {}, outer := s.frame :: s.outer }

/-- A group begins whose name no other group has. -/
def enterNamed? (s : State) (name : String) : Option State :=
  if name = "" ∨ name ∈ s.names then none
  else some { s.enter with frame := { name := some name }, names := name :: s.names }

def repeat? (s : State) (rounds : Rounds) (greedy : Bool) : Option State :=
  match s.frame.items with
  | [] => none
  | a :: items =>
    some { s with mode := .plain, frame := { s.frame with items := rounds.apply greedy a :: items } }

def close? (s : State) : Option State :=
  match s.outer with
  | [] => none
  | frame :: outer =>
    let a := s.frame.close
    let a := match s.frame.name with
      | some name => group name a
      | none => a
    some { s with mode := .plain, frame := { frame with items := a :: frame.items }, outer }

end State

/-- The set behind a backslash that stands for several characters. -/
def escapedSet? : Char → Option CharSet
  | 'd' => some .digit
  | 'D' => some (.outside .digit)
  | 's' => some .blank
  | 'S' => some (.outside .blank)
  | _ => none

def escapedChar? (c : Char) : Option Char :=
  match c with
  | 'n' => some '\n'
  | 't' => some '\t'
  | 'r' => some '\r'
  | 'a' => some '\x07'
  | 'f' => some '\x0c'
  | 'v' => some '\x0b'
  | '<' => none
  | '>' => none
  | _ => if c.toNat < 128 ∧ !c.isAlphanum then some c else none

/-- A character of a class, where an item may begin. -/
def stepItems (s : State) (frame : ClassFrame) (outer : List ClassFrame) (c : Char) : Option State :=
  match c with
  | ']' =>
    match frame.close?, outer with
    | some set, [] => some (s.push (.chars set))
    | some set, around :: outer => some { s with mode := .inClass .items (around.add set) outer }
    | none, _ => none
  | '[' => some { s with mode := .inClass (.opened false) {} (frame.settle :: outer) }
  | '\\' => some { s with mode := .inClass .escaped frame.settle outer }
  | '-' =>
    match frame.pending with
    | some first => some { s with mode := .inClass (.dash first) { frame with pending := none } outer }
    | none => some { s with mode := .inClass .items { frame with pending := some '-' } outer }
  | _ => some { s with mode := .inClass .items { frame.settle with pending := some c } outer }

/-- A range of characters joins the class. -/
def closeRange (s : State) (frame : ClassFrame) (outer : List ClassFrame) (first last : Char) :
    Option State :=
  if first ≤ last then some { s with mode := .inClass .items (frame.add (.range first last)) outer }
  else none

def stepClass (s : State) (frame : ClassFrame) (outer : List ClassFrame) (c : Char) :
    ClassMode → Option State
  | .opened caret =>
    if c = '^' ∧ !caret then
      some { s with mode := .inClass (.opened true) { frame with negated := true } outer }
    else if c = '-' then
      some { s with mode := .inClass (.opened true) (frame.add (.one '-')) outer }
    else if c = ']' ∧ frame.items = none then
      some { s with mode := .inClass .items { frame with pending := some ']' } outer }
    else stepItems s frame outer c
  | .items => stepItems s frame outer c
  | .escaped =>
    match escapedSet? c, escapedChar? c with
    | some set, _ => some { s with mode := .inClass .items (frame.add set) outer }
    | none, some c => some { s with mode := .inClass .items { frame with pending := some c } outer }
    | none, none => none
  | .dash first =>
    match c with
    | ']' => stepItems s ((frame.add (.one first)).add (.one '-')) outer c
    | '-' => none
    | '\\' => some { s with mode := .inClass (.dashEscaped first) frame outer }
    | _ => closeRange s frame outer first c
  | .dashEscaped first => (escapedChar? c).bind (closeRange s frame outer first)

/-- A sign behind an item that repeats it. -/
def State.sign? (s : State) (mode : Mode) : Option State :=
  if s.frame.items.isEmpty then none else some { s with mode }

def stepPlain (s : State) (c : Char) : Option State :=
  match c with
  | '\\' => some { s with mode := .escaped }
  | '.' => some (s.push (.chars .dot))
  | '^' => some (s.push .atStart)
  | '$' => some (s.push .atEnd)
  | '*' => s.sign? (.repeated ⟨0, none⟩)
  | '+' => s.sign? (.repeated ⟨1, none⟩)
  | '?' => s.sign? (.repeated ⟨0, some 1⟩)
  | '\x7b' => s.sign? (.counting [])
  | '[' => some { s with mode := .inClass (.opened false) {} [] }
  | '(' => some { s with mode := .opened }
  | ')' => s.close?
  | '|' =>
    let done := concat s.frame.items.reverse
    some { s with
      mode := .plain, frame := { s.frame with branches := done :: s.frame.branches, items := [] } }
  | _ => some (s.push (.chars (.one c)))

/-- The name of a group may begin with this character, or go on with it. -/
def isNameChar (first : Bool) (c : Char) : Bool :=
  c = '_' || c.isAlpha || (!first && (c.isDigit || c = '.' || c = '[' || c = ']'))

def stepEscaped (s : State) (c : Char) : Option State :=
  if c = 'A' then some (s.push .atStart)
  else if c = 'z' then some (s.push .atEnd)
  else match escapedSet? c with
    | some set => some (s.push (.chars set))
    | none => (escapedChar? c).map fun c => s.push (.chars (.one c))

def stepQuery (s : State) (c : Char) : Option State :=
  if c = ':' then some s.enter
  else if c = 'P' then some { s with mode := .angle }
  else if c = '<' then some { s with mode := .naming [] }
  else none

def step (s : State) (c : Char) : Option State :=
  match s.mode with
  | .plain => stepPlain s c
  | .escaped => stepEscaped s c
  | .repeated rounds =>
    if c = '?' then s.repeat? rounds false
    else (s.repeat? rounds true).bind (stepPlain · c)
  | .counting text =>
    if c = '\x7d' then (Rounds.ofText? text).map fun rounds => { s with mode := .repeated rounds }
    else some { s with mode := .counting (text ++ [c]) }
  | .opened => if c = '?' then some { s with mode := .query } else stepPlain s.enter c
  | .query => stepQuery s c
  | .angle => if c = '<' then some { s with mode := .naming [] } else none
  | .naming text =>
    if c = '>' then s.enterNamed? (String.ofList text)
    else if isNameChar text.isEmpty c then some { s with mode := .naming (text ++ [c]) }
    else none
  | .inClass mode frame outer => stepClass s frame outer c mode

def finish (s : State) : Option Regex :=
  let close (s : State) : Option Regex := if s.outer = [] then some s.frame.close else none
  match s.mode with
  | .plain => close s
  | .repeated rounds => (s.repeat? rounds true).bind close
  | _ => none

end Parser

def parse? (text : List Char) : Option Regex := (text.foldlM Parser.step {}).bind Parser.finish

end TreeListing.Regex
