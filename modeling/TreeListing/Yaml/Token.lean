import TreeListing.Yaml.Scalar

/-!
The tokens of a text. Indentation is made visible: a token stands where a list or a map begins that
is structured by it, and one where it ends. A key is often only known by the colon behind it, so a
place that may turn out to be a key is remembered until then.
-/
namespace TreeListing.Yaml

inductive Token where
  /-- the end of all documents -/
  | finish
  | version
  | tagHandle (handle text : String)
  | documentStart
  | documentEnd
  | blockList
  | blockMap
  | blockEnd
  | flowList
  | flowListEnd
  | flowMap
  | flowMapEnd
  | entry
  | comma
  | key
  | value
  | reference (name : String)
  | anchor (name : String)
  | tag (handle suffix : String)
  | scalar (plain : Bool) (text : String)
deriving DecidableEq

namespace Token

/-- A place that may be the start of a key. -/
structure KeyPlace where
  possible : Bool := false
  /-- nothing else can stand here -/
  required : Bool := false
  /-- how many tokens come before it -/
  token : Nat := 0
  index : Nat := 0
  line : Nat := 0
  column : Nat := 0

inductive Bracket where
  | map
  /-- a list; its entry may be a pair, with the sign of a key or without -/
  | list (pair : Bool) (signed : Bool)
deriving DecidableEq

structure Lexer where
  cursor : Cursor
  tokens : List Token := []
  /-- where the last token begins, if it is an anchor or a tag -/
  markColumn? : Option Nat := none
  indent : Int := -1
  /-- the outer indentations, and whether an end is due when they come back -/
  outer : List (Int × Bool) := []
  places : List KeyPlace := [{}]
  keyAllowed : Bool := true
  /-- where a colon means a value without a blank behind it -/
  adjacent : Nat := 0
  brackets : List Bracket := []

namespace Lexer

def depth (s : Lexer) : Nat := s.places.length - 1

def inFlow (s : Lexer) : Bool := 0 < s.depth

def push (s : Lexer) (t : Token) : Lexer :=
  { s with tokens := s.tokens ++ [t], markColumn? := none }

def insertAt (s : Lexer) (n : Nat) (t : Token) : Lexer :=
  { s with tokens := s.tokens.take n ++ t :: s.tokens.drop n }

def allowKey (s : Lexer) (allowed : Bool) : Lexer := { s with keyAllowed := allowed }

def setPlace (s : Lexer) (p : KeyPlace) : Lexer := { s with places := p :: s.places.drop 1 }

def place (s : Lexer) : KeyPlace := s.places.headD {}

/-- A key that starts here may have its colon further on. -/
def savePlace (s : Lexer) : Lexer :=
  if s.keyAllowed then
    s.setPlace {
      possible := true
      required := !s.inFlow && s.indent = s.cursor.column && ((s.outer.head?.map (·.2)).getD false)
      token := s.tokens.length
      index := s.cursor.index
      line := s.cursor.line
      column := s.cursor.column }
  else s

/-- No colon can follow any more for the innermost place. -/
def dropPlace? (s : Lexer) : Option Lexer :=
  if s.place.possible && s.place.required then none
  else some (s.setPlace { s.place with possible := false })

/-- Outside of brackets a key is on one line and not too long. -/
def dropStale? (s : Lexer) : Option Lexer :=
  if s.inFlow then some s
  else
    let stale (p : KeyPlace) : Bool :=
      p.possible && (decide (p.line < s.cursor.line) || decide (p.index + 1024 < s.cursor.index))
    if s.places.any fun p => stale p && p.required then none
    else some { s with
      places := s.places.map fun p => if stale p then { p with possible := false } else p }

/-- Leaves the indentations deeper than a column. -/
def unrollFrom (column : Int) : List (Int × Bool) → Lexer → Lexer
  | [], s => { s with outer := [] }
  | (indent, due) :: rest, s =>
    if column < s.indent then
      let s := { s with indent }
      unrollFrom column rest (if due then s.push .blockEnd else s)
    else { s with outer := (indent, due) :: rest }

def unroll (s : Lexer) (column : Int) : Lexer := if s.inFlow then s else unrollFrom column s.outer s

/-- Leaves the indentations that no block has begun with. -/
def unrollLoose (s : Lexer) : Lexer :=
  let loose := s.outer.takeWhile (!·.2)
  { s with
    outer := s.outer.drop loose.length
    indent := (loose.getLast?.map (·.1)).getD s.indent }

/-- A block begins at a column if it is deeper than the indentation; its token goes before others
from `number` on. -/
def roll (s : Lexer) (column : Nat) (number : Nat) (t : Token) : Lexer :=
  if s.inFlow then s
  else
    let s := match s.outer with
      | (indent, false) :: rest =>
        if s.indent ≤ Int.ofNat column then { s with indent, outer := rest } else s
      | _ => s
    if s.indent < Int.ofNat column then
      { s.insertAt number t with
        outer := (s.indent, true) :: s.outer, indent := Int.ofNat column, markColumn? := none }
    else s

/-- What follows in a block is deeper by at least one column. -/
def rollOne (s : Lexer) : Lexer :=
  if !s.inFlow && (s.outer.head?.map (·.2)).getD false then
    { s with outer := (s.indent, false) :: s.outer, indent := s.indent + 1 }
  else s

def take (s : Lexer) (n : Nat) : Lexer := { s with cursor := s.cursor.takeMany n }

def skipGap? (s : Lexer) (tabs : Bool) : Option (Cursor.Gap × Lexer) := do
  let (gap, c) ← s.cursor.skipGap tabs
  return (gap, { s with cursor := c })

def toNext? : (fuel : Nat) → Lexer → Option Lexer
  | 0, s => some s
  | fuel + 1, s =>
    let x := s.cursor.peek
    if x = '\t' ∧ s.outer ≠ [] ∧ s.cursor.leading ∧ (s.cursor.column : Int) < s.indent then do
      let (_, s) ← s.skipGap? true
      if isLineEnd s.cursor.peek then toNext? fuel s else none
    else if isSpace x then toNext? fuel { s with cursor := s.cursor.skip }
    else if isBreak x then
      let s := { s with cursor := s.cursor.newline }
      toNext? fuel (if s.inFlow then s else s.allowKey true)
    else if x = '#' then toNext? fuel { s with cursor := s.cursor.toLineEnd }
    else some s

/-- The list or map in brackets that begins here may be a key. -/
def flowStart? (s : Lexer) (t : Token) : Option Lexer := do
  let s := s.savePlace.rollOne
  let s := ({ s with places := {} :: s.places }.allowKey true).take 1
  let bracket := if t = Token.flowMap then Bracket.map else .list false false
  let s := { s with brackets := bracket :: s.brackets }
  let (_, s) ← s.skipGap? true
  return s.push t

/-- The pair without braces ends with its list entry. -/
def endPair (s : Lexer) : Lexer :=
  match s.brackets with
  | .list pair _ :: rest =>
    let s := { s with brackets := .list false false :: rest }
    if pair then s.push .flowMapEnd else s
  | _ => s

def flowEnd? (s : Lexer) (t : Token) : Option Lexer :=
  if !s.inFlow then none
  else do
    let s ← s.dropPlace?
    let s := ({ s with places := s.places.drop 1 }.allowKey false).endPair
    let s := { s with brackets := s.brackets.drop 1 }
    let (_, s) ← (s.take 1).skipGap? true
    let s := if s.inFlow then { s with adjacent := s.cursor.index } else s
    return s.push t

def comma? (s : Lexer) : Option Lexer := do
  let s ← s.dropPlace?
  let (_, s) ← ((s.allowKey true).endPair.take 1).skipGap? true
  return s.push .comma

def entry? (s : Lexer) : Option Lexer :=
  if s.inFlow ∨ !s.keyAllowed ∨
      (s.cursor.column = 0 ∧ s.markColumn? = some 0 ∧ (-1 : Int) < s.indent) then none
  else do
    let column := s.cursor.column
    let s := (s.take 1).roll column s.tokens.length .blockList
    let (gap, s) ← s.skipGap? true
    if gap.tabs ∧ s.cursor.peek = '-' ∧ isGap (s.cursor.peekAt 1) then none
    else
      let s := if isBreak s.cursor.peek || isFlow s.cursor.peek then s.rollOne else s
      let s ← s.dropPlace?
      return (s.allowKey true).push .entry

/-- Over spaces, line ends and comments behind the sign of a key, at least one of them. -/
def skipLines? : (fuel : Nat) → (passed : Bool) → Lexer → Option Lexer
  | 0, passed, s => if passed then some s else none
  | fuel + 1, passed, s =>
    let x := s.cursor.peek
    if x = ' ' then skipLines? fuel true { s with cursor := s.cursor.skip }
    else if isBreak x then
      let s := { s with cursor := s.cursor.newline }
      skipLines? fuel true (if s.inFlow then s else s.allowKey true)
    else if x = '#' then skipLines? fuel passed { s with cursor := s.cursor.toLineEnd }
    else if passed then some s
    else none

/-- The sign of a key that may be of any kind. -/
def key? (s : Lexer) : Option Lexer :=
  if !s.inFlow ∧ !s.keyAllowed then none
  else do
    let s := match s.brackets with
      | [] => s.roll s.cursor.column s.tokens.length .blockMap
      | .map :: _ => s
      | .list pair _ :: rest => { s with brackets := .list pair true :: rest }
    let s ← s.dropPlace?
    let s := (s.allowKey !s.inFlow).take 1
    let s ← skipLines? (s.cursor.rest.length + 1) false s
    if s.cursor.peek = '\t' then none else return s.push .key

/-- A tab behind a colon must not stand for the space before a text. -/
def afterColon? (s : Lexer) : Option Lexer :=
  if s.cursor.peek = '\t' then do
    let (gap, s) ← s.skipGap? true
    if !gap.spaces ∧ isWord s.cursor.peek then none else return s
  else some s

/-- The colon before a value. The key is what began at the place that was remembered, if there is
one. -/
def value? (s : Lexer) : Option Lexer := do
  let p := s.place
  let column := s.cursor.column
  let line := s.cursor.line
  let (paired, s) := match s.brackets with
    | .list _ false :: rest => (true, { s with brackets := .list true false :: rest })
    | _ => (false, s)
  let s ← (s.take 1).afterColon?
  if p.possible then
    if paired ∧ p.line < line then none
    else
      let s := s.insertAt p.token .key
      let s := if paired then s.insertAt p.token .flowMap else s
      let s := (s.roll p.column p.token .blockMap).rollOne
      return ((s.setPlace { p with possible := false }).allowKey false).push .value
  else
    let s := if paired then s.push .flowMap else s
    if !s.inFlow ∧ !s.keyAllowed then none
    else
      let s := (s.roll column s.tokens.length .blockMap).rollOne
      return (s.allowKey !s.inFlow).push .value

def mark? (s : Lexer) (t : Token) (stop : Cursor) : Lexer :=
  let column := s.cursor.column
  { ((s.savePlace.allowKey false).push t) with cursor := stop, markColumn? := some column }

def isNameChar (c : Char) : Bool := !isGap c && !isFlow c && c ≠ '\uFEFF'

def name? (s : Lexer) (isReference : Bool) : Option Lexer :=
  let (name, stop) := s.cursor.take.takeWhile isNameChar
  if name = [] then none
  else
    let name := String.ofList name
    if isReference then
      some { ((s.savePlace.allowKey false).push (.reference name)) with cursor := stop }
    else some (s.mark? (.anchor name) stop)

def isAddressChar (c : Char) : Bool := isWord c || "#;/?:@&=+$,_.!~*'()[]%".toList.contains c

def isTagChar (c : Char) : Bool := isAddressChar c && !isFlow c && c ≠ '!'

/-- The characters of an address; a percent sign stands before two hexadecimal digits. -/
def escapesValid : List Char → Bool
  | '%' :: a :: b :: rest => (hexDigit? a).isSome && (hexDigit? b).isSome && escapesValid rest
  | '%' :: _ => false
  | _ :: rest => escapesValid rest
  | [] => true

/-- The handle and the suffix of a tag, from its sign on. -/
def tagText? (c : Cursor) : Option (String × String × Cursor) :=
  if c.peekAt 1 = '<' then
    let (address, stop) := (c.takeMany 2).takeWhile isAddressChar
    if address = [] ∨ !escapesValid address ∨ stop.peek ≠ '>' then none
    else some ("", String.ofList address, stop.take)
  else
    let (word, afterWord) := c.take.takeWhile isWord
    if afterWord.peek = '!' then
      let (suffix, stop) := afterWord.take.takeWhile isTagChar
      if suffix = [] ∨ !escapesValid suffix then none
      else some (String.ofList ('!' :: word ++ ['!']), String.ofList suffix, stop)
    else
      let (rest, stop) := afterWord.takeWhile isTagChar
      let suffix := word ++ rest
      if !escapesValid suffix then none
      else if suffix = [] then some ("", "!", stop)
      else some ("!", String.ofList suffix, stop)

def tag? (s : Lexer) : Option Lexer := do
  let (handle, suffix, stop) ← tagText? s.cursor
  if isGap stop.peek || (s.inFlow && isFlow stop.peek) then return s.mark? (.tag handle suffix) stop
  else none

def block? (s : Lexer) (literal : Bool) : Option Lexer := do
  let s := (s.savePlace.allowKey true).unrollLoose
  let (text, stop) ← Yaml.block? literal s.indent s.cursor
  return { s.push (.scalar false (String.ofList text)) with cursor := stop }

def quoted? (s : Lexer) (single : Bool) : Option Lexer := do
  let s := s.savePlace.allowKey false
  let (text, stop) ← Yaml.quoted? single s.inFlow s.indent s.cursor
  let s ← toNext? (stop.rest.length + 1) { s with cursor := stop }
  return { s with adjacent := s.cursor.index }.push (.scalar false (String.ofList text))

def plain? (s : Lexer) : Option Lexer := do
  let s := (s.savePlace.allowKey false).unrollLoose
  let (text, broken, stop) ← Yaml.plain? s.inFlow (s.indent + 1) s.cursor
  let s := { s with cursor := stop }
  return (if broken then s.allowKey true else s).push (.scalar true (String.ofList text))

def version? (c : Cursor) : Option Cursor :=
  let (major, c) := c.takeWhile Char.isDigit
  if major = [] ∨ c.peek ≠ '.' then none
  else
    let (minor, c) := c.take.takeWhile Char.isDigit
    if minor = [] then none else some c

def skipBlanks (c : Cursor) : Cursor := (c.takeWhile isSpace).2

def handle? (c : Cursor) : Option (Token × Cursor) :=
  let (word, afterWord) := c.take.takeWhile isWord
  let closed : Bool := afterWord.peek = '!'
  if c.peek ≠ '!' ∨ (!closed ∧ word ≠ []) then none
  else
    let handle := if closed then '!' :: word ++ ['!'] else ['!']
    let (address, stop) :=
      (skipBlanks (if closed then afterWord.take else afterWord)).takeWhile isAddressChar
    if address = [] ∨ !isGap stop.peek then none
    else some (.tagHandle (String.ofList handle) (String.ofList address), stop)

/-- What a directive says; one with an unknown name says nothing. -/
def directiveText? (name : List Char) (c : Cursor) : Option (Token × Cursor) :=
  if name = "YAML".toList then (version? (skipBlanks c)).map (Token.version, ·)
  else if name = "TAG".toList then handle? (skipBlanks c)
  else some (.tagHandle "" "", c.toLineEnd)

def directive? (s : Lexer) : Option Lexer := do
  let s ← (s.unroll (-1)).dropPlace?
  let (name, c) := s.cursor.take.takeWhile isWord
  if name = [] ∨ !isGap c.peek then none
  else
    let (t, c) ← directiveText? name c
    let (_, c) ← c.skipGap true
    if isLineEnd c.peek then return { (s.allowKey false).push t with cursor := c.newline } else none

def documentMarker? (s : Lexer) (t : Token) : Option Lexer := do
  let s ← (s.unroll (-1)).dropPlace?
  return ((s.allowKey false).take 3).push t

def finish? (s : Lexer) : Option Lexer :=
  if s.places.any fun p => p.possible && p.required then none
  else
    let s : Lexer :=
      { s with places := s.places.map fun (p : KeyPlace) => { p with possible := false } }
    some (((s.unroll (-1)).allowKey false).push .finish)

def content? (s : Lexer) : Option Lexer :=
  let x := s.cursor.peek
  let gap := isGap (s.cursor.peekAt 1)
  if x = '[' then s.flowStart? .flowList
  else if x = '\x7b' then s.flowStart? .flowMap
  else if x = ']' then s.flowEnd? .flowListEnd
  else if x = '\x7d' then s.flowEnd? .flowMapEnd
  else if x = ',' then s.comma?
  else if x = '-' ∧ gap then s.entry?
  else if x = '?' ∧ gap then s.key?
  else if x = ':' ∧
      (gap ∨ (s.inFlow ∧ (isFlow (s.cursor.peekAt 1) ∨ s.cursor.index = s.adjacent))) then s.value?
  else if x = '*' then s.name? true
  else if x = '&' then s.name? false
  else if x = '!' then s.tag?
  else if x = '|' ∧ !s.inFlow then s.block? true
  else if x = '>' ∧ !s.inFlow then s.block? false
  else if x = '\'' then s.quoted? true
  else if x = '"' then s.quoted? false
  else if x = '%' ∨ x = '@' ∨ x = '\x60' then none
  else s.plain?

def next? (s : Lexer) : Option (Bool × Lexer) := do
  let s ← toNext? (s.cursor.rest.length + 1) s
  let s ← s.dropStale?
  let s := s.unroll s.cursor.column
  let c := s.cursor
  if c.peek = endChar then return (true, ← s.finish?)
  else if c.column = 0 ∧ c.peek = '%' then return (false, ← s.directive?)
  else if c.column = 0 ∧ c.atMarker '-' then return (false, ← s.documentMarker? .documentStart)
  else if c.column = 0 ∧ c.atMarker '.' then
    let (_, s) ← (← s.documentMarker? .documentEnd).skipGap? true
    if isLineEnd s.cursor.peek then return (false, s) else none
  else if (c.column : Int) < s.indent ∧
      !(s.inFlow ∧ (c.peek = ']' ∨ c.peek = '\x7d' ∨ c.peek = ',')) then none
  else return (false, ← s.content?)

/-- Every token but the last takes a character, so `fuel` is enough when it exceeds their number. -/
def readAll? : (fuel : Nat) → Lexer → Option (List Token)
  | 0, _ => none
  | fuel + 1, s =>
    match s.next? with
    | none => none
    | some (true, s) => some s.tokens
    | some (false, s) => readAll? fuel s

end Lexer

def ofText? (text : List Char) : Option (List Token) :=
  Lexer.readAll? (text.length + 2) { cursor := { rest := text } }

end Token

end TreeListing.Yaml
