import TreeListing.Yaml.Cursor

/-!
The three ways to write a text: in quotes, plainly, and as a block of lines. Line ends inside a text
are folded: a single one is a space, and of several the first one is dropped.
-/
namespace TreeListing.Yaml

/-- Text with the blanks and line ends behind it, which count only if more text follows. -/
structure Folding where
  text : List Char := []
  blanks : List Char := []
  broken : Bool := false
  /-- the line ends behind the first one -/
  breaks : List Char := []

namespace Folding

def join (f : Folding) : Folding :=
  if f.broken then { text := f.text ++ (if f.breaks = [] then [' '] else f.breaks) }
  else { text := f.text ++ f.breaks ++ f.blanks }

def push (f : Folding) (c : Char) : Folding := { f with text := f.text ++ [c] }

def pushBlank (f : Folding) (c : Char) : Folding := { f with blanks := f.blanks ++ [c] }

end Folding

def hexDigit? (c : Char) : Option Nat :=
  if c.isDigit then some (c.toNat - 48)
  else if 'a' ≤ c ∧ c ≤ 'f' then some (c.toNat - 87)
  else if 'A' ≤ c ∧ c ≤ 'F' then some (c.toNat - 55)
  else none

def hexChar? (digits : List Char) (count : Nat) : Option Char := do
  let values ← (digits.take count).mapM hexDigit?
  let n := values.foldl (fun n d => 16 * n + d) 0
  if values.length = count ∧ n.isValidChar then some (Char.ofNat n) else none

/-- What stands behind a backslash in double quotes, and how many characters it takes. -/
def escape? (rest : List Char) : Option (Char × Nat) :=
  match rest with
  | '0' :: _ => some ('\x00', 1)
  | 'a' :: _ => some ('\x07', 1)
  | 'b' :: _ => some ('\x08', 1)
  | 't' :: _ | '\t' :: _ => some ('\t', 1)
  | 'n' :: _ => some ('\n', 1)
  | 'v' :: _ => some ('\x0b', 1)
  | 'f' :: _ => some ('\x0c', 1)
  | 'r' :: _ => some ('\r', 1)
  | 'e' :: _ => some ('\x1b', 1)
  | ' ' :: _ => some (' ', 1)
  | '"' :: _ => some ('"', 1)
  | '/' :: _ => some ('/', 1)
  | '\\' :: _ => some ('\\', 1)
  | 'N' :: _ => some ('\u0085', 1)
  | '_' :: _ => some ('\u00a0', 1)
  | 'L' :: _ => some ('\u2028', 1)
  | 'P' :: _ => some ('\u2029', 1)
  | 'x' :: digits => (hexChar? digits 2).map (·, 3)
  | 'u' :: digits => (hexChar? digits 4).map (·, 5)
  | 'U' :: digits => (hexChar? digits 8).map (·, 9)
  | _ => none

/-- The text up to the quote, for content indented deeper than `indent`. -/
def quotedFrom (single : Bool) (indent : Int) :
    (fuel : Nat) → Folding → Cursor → Option (List Char × Cursor)
  | 0, _, _ => none
  | fuel + 1, f, c =>
    let quote := if single then '\'' else '"'
    let x := c.peek
    let escapedBreak := !single && x = '\\' && isBreak (c.peekAt 1)
    if x = endChar then none
    else if isSpace x then
      if f.broken then
        if x = '\t' ∧ (c.column : Int) < indent then none
        else quotedFrom single indent fuel f c.skip
      else quotedFrom single indent fuel (f.pushBlank x) c.skip
    else if isBreak x then
      let f := if f.broken then { f with breaks := f.breaks ++ ['\n'] }
        else { f with blanks := [], broken := true }
      quotedFrom single indent fuel f c.newline
    else if c.column = 0 ∧ c.atDocumentMarker then none
    else if (c.column : Int) < indent then none
    else
      let f := f.join
      if x = quote then
        if single ∧ c.peekAt 1 = quote then
          quotedFrom single indent fuel (f.push quote) (c.takeMany 2)
        else some (f.text, c.take)
      else if escapedBreak then escapedFrom single indent fuel f c.take.newline
      else if !single ∧ x = '\\' then
        match escape? (c.rest.drop 1) with
        | some (escaped, count) =>
          quotedFrom single indent fuel (f.push escaped) (c.takeMany (count + 1))
        | none => none
      else quotedFrom single indent fuel (f.push x) c.take
where
  /-- Behind an escaped line end blanks are dropped, and further line ends stay as they are. -/
  escapedFrom (single : Bool) (indent : Int) (fuel : Nat) (f : Folding) (c : Cursor) :
      Option (List Char × Cursor) :=
    match fuel with
    | 0 => none
    | fuel + 1 =>
      if isSpace c.peek then
        if c.peek = '\t' ∧ (c.column : Int) < indent then none
        else escapedFrom single indent fuel f c.skip
      else if isBreak c.peek then escapedFrom single indent fuel (f.push '\n') c.newline
      else quotedFrom single indent fuel f c

def mayFollowQuoted (flow : Bool) (sameLine : Bool) (x : Char) : Bool :=
  isLineEnd x || (flow && (x = ',' || x = '\x7d' || x = ']' || x = ':')) || (x = ':' && sameLine)

def quoted? (single flow : Bool) (indent : Int) (c : Cursor) : Option (List Char × Cursor) := do
  let (text, stop) ← quotedFrom single indent (c.rest.length + 1) {} c.take
  let (_, stop) ← stop.skipGap true
  if mayFollowQuoted flow (!flow && c.line = stop.line) stop.peek then some (text, stop) else none

def isPlain (flow : Bool) (c : Cursor) : Bool :=
  if c.peek = ':' ∧ (isGap (c.peekAt 1) ∨ (flow ∧ isFlow (c.peekAt 1))) then false
  else !(flow && isFlow c.peek)

/-- A plain text. It goes on over line ends as long as lines are indented at least to `indent`;
`word` tells that the character follows another one of the text directly. The answer also tells
whether a line end was the last thing passed. -/
def plainFrom (flow : Bool) (indent : Int) : (fuel : Nat) → (word : Bool) → Folding → Cursor →
    Option (List Char × Bool × Cursor)
  | 0, _, f, c => some (f.text, f.broken, c)
  | fuel + 1, word, f, c =>
    let x := c.peek
    if isSpace x then
      if !f.broken then plainFrom flow indent fuel false (f.pushBlank x) c.skip
      else if (c.column : Int) < indent ∧ x = '\t' then do
        let (_, stop) ← c.skipGap true
        if isLineEnd stop.peek then plainFrom flow indent fuel false f stop else none
      else plainFrom flow indent fuel false f c.skip
    else if isBreak x then
      let f := if f.broken then { f with breaks := f.breaks ++ ['\n'] }
        else { f with blanks := [], broken := true }
      plainFrom flow indent fuel false f c.newline
    else if !word ∧ f.text ≠ [] ∧ !flow ∧ (c.column : Int) < indent then some (f.text, f.broken, c)
    else if !word ∧ ((c.column = 0 ∧ c.atDocumentMarker) ∨ x = '#') then some (f.text, f.broken, c)
    else if !word ∧ flow ∧ x = '-' ∧ isFlow (c.peekAt 1) then none
    else if x ≠ endChar ∧ isPlain flow c then plainFrom flow indent fuel true (f.join.push x) c.take
    else some (f.text, f.broken, c)

def plain? (flow : Bool) (indent : Int) (c : Cursor) : Option (List Char × Bool × Cursor) := do
  if flow ∧ (c.column : Int) < indent then none
  else
    let (text, broken, stop) ← plainFrom flow indent (c.rest.length + 1) false {} c
    if text = [] then none else some (text, broken, stop)

/-- What becomes of the line ends behind a block. -/
inductive Chomping where
  | strip
  | clip
  | keep
deriving DecidableEq

def chomping? (c : Char) : Option Chomping :=
  if c = '+' then some .keep else if c = '-' then some .strip else none

/-- The signs behind the first one of a block: how its end is treated, and how deep it is
indented. -/
def blockHeader? (c : Cursor) : Option (Chomping × Nat × Cursor) :=
  match chomping? c.peek with
  | some chomping =>
    let c := c.take
    if c.peek = '0' then none
    else if c.peek.isDigit then some (chomping, c.peek.toNat - 48, c.take)
    else some (chomping, 0, c)
  | none =>
    if c.peek = '0' then none
    else if c.peek.isDigit then
      let depth := c.peek.toNat - 48
      let c := c.take
      match chomping? c.peek with
      | some chomping => some (chomping, depth, c.take)
      | none => some (.clip, depth, c)
    else some (.clip, 0, c)

def skipSpaces (limit? : Option Nat) (c : Cursor) : Cursor :=
  let spaces := (c.rest.takeWhile (· = ' ')).length
  let count := match limit? with
    | some limit => min spaces (limit - c.column)
    | none => spaces
  { c with rest := c.rest.drop count, index := c.index + count, column := c.column + count }

/-- Over empty lines and the indentation of the next line: how many lines, and the deepest
column. -/
def skipEmptyLines (limit? : Option Nat) :
    (fuel lines deepest : Nat) → Cursor → Nat × Nat × Cursor
  | 0, lines, deepest, c => (lines, deepest, c)
  | fuel + 1, lines, deepest, c =>
    let c := skipSpaces limit? c
    let deepest := max deepest c.column
    if isBreak c.peek then skipEmptyLines limit? fuel (lines + 1) deepest c.newline
    else (lines, deepest, c)

structure Block where
  text : List Char := []
  ended : Bool := false
  /-- empty lines behind it -/
  empty : Nat := 0
  blankLine : Bool := false

def lineFeeds (n : Nat) : List Char := List.replicate n '\n'

def blockLines (literal : Bool) (indent : Nat) : (fuel : Nat) → Block → Cursor → Block × Cursor
  | 0, b, c => (b, c)
  | fuel + 1, b, c =>
    if c.column ≠ indent ∨ c.peek = endChar ∨ (indent = 0 ∧ c.atDocumentMarker) then (b, c)
    else
      let blank := isSpace c.peek
      let lead :=
        if !literal ∧ b.ended ∧ !b.blankLine ∧ !blank then
          if b.empty = 0 then [' '] else lineFeeds b.empty
        else lineFeeds ((if b.ended then 1 else 0) + b.empty)
      let line := c.rest.takeWhile (!isLineEnd ·)
      let c := c.toLineEnd
      let b : Block := { text := b.text ++ lead ++ line, blankLine := blank }
      if c.peek = endChar then (b, c)
      else
        let (empty, _, c) := skipEmptyLines (some indent) c.rest.length 0 0 c.newline
        blockLines literal indent fuel { b with ended := true, empty } c

/-- A block of lines, from the sign that leads it in, inside of what is indented to `outer`. -/
def block? (literal : Bool) (outer : Int) (start : Cursor) : Option (List Char × Cursor) := do
  let (chomping, depth, c) ← blockHeader? start.take
  let (_, c) ← c.skipGap true
  if !isLineEnd c.peek then none
  else
    let first := isBreak c.peek
    let c := c.newline
    if c.peek = '\t' then none
    else
      let given := if depth = 0 then 0 else (max outer 0).toNat + depth
      let (empty, deepest, c) :=
        skipEmptyLines (if given = 0 then none else some given) (c.rest.length + 1) 0 0 c
      let indent :=
        if given = 0 then
          let indent := max deepest (outer + 1).toNat
          if 0 < outer then max indent 1 else indent
        else given
      if c.peek = endChar then
        let text := match chomping with
          | .strip => []
          | .clip => lineFeeds (if first then 1 else 0)
          | .keep => lineFeeds (if !first then 0 else if empty = 0 then 1 else empty)
        some (text, c)
      else if c.column < indent ∧ outer < (c.column : Int) then none
      else
        let (b, c) := blockLines literal indent (c.rest.length + 1) { empty } c
        let tail := match chomping with
          | .strip => []
          | _ => lineFeeds ((if b.ended then 1 else 0)
              + (if c.peek = endChar ∧ max indent 1 ≤ c.column then 1 else 0))
        let kept := if chomping = .keep then lineFeeds b.empty else []
        some (b.text ++ tail ++ kept, c)

end TreeListing.Yaml
