/-!
A place in a text with its line and column.
-/
namespace TreeListing.Yaml

structure Cursor where
  rest : List Char
  index : Nat := 0
  line : Nat := 0
  column : Nat := 0
  /-- the line holds only blanks so far -/
  leading : Bool := true

/-- The end of a text is seen as this character. -/
def endChar : Char := '\x00'

def isBreak (c : Char) : Bool := c = '\n' || c = '\r'

def isSpace (c : Char) : Bool := c = ' ' || c = '\t'

def isLineEnd (c : Char) : Bool := isBreak c || c = endChar

def isGap (c : Char) : Bool := isSpace c || isLineEnd c

/-- The characters that structure lists and maps in brackets. -/
def isFlow (c : Char) : Bool := c = ',' || c = '[' || c = ']' || c = '\x7b' || c = '\x7d'

def isWord (c : Char) : Bool := c.isAlphanum || c = '_' || c = '-'

namespace Cursor

def peek (c : Cursor) : Char := c.rest.headD endChar

def peekAt (c : Cursor) (n : Nat) : Char := c.rest.getD n endChar

def skip (c : Cursor) : Cursor :=
  { c with rest := c.rest.drop 1, index := c.index + 1, column := c.column + 1 }

def take (c : Cursor) : Cursor := { c.skip with leading := false }

def takeMany : Nat → Cursor → Cursor
  | 0, c => c
  | n + 1, c => takeMany n c.take

def newline (c : Cursor) : Cursor :=
  let count := if c.peek = '\r' ∧ c.peekAt 1 = '\n' then 2 else if isBreak c.peek then 1 else 0
  if count = 0 then c
  else { rest := c.rest.drop count, index := c.index + count, line := c.line + 1, column := 0 }

def toLineEnd (c : Cursor) : Cursor :=
  let count := (c.rest.takeWhile (!isLineEnd ·)).length
  { c with rest := c.rest.drop count, index := c.index + count, column := c.column + count }

def takeWhile (c : Cursor) (p : Char → Bool) : List Char × Cursor :=
  let found := c.rest.takeWhile p
  (found, takeMany found.length c)

/-- A line of three equal signs that stands alone begins here. -/
def atMarker (c : Cursor) (sign : Char) : Bool :=
  c.peek = sign && c.peekAt 1 = sign && c.peekAt 2 = sign && isGap (c.peekAt 3)

def atDocumentMarker (c : Cursor) : Bool := c.atMarker '-' || c.atMarker '.'

/-- What was passed before the end of a line or some content. -/
structure Gap where
  tabs : Bool := false
  spaces : Bool := false

/-- Over blanks and a comment, which must have a blank before it. -/
def skipGapFrom (tabs : Bool) : (fuel : Nat) → Gap → Cursor → Option (Gap × Cursor)
  | 0, gap, c => some (gap, c)
  | fuel + 1, gap, c =>
    if c.peek = ' ' then skipGapFrom tabs fuel { gap with spaces := true } c.skip
    else if c.peek = '\t' ∧ tabs then skipGapFrom tabs fuel { gap with tabs := true } c.skip
    else if c.peek = '#' then
      if gap.tabs || gap.spaces then some (gap, c.toLineEnd) else none
    else some (gap, c)

def skipGap (c : Cursor) (tabs : Bool) : Option (Gap × Cursor) :=
  skipGapFrom tabs c.rest.length {} c

end Cursor

end TreeListing.Yaml
