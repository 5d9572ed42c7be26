import TreeListing.Text.Blank
import TreeListing.Text.Digit

/-!
Regular expressions and what they find at one place of a text.

Of several ways to match, the first one in order of preference counts: the left branch of an
alternative before the right one, more rounds of a greedy repetition before fewer, fewer rounds of a
lazy one before more. `Regex.ends` lists the places where a match can end, the preferred one first.
-/
namespace TreeListing

inductive CharSet where
  | one (c : Char)
  | range (first last : Char)
  | digit
  | blank
  | either (a b : CharSet)
  | outside (a : CharSet)
deriving DecidableEq

namespace CharSet

def contains : CharSet → Char → Bool
  | one x, c => c = x
  | range first last, c => first ≤ c && c ≤ last
  | digit, c => Text.isDigit c
  | blank, c => Text.isBlank c
  | either a b, c => a.contains c || b.contains c
  | outside a, c => !a.contains c

/-- Every character but the line feed. -/
def dot : CharSet := outside (one '\n')

end CharSet

inductive Regex where
  | empty
  | chars (set : CharSet)
  | atStart
  | atEnd
  | seq (a b : Regex)
  /-- the left branch is preferred -/
  | alt (a b : Regex)
  /-- one round or more -/
  | plus (greedy : Bool) (a : Regex)
  /-- at most one round -/
  | maybe (greedy : Bool) (a : Regex)
  /-- a part whose text can be asked for -/
  | group (name : String) (a : Regex)
deriving DecidableEq

namespace Regex

/-- Any number of rounds. A round that takes no text is only made when it is the first one. -/
def star (greedy : Bool) (a : Regex) : Regex := maybe greedy (plus greedy a)

def concat : List Regex → Regex
  | [] => empty
  | a :: rest => rest.foldl seq a

def choice : List Regex → Regex
  | [] => empty
  | [a] => a
  | a :: rest => alt a (choice rest)

end Regex

end TreeListing
