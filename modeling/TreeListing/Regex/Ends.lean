import TreeListing.Regex.Basic
import Std.Data.HashSet

/-!
Where the matches of a regular expression end, in order of preference.
-/
namespace TreeListing.Regex

/-- A piece of a text: what follows where it begins, and how long it is. -/
structure Piece where
  start : List Char
  length : Nat
deriving DecidableEq

def Piece.text (p : Piece) : List Char := p.start.take p.length

/-- A place in a text: how much lies before it, what follows, and the groups passed so far, the
latest first. -/
structure Place where
  before : Nat
  rest : List Char
  groups : List (String × Piece) := []
deriving DecidableEq

namespace Place

def group? (p : Place) (name : String) : Option (List Char) := (p.groups.lookup name).map Piece.text

/-- Keeps the first of the places with equally much text before them: what comes after a place
depends on nothing else, so a later one never wins. -/
def distinctFrom (seen : Std.HashSet Nat) : List Place → List Place
  | [] => []
  | p :: ps =>
    if seen.contains p.before then distinctFrom seen ps
    else p :: distinctFrom (seen.insert p.before) ps

def distinct : List Place → List Place
  | [] => []
  | [p] => [p]
  | ps => distinctFrom ∅ ps

def run (set : CharSet) (before : Nat) (groups : List (String × Piece)) : List Char → List Place
  | [] => []
  | c :: rest =>
    if set.contains c then ⟨before + 1, rest, groups⟩ :: run set (before + 1) groups rest else []

/-- The places after any number of further rounds; a further round takes text, so `fuel` rounds are
enough when so many characters are left. -/
def rounds (greedy : Bool) (once : Place → List Place) : (fuel : Nat) → Place → List Place
  | 0, p => [p]
  | fuel + 1, p =>
    let more := ((once p).filter (p.before < ·.before)).flatMap (rounds greedy once fuel)
    distinct (if greedy then more ++ [p] else p :: more)

end Place

/-- The places where a match that begins at the given place can end, the preferred one first. -/
def ends : Regex → Place → List Place
  | empty, p => [p]
  | chars set, p =>
    match p.rest with
    | c :: rest => if set.contains c then [⟨p.before + 1, rest, p.groups⟩] else []
    | [] => []
  | atStart, p => if p.before = 0 then [p] else []
  | atEnd, p => if p.rest.isEmpty then [p] else []
  | seq a b, p => Place.distinct ((ends a p).flatMap (ends b))
  | alt a b, p => Place.distinct (ends a p ++ ends b p)
  | plus greedy (chars set), p =>
    let run := Place.run set p.before p.groups p.rest
    if greedy then run.reverse else run
  | plus greedy a, p =>
    Place.distinct ((ends a p).flatMap fun q =>
      if p.before < q.before then Place.rounds greedy (ends a) q.rest.length q else [q])
  | maybe greedy a, p =>
    Place.distinct (if greedy then ends a p ++ [p] else p :: ends a p)
  | group name a, p =>
    (ends a p).map fun q =>
      { q with groups := (name, ⟨p.rest, q.before - p.before⟩) :: q.groups }

/-- The preferred match at the first place of the text, with `before` characters in front, where
there is one. -/
def searchFrom (r : Regex) (before : Nat) : List Char → Option Place
  | [] => (ends r ⟨before, [], []⟩).head?
  | c :: rest => (ends r ⟨before, c :: rest, []⟩).head?.or (searchFrom r (before + 1) rest)

def search (r : Regex) (text : List Char) : Option Place := searchFrom r 0 text

end TreeListing.Regex
