import TreeListing.DateFormat
import TreeListing.Named
import TreeListing.Options
import TreeListing.Text.Digit

/-!
The properties that a pattern can name: what text each has for an item, and what texts it can have,
as a regular expression.
-/
namespace TreeListing

inductive Property where
  | indent
  | level
  | depth
  | name
  | relpath
  | abspath
  | hidden
  | size
  | cdate
  | mdate
  | ndate
  | hash
  /-- the same text for every item -/
  | constant (value pattern : String)
deriving DecidableEq

namespace Property

/-- The level of a depth, in the words of the machine. -/
def levelOf (startLevel depth : Nat) : Nat := (depth + startLevel) % (Text.maxWord + 1)

def dateText (format : String) (time : Instant) : Except ItemError String :=
  match DateFormat.render? format time with
  | some text => .ok text
  | none => .error (.dateFormat format)

def extract (d : Disk) (o : Options) (i : Item) : Property → Except ItemError String
  | indent => .ok (String.join (List.replicate (levelOf o.startLevel i.depth) o.indent))
  | level => .ok (toString (levelOf o.startLevel i.depth))
  | depth => .ok (toString i.depth)
  | name => .ok i.name
  | relpath => .ok i.path.text
  | abspath => .ok i.abspath.text
  | hidden => .ok (if i.isHidden then o.hidden else "")
  | size => (i.size d).map toString
  | cdate => i.changed d >>= dateText o.dateFormat
  | mdate => i.modified d >>= dateText o.dateFormat
  | ndate => do
    let changed ← i.changed d
    let modified ← i.modified d
    dateText o.dateFormat (changed.latest modified)
  | hash => i.contentHash d
  | constant value _ => .ok value

/-- The text any number of times, or at most once, as `sign` says; nothing for the empty text. -/
def repeated (text : String) (sign : Char) : List Char :=
  if text = "" then []
  else "(?:".toList ++ Regex.escape text.toList ++ [')', sign]

/-- Characters that no name and no path has in a listing. -/
def nameChars : List Char := "[^\\\\/:*?\"<>|]+?".toList
def pathChars : List Char := "[^*?\"<>|]+?".toList
def digits : List Char := "\\d+?".toList

def pattern (o : Options) : Property → List Char
  | indent => repeated o.indent '*'
  | level | depth | size => digits
  | name => nameChars
  | relpath | abspath => pathChars
  | hidden => repeated o.hidden '?'
  | cdate | mdate | ndate => DateFormat.recogniser o.dateFormat.toList
  | hash => "[0-9a-f]+".toList
  | constant _ pattern => pattern.toList

end Property

/-- The properties by their names, in the order in which they were put in last. -/
structure Registry where
  entries : List (String × Property)
deriving DecidableEq

namespace Registry

def empty : Registry := ⟨[]⟩

def core : Registry where
  entries := [
    ("indent", .indent), ("level", .level), ("depth", .depth), ("name", .name), ("relpath", .relpath),
    ("abspath", .abspath), ("hidden", .hidden), ("size", .size), ("cdate", .cdate), ("mdate", .mdate),
    ("ndate", .ndate), ("hash", .hash)]

def insert (r : Registry) (name : String) (property : Property) : Registry :=
  ⟨Named.put r.entries name property⟩

def get? (r : Registry) (name : String) : Option Property := r.entries.lookup name

def names (r : Registry) : List String := r.entries.map Prod.fst

theorem get?_insert (r : Registry) (name other : String) (property : Property) :
    (r.insert name property).get? other = if other = name then some property else r.get? other :=
  Named.lookup_put r.entries name other property

theorem names_insert (r : Registry) (name : String) (property : Property) :
    (r.insert name property).names = r.names.filter (· ≠ name) ++ [name] :=
  Named.map_fst_put r.entries name property

end Registry

end TreeListing
