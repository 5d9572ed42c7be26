import TreeListing.Text.Blank

/-!
Settings with a few named values. Every value has one proper name and perhaps others; the case of
ASCII letters does not count.
-/
namespace TreeListing

/-- A type whose values have names. -/
class Choice (α : Type) where
  /-- every value with its proper name and its other names -/
  values : List (α × String × List String)

namespace Choice

variable {α : Type} [Choice α]

def sameWord (a b : String) : Bool := a.toList.map Char.toLower = b.toList.map Char.toLower

def ofName? (name : String) : Option α :=
  ((values (α := α)).find? fun (_, proper, others) => (proper :: others).any (sameWord name)).map (·.1)

/-- The value that a text names, with blanks around the name. -/
def parse? (text : String) : Option α := ofName? (String.ofList (Text.trim text.toList))

def names (α : Type) [Choice α] : List String := (values (α := α)).map (·.2.1)

def name [DecidableEq α] (a : α) : String :=
  (((values (α := α)).find? (·.1 = a)).map (·.2.1)).getD ""

end Choice

inductive Layout where
  | plain
  | xml
deriving DecidableEq, Inhabited

instance : Choice Layout where
  values := [(.plain, "plain", []), (.xml, "xml", [])]

inductive DateType where
  /-- the later one of the times of change and of modification -/
  | newest
  | creation
  | modification
deriving DecidableEq, Inhabited

instance : Choice DateType where
  values := [(.newest, "newest", []), (.creation, "creation", []), (.modification, "modification", [])]

inductive NameType where
  | dot
  | name
  | relpath
  | abspath
deriving DecidableEq, Inhabited

instance : Choice NameType where
  values := [(.dot, "dot", []), (.name, "name", []), (.relpath, "relpath", []), (.abspath, "abspath", [])]

/-- What comes first among the entries of a folder. -/
inductive Grouping where
  | filesFirst
  | foldersFirst
  | mixed
deriving DecidableEq, Inhabited

instance : Choice Grouping where
  values := [
    (.filesFirst, "files-first", ["filesfirst", "files"]),
    (.foldersFirst, "folders-first", ["foldersfirst", "folders", "directories-first", "dirs-first"]),
    (.mixed, "mixed", [])]

end TreeListing
