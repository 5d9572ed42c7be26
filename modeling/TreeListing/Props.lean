import TreeListing.Kind
import TreeListing.Named
import TreeListing.Path
import TreeListing.Text.Blank
import TreeListing.Text.Digit

/-!
The properties of one entry as texts, and what they say about its depth, its name and its path.
-/
namespace TreeListing

/-- Names with their values, each name once, in the order in which they were put in last. -/
structure Props where
  pairs : List (String × String) := []
  distinct : (pairs.map Prod.fst).Nodup := by simp
deriving DecidableEq

namespace Props

def empty : Props := {}

instance : Inhabited Props := ⟨empty⟩

def names (p : Props) : List String := p.pairs.map Prod.fst

def insert (p : Props) (name value : String) : Props where
  pairs := Named.put p.pairs name value
  distinct := Named.nodup_put p.distinct name value

def ofList (pairs : List (String × String)) : Props :=
  pairs.foldl (fun p pair => p.insert pair.1 pair.2) empty

def get? (p : Props) (name : String) : Option String := p.pairs.lookup name

def contains (p : Props) (name : String) : Bool := (p.get? name).isSome

def size (p : Props) : Nat := p.pairs.length

@[simp]
theorem get?_empty (name : String) : empty.get? name = none := rfl

theorem get?_insert (p : Props) (name value other : String) :
    (p.insert name value).get? other = if other = name then some value else p.get? other :=
  Named.lookup_put p.pairs name other value

theorem names_insert (p : Props) (name value : String) :
    (p.insert name value).names = p.names.filter (· ≠ name) ++ [name] :=
  Named.map_fst_put p.pairs name value

def number? (p : Props) (name : String) : Option Nat :=
  (p.get? name).bind fun value => Text.word? (Text.trim value.toList)

def minus? (a b : Nat) : Option Nat := if b ≤ a then some (a - b) else none

/-- The depth below the root: the depth itself, else the level above the start level, else the
number of whole units in the indent. -/
def depth? (p : Props) (startLevel : Nat) (indent : String) : Option Nat :=
  match p.number? "depth", p.number? "level" with
  | some depth, _ => some depth
  | none, some level => minus? level startLevel
  | none, none =>
    match p.get? "indent" with
    | some text => if indent = "" then none else minus? (text.length / indent.length) startLevel
    | none => none

/-- The name itself, else the last name of one of the paths. -/
def name? (p : Props) : Option String :=
  (p.get? "name").or
    ((p.get? "relpath").bind (Path.fileName? ⟨·⟩) |>.or ((p.get? "abspath").bind (Path.fileName? ⟨·⟩)))

/-- What is left open of the folders in `path` behind a line of the kind that leads there. -/
def openAfter (kind : Kind) (path : List String) : List String :=
  if kind.leavesFolder then path.dropLast else path

/-- The path of the entry relative to the root, and the folders that are open behind its line.
`parents` are the folders open before it, and `position?` is the depth when the properties tell
none.

A relative path among the properties is the path. Else the name goes into the open folder just above
the depth. A line without a name means the folder that is open at the depth, if a line of its kind
can. -/
def path? (p : Props) (kind : Kind) (parents : List String) (position? : Option Nat) (startLevel : Nat)
    (indent : String) : Option (Path × List String) :=
  let depth? := (p.depth? startLevel indent).or position?
  match p.get? "relpath" with
  | some relpath =>
    let segments := if depth? = some 0 then [] else (Path.mk relpath).names
    let kept := match depth? with
      | some (above + 1) => if kind.leavesFolder then segments.take above else segments
      | _ => segments
    some (⟨relpath⟩, kept)
  | none =>
    depth?.bind fun depth =>
      match p.name?, depth with
      | some _, 0 => some (.empty, [])
      | some name, above + 1 =>
        let path := parents.take above ++ [name]
        some (.ofSegments path, openAfter kind path)
      | none, depth =>
        if kind.isFolderMarker then
          some (.ofSegments (parents.take depth), match kind with
            | .folderEnd => parents.take (depth - 1)
            | .root => []
            | _ => parents.take depth)
        else none

end Props

end TreeListing
