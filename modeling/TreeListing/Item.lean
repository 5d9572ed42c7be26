import TreeListing.Disk
import TreeListing.MetroHash

/-!
An entry of a folder tree: where the tree starts and how the entry lies below that. What is known of
it beyond that is read from a disk.
-/
namespace TreeListing

inductive ItemError where
  | stat (path : Path) (cause : SystemError)
  | hash (path : Path) (cause : SystemError)
  | dateFormat (format : String)
deriving DecidableEq

def ItemError.message (d : Disk) : ItemError → String
  | stat path _ => "Failed to read metadata of " ++ d.display path
  | hash path _ => "Failed to hash the content of " ++ d.display path
  | dateFormat format => "Date format '" ++ format ++ "' cannot be rendered"

/-- The path is seen from the base, and empty for the base itself. -/
structure Item where
  base : Path
  path : Path
  depth : Nat
  isFolder : Bool
deriving DecidableEq

namespace Item

def root (base : Path) : Item := ⟨base, .empty, 0, true⟩

/-- An item of no tree, which stands for its path alone. -/
def detached (path : Path) (depth : Nat) (isFolder : Bool) : Item := ⟨.empty, path, depth, isFolder⟩

def abspath (i : Item) : Path := if i.path.text = "" then i.base else i.base.join i.path

/-- The last name of the path, else of the base. -/
def name (i : Item) : String := (i.path.fileName?.or i.base.fileName?).getD ""

def isHidden (i : Item) : Bool := i.name.toList.head? = some '.'

def child (i : Item) (d : Disk) (name : String) : Item :=
  ⟨i.base, i.path.join ⟨name⟩, i.depth + 1, d.isFolder (i.abspath.join ⟨name⟩)⟩

/-- The entries of the folder, in the order in which the system lists them; none if it is no
folder. -/
def children (i : Item) (d : Disk) : List Item :=
  if d.isFolder i.abspath then
    match d.names i.abspath with
    | .ok names => names.map (i.child d)
    | .error _ => []
  else []

def metadata (i : Item) (d : Disk) : Except ItemError Metadata :=
  (d.stat i.abspath).mapError (.stat i.abspath)

/-- The hash of the content of a regular file with these metadata, and no text for anything else. -/
def hashOf (i : Item) (d : Disk) (m : Metadata) : Except ItemError String :=
  if m.type = .file then
    ((d.content i.abspath).map MetroHash.hexDigest).mapError (.hash i.abspath)
  else .ok ""

def size (i : Item) (d : Disk) : Except ItemError Nat := (i.metadata d).map (·.size)

def modified (i : Item) (d : Disk) : Except ItemError Instant := (i.metadata d).map (·.modified)

def changed (i : Item) (d : Disk) : Except ItemError Instant := (i.metadata d).map (·.changed)

def contentHash (i : Item) (d : Disk) : Except ItemError String := i.metadata d >>= i.hashOf d

end Item

end TreeListing
