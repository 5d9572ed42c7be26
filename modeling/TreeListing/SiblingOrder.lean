import TreeListing.Choice
import TreeListing.Item
import TreeListing.Text.LowerCase

/-!
The order of the entries of one folder: the grouping first, then a key, which is the name unless
another one is given. Texts are ordered by code points.
-/
namespace TreeListing

structure SiblingOrder where
  grouping : Grouping
  /-- the key in place of the name -/
  key? : Option (Item → String)

namespace SiblingOrder

/-- The key by which upper and lower case are not told apart. -/
def ignoringCase (i : Item) : String := Text.lower i.name

def key (o : SiblingOrder) (i : Item) : String :=
  match o.key? with
  | some key => key i
  | none => i.name

def compareGroups (grouping : Grouping) (aIsFolder bIsFolder : Bool) : Ordering :=
  match grouping with
  | .filesFirst => Ord.compare aIsFolder bIsFolder
  | .foldersFirst => Ord.compare bIsFolder aIsFolder
  | .mixed => .eq

def compare (o : SiblingOrder) (a b : Item) : Ordering :=
  (compareGroups o.grouping a.isFolder b.isFolder).then (Ord.compare (o.key a) (o.key b))

/-- The items in this order; equal ones stay as they are. -/
def sort (o : SiblingOrder) (items : List Item) : List Item :=
  items.mergeSort fun a b => (o.compare a b).isLE

end SiblingOrder

end TreeListing
