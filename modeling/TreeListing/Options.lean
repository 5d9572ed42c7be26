import TreeListing.SiblingOrder

/-!
What a user can choose about a listing.
-/
namespace TreeListing

structure Options where
  /-- a relative output path starts from the working folder, not from the first folder listed -/
  relToCwd : Bool := false
  /-- the output file is continued, not replaced -/
  append : Bool := false
  header : String := ""
  footer : String := ""
  /-- a pattern given for a kind of line takes the place of its usual pattern; an empty one drops
  the kind -/
  filePattern? : Option String := none
  folderPattern? : Option String := none
  folderEndPattern? : Option String := none
  rootPattern? : Option String := none
  ellipsisPattern? : Option String := none
  layout : Layout := .plain
  /-- the level of the folder that is listed -/
  startLevel : Nat := 0
  /-- how deep a folder may be that is listed; no limit if zero -/
  maxDepth : Nat := 20
  showIndent : Bool := true
  indent : String := " "
  newline : String := "\n"
  /-- properties that every record has beside those of its pattern -/
  properties : List String := []
  showFolders : Bool := true
  showFiles : Bool := true
  excludes? : Option (Item → Bool) := none
  filterHidden : Bool := false
  grouping : Grouping := .filesFirst
  sortKey? : Option (Item → String) := none
  nameType : NameType := .name
  rootNameType : NameType := .dot
  showSize : Bool := false
  showDate : Bool := false
  dateType : DateType := .newest
  dateFormat : String := "%Y%m%d%H%M%S"
  showHash : Bool := false
  showEllipsis : Bool := false
  ellipsis : String := "..."
  showHidden : Bool := false
  hidden : String := "*"
deriving Inhabited

namespace Options

def excludingNames (names : List String) (i : Item) : Bool := names.contains i.name

def order (o : Options) : SiblingOrder := ⟨o.grouping, o.sortKey?⟩

/-- The item is left out of a listing, with all that is in it. -/
def leavesOut (o : Options) (i : Item) : Bool :=
  (o.filterHidden && i.isHidden) || (o.excludes?.map (· i)).getD false

/-- A folder this deep is not listed. -/
def limits (o : Options) (depth : Nat) : Bool := 0 < o.maxDepth && o.maxDepth ≤ depth

def extension (o : Options) : String :=
  match o.layout with
  | .plain => ".txt"
  | .xml => ".xml"

end Options

end TreeListing
