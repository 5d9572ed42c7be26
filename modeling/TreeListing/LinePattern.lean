import TreeListing.Kind
import TreeListing.Options

/-!
The patterns of the lines that follow from the options. Names of properties stand between braces.
-/
namespace TreeListing.LinePattern

def part (shown : Bool) (text : String) : String := if shown then text else ""

def field (name : String) : String := "\x7b" ++ name ++ "\x7d"

/-- An attribute of an element, led in by a space. -/
def named (name : String) : String := " " ++ name ++ "=\"" ++ field name ++ "\""

def nameOf : NameType → Option String
  | .dot => none
  | .name => some "name"
  | .relpath => some "relpath"
  | .abspath => some "abspath"

def dateOf : DateType → String
  | .newest => "ndate"
  | .creation => "cdate"
  | .modification => "mdate"

/-- The entry's name; a dot in the plain layout and nothing in the other one when it has none. -/
def namePart (layout : Layout) (nameType : NameType) : String :=
  match layout, nameOf nameType with
  | .plain, some name => field name
  | .plain, none => "."
  | .xml, some name => named name
  | .xml, none => ""

def line (o : Options) (body : String) : String :=
  part o.showIndent (field "indent") ++ body ++ o.newline

def file (o : Options) : String :=
  let name := namePart o.layout o.nameType
  match o.layout with
  | .plain =>
    let details := (if o.showSize then [field "size"] else [])
      ++ (if o.showDate then [field (dateOf o.dateType)] else [])
      ++ (if o.showHash then [field "hash"] else [])
    line o (name ++ part o.showHidden (field "hidden")
      ++ part (!details.isEmpty) (" [" ++ ",".intercalate details ++ "]"))
  | .xml =>
    line o ("<File" ++ name ++ part o.showHidden (named "hidden") ++ part o.showSize (named "size")
      ++ part o.showDate (named (dateOf o.dateType)) ++ part o.showHash (named "hash") ++ "/>")

def folder (o : Options) (nameType : NameType) : String :=
  let name := namePart o.layout nameType
  match o.layout with
  | .plain => line o ("<" ++ name ++ part o.showHidden (field "hidden") ++ ">")
  | .xml => line o ("<Folder" ++ name ++ part o.showHidden (named "hidden") ++ ">")

def folderEnd (o : Options) : String := line o "</Folder>"

def ellipsis (o : Options) : String :=
  line o (match o.layout with
    | .plain => o.ellipsis
    | .xml => "<Ellipsis/>")

def usual? (o : Options) : Kind → Option String
  | .file => if o.showFiles then some (file o) else none
  | .folder => if o.showFolders then some (folder o o.nameType) else none
  | .folderEnd => if o.layout = .xml ∧ o.showFolders then some (folderEnd o) else none
  | .root => if o.showFolders then some (folder o o.rootNameType) else none
  | .ellipsis => if o.showEllipsis then some (ellipsis o) else none

def given? (o : Options) : Kind → Option String
  | .file => o.filePattern?
  | .folder => o.folderPattern?
  | .folderEnd => o.folderEndPattern?
  | .root => o.rootPattern?
  | .ellipsis => o.ellipsisPattern?

end LinePattern

/-- The pattern of the lines of a kind; lines of a kind without one are neither written nor read. -/
def Options.pattern? (o : Options) (kind : Kind) : Option String :=
  match LinePattern.given? o kind with
  | some pattern => if pattern = "" then none else some pattern
  | none => LinePattern.usual? o kind

end TreeListing
