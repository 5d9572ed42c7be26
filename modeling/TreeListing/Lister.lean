import TreeListing.LinePattern
import TreeListing.Record
import TreeListing.Template.Basic

/-!
The templates for all kinds of lines, made ready together.
-/
namespace TreeListing

inductive ListError where
  | notADirectory (path : Path)
  | openFailed (path : Path) (cause : SystemError)
  | readFailed (line : Nat) (cause : SystemError)
  | writeFailed (cause : SystemError)
  | property (cause : ItemError)
  | template (kind : Kind) (cause : PatternError)
deriving DecidableEq

def ListError.message (d : Disk) : ListError → String
  | notADirectory path => d.display path ++ " is not a directory"
  | openFailed path _ => "Failed to open " ++ d.display path
  | readFailed line _ => "Failed to read line " ++ toString line ++ " of the listing"
  | writeFailed _ => "Failed to write the listing"
  | property _ => "Failed to extract the properties of an entry"
  | template kind _ => "Invalid " ++ kind.name ++ " template"

/-- A kind without a template is neither written nor read. -/
structure Lister where
  options : Options
  file? : Option Template
  folder? : Option Template
  folderEnd? : Option Template
  root? : Option Template
  ellipsis? : Option Template

namespace Lister

def template? (l : Lister) : Kind → Option Template
  | .file => l.file?
  | .folder => l.folder?
  | .folderEnd => l.folderEnd?
  | .root => l.root?
  | .ellipsis => l.ellipsis?

def compileKind (o : Options) (r : Registry) (kind : Kind) : Except ListError (Option Template) :=
  match o.pattern? kind with
  | none => .ok none
  | some pattern => ((Template.compile pattern o r).map some).mapError (.template kind)

def compile (o : Options) (r : Registry) : Except ListError Lister := do
  let file ← compileKind o r .file
  let folder ← compileKind o r .folder
  let folderEnd ← compileKind o r .folderEnd
  let root ← compileKind o r .root
  let ellipsis ← compileKind o r .ellipsis
  return ⟨o, file, folder, folderEnd, root, ellipsis⟩

/-- Every folder has a line at its start and one at its end, so lines can be counted for the
depth. -/
def closesFolders (l : Lister) : Bool := l.folder?.isSome && l.folderEnd?.isSome

def record? (l : Lister) (d : Disk) (kind : Kind) (i : Item) : Except ListError (Option Record) :=
  match l.template? kind with
  | none => .ok none
  | some t =>
    ((t.props d i).map fun props => some ⟨kind, i.path, some i.depth, props⟩).mapError .property

def line (l : Lister) (r : Record) : String := ((l.template? r.kind).map (·.render r.props)).getD ""

end Lister

end TreeListing
