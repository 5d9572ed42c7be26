import TreeListing.Calendar
import TreeListing.Path

/-!
What a disk answers when it is asked, at one moment. Links are followed in every question.
-/
namespace TreeListing

inductive SystemError where
  | notFound
  | notADirectory
  | isADirectory
  | alreadyExists
  | invalidData
  | invalidInput
  | invalidFilename
  | filesystemLoop
  | storageFull
  | other
deriving DecidableEq

inductive EntryType where
  | folder
  | file
  | other
deriving DecidableEq

structure Metadata where
  type : EntryType
  size : Nat
  modified : Instant
  changed : Instant
deriving DecidableEq

structure Disk where
  /-- the folder that relative paths start from -/
  cwd : Path
  stat : Path → Except SystemError Metadata
  /-- the names in a folder, in the order in which the system lists them -/
  names : Path → Except SystemError (List String)
  content : Path → Except SystemError (List UInt8)
  /-- the path without links and dots, if it leads somewhere -/
  canonical? : Path → Option Path

namespace Disk

def isFolder (d : Disk) (p : Path) : Bool :=
  match d.stat p with
  | .ok m => m.type = .folder
  | .error _ => false

def isFile (d : Disk) (p : Path) : Bool :=
  match d.stat p with
  | .ok m => m.type = .file
  | .error _ => false

/-- How a message shows a path: in its canonical form, else as it is seen from the working
folder. -/
def display (d : Disk) (p : Path) : String :=
  ((d.canonical? p).getD ((p.absolute? d.cwd).getD p)).text

end Disk

end TreeListing
