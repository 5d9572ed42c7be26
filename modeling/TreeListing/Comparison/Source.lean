import TreeListing.Comparison.Merge
import TreeListing.Replay
import TreeListing.Walk

/-!
Comparing two places on a disk, each a folder or a file with a listing.
-/
namespace TreeListing

inductive CompareError where
  | notFound (path : Path)
  | side (cause : ListError)
deriving DecidableEq

def CompareError.message (d : Disk) : CompareError → String
  | notFound path => d.display path ++ " is neither a folder nor a listing file"
  | side _ => "Failed to read a side of the comparison"

namespace Comparison

/-- What there is at a path: the listing of a folder, or the listing that a file holds. -/
def openSource (l : Lister) (d : Disk) (path : Path) : Except CompareError (List Signal) :=
  if d.isFolder path then ((l.walk d path).map (·.map Signal.ofOutcome)).mapError .side
  else if d.isFile path then (l.replayFile d path).mapError .side
  else .error (.notFound path)

def settings (l : Lister) (skipChildren namesOnly : Bool) : Settings :=
  ⟨l.options.order, skipChildren, namesOnly⟩

def compare (l : Lister) (d : Disk) (old new : Path) (skipChildren namesOnly : Bool) :
    Except CompareError (List Turn) := do
  let old ← openSource l d old
  let new ← openSource l d new
  return run (settings l skipChildren namesOnly) (.ofSignals old new)

end Comparison

end TreeListing
