import TreeListing.Props

/-!
One line of a listing, whether it comes from a folder or from a text.
-/
namespace TreeListing

structure Record where
  kind : Kind
  /-- seen from the folder that is listed -/
  path : Path
  depth? : Option Nat
  props : Props
deriving DecidableEq, Inhabited

namespace Record

/-- The name among the properties, else the last name of the path. -/
def name? (r : Record) : Option String := r.props.name?.or r.path.fileName?

end Record

end TreeListing
