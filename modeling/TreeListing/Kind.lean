/-!
The kinds of lines in a listing.
-/
namespace TreeListing

inductive Kind where
  | file
  | folder
  | folderEnd
  /-- the folder that is listed -/
  | root
  /-- stands for what is not shown of a folder -/
  | ellipsis
deriving DecidableEq, Inhabited

namespace Kind

/-- All kinds, in the order in which their patterns are read. -/
def all : List Kind := [.file, .folder, .folderEnd, .root, .ellipsis]

/-- The kinds other than the root in the order in which a line is tried. -/
def tried : List Kind := [.folder, .file, .folderEnd, .ellipsis]

def name : Kind → String
  | file => "file"
  | folder => "dir"
  | folderEnd => "dir_close"
  | root => "root"
  | ellipsis => "ellipsis"

/-- A line of this kind is about a folder as such. -/
def isFolderLike : Kind → Bool
  | folder | folderEnd | root => true
  | file | ellipsis => false

/-- After a line of this kind the listing goes on in the folder that holds the entry. -/
def leavesFolder : Kind → Bool
  | file | folderEnd => true
  | folder | root | ellipsis => false

/-- A line of this kind may mean a folder that it does not name. -/
def isFolderMarker : Kind → Bool
  | folderEnd | ellipsis | root => true
  | file | folder => false

end Kind

end TreeListing
