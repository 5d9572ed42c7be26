import TreeListing.Item

/-!
An item that is kept for a while. It answers from what it learned first: its metadata and its hash
are read once, and a reading that fails leaves nothing behind.
-/
namespace TreeListing

structure Node where
  item : Item
  metadata? : Option Metadata := none
  hash? : Option String := none
deriving DecidableEq

namespace Node

/-- The metadata, read from the disk unless they are known. -/
def metadata (n : Node) (d : Disk) : Except ItemError Metadata × Node :=
  match n.metadata? with
  | some m => (.ok m, n)
  | none =>
    match n.item.metadata d with
    | .ok m => (.ok m, { n with metadata? := some m })
    | .error e => (.error e, n)

def size (n : Node) (d : Disk) : Except ItemError Nat × Node :=
  let (m, n) := n.metadata d
  (m.map (·.size), n)

def modified (n : Node) (d : Disk) : Except ItemError Instant × Node :=
  let (m, n) := n.metadata d
  (m.map (·.modified), n)

/-- The hash of the content, which asks for the metadata first. -/
def contentHash (n : Node) (d : Disk) : Except ItemError String × Node :=
  match n.hash? with
  | some hash => (.ok hash, n)
  | none =>
    match n.metadata d with
    | (.error e, n) => (.error e, n)
    | (.ok m, n) =>
      match n.item.hashOf d m with
      | .ok hash => (.ok hash, { n with hash? := some hash })
      | .error e => (.error e, n)

end Node

end TreeListing
