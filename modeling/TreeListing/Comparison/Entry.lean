import TreeListing.Record
import TreeListing.SiblingOrder

/-!
What a comparison of two listings says of one entry, and how two records are compared.
-/
namespace TreeListing.Comparison

inductive Diff where
  /-- the entry is on both sides -/
  | kept
  /-- the entry is on both sides with different content -/
  | changed
  | added
  | deleted
deriving DecidableEq, Inhabited

namespace Diff

def all : List Diff := [kept, changed, added, deleted]

def name : Diff → String
  | kept => "match"
  | changed => "change"
  | added => "addition"
  | deleted => "deletion"

def symbol : Diff → Char
  | kept => '='
  | changed => '~'
  | added => '+'
  | deleted => '-'

end Diff

/-- The properties are those of the record on each side where there is one. -/
structure Entry where
  diff : Diff
  kind : Kind
  path : Path
  old? : Option Props
  new? : Option Props
deriving DecidableEq

def shared? (old new : Props) (name : String) : Option (String × String) :=
  match old.get? name, new.get? name with
  | some a, some b => some (a, b)
  | _, _ => none

/-- Two files count as the same by the strongest property that both have: by the hash alone, else by
size and date as far as they are there. -/
def filesMatch (old new : Props) : Bool :=
  match shared? old new "hash" with
  | some (a, b) => a = b
  | none =>
    (match shared? old new "size" with
      | some (a, b) => decide (a = b)
      | none => true)
    && (match (shared? old new "mdate").or (shared? old new "ndate") with
      | some (a, b) => decide (a = b)
      | none => true)

/-- The key of a record among its siblings. -/
def keyOf (o : SiblingOrder) (r : Record) : String :=
  o.key (.detached r.path (r.depth?.getD 0) r.kind.isFolderLike)

def compareSiblings (o : SiblingOrder) (old new : Record) : Ordering :=
  (SiblingOrder.compareGroups o.grouping old.kind.isFolderLike new.kind.isFolderLike).then
    (match old.name?, new.name? with
      | some a, some b => if o.key?.isSome then compare (keyOf o old) (keyOf o new) else compare a b
      | _, _ => .eq)

/-- Which of two records comes first: the deeper one, for it lies in a folder that the other side
has left or does not have; roots stand for each other whatever their names. -/
def compareRecords (o : SiblingOrder) (old new : Record) : Ordering :=
  match old.depth?, new.depth? with
  | some a, some b =>
    if a ≠ b then compare b a
    else if a = 0 ∧ old.kind.isFolderLike ∧ new.kind.isFolderLike then .eq
    else compareSiblings o old new
  | _, _ => compareSiblings o old new

end TreeListing.Comparison
