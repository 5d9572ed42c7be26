import TreeListing.Medium
import TreeListing.Walk

/-!
Writing the listings of folders, one after the other, between a header and a footer.
-/
namespace TreeListing

variable {σ : Type}

namespace Listing

def writeText (m : Medium σ) (text : String) (s : σ) : Except ListError Unit × σ :=
  let (result, s) := m.write (Text.encode text) s
  (result.mapError .writeFailed, s)

def writeOptional (m : Medium σ) (text : String) (s : σ) : Except ListError Unit × σ :=
  if text = "" then (.ok (), s) else writeText m text s

end Listing

/-- Does the tasks of a walk and writes the line of every record; the number of lines, `count` of
them before. It gives `none` when the tasks never end. -/
def Lister.writeTasks (l : Lister) (m : Medium σ) : (count : Nat) → List Walk.Task → σ →
    Option (Except ListError Nat × σ)
  | count, [], s => some (.ok count, s)
  | count, task :: rest, s =>
    let (outcome?, rest) := Walk.perform (m.disk s) l task rest
    match outcome? with
    | none => l |>.writeTasks m count rest s
    | some (.error e) => some (.error e, s)
    | some (.ok r) =>
      match Listing.writeText m (l.line r) s with
      | (.error e, s) => some (.error e, s)
      | (.ok (), s) => l |>.writeTasks m (count + 1) rest s
partial_fixpoint

namespace Listing

/-- Writes the listings of the folders; of one that never ends nothing is written. -/
def writeFolders (m : Medium σ) (l : Lister) :
    (count : Nat) → List Path → σ → Except ListError Nat × σ
  | count, [], s => (.ok count, s)
  | count, folder :: rest, s =>
    match Walk.start (m.disk s) folder with
    | .error e => (.error e, s)
    | .ok tasks =>
      match (l.writeTasks m count tasks s).getD (.ok count, s) with
      | (.error e, s) => (.error e, s)
      | (.ok count, s) => writeFolders m l count rest s

/-- Writes header, listings and footer; the number of lines. -/
def write (m : Medium σ) (l : Lister) (folders : List Path) (s : σ) : Except ListError Nat × σ :=
  match writeOptional m l.options.header s with
  | (.error e, s) => (.error e, s)
  | (.ok (), s) =>
    match writeFolders m l 0 folders s with
    | (.error e, s) => (.error e, s)
    | (.ok count, s) =>
      match writeOptional m l.options.footer s with
      | (.error e, s) => (.error e, s)
      | (.ok (), s) =>
        match m.flush s with
        | (.error e, s) => (.error (.writeFailed e), s)
        | (.ok (), s) => (.ok count, s)

end Listing

end TreeListing
