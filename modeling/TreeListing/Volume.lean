import TreeListing.Disk
import TreeListing.Text.Utf8

/-!
A disk that is a value: folders, files and links in the order of their creation. `Volume.resolve`
finds the entry that a path leads to, and the operations put new entries where a path leads.
-/
namespace TreeListing

inductive Volume.Entry where
  | folder (modified? : Option Instant)
  | file (content : List UInt8) (modified? : Option Instant)
  | link (target : Path)
deriving DecidableEq

/-- What the system makes of a piece of bytes that is to be written to a file. -/
inductive Volume.Reply where
  /-- it takes so many of them at most -/
  | taken (count : Nat)
  | interrupted
  | failed (cause : SystemError)
deriving DecidableEq

/-- A place is the list of the names that lead to it from the top. A time that an entry does not
have is the time `now`. The replies are those to the next pieces that are written; behind the last
of them every piece is taken as a whole. -/
structure Volume where
  cwd : List String
  entries : List (List String × Volume.Entry)
  now : Instant
  replies : List Volume.Reply := []

namespace Volume

inductive Target where
  | entry (place : List String) (e : Entry)
  /-- the folder is there, the last name is not -/
  | vacant (place : List String)
deriving DecidableEq

def entry? (v : Volume) (place : List String) : Option Entry :=
  if place = [] then some (.folder none) else v.entries.lookup place

/-- What stays to be followed of a path; a slash at its end asks for a folder, as a dot does. -/
def segments (p : Path) : List String :=
  let names := ((Path.parts p.text.toList).filter (· ≠ [])).map String.ofList
  if p.text.toList.getLast? = some '/' then names ++ ["."] else names

def linkLimit : Nat := 40

/-- A name takes at most so many bytes, and a path fewer than so many. -/
def nameLimit : Nat := 255
def pathLimit : Nat := 4096

/-- Follows the names in `todo` from the folder `here`. A link at the end is only followed on
request. -/
def follow (v : Volume) (last : Bool) (links : Nat) (here : List String) (todo : List String) :
    Except SystemError Target :=
  match todo with
  | [] => match v.entry? here with
    | some e => .ok (.entry here e)
    | none => .error .notFound
  | name :: rest =>
    if name = "." then follow v last links here rest
    else if name = ".." then follow v last links here.dropLast rest
    else if nameLimit < name.utf8ByteSize then .error .invalidFilename
    else
      let place := here ++ [name]
      match v.entry? place with
      | none => if rest = [] then .ok (.vacant place) else .error .notFound
      | some (.folder _) => follow v last links place rest
      | some (.file content modified?) =>
        if rest = [] then .ok (.entry place (.file content modified?)) else .error .notADirectory
      | some (.link target) =>
        if rest = [] ∧ !last then .ok (.entry place (.link target))
        else match links with
          | 0 => .error .filesystemLoop
          | links + 1 =>
            if target.text = "" then .error .notFound
            else
              follow v last links (if target.isAbsolute then [] else here) (segments target ++ rest)
termination_by (links, todo.length)

def resolve (v : Volume) (last : Bool) (p : Path) : Except SystemError Target :=
  if p.text.toList.contains '\x00' then .error .invalidInput
  else if p.text = "" then .error .notFound
  else if pathLimit ≤ p.text.utf8ByteSize then .error .invalidFilename
  else follow v last linkLimit (if p.isAbsolute then [] else v.cwd) (segments p)

def find (v : Volume) (p : Path) : Except SystemError (List String × Entry) := do
  match ← v.resolve true p with
  | .entry place e => return (place, e)
  | .vacant _ => throw .notFound

def pathOf (place : List String) : Path :=
  ⟨"/" ++ "/".intercalate place⟩

/-- A folder takes one block. -/
def metadataOf (v : Volume) : Entry → Metadata
  | .folder modified? => ⟨.folder, 4096, modified?.getD v.now, v.now⟩
  | .file content modified? => ⟨.file, content.length, modified?.getD v.now, v.now⟩
  | .link target => ⟨.other, target.text.utf8ByteSize, v.now, v.now⟩

def namesAt (v : Volume) (place : List String) : List String :=
  v.entries.filterMap fun (other, _) =>
    if other.dropLast = place then other.getLast? else none

def disk (v : Volume) : Disk where
  cwd := pathOf v.cwd
  stat p := do
    let (_, e) ← v.find p
    return v.metadataOf e
  names p := do
    match ← v.find p with
    | (place, .folder _) => return v.namesAt place
    | _ => throw .notADirectory
  content p := do
    match ← v.find p with
    | (_, .file content _) => return content
    | _ => throw .isADirectory
  canonical? p := (v.find p).toOption.map fun (place, _) => pathOf place

/-- Changes entries in a way that depends on their place; none comes or goes. -/
def update (v : Volume) (change : List String → Entry → Entry) : Volume :=
  { v with entries := v.entries.map fun (place, e) => (place, change place e) }

/-- Puts an entry at a place, where the old entry was or at the end. -/
def put (v : Volume) (place : List String) (e : Entry) : Volume :=
  if (v.entries.lookup place).isSome then v.update fun other old => if other = place then e else old
  else { v with entries := v.entries ++ [(place, e)] }

def Entry.touched : Entry → Entry
  | folder _ => folder none
  | e => e

def touch (v : Volume) (place : List String) : Volume :=
  v.update fun other old => if other = place then old.touched else old

theorem lookup_update (v : Volume) (change : List String → Entry → Entry) (place : List String) :
    (v.update change).entries.lookup place = (v.entries.lookup place).map (change place) := by
  unfold update
  generalize v.entries = entries
  induction entries with
  | nil => rfl
  | cons old rest ih =>
    obtain ⟨other, e⟩ := old
    simp only [List.map_cons, List.lookup_cons]
    split
    next h => simp [beq_iff_eq.mp h]
    next => exact ih

/-- The entry that was put in is the one that is found, and no other place is touched. -/
theorem entry?_put (v : Volume) {place : List String} (h : place ≠ []) (e : Entry)
    (other : List String) :
    Volume.entry? (v.put place e) other = if other = place then some e else v.entry? other := by
  unfold entry? put
  by_cases top : other = []
  · subst top
    simp [h.symm]
  · simp only [if_neg top]
    split
    next old =>
      rw [lookup_update]
      by_cases ho : other = place
      · subst ho
        obtain ⟨e', he⟩ := Option.isSome_iff_exists.mp old
        simp [he]
      · simp [ho]
    next new =>
      by_cases ho : other = place
      · subst ho
        simp [List.lookup_append, Option.not_isSome_iff_eq_none.mp new]
      · simp [List.lookup_append, List.lookup_cons, beq_eq_false_iff_ne.mpr ho, ho]

def add (v : Volume) (place : List String) (e : Entry) : Volume :=
  (v.put place e).touch place.dropLast

/-- Makes the folders on the way of `todo` from `here`, as far as they are not there; the place that
the way leads to. -/
def makeFolders (v : Volume) (here : List String) : List String → Volume × List String
  | [] => (v, here)
  | name :: rest =>
    match v.follow true linkLimit here [name] with
    | .ok (.entry place _) => makeFolders v place rest
    | .ok (.vacant place) => makeFolders (v.add place (.folder none)) place rest
    | .error _ => (v, here)

/-- The folder that a path is in, made if it is not there, and the last name of the path. -/
def makeParents (v : Volume) (p : Path) : Volume × List String × List String :=
  let start := if p.isAbsolute then [] else v.cwd
  let names := segments p
  let (v, parent) := v.makeFolders start names.dropLast
  (v, parent, names.drop (names.length - 1))

def createFolder (v : Volume) (p : Path) : Volume :=
  (v.makeFolders (if p.isAbsolute then [] else v.cwd) (segments p)).1

def createFile (v : Volume) (p : Path) (content : List UInt8) : Volume :=
  let (v, parent, name) := v.makeParents p
  match v.follow true linkLimit parent name with
  | .ok (.entry place (.file _ _)) => v.put place (.file content none)
  | .ok (.vacant place) => v.add place (.file content none)
  | _ => v

def createLink (v : Volume) (p target : Path) : Volume :=
  let (v, parent, name) := v.makeParents p
  match v.follow false linkLimit parent name with
  | .ok (.vacant place) => v.add place (.link target)
  | _ => v

/-- Removes an entry and all that is in it; a link is removed itself. -/
def remove (v : Volume) (p : Path) : Volume :=
  match v.resolve false p with
  | .ok (.entry place _) =>
    ({ v with entries := v.entries.filter fun old => !place.isPrefixOf old.1 }).touch place.dropLast
  | _ => v

def setModified (v : Volume) (p : Path) (time : Instant) : Volume :=
  match v.find p with
  | .ok (place, .folder _) => v.put place (.folder (some time))
  | .ok (place, .file content _) => v.put place (.file content (some time))
  | _ => v

/-- Opens the file that a path leads to for writing, new if it is not there, emptied unless the
writing is to go on at its end. -/
def openOutput (v : Volume) (p : Path) (append : Bool) :
    Except SystemError (List String × Volume) := do
  let chars := p.text.toList
  let trailing := chars.getLast? = some '/'
  let bare : Path :=
    if trailing then ⟨String.ofList (chars.reverse.dropWhile (· = '/')).reverse⟩ else p
  match ← v.resolve true bare with
  | .entry place (.file content modified?) =>
    if trailing then throw .isADirectory
    return (place, v.put place (if append then .file content modified? else .file [] none))
  | .entry _ _ => throw .isADirectory
  | .vacant place =>
    if trailing then throw .isADirectory
    return (place, v.add place (.file [] none))

def appendAt (v : Volume) (place : List String) (bytes : List UInt8) : Volume :=
  match v.entry? place with
  | some (.file content _) => v.put place (.file (content ++ bytes) none)
  | _ => v

/-- Writes piece by piece at the end of the file at a place, as the replies go; the bytes that were
not taken. An interrupted piece is written again, and one of which nothing is taken is a failure. -/
def writePieces (place : List String) (replies : List Reply) (v : Volume) (bytes : List UInt8) :
    Except SystemError Unit × List UInt8 × Volume :=
  if bytes = [] then (.ok (), [], { v with replies })
  else
    match replies with
    | [] => (.ok (), [], { v.appendAt place bytes with replies := [] })
    | .interrupted :: replies => writePieces place replies v bytes
    | .failed cause :: replies => (.error cause, bytes, { v with replies })
    | .taken 0 :: replies => (.error .other, bytes, { v with replies })
    | .taken (count + 1) :: replies =>
      writePieces place replies (v.appendAt place (bytes.take (count + 1))) (bytes.drop (count + 1))

def writeAt (v : Volume) (place : List String) (bytes : List UInt8) :
    Except SystemError Unit × List UInt8 × Volume := writePieces place v.replies v bytes

end Volume

end TreeListing
