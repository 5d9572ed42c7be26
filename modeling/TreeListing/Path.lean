/-!
Slash-separated paths. A path is kept as it was written; what it means is its list of components.
-/
namespace TreeListing

structure Path where
  text : String
deriving DecidableEq, Inhabited

namespace Path

inductive Component where
  | root
  | here
  | up
  | name (text : String)
deriving DecidableEq

/-- The empty path, which stands for the place that others are relative to. -/
def empty : Path := ⟨""⟩

def parts : List Char → List (List Char)
  | [] => [[]]
  | c :: rest =>
    if c = '/' then [] :: parts rest
    else match parts rest with
      | part :: others => (c :: part) :: others
      | [] => [[c]]

/-- What a part between two slashes means; a single dot and an empty part mean nothing. -/
def componentOf (part : List Char) : Option Component :=
  if part = [] ∨ part = ['.'] then none
  else if part = ['.', '.'] then some .up
  else some (.name (String.ofList part))

def isAbsolute (p : Path) : Bool := p.text.toList.head? = some '/'

/-- The components of a path. A leading dot of a relative path counts, other dots and repeated or
trailing slashes do not. -/
def components (p : Path) : List Component :=
  let ps := parts p.text.toList
  let first :=
    if p.isAbsolute then [.root]
    else if ps.head? = some ['.'] then [.here]
    else []
  first ++ ps.filterMap componentOf

def names (p : Path) : List String :=
  p.components.filterMap fun
    | .name text => some text
    | _ => none

def fileName? (p : Path) : Option String :=
  match p.components.getLast? with
  | some (.name text) => some text
  | _ => none

/-- Two paths with the same components, however they are written. -/
def same (p q : Path) : Bool := p.components = q.components

/-- The path `q` as seen from `p`: an absolute `q` replaces `p`, an empty one leaves a slash at its
end. -/
def join (p q : Path) : Path :=
  if q.isAbsolute then q
  else if p.text = "" ∨ p.text.toList.getLast? = some '/' then ⟨p.text ++ q.text⟩
  else ⟨p.text ++ "/" ++ q.text⟩

def ofSegments (segments : List String) : Path :=
  segments.foldl (fun p segment => p.join ⟨segment⟩) empty

def Component.path : Component → Path
  | root => ⟨"/"⟩
  | here => ⟨"."⟩
  | up => ⟨".."⟩
  | name text => ⟨text⟩

/-- The path without dots and repeated slashes, as seen from `cwd`; links are not followed and two
dots stay. A trailing slash and exactly two leading slashes are kept. The empty path has none. -/
def absolute? (p cwd : Path) : Option Path :=
  if p.text = "" then none
  else
    let steps := match p.components with
      | .here :: rest => rest
      | cs => cs
    let chars := p.text.toList
    let doubled := chars.take 2 = ['/', '/'] ∧ chars[2]? ≠ some '/'
    let (start, steps) :=
      if doubled then (Path.mk "//", steps.drop 1)
      else if p.isAbsolute then (empty, steps)
      else (cwd, steps)
    let full := steps.foldl (fun q c => q.join c.path) start
    some (if chars.getLast? = some '/' then full.join empty else full)

end Path

end TreeListing
