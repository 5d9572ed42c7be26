import TreeListing.Property
import TreeListing.Props
import TreeListing.Regex.Ends
import TreeListing.Regex.Parser
import TreeListing.Template.Segment

/-!
A pattern made ready for use. It writes the line of an item, and it recognises the lines that it
writes and finds the properties in them.
-/
namespace TreeListing

structure Template where
  pattern : String
  segments : List Template.Segment
  /-- the properties of a record: those of the pattern, then the other ones asked for, each once -/
  properties : List (String × Property)
  matcher : Regex
  options : Options

namespace Template

/-- The names in a pattern, one for each place. -/
def fields (segments : List Segment) : List String :=
  segments.filterMap fun
    | .field name => some name
    | .literal _ => none

def resolve (r : Registry) : List String → Except String (List (String × Property))
  | [] => .ok []
  | name :: rest =>
    match r.get? name with
    | none => .error name
    | some property => do
      let others ← resolve r rest
      return (name, property) :: others

def groupName (index : Nat) : String := "p" ++ toString index

/-- The regular expression for the segments, as a text; `index` places come before them. -/
def bodyText (pattern : String → List Char) (index : Nat) : List Segment → List Char
  | [] => []
  | .literal text :: rest => Regex.escape text ++ bodyText pattern index rest
  | .field name :: rest =>
    "(?P<".toList ++ (groupName index).toList ++ ['>'] ++ pattern name ++ [')']
      ++ bodyText pattern (index + 1) rest

def lineText (pattern : String → List Char) (segments : List Segment) : List Char :=
  '^' :: bodyText pattern 0 segments ++ ['$']

def fragment (o : Options) (properties : List (String × Property)) (name : String) : List Char :=
  ((properties.lookup name).map (·.pattern o)).getD ".*?".toList

def compile (pattern : String) (o : Options) (r : Registry) : Except PatternError Template := do
  let segments ← (Segment.ofPattern pattern.toList).mapError (·.toError pattern)
  let names := (fields segments ++ o.properties).eraseDups
  let properties ← (resolve r names).mapError (.unknownProperty · pattern)
  match Regex.parse? (lineText (fragment o properties) segments) with
  | some matcher => return ⟨pattern, segments, properties, matcher, o⟩
  | none => throw (.invalidPattern pattern)

def placeholders (t : Template) : List String := fields t.segments

def props (t : Template) (d : Disk) (i : Item) : Except ItemError Props := do
  let values ← t.properties.mapM fun (name, property) =>
    (property.extract d t.options i).map (name, ·)
  return Props.ofList values

/-- The text of a segment; nothing for a property that is not there. -/
def Segment.render (p : Props) : Segment → List Char
  | literal text => text
  | field name => ((p.get? name).getD "").toList

def render (t : Template) (p : Props) : String :=
  String.ofList (t.segments.flatMap (Segment.render p))

def apply (t : Template) (d : Disk) (i : Item) : Except ItemError String :=
  (t.props d i).map t.render

/-- What was found at the places of the pattern; a name that has several places counts at the
first. -/
def found (placeholders : List String) (place : Regex.Place) : Props :=
  placeholders.zipIdx.foldl (fun p (name, index) =>
    if p.contains name then p
    else p.insert name (String.ofList ((place.group? (groupName index)).getD []))) .empty

/-- The properties in a line, if the line is one of the template. -/
def matchLine? (t : Template) (line : String) : Option Props :=
  (t.matcher.search line.toList).map (found t.placeholders)

def shown (t : Template) : String := "Template(" ++ Text.quoted t.pattern ++ ")"

end Template

end TreeListing
