import TreeListing.Lister

/-!
What comes from a side that is read: records, failures, and warnings on the way.
-/
namespace TreeListing

inductive Warning where
  | unparsed (line : Nat) (text : String)
  /-- the line fits several templates, and the first one counts -/
  | ambiguous (line : Nat) (text : String) (first : Kind) (others : List Kind)
  | pathless (line : Nat) (text : String)
  /-- two entries stand for each other although their paths differ -/
  | pathsDiffer (old new : Path)
deriving DecidableEq

def Warning.message : Warning → String
  | unparsed line text => "Failed to parse line " ++ toString line ++ ": " ++ text
  | ambiguous line text first others =>
    "Ambiguous line " ++ toString line ++ ": " ++ text ++ " (" ++ first.name ++ "/"
      ++ "/".intercalate (others.map (·.name)) ++ ")"
  | pathless line text => "Cannot recover the path of line " ++ toString line ++ ": " ++ text
  | pathsDiffer old new => "Aligned entries differ in path: " ++ old.text ++ " and " ++ new.text

inductive Signal where
  | record (r : Record)
  | failure (e : ListError)
  | warning (w : Warning)
deriving DecidableEq

namespace Signal

/-- A record or what came in its place. -/
abbrev Outcome := Except ListError Record

def ofOutcome : Outcome → Signal
  | .ok r => record r
  | .error e => failure e

def outcome? : Signal → Option Outcome
  | record r => some (.ok r)
  | failure e => some (.error e)
  | warning _ => none

def warning? : Signal → Option Warning
  | warning w => some w
  | _ => none

def record? : Signal → Option Record
  | record r => some r
  | _ => none

def failure? : Signal → Option ListError
  | failure e => some e
  | _ => none

end Signal

end TreeListing
