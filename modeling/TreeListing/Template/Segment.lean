import TreeListing.Text.Quoted

/-!
Patterns with names between braces, cut into literal text and names. Doubled braces stand for
braces.
-/
namespace TreeListing

inductive PatternError where
  | unknownProperty (name pattern : String)
  | positionalPlaceholder (pattern : String)
  | unsupportedFormatSpec (field pattern : String)
  | unbalancedBrace (pattern : String)
  | invalidPattern (pattern : String)
deriving DecidableEq

def PatternError.message : PatternError → String
  | unknownProperty name pattern =>
    "Unknown property '" ++ name ++ "' in pattern " ++ Text.quoted pattern
  | positionalPlaceholder pattern =>
    "Positional placeholders are not supported in pattern " ++ Text.quoted pattern
  | unsupportedFormatSpec field pattern =>
    "Placeholder '\x7b" ++ field ++ "\x7d' uses an unsupported format spec in pattern " ++
      Text.quoted pattern
  | unbalancedBrace pattern => "Unbalanced brace in pattern " ++ Text.quoted pattern
  | invalidPattern pattern => "Pattern " ++ Text.quoted pattern ++ " does not produce a valid matcher"

namespace Template

inductive Segment where
  | literal (text : List Char)
  | field (name : String)
deriving DecidableEq

inductive BraceFault where
  | unbalanced
  | positional
  | formatSpec (field : String)
deriving DecidableEq

def BraceFault.toError (pattern : String) : BraceFault → PatternError
  | unbalanced => .unbalancedBrace pattern
  | positional => .positionalPlaceholder pattern
  | formatSpec field => .unsupportedFormatSpec field pattern

namespace Segment

def ofLiteral (text : List Char) : List Segment := if text = [] then [] else [literal text]

def ofField (text : List Char) : Except BraceFault Segment :=
  if text.contains ':' || text.contains '!' then .error (.formatSpec (String.ofList text))
  else if text.all Char.isDigit then .error .positional
  else .ok (field (String.ofList text))

/-- Cuts a pattern: `text` is the literal text before it and, within braces, `name?` the name so
far. -/
def cutFrom (text : List Char) (name? : Option (List Char)) :
    List Char → Except BraceFault (List Segment)
  | [] =>
    match name? with
    | some _ => .error .unbalanced
    | none => .ok (ofLiteral text)
  | c :: rest =>
    match name? with
    | some name =>
      if c = '\x7d' then do
        let field ← ofField name
        let others ← cutFrom [] none rest
        return ofLiteral text ++ field :: others
      else if c = '\x7b' then .error .unbalanced
      else cutFrom text (some (name ++ [c])) rest
    | none =>
      if c = '\x7b' then
        match rest with
        | '\x7b' :: rest => cutFrom (text ++ [c]) none rest
        | rest => cutFrom text (some []) rest
      else if c = '\x7d' then
        match rest with
        | '\x7d' :: rest => cutFrom (text ++ [c]) none rest
        | _ => .error .unbalanced
      else cutFrom (text ++ [c]) none rest

/-- The segments of a pattern. No literal among them is empty, and no two stand side by side. -/
def ofPattern (pattern : List Char) : Except BraceFault (List Segment) := cutFrom [] none pattern

end Segment

end Template

end TreeListing
