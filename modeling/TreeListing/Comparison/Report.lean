import TreeListing.Comparison.Entry

/-!
The lines that a comparison is shown by: a symbol, the kind and the path, in color if asked for.
-/
namespace TreeListing.Comparison

def Diff.color : Diff → String
  | kept => "2"
  | changed => "33"
  | added => "32"
  | deleted => "31"

def padRight (width : Nat) (s : String) : String :=
  s ++ String.ofList (List.replicate (width - s.length) ' ')

/-- The line for a path of a kind; the root's empty path is a dot. -/
def plainLine (diff : Diff) (kind : Kind) (path : Path) : String :=
  String.singleton diff.symbol ++ " " ++ padRight 9 kind.name ++ " "
    ++ (if path.text = "" then "." else path.text)

/-- The text with the style put in again wherever the text itself ends all styles. -/
def restyled (style : List Char) : List Char → List Char
  | '\x1b' :: '[' :: '0' :: 'm' :: rest =>
    '\x1b' :: '[' :: '0' :: 'm' :: (style ++ restyled style rest)
  | c :: rest => c :: restyled style rest
  | [] => []

def line (color : Bool) (diff : Diff) (kind : Kind) (path : Path) : String :=
  let text := plainLine diff kind path
  let style := "\x1b[" ++ diff.color ++ "m"
  if color then style ++ String.ofList (restyled style.toList text.toList) ++ "\x1b[0m" else text

end TreeListing.Comparison
