/-!
Writing a text so that a regular expression means exactly that text.
-/
namespace TreeListing.Regex

/-- The characters that mean something else than themselves. -/
def metaChars : List Char :=
  ['\\', '.', '+', '*', '?', '(', ')', '|', '[', ']', '\x7b', '\x7d', '^', '$', '#', '&', '-', '~']

def escape (s : List Char) : List Char :=
  s.flatMap fun c => if metaChars.contains c then ['\\', c] else [c]

end TreeListing.Regex
