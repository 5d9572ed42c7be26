import TreeListing.Text.Digit
import TreeListing.Yaml.Token

/-!
The values of a document. A plain text may stand for something else than itself; a text in quotes or
in a block is always itself.
-/
namespace TreeListing.Yaml

inductive Scalar where
  | null
  | boolean (b : Bool)
  | integer (n : Int)
  /-- a number of another kind, as it was written -/
  | float (text : String)
  | string (text : String)
deriving DecidableEq

inductive Node where
  | scalar (s : Scalar)
  | list (items : List Node)
  /-- keys with their values, a key that came again counting at its last place -/
  | map (pairs : List (Node × Node))
  /-- a value with a tag of its own -/
  | tagged (n : Node)
  /-- a value that its tag does not allow, or that stands for itself -/
  | invalid
deriving Inhabited

namespace Node

mutual

def same : Node → Node → Bool
  | scalar s, scalar t => s = t
  | list items, list others => sameItems items others
  | map pairs, map others => samePairs pairs others
  | tagged n, tagged other => same n other
  | invalid, invalid => true
  | _, _ => false

def sameItems : List Node → List Node → Bool
  | [], [] => true
  | n :: items, other :: others => same n other && sameItems items others
  | _, _ => false

def samePair : Node × Node → Node × Node → Bool
  | (key, value), (otherKey, otherValue) => same key otherKey && same value otherValue

def samePairs : List (Node × Node) → List (Node × Node) → Bool
  | [], [] => true
  | pair :: pairs, other :: others => samePair pair other && samePairs pairs others
  | _, _ => false

end

mutual

theorem same_iff : ∀ n other : Node, same n other ↔ n = other
  | scalar _, other => by cases other <;> simp [same]
  | list items, other => by cases other <;> simp [same, sameItems_iff items]
  | map pairs, other => by cases other <;> simp [same, samePairs_iff pairs]
  | tagged n, other => by cases other <;> simp [same, same_iff n]
  | invalid, other => by cases other <;> simp [same]

theorem sameItems_iff : ∀ items others : List Node, sameItems items others ↔ items = others
  | [], others => by cases others <;> simp [sameItems]
  | n :: items, others => by cases others <;> simp [sameItems, same_iff n, sameItems_iff items]

theorem samePair_iff : ∀ pair other : Node × Node, samePair pair other ↔ pair = other
  | (key, value), (_, _) => by simp [samePair, same_iff key, same_iff value]

theorem samePairs_iff : ∀ pairs others : List (Node × Node), samePairs pairs others ↔ pairs = others
  | [], others => by cases others <;> simp [samePairs]
  | pair :: pairs, others => by cases others <;> simp [samePairs, samePair_iff pair, samePairs_iff pairs]

end

instance : DecidableEq Node := fun n other => decidable_of_iff _ (same_iff n other)

end Node

namespace Scalar

def fits (n : Int) : Bool := -9223372036854775808 ≤ n && n ≤ 9223372036854775807

/-- The digits of a number in a base, with at most one sign in front. -/
def signed? (base : Nat) (s : List Char) : Option Int :=
  let (negative, digits) := match s with
    | '-' :: rest => (true, rest)
    | '+' :: rest => (false, rest)
    | _ => (false, s)
  match digits.mapM hexDigit? with
  | none => none
  | some values =>
    if values = [] ∨ values.any (base ≤ ·) then none
    else
      let n := values.foldl (fun n d => base * n + d) 0
      let n : Int := if negative then -n else n
      if fits n then some n else none

def integer? (s : List Char) : Option Int :=
  match s with
  | '0' :: 'x' :: digits => signed? 16 digits
  | '0' :: 'o' :: digits => signed? 8 digits
  | '+' :: digits => (signed? 10 digits).or (signed? 10 s)
  | _ => signed? 10 s

def unsign (s : List Char) : List Char :=
  match s with
  | '-' :: rest | '+' :: rest => rest
  | _ => s

def isDecimal (s : List Char) : Bool :=
  let s := unsign s
  let whole := s.takeWhile Char.isDigit
  let s := s.dropWhile Char.isDigit
  let (fraction, s) := match s with
    | '.' :: rest => (rest.takeWhile Char.isDigit, rest.dropWhile Char.isDigit)
    | _ => ([], s)
  !(whole ++ fraction).isEmpty && (match s with
    | [] => true
    | e :: rest => (e = 'e' || e = 'E') && !(unsign rest).isEmpty && (unsign rest).all Char.isDigit)

def isFloat (s : List Char) : Bool :=
  [".inf", ".Inf", ".INF", "+.inf", "+.Inf", "+.INF", "-.inf", "-.Inf", "-.INF", ".nan", ".NaN",
    ".NAN"].contains (String.ofList s) || isDecimal s

def ofPlain (text : String) : Scalar :=
  if ["~", "null", "NULL"].contains text then .null
  else if text = "true" then .boolean true
  else if text = "false" then .boolean false
  else match integer? text.toList with
    | some n => .integer n
    | none => if isFloat text.toList then .float text else .string text

/-- What a plain text stands for under one of the usual tags. -/
def ofTagged? (tag text : String) : Option Scalar :=
  match tag with
  | "bool" =>
    if text = "true" then some (.boolean true)
    else if text = "false" then some (.boolean false) else none
  | "int" => (signed? 10 text.toList).map .integer
  | "float" => if isFloat text.toList then some (.float text) else none
  | "null" => if text = "~" ∨ text = "null" then some .null else none
  | "str" => some (.string text)
  | _ => none

end Scalar

namespace Node

inductive Tag where
  | usual (name : String)
  | other
deriving DecidableEq

def usualTags : String := "tag:yaml.org,2002:"

/-- What is still to be read, and what the document has named so far. -/
structure Source where
  tokens : List Token
  /-- anchors with the numbers of their nodes, the latest first -/
  anchors : List (String × Nat) := []
  nodes : List (Nat × Node) := []
  count : Nat := 0
  handles : List (String × String) := []

abbrev Reader := StateT Source Option

def peek : Reader Token := return (← get).tokens.headD .finish

def skip : Reader Unit := modify fun s => { s with tokens := s.tokens.drop 1 }

def absent : Node := .scalar .null

def readTag (handle suffix : String) : Reader Tag := do
  match (← get).handles.lookup handle with
  | some text => return if text = usualTags then .usual suffix else .other
  | none =>
    if handle = "!!" then return .usual suffix
    else if 2 ≤ handle.length then failure
    else return .other

def nameAnchor (name : String) : Reader Nat := do
  let s ← get
  set { s with anchors := (name, s.count) :: s.anchors, count := s.count + 1 }
  return s.count

def readMarks : Reader (Option Nat × Option Tag) := do
  match ← peek with
  | .anchor name =>
    skip
    let number ← nameAnchor name
    match ← peek with
    | .tag handle suffix =>
      skip
      return (some number, some (← readTag handle suffix))
    | _ => return (some number, none)
  | .tag handle suffix =>
    skip
    let tag ← readTag handle suffix
    match ← peek with
    | .anchor name =>
      skip
      return (some (← nameAnchor name), some tag)
    | _ => return (none, some tag)
  | _ => return (none, none)

def withTag (tag? : Option Tag) (n : Node) : Node :=
  match tag? with
  | some .other => .tagged n
  | _ => n

def ofText (tag? : Option Tag) (plain : Bool) (text : String) : Node :=
  if !plain then withTag tag? (.scalar (.string text))
  else match tag? with
    | some (.usual tag) => ((Scalar.ofTagged? tag text).map .scalar).getD .invalid
    | _ => withTag tag? (.scalar (Scalar.ofPlain text))

/-- Puts a pair in at the end; an older pair with the key is taken out. -/
def insert (pairs : List (Node × Node)) (key value : Node) : List (Node × Node) :=
  pairs.filter (!·.1 == key) ++ [(key, value)]

mutual

/-- One node. In a block it may be structured by indentation, and as the value of a key it may be a
list whose entries are not indented. -/
def read (fuel : Nat) (block loose : Bool) : Reader Node :=
  match fuel with
  | 0 => failure
  | fuel + 1 => do
    if let .reference name ← peek then
      skip
      match (← get).anchors.lookup name with
      | none => failure
      | some number => return ((← get).nodes.lookup number).getD .invalid
    let (anchor?, tag?) ← readMarks
    let node ← readContent fuel block loose (anchor?.isSome || tag?.isSome) tag?
    if let some number := anchor? then
      modify fun s => { s with nodes := (number, node) :: s.nodes }
    return node

def readContent (fuel : Nat) (block loose marked : Bool) (tag? : Option Tag) : Reader Node :=
  match fuel with
  | 0 => failure
  | fuel + 1 => do
    match ← peek, block with
    | .scalar plain text, _ => skip; return ofText tag? plain text
    | .flowList, _ => skip; return withTag tag? (.list (← readFlowList fuel true []))
    | .flowMap, _ => skip; return withTag tag? (.map (← readFlowMap fuel true []))
    | .blockList, true => skip; return withTag tag? (.list (← readBlockList fuel []))
    | .blockMap, true => skip; return withTag tag? (.map (← readBlockMap fuel []))
    | .entry, _ =>
      if loose then return withTag tag? (.list (← readLooseList fuel []))
      else if marked then return ofText tag? true ""
      else failure
    | _, _ => if marked then return ofText tag? true "" else failure

def readBlockList (fuel : Nat) (items : List Node) : Reader (List Node) :=
  match fuel with
  | 0 => failure
  | fuel + 1 => do
    match ← peek with
    | .blockEnd => skip; return items
    | .entry =>
      skip
      match ← peek with
      | .entry | .blockEnd => readBlockList fuel (items ++ [absent])
      | _ => readBlockList fuel (items ++ [← read fuel true false])
    | _ => failure

def readLooseList (fuel : Nat) (items : List Node) : Reader (List Node) :=
  match fuel with
  | 0 => failure
  | fuel + 1 => do
    match ← peek with
    | .entry =>
      skip
      match ← peek with
      | .entry | .key | .value | .blockEnd => readLooseList fuel (items ++ [absent])
      | _ => readLooseList fuel (items ++ [← read fuel true false])
    | _ => return items

def readBlockMap (fuel : Nat) (pairs : List (Node × Node)) : Reader (List (Node × Node)) :=
  match fuel with
  | 0 => failure
  | fuel + 1 => do
    match ← peek with
    | .blockEnd => skip; return pairs
    | .key =>
      skip
      let key ← readBlockPart fuel
      let value ← readBlockValue fuel
      readBlockMap fuel (insert pairs key value)
    | .value =>
      let value ← readBlockValue fuel
      readBlockMap fuel (insert pairs absent value)
    | _ => failure

def readBlockPart (fuel : Nat) : Reader Node :=
  match fuel with
  | 0 => failure
  | fuel + 1 => do
    match ← peek with
    | .key | .value | .blockEnd => return absent
    | _ => read fuel true true

def readBlockValue (fuel : Nat) : Reader Node :=
  match fuel with
  | 0 => failure
  | fuel + 1 => do
    match ← peek with
    | .value => skip; readBlockPart fuel
    | _ => return absent

def readFlowList (fuel : Nat) (first : Bool) (items : List Node) : Reader (List Node) :=
  match fuel with
  | 0 => failure
  | fuel + 1 => do
    match ← peek, first with
    | .flowListEnd, _ => skip; return items
    | .comma, false =>
      skip
      if .flowListEnd = (← peek) then skip; return items
      else readFlowList fuel false (items ++ [← readFlowItem fuel])
    | _, true => readFlowList fuel false (items ++ [← readFlowItem fuel])
    | _, false => failure

def readFlowItem (fuel : Nat) : Reader Node :=
  match fuel with
  | 0 => failure
  | fuel + 1 => do
    match ← peek with
    | .key =>
      skip
      let key ← readFlowPart fuel true .flowListEnd
      let value ← readFlowValue fuel .flowListEnd
      return .map [(key, value)]
    | _ => read fuel false false

def readFlowPart (fuel : Nat) (isKey : Bool) (close : Token) : Reader Node :=
  match fuel with
  | 0 => failure
  | fuel + 1 => do
    let t ← peek
    if t = .comma ∨ t = close ∨ (isKey ∧ t = .value) then return absent
    else read fuel false false

def readFlowValue (fuel : Nat) (close : Token) : Reader Node :=
  match fuel with
  | 0 => failure
  | fuel + 1 => do
    match ← peek with
    | .value => skip; readFlowPart fuel false close
    | _ => return absent

def readFlowMap (fuel : Nat) (first : Bool) (pairs : List (Node × Node)) :
    Reader (List (Node × Node)) :=
  match fuel with
  | 0 => failure
  | fuel + 1 => do
    match ← peek, first with
    | .flowMapEnd, _ => skip; return pairs
    | .comma, false =>
      skip
      if .flowMapEnd = (← peek) then skip; return pairs
      else
        let (key, value) ← readFlowPair fuel
        readFlowMap fuel false (insert pairs key value)
    | _, true =>
      let (key, value) ← readFlowPair fuel
      readFlowMap fuel false (insert pairs key value)
    | _, false => failure

/-- A pair in braces; a node that no key sign and no colon belongs to is a key without a value. -/
def readFlowPair (fuel : Nat) : Reader (Node × Node) :=
  match fuel with
  | 0 => failure
  | fuel + 1 => do
    match ← peek with
    | .key =>
      skip
      let key ← readFlowPart fuel true .flowMapEnd
      return (key, ← readFlowValue fuel .flowMapEnd)
    | .value => return (absent, ← readFlowValue fuel .flowMapEnd)
    | _ => return (← read fuel false false, absent)

end

def readDirectives (versionSeen : Bool) : (fuel : Nat) → Reader Unit
  | 0 => failure
  | fuel + 1 => do
    match ← peek with
    | .version => if versionSeen then failure else skip; readDirectives true fuel
    | .tagHandle handle text =>
      if ((← get).handles.lookup handle).isSome then failure
      skip
      modify fun s => { s with handles := (handle, text) :: s.handles }
      readDirectives versionSeen fuel
    | _ => return

def readDocument (fuel : Nat) (signed : Bool) : Reader Node := do
  modify fun s => { s with anchors := [], nodes := [] }
  if signed then
    readDirectives false fuel
    if .documentStart ≠ (← peek) then failure
    skip
    match ← peek with
    | .version | .tagHandle _ _ | .documentStart | .documentEnd | .finish => return absent
    | _ => read fuel true false
  else read fuel true false

/-- All documents. One may begin without a sign only at first, or behind the sign of an end. -/
def readDocuments (bare : Bool) : (fuel : Nat) → Reader (List Node)
  | 0 => failure
  | fuel + 1 => do
    match ← peek with
    | .documentEnd => skip; readDocuments bare fuel
    | .finish => return []
    | t =>
      let signed := match t with
        | .version | .tagHandle _ _ | .documentStart => true
        | _ => false
      if !signed && !bare then failure
      let node ← readDocument fuel signed
      modify fun s => { s with handles := [] }
      match ← peek with
      | .documentEnd => skip; return node :: (← readDocuments true fuel)
      | .version | .tagHandle _ _ => failure
      | _ => return node :: (← readDocuments false fuel)

/-- Every token is looked at from a few nested places. -/
def fuelFor (tokens : List Token) : Nat := 8 * tokens.length + 16

/-- The documents in a text; `none` if the text is no sequence of documents. -/
def load? (text : String) : Option (List Node) := do
  let tokens ← Token.ofText? text.toList
  (readDocuments true (fuelFor tokens) |>.run { tokens }).map (·.1)

end Node

end TreeListing.Yaml
