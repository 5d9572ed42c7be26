import TreeListing.Proofs.Lister
import TreeListing.Proofs.Regex.Parser

/-!
A pattern as a row of characters and fields, and what it is made into: an anchored expression with
one item for each of them. How the literal text of a pattern is cut into segments plays no role.
-/
namespace TreeListing.Template

/-- A character of the literal text of a pattern, or a field. -/
inductive Token where
  | char (c : Char)
  | field (name : String)
deriving DecidableEq

def Segment.tokens : Segment → List Token
  | literal text => text.map .char
  | field name => [.field name]

/-- The characters and fields of a pattern. -/
def tokens (segments : List Segment) : List Token := segments.flatMap Segment.tokens

def Token.field? : Token → Option String
  | char _ => none
  | field name => some name

def Token.render (p : Props) : Token → List Char
  | char c => [c]
  | field name => ((p.get? name).getD "").toList

theorem fields_eq (segments : List Segment) : fields segments = (tokens segments).filterMap Token.field? := by
  induction segments with
  | nil => rfl
  | cons segment rest ih =>
    have hcons : tokens (segment :: rest) = segment.tokens ++ tokens rest := rfl
    rw [hcons, List.filterMap_append, ← ih]
    cases segment with
    | literal text =>
      have hnone : (text.map Token.char).filterMap Token.field? = [] := by
        simp [List.filterMap_map, Function.comp_def, Token.field?]
      rw [Segment.tokens, hnone]
      rfl
    | field name => rfl

theorem render_eq (t : Template) (p : Props) :
    (t.render p).toList = (tokens t.segments).flatMap (Token.render p) := by
  rw [render, String.toList_ofList, tokens, List.flatMap_assoc]
  congr 1
  funext segment
  cases segment with
  | literal text => simp [Segment.render, Segment.tokens, Token.render, List.flatMap_map]
  | field name => simp [Segment.render, Segment.tokens, Token.render]

def groupText (index : Nat) (text : List Char) : List Char :=
  "(?P<".toList ++ (groupName index).toList ++ ['>'] ++ text ++ [')']

/-- The expression for the tokens, as a text. -/
def tokenText (pattern : String → List Char) (index : Nat) : List Token → List Char
  | [] => []
  | .char c :: rest => Regex.escape [c] ++ tokenText pattern index rest
  | .field name :: rest => groupText index (pattern name) ++ tokenText pattern (index + 1) rest

theorem bodyText_literal (pattern : String → List Char) (index : Nat) (text : List Char)
    (rest : List Segment) : bodyText pattern index (.literal text :: rest)
      = Regex.escape text ++ bodyText pattern index rest := rfl

theorem bodyText_field (pattern : String → List Char) (index : Nat) (name : String)
    (rest : List Segment) : bodyText pattern index (.field name :: rest)
      = groupText index (pattern name) ++ bodyText pattern (index + 1) rest := rfl

theorem tokenText_append_chars (pattern : String → List Char) (index : Nat) (text : List Char)
    (rest : List Token) :
    tokenText pattern index (text.map .char ++ rest) = Regex.escape text ++ tokenText pattern index rest := by
  induction text with
  | nil => rfl
  | cons c text ih =>
    rw [List.map_cons, List.cons_append, tokenText, ih, ← List.append_assoc]
    simp [Regex.escape]

theorem bodyText_eq (pattern : String → List Char) (index : Nat) (segments : List Segment) :
    bodyText pattern index segments = tokenText pattern index (tokens segments) := by
  induction segments generalizing index with
  | nil => rfl
  | cons segment rest ih =>
    have hcons : tokens (segment :: rest) = segment.tokens ++ tokens rest := rfl
    rw [hcons]
    cases segment with
    | literal text => rw [bodyText_literal, ih, Segment.tokens, tokenText_append_chars]
    | field name =>
      rw [bodyText_field, ih]
      rfl

/-- The items of an expression for the tokens; `body` tells what a field can be. -/
def items (body : String → Regex) (index : Nat) : List Token → List Regex
  | [] => []
  | .char c :: rest => .chars (.one c) :: items body index rest
  | .field name :: rest => .group (groupName index) (body name) :: items body (index + 1) rest

def lineRegex (body : String → Regex) (ts : List Token) : Regex :=
  Regex.concat (.atStart :: (items body 0 ts ++ [.atEnd]))

theorem toList_groupName (index : Nat) : (groupName index).toList = 'p' :: Nat.toDigits 10 index := by
  rw [groupName, String.toList_append]
  exact congrArg ('p' :: ·) Nat.toList_repr

theorem groupName_inj {i j : Nat} : groupName i = groupName j ↔ i = j := by
  refine ⟨fun h => ?_, fun h => h ▸ rfl⟩
  have hd := congrArg String.toList h
  rw [toList_groupName, toList_groupName] at hd
  rw [← Nat.ofDigitChars_ten_toDigits (n := i), (List.cons.inj hd).2, Nat.ofDigitChars_ten_toDigits]

open Regex.Parser (Leaves Reads)

theorem groupName_chars (index : Nat) :
    ∀ c ∈ (groupName index).toList, c ≠ '>' ∧ Regex.Parser.isNameChar false c = true := by
  rw [toList_groupName, List.forall_mem_cons]
  refine ⟨⟨by decide, by decide⟩, fun c hc => ?_⟩
  have hd := Nat.isDigit_of_mem_toDigits (by decide) (by decide) hc
  refine ⟨fun he => ?_, by simp [Regex.Parser.isNameChar, hd]⟩
  rw [he] at hd
  exact absurd hd (by decide)

/-- The text of the tokens is read as their items, with one more name taken for every field. -/
theorem foldlM_tokenText {pattern : String → List Char} {body : String → List Regex} {ts : List Token}
    (h : ∀ name, .field name ∈ ts → Leaves (pattern name) (body name)) (index : Nat)
    {s : Regex.Parser.State} (hs : s.mode = .plain) (hfree : ∀ i, index ≤ i → groupName i ∉ s.names) :
    ∃ names, (tokenText pattern index ts).foldlM Regex.Parser.step s
      = some { s.extend (items (fun name => Regex.concat (body name)) index ts) with names } := by
  induction ts generalizing index s with
  | nil => exact ⟨s.names, by rw [items, Regex.Parser.State.extend_nil hs]; rfl⟩
  | cons token ts ih =>
    have h' : ∀ name, .field name ∈ ts → Leaves (pattern name) (body name) :=
      fun name hm => h name (List.mem_cons_of_mem _ hm)
    cases token with
    | char c =>
      obtain ⟨names, hn⟩ := ih h' index (s := s.extend [.chars (.one c)]) rfl hfree
      refine ⟨names, ?_⟩
      rw [tokenText, List.foldlM_append, Regex.Parser.reads_escape_one c s hs]
      refine hn.trans ?_
      rw [Regex.Parser.State.extend_extend]
      rfl
    | field name =>
      have hne : (groupName index).toList ≠ [] := by simp [toList_groupName]
      have hread := Regex.Parser.reads_named (h name List.mem_cons_self) hne (groupName_chars index)
        (by simp [toList_groupName, Regex.Parser.isNameChar]) hs (by simpa using hfree index (Nat.le_refl index))
      rw [String.ofList_toList] at hread
      change (groupText index (pattern name)).foldlM _ s = _ at hread
      obtain ⟨names, hn⟩ := ih h' (index + 1)
        (s := { s.extend [.group (groupName index) (Regex.concat (body name))] with
          names := groupName index :: s.names }) rfl (fun i hi hm => by
            rcases List.mem_cons.mp hm with he | hm
            · have := groupName_inj.mp he
              omega
            · exact hfree i (by omega) hm)
      refine ⟨names, ?_⟩
      rw [tokenText, List.foldlM_append, hread]
      refine hn.trans ?_
      simp [Regex.Parser.State.extend, items]

/-- The text for a line is read as the expression for the line. -/
theorem parse?_lineText {pattern : String → List Char} {body : String → List Regex}
    {segments : List Segment}
    (h : ∀ name, .field name ∈ tokens segments → Leaves (pattern name) (body name)) :
    Regex.parse? (lineText pattern segments)
      = some (lineRegex (fun name => Regex.concat (body name)) (tokens segments)) := by
  have hstart : Regex.Parser.step {} '^' = some (Regex.Parser.State.extend {} [.atStart]) := rfl
  obtain ⟨names, hn⟩ := foldlM_tokenText h 0 (s := Regex.Parser.State.extend {} [.atStart]) rfl
    (fun i _ => List.not_mem_nil)
  have hend : ∀ s : Regex.Parser.State, s.mode = .plain →
      Regex.Parser.step s '$' = some (s.push .atEnd) := fun s hs => by
    rw [Regex.Parser.step, hs]
    rfl
  rw [Regex.parse?, lineText, List.cons_append, List.foldlM_cons, hstart, bodyText_eq]
  simp only [Option.bind_eq_bind, Option.bind_some]
  rw [List.foldlM_append, hn]
  simp only [Option.bind_eq_bind, Option.bind_some, List.foldlM_cons, List.foldlM_nil]
  rw [hend _ rfl]
  simp [Regex.Parser.State.push, Regex.Parser.State.extend, Regex.Parser.finish,
    Regex.Parser.Frame.close, Regex.choice, lineRegex]

end TreeListing.Template
