import TreeListing.LinePattern
import TreeListing.Proofs.Template.Tokens

/-!
The usual patterns as rows of characters and fields. A row that is written as a pattern is cut into
segments with just these tokens, and a usual pattern is a row that is spelled out.
-/
namespace TreeListing

namespace Template

open Segment (cutFrom ofLiteral ofField)

def Token.spell : Token → List Char
  | char c => [c]
  | field name => '\x7b' :: (name.toList ++ ['\x7d'])

def spell (ts : List Token) : List Char := ts.flatMap Token.spell

@[simp]
theorem spell_append (ts us : List Token) : spell (ts ++ us) = spell ts ++ spell us :=
  List.flatMap_append

@[simp]
theorem spell_chars (w : List Char) : spell (w.map .char) = w := by
  induction w with
  | nil => rfl
  | cons c w ih => exact congrArg (c :: ·) ih

/-- A text as it has to be written in a pattern to stand for itself. -/
def doubled (w : List Char) : List Char :=
  w.flatMap fun c => if c = '\x7b' ∨ c = '\x7d' then [c, c] else [c]

/-- A text without braces can be written as it is. -/
theorem doubled_eq_self {w : List Char} (h : ∀ c ∈ w, c ≠ '\x7b' ∧ c ≠ '\x7d') : doubled w = w := by
  induction w with
  | nil => rfl
  | cons c w ih =>
    rw [List.forall_mem_cons] at h
    rw [doubled, List.flatMap_cons, if_neg (not_or.mpr h.1)]
    exact congrArg (c :: ·) (ih h.2)

def Token.written : Token → List Char
  | char c => doubled [c]
  | field name => '\x7b' :: (name.toList ++ ['\x7d'])

def written (ts : List Token) : List Char := ts.flatMap Token.written

theorem written_append (ts us : List Token) : written (ts ++ us) = written ts ++ written us :=
  List.flatMap_append

theorem written_chars (w : List Char) : written (w.map .char) = doubled w := by
  induction w with
  | nil => rfl
  | cons c w ih =>
    have hcons : doubled (c :: w) = doubled [c] ++ doubled w := by simp [doubled]
    rw [List.map_cons, hcons, ← ih]
    rfl

/-- What stands between braces in a pattern is read as the field. -/
def Token.IsReadable : Token → Prop
  | char _ => True
  | field name => (∀ c ∈ name.toList, c ≠ '\x7b' ∧ c ≠ '\x7d') ∧ ofField name.toList = .ok (.field name)

/-- What can stand in a pattern as it is. -/
def Token.IsPlain : Token → Prop
  | char c => c ≠ '\x7b' ∧ c ≠ '\x7d'
  | field name => (field name).IsReadable

theorem Token.IsPlain.isReadable {token : Token} (h : token.IsPlain) : token.IsReadable := by
  cases token with
  | char c => trivial
  | field name => exact h

theorem spell_eq_written {ts : List Token} (h : ∀ token ∈ ts, token.IsPlain) : spell ts = written ts := by
  refine List.flatMap_congr fun token hm => ?_
  cases token with
  | char c => exact (doubled_eq_self fun c' hc => List.mem_singleton.mp hc ▸ h _ hm).symm
  | field name => rfl

theorem cutFrom_name {name more : List Char} (h : ∀ c ∈ more, c ≠ '\x7b' ∧ c ≠ '\x7d')
    (text rest : List Char) :
    cutFrom text (some name) (more ++ rest) = cutFrom text (some (name ++ more)) rest := by
  induction more generalizing name with
  | nil => simp
  | cons c more ih =>
    rw [List.forall_mem_cons] at h
    rw [List.cons_append, cutFrom]
    simp only [if_neg h.1.2, if_neg h.1.1]
    rw [ih h.2, List.append_assoc, List.singleton_append]

/-- A character as it has to be written is read as itself. -/
theorem cutFrom_doubled (c : Char) (text rest : List Char) :
    cutFrom text none (doubled [c] ++ rest) = cutFrom (text ++ [c]) none rest := by
  by_cases hopen : c = '\x7b'
  · subst hopen
    conv_lhs => unfold cutFrom
    rfl
  · by_cases hclose : c = '\x7d'
    · subst hclose
      conv_lhs => unfold cutFrom
      rfl
    · rw [doubled_eq_self (by simp [hopen, hclose])]
      conv_lhs => unfold cutFrom
      simp [hopen, hclose]

theorem cutFrom_open {rest : List Char} (h : rest.head? ≠ some '\x7b') (text : List Char) :
    cutFrom text none ('\x7b' :: rest) = cutFrom text (some []) rest := by
  conv_lhs => unfold cutFrom
  simp only [if_true]
  split
  next => exact absurd rfl h
  next => rfl

/-- A name between braces ends the text before it. -/
theorem cutFrom_field {name : String} (h : (Token.field name).IsReadable) (text rest : List Char) :
    cutFrom text none ('\x7b' :: (name.toList ++ '\x7d' :: rest))
      = (cutFrom [] none rest).map fun others => ofLiteral text ++ .field name :: others := by
  have hhead : (name.toList ++ '\x7d' :: rest).head? ≠ some '\x7b' := by
    cases hn : name.toList with
    | nil => simp
    | cons c cs => simpa using (h.1 c (hn ▸ List.mem_cons_self)).1
  rw [cutFrom_open hhead, cutFrom_name h.1, List.nil_append, cutFrom]
  simp only [if_true, h.2]
  cases cutFrom [] none rest <;> rfl

/-- The segments of a row that is written as a pattern have the tokens of the row. -/
theorem tokens_of_written {ts : List Token} (h : ∀ token ∈ ts, token.IsReadable) (text : List Char) :
    ∃ segments, cutFrom text none (written ts) = .ok segments ∧
      tokens segments = text.map .char ++ ts := by
  induction ts generalizing text with
  | nil =>
    refine ⟨ofLiteral text, rfl, ?_⟩
    cases text with
    | nil => rfl
    | cons c text => simp [ofLiteral, tokens, Segment.tokens]
  | cons token ts ih =>
    rw [List.forall_mem_cons] at h
    cases token with
    | char c =>
      obtain ⟨segments, hs, ht⟩ := ih h.2 (text ++ [c])
      refine ⟨segments, ?_, by simpa using ht⟩
      exact (cutFrom_doubled c text (written ts)).trans hs
    | field name =>
      obtain ⟨segments, hs, ht⟩ := ih h.2 []
      refine ⟨ofLiteral text ++ .field name :: segments, ?_, ?_⟩
      · have hcons : written (.field name :: ts) = '\x7b' :: (name.toList ++ '\x7d' :: written ts) := by
          simp [written, Token.written]
        rw [hcons, cutFrom_field h.1, hs]
        rfl
      · have hfield : tokens (.field name :: segments) = .field name :: ts := by
          simpa [tokens, Segment.tokens] using ht
        cases text with
        | nil => exact hfield
        | cons c text =>
          rw [ofLiteral, if_neg (List.cons_ne_nil c text), List.singleton_append, tokens,
            List.flatMap_cons]
          exact congrArg _ hfield

end Template

namespace LinePattern

open Template (Token spell)

def charTokens (text : String) : List Token := text.toList.map .char

def partTokens (shown : Bool) (ts : List Token) : List Token := if shown then ts else []

def namedTokens (name : String) : List Token :=
  charTokens (" " ++ name ++ "=\"") ++ [.field name] ++ charTokens "\""

def listed : List String → List Token
  | [] => []
  | [name] => [.field name]
  | name :: rest => .field name :: .char ',' :: listed rest

theorem listed_cons_cons (name other : String) (rest : List String) :
    listed (name :: other :: rest) = .field name :: .char ',' :: listed (other :: rest) := rfl

/-- The names of the details of a file. -/
def details (o : Options) : List String :=
  (if o.showSize then ["size"] else []) ++ (if o.showDate then [dateOf o.dateType] else [])
    ++ (if o.showHash then ["hash"] else [])

/-- The name by which the entries of a kind are called, and the mark of hidden ones. -/
def headings (o : Options) (nameType : NameType) : List String :=
  (nameOf nameType).toList ++ (if o.showHidden then ["hidden"] else [])

/-- How a line of the kind calls its entry. -/
def nameTypeOf (o : Options) : Kind → NameType
  | .file | .folder => o.nameType
  | .root => o.rootNameType
  | .folderEnd | .ellipsis => .dot

/-- The attributes of the element of a kind. -/
def attributeNames (o : Options) : Kind → List String
  | .file => headings o o.nameType ++ details o
  | .folder => headings o o.nameType
  | .root => headings o o.rootNameType
  | .folderEnd | .ellipsis => []

/-- How the element of a kind begins. -/
def tag : Kind → String
  | .file => "<File"
  | .folder | .root => "<Folder"
  | .folderEnd => "</Folder>"
  | .ellipsis => "<Ellipsis/>"

def tail : Kind → String
  | .file => "/>"
  | .folder | .root => ">"
  | .folderEnd | .ellipsis => ""

def element (o : Options) (kind : Kind) : List Token :=
  charTokens (tag kind) ++ (attributeNames o kind).flatMap namedTokens ++ charTokens (tail kind)

/-- The name of an entry in the plain layout; a dot when it has none. -/
def plainName (nameType : NameType) : List Token :=
  match nameOf nameType with
  | some name => [.field name]
  | none => [.char '.']

def plainHeading (o : Options) (nameType : NameType) : List Token :=
  plainName nameType ++ partTokens o.showHidden [.field "hidden"]

def plainBody (o : Options) : Kind → List Token
  | .file => plainHeading o o.nameType
    ++ partTokens (!(details o).isEmpty) (charTokens " [" ++ listed (details o) ++ [.char ']'])
  | .folder => .char '<' :: (plainHeading o o.nameType ++ [.char '>'])
  | .root => .char '<' :: (plainHeading o o.rootNameType ++ [.char '>'])
  | .folderEnd => []
  | .ellipsis => charTokens o.ellipsis

def body (o : Options) (kind : Kind) : List Token :=
  match o.layout with
  | .plain => plainBody o kind
  | .xml => element o kind

/-- The characters and fields of the usual pattern of a kind. -/
def lineTokens (o : Options) (kind : Kind) : List Token :=
  partTokens o.showIndent [.field "indent"] ++ body o kind ++ charTokens o.newline

@[simp]
theorem spell_charTokens (text : String) : spell (charTokens text) = text.toList :=
  Template.spell_chars text.toList

@[simp]
theorem spell_partTokens (shown : Bool) (ts : List Token) (text : String) (h : spell ts = text.toList) :
    spell (partTokens shown ts) = (part shown text).toList := by
  cases shown with
  | false => rfl
  | true => exact h

@[simp]
theorem spell_nil : spell [] = [] := rfl

@[simp]
theorem spell_char (c : Char) (ts : List Token) : spell (.char c :: ts) = c :: spell ts := rfl

@[simp]
theorem spell_field (name : String) (ts : List Token) :
    spell (.field name :: ts) = (field name).toList ++ spell ts := by
  simp [spell, Token.spell, field]

@[simp]
theorem spell_namedTokens (name : String) : spell (namedTokens name) = (named name).toList := by
  simp [namedTokens, named]

theorem spell_listed (names : List String) :
    spell (listed names) = (",".intercalate (names.map field)).toList := by
  induction names with
  | nil => simp [listed, spell]
  | cons name rest ih =>
    cases rest with
    | nil => simp [listed]
    | cons other rest =>
      rw [listed_cons_cons, spell_field, spell_char, ih]
      simp only [List.map_cons]
      rw [String.intercalate_cons_cons]
      simp

theorem map_field_details (o : Options) : (details o).map field
    = (if o.showSize then [field "size"] else []) ++ (if o.showDate then [field (dateOf o.dateType)] else [])
      ++ (if o.showHash then [field "hash"] else []) := by
  rw [details]
  cases o.showSize <;> cases o.showDate <;> cases o.showHash <;> rfl

theorem spell_part_field (shown : Bool) (name : String) :
    spell (partTokens shown [.field name]) = (part shown (field name)).toList :=
  spell_partTokens _ _ _ (by simp)

theorem spell_line {o : Options} {text : String} {ts : List Token} (h : spell ts = text.toList) :
    (line o text).toList
      = spell (partTokens o.showIndent [.field "indent"] ++ ts ++ charTokens o.newline) := by
  simp [line, h, spell_part_field]

theorem spell_headings (o : Options) (nameType : NameType) :
    spell ((headings o nameType).flatMap namedTokens)
      = (namePart .xml nameType ++ part o.showHidden (named "hidden")).toList := by
  cases hn : nameOf nameType <;> cases hs : o.showHidden <;> simp [headings, namePart, hn, hs, part]

theorem spell_details (o : Options) : spell ((details o).flatMap namedTokens)
    = (part o.showSize (named "size") ++ part o.showDate (named (dateOf o.dateType))
      ++ part o.showHash (named "hash")).toList := by
  cases hs : o.showSize <;> cases hd : o.showDate <;> cases hh : o.showHash <;>
    simp [details, part, hs, hd, hh]

theorem spell_plainHeading (o : Options) (nameType : NameType) :
    spell (plainHeading o nameType)
      = (namePart .plain nameType ++ part o.showHidden (field "hidden")).toList := by
  cases hn : nameOf nameType <;> simp [plainHeading, plainName, namePart, hn, spell_part_field]

theorem spell_folder (o : Options) (nameType : NameType) {ts : List Token}
    (ht : ts = match o.layout with
      | .plain => .char '<' :: (plainHeading o nameType ++ [.char '>'])
      | .xml => charTokens "<Folder" ++ (headings o nameType).flatMap namedTokens ++ charTokens ">") :
    (folder o nameType).toList
      = spell (partTokens o.showIndent [.field "indent"] ++ ts ++ charTokens o.newline) := by
  cases hx : o.layout with
  | plain =>
    simp only [hx] at ht
    rw [folder, hx]
    exact spell_line (by simp [ht, spell_plainHeading])
  | xml =>
    simp only [hx] at ht
    rw [folder, hx]
    exact spell_line (by simp [ht, spell_headings])

theorem spell_file (o : Options) : (file o).toList = spell (lineTokens o .file) := by
  cases hx : o.layout with
  | plain =>
    rw [file, lineTokens, body, hx]
    refine spell_line ?_
    have hdetails : ((if o.showSize then [field "size"] else [])
        ++ (if o.showDate then [field (dateOf o.dateType)] else [])
        ++ (if o.showHash then [field "hash"] else [])).isEmpty = (details o).isEmpty := by
      rw [← map_field_details, List.isEmpty_map]
    simp only
    rw [hdetails, ← map_field_details, plainBody, Template.spell_append, spell_plainHeading]
    have hpart := spell_partTokens (!(details o).isEmpty)
      (charTokens " [" ++ listed (details o) ++ [.char ']'])
      (" [" ++ ",".intercalate ((details o).map field) ++ "]") (by simp [spell_listed])
    rw [hpart]
    simp
  | xml =>
    rw [file, lineTokens, body, hx]
    refine spell_line ?_
    simp [element, attributeNames, tag, tail, spell_headings, spell_details]

theorem spell_usual? {o : Options} {kind : Kind} {pattern : String} (h : usual? o kind = some pattern) :
    pattern.toList = spell (lineTokens o kind) := by
  cases kind with
  | file =>
    rw [usual?] at h
    split at h
    next => exact Option.some.inj h ▸ spell_file o
    next => cases h
  | folder =>
    rw [usual?] at h
    split at h
    next => exact Option.some.inj h ▸ spell_folder o o.nameType (by rw [body]; cases o.layout <;> rfl)
    next => cases h
  | folderEnd =>
    rw [usual?] at h
    split at h
    next hx =>
      rw [← Option.some.inj h]
      exact spell_line (by simp [body, hx.1, element, attributeNames, tag, tail])
    next => cases h
  | root =>
    rw [usual?] at h
    split at h
    next =>
      exact Option.some.inj h ▸ spell_folder o o.rootNameType (by rw [body]; cases o.layout <;> rfl)
    next => cases h
  | ellipsis =>
    rw [usual?] at h
    split at h
    next =>
      rw [← Option.some.inj h]
      refine spell_line ?_
      cases hx : o.layout with
      | plain => simp [body, hx, plainBody]
      | xml => simp [body, hx, element, attributeNames, tag, tail]
    next => cases h

end LinePattern

end TreeListing
