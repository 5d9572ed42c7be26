import Mathlib.Data.List.Chain
import TreeListing.Proofs.LinePattern

/-!
The grammar of patterns. A pattern is a row of pieces: a character that is no brace, two braces of a
kind for one of them, or the name of a field between braces. No name begins with a brace, so two braces
of a kind can be read in one way only. Cutting a pattern into segments is reading it by this grammar, and
the segments write the pattern again.
-/
namespace TreeListing.Template

/-- What can stand between braces. -/
structure IsFieldName (name : List Char) : Prop where
  nonempty : name ≠ []
  noBrace : ∀ c ∈ name, c ≠ '\x7b' ∧ c ≠ '\x7d'
  noFormat : ∀ c ∈ name, c ≠ ':' ∧ c ≠ '!'
  noNumber : ∃ c ∈ name, c.isDigit = false

/-- The pattern is a row of pieces, which stand for these tokens. -/
inductive Reading : List Char → List Token → Prop
  | nil : Reading [] []
  | char {c : Char} {rest : List Char} {ts : List Token} (hc : c ≠ '\x7b' ∧ c ≠ '\x7d')
      (h : Reading rest ts) : Reading (c :: rest) (.char c :: ts)
  | opening {rest : List Char} {ts : List Token} (h : Reading rest ts) :
      Reading ('\x7b' :: '\x7b' :: rest) (.char '\x7b' :: ts)
  | closing {rest : List Char} {ts : List Token} (h : Reading rest ts) :
      Reading ('\x7d' :: '\x7d' :: rest) (.char '\x7d' :: ts)
  | field {name : String} {rest : List Char} {ts : List Token} (hn : IsFieldName name.toList)
      (h : Reading rest ts) : Reading ('\x7b' :: (name.toList ++ '\x7d' :: rest)) (.field name :: ts)

namespace Segment

/-- A text that is there, or a name that can stand between braces. -/
def IsProper : Segment → Prop
  | literal text => text ≠ []
  | field name => IsFieldName name.toList

def isLiteral : Segment → Bool
  | literal _ => true
  | field _ => false

/-- The segment as it has to be written in a pattern. -/
def written : Segment → List Char
  | literal text => doubled text
  | field name => '\x7b' :: (name.toList ++ ['\x7d'])

/-- Text is in one piece, and none of it empty. -/
structure AreProper (segments : List Segment) : Prop where
  each : ∀ segment ∈ segments, segment.IsProper
  apart : segments.IsChain fun a b => ¬(a.isLiteral = true ∧ b.isLiteral = true)

def write (segments : List Segment) : List Char := segments.flatMap written

theorem ofField_eq_ok {name : List Char} (hb : ∀ c ∈ name, c ≠ '\x7b' ∧ c ≠ '\x7d') {segment : Segment} :
    ofField name = .ok segment ↔ IsFieldName name ∧ segment = .field (String.ofList name) := by
  constructor
  · intro h
    rw [ofField] at h
    split at h
    next => cases h
    next hformat =>
      split at h
      next => cases h
      next hnumber =>
        simp only [Bool.or_eq_true, List.contains_iff_mem, not_or] at hformat
        obtain ⟨c, hm, hc⟩ : ∃ c ∈ name, c.isDigit = false := by
          simpa [List.all_eq_true] using hnumber
        refine ⟨⟨List.ne_nil_of_mem hm, hb, fun c hm => ⟨?_, ?_⟩, c, hm, hc⟩, (Except.ok.inj h).symm⟩
        · rintro rfl
          exact hformat.1 hm
        · rintro rfl
          exact hformat.2 hm
  · rintro ⟨hn, rfl⟩
    obtain ⟨c, hm, hc⟩ := hn.noNumber
    have hformat : ¬(name.contains ':' || name.contains '!') = true := by
      simp only [Bool.or_eq_true, List.contains_iff_mem, not_or]
      exact ⟨fun hm => (hn.noFormat _ hm).1 rfl, fun hm => (hn.noFormat _ hm).2 rfl⟩
    have hnumber : ¬name.all Char.isDigit = true := by
      intro hall
      rw [List.all_eq_true.mp hall c hm] at hc
      cases hc
    rw [ofField, if_neg hformat, if_neg hnumber]

section
variable {text : List Char} {name : String} {segments : List Segment}

theorem isReadable_of_isFieldName (hn : IsFieldName name.toList) : (Token.field name).IsReadable :=
  ⟨hn.noBrace, (ofField_eq_ok hn.noBrace).mpr ⟨hn, by rw [String.ofList_toList]⟩⟩

@[simp]
theorem write_append (segments others : List Segment) :
    write (segments ++ others) = write segments ++ write others := List.flatMap_append

@[simp]
theorem write_ofLiteral (text : List Char) : write (ofLiteral text) = doubled text := by
  cases text with
  | nil => rfl
  | cons c text => simp [ofLiteral, write, written]

theorem write_field (name : String) (segments : List Segment) :
    write (.field name :: segments) = '\x7b' :: (name.toList ++ '\x7d' :: write segments) := by
  simp [write, written]

theorem AreProper.nil : AreProper [] := ⟨List.forall_mem_nil _, .nil⟩

theorem AreProper.field (hn : IsFieldName name.toList) (h : AreProper segments) :
    AreProper (.field name :: segments) where
  each := List.forall_mem_cons.mpr ⟨hn, h.each⟩
  apart := List.isChain_cons.mpr ⟨fun _ _ hl => Bool.false_ne_true hl.1, h.apart⟩

/-- Text can stand before what does not start with text. -/
theorem AreProper.literal (h : AreProper segments)
    (hhead : ∀ segment ∈ segments.head?, segment.isLiteral = false) (text : List Char) :
    AreProper (ofLiteral text ++ segments) := by
  cases text with
  | nil => exact h
  | cons c text =>
    refine ⟨List.forall_mem_cons.mpr ⟨List.cons_ne_nil c text, h.each⟩,
      List.isChain_cons.mpr ⟨fun segment hm hl => ?_, h.apart⟩⟩
    rw [hhead segment hm] at hl
    exact Bool.false_ne_true hl.2

theorem AreProper.tail {segment : Segment} (h : AreProper (segment :: segments)) : AreProper segments :=
  ⟨(List.forall_mem_cons.mp h.each).2, (List.isChain_cons.mp h.apart).2⟩

theorem AreProper.behind_literal (h : AreProper (.literal text :: segments)) :
    ∀ segment ∈ segments.head?, segment.isLiteral = false := by
  intro segment hm
  simpa [isLiteral] using (List.isChain_cons.mp h.apart).1 segment hm

/-- What a pattern is cut into is proper and writes the pattern again, with the text and the part of
a name that were there before. -/
theorem write_of_cutFrom {name? : Option (List Char)} {p : List Char}
    (hname : ∀ name ∈ name?, ∀ c ∈ name, c ≠ '\x7b' ∧ c ≠ '\x7d')
    (h : cutFrom text name? p = .ok segments) : AreProper segments ∧
      write segments = doubled text ++ (name?.elim [] ('\x7b' :: ·) ++ p) := by
  fun_induction cutFrom text name? p generalizing segments
  case case1 | case4 | case9 => cases h
  case case2 text =>
    obtain rfl := Except.ok.inj h
    exact ⟨by simpa using AreProper.nil.literal (by simp) text, by simp⟩
  case case3 text rest name ih =>
    obtain ⟨segment, hs, h⟩ := bind_eq_ok.mp h
    obtain ⟨others, ho, h⟩ := bind_eq_ok.mp h
    obtain rfl := Except.ok.inj h
    obtain ⟨hn, rfl⟩ := (ofField_eq_ok (hname name rfl)).mp hs
    obtain ⟨hproper, hwrite⟩ := ih (by simp) ho
    refine ⟨(hproper.field (by simpa using hn)).literal (by simp [isLiteral]) text, ?_⟩
    simp [write_field, hwrite, doubled]
  case case5 text c rest name hclose hopen ih =>
    have hnext : ∀ c' ∈ name ++ [c], c' ≠ '\x7b' ∧ c' ≠ '\x7d' :=
      List.forall_mem_append.mpr ⟨hname name rfl, List.forall_mem_singleton.mpr ⟨hopen, hclose⟩⟩
    obtain ⟨hproper, hwrite⟩ := ih (by simpa using hnext) h
    exact ⟨hproper, by simpa using hwrite⟩
  case case6 ih | case8 ih =>
    obtain ⟨hproper, hwrite⟩ := ih (by simp) h
    exact ⟨hproper, by simpa [doubled] using hwrite⟩
  case case7 ih =>
    obtain ⟨hproper, hwrite⟩ := ih (by simp) h
    exact ⟨hproper, by simpa using hwrite⟩
  case case10 hopen hclose ih =>
    obtain ⟨hproper, hwrite⟩ := ih (by simp) h
    exact ⟨hproper, by simpa [doubled, hopen, hclose] using hwrite⟩

theorem cutFrom_doubled_text (more text rest : List Char) :
    cutFrom text none (doubled more ++ rest) = cutFrom (text ++ more) none rest := by
  induction more generalizing text with
  | nil => simp [doubled]
  | cons c more ih =>
    have hcons : doubled (c :: more) ++ rest = doubled [c] ++ (doubled more ++ rest) := by simp [doubled]
    rw [hcons, cutFrom_doubled, ih, List.append_assoc, List.singleton_append]

/-- Segments that are written as a pattern are what the pattern is cut into. -/
theorem cutFrom_write (h : AreProper segments)
    (hhead : text = [] ∨ ∀ segment ∈ segments.head?, segment.isLiteral = false) :
    cutFrom text none (write segments) = .ok (ofLiteral text ++ segments) := by
  induction segments generalizing text with
  | nil => simp [write, cutFrom]
  | cons segment rest ih =>
    have hsegment := (List.forall_mem_cons.mp h.each).1
    cases segment with
    | literal more =>
      obtain rfl : text = [] := hhead.resolve_right fun hl => by simpa [isLiteral] using hl _ rfl
      have hwrite : write (.literal more :: rest) = doubled more ++ write rest := rfl
      rw [hwrite, cutFrom_doubled_text, List.nil_append, ih h.tail (.inr h.behind_literal)]
      have hmore : ofLiteral more = [.literal more] := if_neg hsegment
      rw [hmore]
      rfl
    | field name =>
      rw [write_field, cutFrom_field (isReadable_of_isFieldName hsegment), ih h.tail (.inl rfl)]
      rfl

end

end Segment

namespace Reading

variable {p : List Char} {ts : List Token}

theorem behind_text {rest : List Char} (h : Reading rest ts) (text : List Char) :
    Reading (doubled text ++ rest) (text.map .char ++ ts) := by
  induction text with
  | nil => exact h
  | cons c text ih =>
    by_cases hopen : c = '\x7b'
    · subst hopen
      exact ih.opening
    · by_cases hclose : c = '\x7d'
      · subst hclose
        exact ih.closing
      · have hcons : doubled (c :: text) = c :: doubled text := by
          simp [doubled, hopen, hclose]
        rw [hcons]
        exact ih.char ⟨hopen, hclose⟩

theorem of_segments {segments : List Segment} (h : ∀ segment ∈ segments, segment.IsProper) :
    Reading (Segment.write segments) (tokens segments) := by
  induction segments with
  | nil => exact .nil
  | cons segment rest ih =>
    rw [List.forall_mem_cons] at h
    cases segment with
    | literal text => exact (ih h.2).behind_text text
    | field name =>
      rw [Segment.write_field]
      exact .field h.1 (ih h.2)

theorem eq_written (h : Reading p ts) : p = written ts ∧ ∀ token ∈ ts, token.IsReadable := by
  induction h with
  | nil => exact ⟨rfl, List.forall_mem_nil _⟩
  | @char c rest ts hc _ ih =>
    refine ⟨?_, List.forall_mem_cons.mpr ⟨trivial, ih.2⟩⟩
    have hcons : written (.char c :: ts) = c :: written ts := by
      simp [written, Token.written, doubled, hc]
    rw [hcons, ih.1]
  | opening _ ih => exact ⟨congrArg ('\x7b' :: '\x7b' :: ·) ih.1, List.forall_mem_cons.mpr ⟨trivial, ih.2⟩⟩
  | closing _ ih => exact ⟨congrArg ('\x7d' :: '\x7d' :: ·) ih.1, List.forall_mem_cons.mpr ⟨trivial, ih.2⟩⟩
  | @field name rest ts hn _ ih =>
    refine ⟨?_, List.forall_mem_cons.mpr ⟨Segment.isReadable_of_isFieldName hn, ih.2⟩⟩
    have hcons : written (.field name :: ts)
        = '\x7b' :: (name.toList ++ '\x7d' :: written ts) := by
      simp [written, Token.written]
    rw [hcons, ih.1]

theorem exists_segments (h : Reading p ts) :
    ∃ segments, Segment.ofPattern p = .ok segments ∧ tokens segments = ts := by
  obtain ⟨rfl, hreadable⟩ := h.eq_written
  exact tokens_of_written hreadable []

end Reading

/-- Just the patterns of the grammar are cut into segments, and there is one way to read a pattern:
as the tokens of its segments. The segments of a pattern are proper and write the pattern again, and no
other row of proper segments writes it. -/
theorem pattern_grammar (p : List Char) :
    ((∃ segments, Segment.ofPattern p = .ok segments) ↔ ∃ ts, Reading p ts) ∧
    (∀ ts us, Reading p ts → Reading p us → ts = us) ∧
    (∀ segments, Segment.ofPattern p = .ok segments → Reading p (tokens segments)) ∧
    ∀ segments, Segment.ofPattern p = .ok segments ↔
      Segment.AreProper segments ∧ Segment.write segments = p := by
  have hcut : ∀ segments, Segment.ofPattern p = .ok segments →
      Segment.AreProper segments ∧ Segment.write segments = p := by
    intro segments h
    simpa [doubled] using Segment.write_of_cutFrom (by simp) h
  have hread : ∀ segments, Segment.ofPattern p = .ok segments → Reading p (tokens segments) := by
    intro segments h
    obtain ⟨hproper, rfl⟩ := hcut segments h
    exact Reading.of_segments hproper.each
  refine ⟨⟨?_, ?_⟩, ?_, hread, fun segments => ⟨hcut segments, ?_⟩⟩
  · rintro ⟨segments, h⟩
    exact ⟨_, hread segments h⟩
  · rintro ⟨ts, h⟩
    obtain ⟨segments, hs, -⟩ := h.exists_segments
    exact ⟨segments, hs⟩
  · intro ts us ht hu
    obtain ⟨segments, hs, rfl⟩ := ht.exists_segments
    obtain ⟨others, ho, rfl⟩ := hu.exists_segments
    rw [Except.ok.inj (hs.symm.trans ho)]
  · rintro ⟨hproper, rfl⟩
    exact Segment.cutFrom_write hproper (.inl rfl)

/-- A brace and a name in braces. -/
example : Segment.ofPattern "\x7b\x7b\x7bname\x7d\x7d\x7d".toList
    = .ok [.literal ['\x7b'], .field "name", .literal ['\x7d']] := by decide +kernel

end TreeListing.Template
