import TreeListing.Property
import TreeListing.Proofs.Regex.Language
import TreeListing.Proofs.Regex.Parser

/-!
What the expressions of the properties recognise. They are read piece by piece, and each of them
stands for a plain set of texts.
-/
namespace TreeListing

open Regex (Recognises Filled Rounds)
open Regex.Parser (Reads Leaves)

namespace CharSet

def anyOf (c : Char) (cs : List Char) : CharSet := cs.foldl (fun set c => .either set (.one c)) (.one c)

def name : CharSet := .outside (anyOf '\\' ['/', ':', '*', '?', '"', '<', '>', '|'])

def path : CharSet := .outside (anyOf '*' ['?', '"', '<', '>', '|'])

def hex : CharSet := .either (.range '0' '9') (.range 'a' 'f')

theorem name_contains {c : Char} :
    name.contains c = true ↔ c ∉ ['\\', '/', ':', '*', '?', '"', '<', '>', '|'] := by
  simp [name, anyOf, contains, and_assoc]

theorem path_contains {c : Char} : path.contains c = true ↔ c ∉ ['*', '?', '"', '<', '>', '|'] := by
  simp [path, anyOf, contains, and_assoc]

end CharSet

namespace Property

/-- The format of dates unless another one is given. -/
def usualFormat : String := "%Y%m%d%H%M%S"

/-- The property is one that is always known, and dates have the usual format. -/
def IsUsual (o : Options) : Property → Prop
  | cdate | mdate | ndate => o.dateFormat = usualFormat
  | constant _ _ => False
  | _ => True

def number : Regex := .plus false (.chars .digit)

/-- The pieces of the expression for the property. -/
def items (o : Options) : Property → List Regex
  | indent => if o.indent = "" then [] else [.star true (.word o.indent.toList)]
  | level | depth | size => [number]
  | name => [.plus false (.chars .name)]
  | relpath | abspath => [.plus false (.chars .path)]
  | hidden => if o.hidden = "" then [] else [.maybe true (.word o.hidden.toList)]
  | cdate | mdate | ndate => List.replicate 6 number
  | hash => [.plus true (.chars .hex)]
  | constant _ _ => []

/-- The texts of the property. -/
def Texts (o : Options) : Property → List Char → Prop
  | indent => Rounds o.indent.toList
  | level | depth | size => Filled .digit
  | name => Filled .name
  | relpath | abspath => Filled .path
  | hidden => fun u => u = [] ∨ u = o.hidden.toList
  | cdate | mdate | ndate => fun u => ∃ us, List.Forall₂ (fun language v => language v)
      (List.replicate 6 (Filled .digit)) us ∧ u = us.flatten
  | hash => Filled .hex
  | constant _ _ => (· = [])

theorem reads_class {text : List Char} {set : CharSet}
    (h : ∀ frame outer names, text.foldlM Regex.Parser.step ⟨.plain, frame, outer, names⟩
      = some (Regex.Parser.State.push ⟨.plain, frame, outer, names⟩ (.chars set))) :
    Reads text [.chars set] := by
  rintro ⟨mode, frame, outer, names⟩ rfl
  exact h frame outer names

theorem reads_nameChars : Reads nameChars [.plus false (.chars .name)] :=
  have hread : Reads "[^\\\\/:*?\"<>|]".toList [.chars .name] := reads_class fun _ _ _ => rfl
  Regex.Parser.reads_lazy hread

theorem reads_pathChars : Reads pathChars [.plus false (.chars .path)] :=
  have hread : Reads "[^*?\"<>|]".toList [.chars .path] := reads_class fun _ _ _ => rfl
  Regex.Parser.reads_lazy hread

theorem reads_digits : Reads digits [number] :=
  have hread : Reads "\\d".toList [.chars .digit] := reads_class fun _ _ _ => rfl
  Regex.Parser.reads_lazy hread

theorem leaves_repeated {text : String} {sign : Char} {rounds : Regex.Parser.Rounds} (hne : text ≠ "")
    (hs : ∀ s : Regex.Parser.State, s.mode = .plain →
      Regex.Parser.step s sign = s.sign? (.repeated rounds)) :
    Leaves (repeated text sign) [rounds.apply true (.word text.toList)] := by
  have hread := Regex.Parser.reads_unnamed (Regex.Parser.reads_escape text.toList).leaves
  have hrepeat : Leaves _ ([] ++ [_]) := Reads.repeated hread hs
  rw [List.append_assoc] at hrepeat
  rw [repeated, if_neg hne]
  exact hrepeat

/-- The expression of a property is read as its pieces. -/
theorem leaves_pattern {o : Options} {p : Property} (h : p.IsUsual o) :
    Leaves (p.pattern o) (p.items o) := by
  have hdate : o.dateFormat = usualFormat →
      Leaves (DateFormat.recogniser o.dateFormat.toList) (List.replicate 6 number) := by
    intro hf
    have ht : DateFormat.recogniser usualFormat.toList = (List.replicate 6 digits).flatten := by decide
    have hall : ∀ k, Reads (List.replicate k digits).flatten (List.replicate k number) := by
      intro k
      induction k with
      | zero => exact .nil
      | succ k ih => exact reads_digits.append ih
    rw [hf, ht]
    exact (hall 6).leaves
  cases p with
  | indent =>
    change Leaves (repeated o.indent '*') (if o.indent = "" then [] else _)
    split
    next he => rw [repeated, if_pos he]; exact Reads.nil.leaves
    next hne => exact leaves_repeated hne fun _ => Regex.Parser.step_star
  | level => exact reads_digits.leaves
  | depth => exact reads_digits.leaves
  | size => exact reads_digits.leaves
  | name => exact reads_nameChars.leaves
  | relpath => exact reads_pathChars.leaves
  | abspath => exact reads_pathChars.leaves
  | hidden =>
    change Leaves (repeated o.hidden '?') (if o.hidden = "" then [] else _)
    split
    next he => rw [repeated, if_pos he]; exact Reads.nil.leaves
    next hne => exact leaves_repeated hne fun _ => Regex.Parser.step_maybe
  | cdate => exact hdate h
  | mdate => exact hdate h
  | ndate => exact hdate h
  | hash =>
    have hread : Reads "[0-9a-f]".toList [.chars .hex] := reads_class fun _ _ _ => rfl
    have hrepeat : Leaves _ ([] ++ [_]) := Reads.repeated hread fun _ => Regex.Parser.step_plus
    exact hrepeat
  | constant value pattern => exact h.elim

/-- The expression of a property recognises just its texts. -/
theorem recognises_items (o : Options) (p : Property) :
    (Regex.concat (p.items o)).Recognises (p.Texts o) := by
  have hdate : (Regex.concat (List.replicate 6 number)).Recognises fun u => ∃ us,
      List.Forall₂ (fun language v => language v) (List.replicate 6 (Filled .digit)) us
        ∧ u = us.flatten := by
    have hall : ∀ k, List.Forall₂ Recognises (List.replicate k number)
        (List.replicate k (Filled .digit)) := by
      intro k
      induction k with
      | zero => exact .nil
      | succ k ih => exact .cons (Regex.recognises_filled .digit false) ih
    exact Regex.recognises_concat (hall 6)
  cases p with
  | indent =>
    rw [items]
    split
    next he =>
      refine Regex.recognises_empty.congr fun u => ⟨fun h => ⟨0, h⟩, ?_⟩
      rintro ⟨k, rfl⟩
      simp [he]
    next => exact (Regex.recognises_rounds _ true).single
  | level => exact (Regex.recognises_filled _ _).single
  | depth => exact (Regex.recognises_filled _ _).single
  | size => exact (Regex.recognises_filled _ _).single
  | name => exact (Regex.recognises_filled _ _).single
  | relpath => exact (Regex.recognises_filled _ _).single
  | abspath => exact (Regex.recognises_filled _ _).single
  | hidden =>
    rw [items]
    split
    next he => exact Regex.recognises_empty.congr fun u => by simp [Texts, he]
    next => exact ((Regex.recognises_word _).maybe true).single
  | cdate => exact hdate
  | mdate => exact hdate
  | ndate => exact hdate
  | hash => exact (Regex.recognises_filled _ _).single
  | constant value pattern => exact Regex.recognises_empty

end Property

end TreeListing
