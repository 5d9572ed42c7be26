import TreeListing.Proofs.Lister
import TreeListing.Proofs.Property

/-!
The expression of a property by itself, whatever the options are. It has no groups and no anchors, so
within the expression for a line it recognises what it matches alone.
-/
namespace TreeListing

open Regex.Parser (Reads Leaves)

namespace DateFormat

/-- The pieces of the expression by which dates are recognised. -/
def items : List Char → List Regex
  | '%' :: '%' :: rest => .chars (.one '%') :: items rest
  | '%' :: c :: rest =>
    .plus false (.chars (if digitSpecifiers.contains c then .digit else .dot)) :: items rest
  | ['%'] => [.chars (.one '%')]
  | c :: rest => .chars (.one c) :: items rest
  | [] => []

theorem reads_recogniser (format : List Char) : Reads (recogniser format) (items format) := by
  have hpercent : Reads ['%'] [.chars (.one '%')] := Regex.Parser.reads_escape_one '%'
  induction format using recogniser.induct with
  | case1 rest ih =>
    rw [recogniser, items]
    exact hpercent.append ih
  | case2 c rest hc ih =>
    rw [recogniser, items]
    · have hpiece : Reads (if digitSpecifiers.contains c then "\\d+?" else ".+?").toList
          [.plus false (.chars (if digitSpecifiers.contains c then .digit else .dot))] := by
        split
        · exact Property.reads_digits
        · have hread : Reads ['.'] [.chars .dot] := Property.reads_class fun _ _ _ => rfl
          exact Regex.Parser.reads_lazy hread
      exact hpiece.append ih
    · exact hc
    · exact hc
  | case3 => exact hpercent
  | case4 c rest h1 h2 h3 ih =>
    rw [recogniser, items]
    · exact (Regex.Parser.reads_escape_one c).append ih
    all_goals assumption
  | case5 => exact .nil

theorem isPlain_items (format : List Char) : ∀ a ∈ items format, a.IsPlain := by
  fun_induction items format with
  | case1 rest ih => exact List.forall_mem_cons.mpr ⟨trivial, ih⟩
  | case2 c rest hc ih => exact List.forall_mem_cons.mpr ⟨trivial, ih⟩
  | case3 => exact List.forall_mem_cons.mpr ⟨trivial, List.forall_mem_nil _⟩
  | case4 c rest h1 h2 h3 ih => exact List.forall_mem_cons.mpr ⟨trivial, ih⟩
  | case5 => exact List.forall_mem_nil _

end DateFormat

theorem Registry.core_ne_constant {name value pattern : String} :
    core.get? name ≠ some (.constant value pattern) := by
  intro h
  have hm := mem_of_lookup h
  simp [core] at hm

namespace Property

variable {o : Options} {p : Property}

/-- The pieces of the expression for the property, for any format of dates. -/
def pieces (o : Options) : Property → List Regex
  | cdate | mdate | ndate => DateFormat.items o.dateFormat.toList
  | p => p.items o

/-- The expression of the property by itself matches the text from end to end. -/
def Accepts (o : Options) (p : Property) (u : List Char) : Prop :=
  ∃ r gs, Regex.parse? (p.pattern o) = some r ∧ Regex.Matches r 0 u [] gs

theorem leaves_pieces (hp : ∃ name, Registry.core.get? name = some p) :
    Leaves (p.pattern o) (p.pieces o) := by
  cases p with
  | cdate => exact (DateFormat.reads_recogniser _).leaves
  | mdate => exact (DateFormat.reads_recogniser _).leaves
  | ndate => exact (DateFormat.reads_recogniser _).leaves
  | constant value pattern =>
    obtain ⟨name, h⟩ := hp
    exact absurd h Registry.core_ne_constant
  | _ => exact leaves_pattern trivial

theorem isPlain_pieces (o : Options) (p : Property) : ∀ a ∈ p.pieces o, a.IsPlain := by
  have hone : ∀ {a : Regex}, a.IsPlain → ∀ b ∈ [a], b.IsPlain := fun ha b hb =>
    List.mem_singleton.mp hb ▸ ha
  have hrepeated : ∀ (text : String) {a : Regex}, a.IsPlain →
      ∀ b ∈ if text = "" then [] else [a], b.IsPlain := by
    intro text a ha
    split
    · exact List.forall_mem_nil _
    · exact hone ha
  cases p with
  | indent => exact hrepeated _ (Regex.isPlain_word _)
  | hidden => exact hrepeated _ (Regex.isPlain_word _)
  | cdate => exact DateFormat.isPlain_items _
  | mdate => exact DateFormat.isPlain_items _
  | ndate => exact DateFormat.isPlain_items _
  | constant value pattern => exact List.forall_mem_nil _
  | _ => exact hone trivial

/-- The pieces recognise just what the expression by itself accepts. -/
theorem recognises_pieces (hp : ∃ name, Registry.core.get? name = some p) :
    (Regex.concat (p.pieces o)).Recognises (p.Accepts o) := by
  have hparse : Regex.parse? (p.pattern o) = some (Regex.concat (p.pieces o)) := (leaves_pieces hp).parse?
  refine (Regex.isPlain_concat (p.isPlain_pieces o)).recognises.congr fun u => ?_
  constructor
  · rintro ⟨gs, h⟩
    exact ⟨_, gs, hparse, h⟩
  · rintro ⟨r, gs, hr, h⟩
    obtain rfl := Option.some.inj (hparse.symm.trans hr)
    exact ⟨gs, h⟩

end Property

end TreeListing
