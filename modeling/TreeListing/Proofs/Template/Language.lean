import TreeListing.Proofs.Extract
import TreeListing.Proofs.Template.Line

/-!
The lines of a template, for any pattern of core properties and any options: a line is matched just if
it can be cut into the literal text of the pattern and, for every field, a text that the expression of
the property accepts by itself.
-/
namespace TreeListing

/-- The text is one that the expression of the property with the name accepts by itself. -/
def Options.Accepts (o : Options) (name : String) (u : List Char) : Prop :=
  ∃ property, Registry.core.get? name = some property ∧ property.Accepts o u

/-- All but dates accept just the texts that they have in the usual format too. -/
theorem Options.accepts_iff {o : Options} {name : String} {property : Property}
    (hg : Registry.core.get? name = some property) (hi : property.pieces o = property.items o) (u : List Char) :
    o.Accepts name u ↔ property.Texts o u := by
  have hpieces := property.recognises_pieces (o := o) ⟨name, hg⟩ 0 u [] []
  have hitems := property.recognises_items o 0 u [] []
  rw [hi, hitems] at hpieces
  simp only [and_true] at hpieces
  rw [hpieces]
  constructor
  · rintro ⟨other, ho, h⟩
    obtain rfl := Option.some.inj (hg.symm.trans ho)
    exact h
  · exact fun h => ⟨property, hg, h⟩

/-- Dates are accepted in whatever format they are recognised in. -/
theorem Options.accepts_of_recognised {o : Options} {name : String} {property : Property}
    (hg : Registry.core.get? name = some property) (hi : property.pieces o = DateFormat.items o.dateFormat.toList)
    {text : String} (h : DateFormat.Recognised o.dateFormat text) : o.Accepts name text.toList := by
  obtain ⟨gs, hmatch⟩ := DateFormat.recognised_iff.mp h
  rw [← hi, ← Regex.matches_concat] at hmatch
  exact ⟨property, hg, ((property.recognises_pieces (o := o) ⟨name, hg⟩ 0 text.toList [] gs).mp hmatch).1⟩

/-- The expression of a property accepts what the property says of an item that suits it. -/
theorem Options.accepts_extract {o : Options} {name value : String} {property : Property} {d : Disk} {i : Item}
    (hg : Registry.core.get? name = some property) (hs : property.Suits d i)
    (he : property.extract d o i = .ok value) : o.Accepts name value.toList := by
  have hpieces : property.pieces o = property.items o := by
    cases property <;> first | rfl | cases hs
  exact (accepts_iff hg hpieces _).mpr (Property.texts_extract hs he)

theorem Options.accepts_indent {o : Options} {u : List Char} :
    o.Accepts "indent" u ↔ Regex.Rounds o.indent.toList u :=
  Options.accepts_iff (rfl : Registry.core.get? "indent" = some .indent) rfl u

theorem Options.accepts_name {o : Options} {u : List Char} : o.Accepts "name" u ↔ Regex.Filled .name u :=
  Options.accepts_iff (rfl : Registry.core.get? "name" = some .name) rfl u

theorem Options.accepts_size {o : Options} {u : List Char} : o.Accepts "size" u ↔ Regex.Filled .digit u :=
  Options.accepts_iff (rfl : Registry.core.get? "size" = some .size) rfl u

namespace Template

variable {t : Template} {pattern : String} {o : Options}

theorem recognises_pieces {name : String} {property : Property}
    (hg : Registry.core.get? name = some property) :
    (Regex.concat (o.pieces name)).Recognises (o.Accepts name) := by
  have haccepts : ∀ u, property.Accepts o u ↔ o.Accepts name u := by
    intro u
    constructor
    · exact fun h => ⟨property, hg, h⟩
    · rintro ⟨other, ho, h⟩
      obtain rfl := Option.some.inj (hg.symm.trans ho)
      exact h
  rw [Options.pieces, hg]
  exact (Property.recognises_pieces ⟨name, hg⟩).congr haccepts

/-- Where the texts of a cut are the properties of its fields, the line is written again. -/
theorem Cut.render_eq {language : String → List Char → Prop} {ts : List Token} {line : List Char}
    {values : List (String × List Char)} (h : Cut language ts line values) {p : Props}
    (hp : ∀ v ∈ values, p.get? v.1 = some (String.ofList v.2)) : ts.flatMap (Token.render p) = line := by
  induction h with
  | nil => rfl
  | char _ ih => exact congrArg _ (ih hp)
  | @field name u ts line values _ _ ih =>
    rw [List.forall_mem_cons] at hp
    have htext : Token.render p (.field name) = u := by
      rw [Token.render, hp.1, Option.getD_some, String.toList_ofList]
    rw [List.flatMap_cons, htext, ih hp.2]

namespace Compiled

theorem recognises (hc : t.Compiled pattern o .core) (name : String)
    (hm : .field name ∈ tokens t.segments) :
    (Regex.concat (o.pieces name)).Recognises (o.Accepts name) := by
  obtain ⟨property, -, hg⟩ := hc.lookup (mem_fields.mpr hm)
  exact recognises_pieces hg

theorem matcher_eq_pieces (hc : t.Compiled pattern o .core) :
    t.matcher = lineRegex (fun name => Regex.concat (o.pieces name)) (tokens t.segments) :=
  hc.matcher_eq_of_leaves fun _ _ _ => leaves_pieces

theorem isSome_matchLine?_iff (hc : t.Compiled pattern o .core) (line : String) :
    (t.matchLine? line).isSome = true ↔
      ∃ values, Cut o.Accepts (tokens t.segments) line.toList values := by
  rw [matchLine?, Option.isSome_map, hc.matcher_eq_pieces, Option.isSome_iff_exists]
  constructor
  · rintro ⟨q, hq⟩
    obtain ⟨values, hv, -⟩ := exists_cut_of_search hc.recognises hq
    exact ⟨values, hv⟩
  · rintro ⟨values, hv⟩
    exact exists_search_of_cut hc.recognises hv

theorem exists_cut_of_matchLine? (hc : t.Compiled pattern o .core) {line : String} {p : Props}
    (h : t.matchLine? line = some p) :
    ∃ values, Cut o.Accepts (tokens t.segments) line.toList values ∧
      p.names = t.placeholders.eraseDups ∧
      ∀ name, p.get? name = (values.lookup name).map String.ofList := by
  obtain ⟨q, hq, rfl⟩ := Option.map_eq_some_iff.mp h
  rw [hc.matcher_eq_pieces] at hq
  obtain ⟨values, hv, hpassed⟩ := exists_cut_of_search hc.recognises hq
  have hnames : values.map Prod.fst = t.placeholders := hv.names_eq_fields
  rw [← hnames]
  exact ⟨values, hv, names_found hpassed, get?_found hpassed⟩

/-- A template that begins with the indent finds the longest one, if no indent comes behind it and the rest
can be cut. -/
theorem exists_matchLine?_of_indent (hc : t.Compiled pattern o .core) (hn : (fields t.segments).Nodup)
    (hi : o.indent ≠ "") {ts : List Token} (htokens : tokens t.segments = .field "indent" :: ts)
    {line : String} {u rest : List Char} (hline : line.toList = u ++ rest)
    (hu : Regex.Rounds o.indent.toList u) (hfree : ¬ o.indent.toList <+: rest)
    {values : List (String × List Char)} (h : Cut o.Accepts ts rest values) :
    ∃ p, t.matchLine? line = some p ∧ p.get? "indent" = some (String.ofList u) := by
  have hpieces : o.pieces "indent" = [.star true (.word o.indent.toList)] := if_neg hi
  obtain ⟨q, values', hq, hvalues, hpassed⟩ := exists_search_of_indent
    (fun name hm => hc.recognises name (htokens ▸ List.mem_cons_of_mem _ hm))
    (congrArg Regex.concat hpieces) (by simpa using hi) hu hfree h
  rw [← hline, ← htokens, ← hc.matcher_eq_pieces] at hq
  have hcut : Cut o.Accepts (tokens t.segments) line.toList (("indent", u) :: values') := by
    rw [htokens, hline]
    exact .field (Options.accepts_indent.mpr hu) hvalues
  obtain ⟨p, hp, hpairs⟩ := matchLine?_eq hn hcut hq hpassed
  refine ⟨p, hp, ?_⟩
  rw [Props.get?, hpairs]
  simp

end Compiled

/-- A line is written again from what was found in it, where no field has two places. -/
theorem render_of_cut (t : Template) (hn : t.placeholders.Nodup) {line : String} {p : Props}
    {values : List (String × List Char)} (hv : Cut o.Accepts (tokens t.segments) line.toList values)
    (hp : ∀ name, p.get? name = (values.lookup name).map String.ofList) : t.render p = line := by
  have hnames : values.map Prod.fst = t.placeholders := hv.names_eq_fields
  have hvalues : ∀ v ∈ values, p.get? v.1 = some (String.ofList v.2) := by
    intro v hm
    rw [hp, lookup_of_mem (hnames ▸ hn) hm]
    rfl
  apply String.toList_inj.mp
  rw [Template.render_eq]
  exact hv.render_eq hvalues

/-- A template matches just the lines of its pattern. What it finds in a line is a cut of it: every name
in the order of its first place, with the text there. -/
theorem matchLine?_of_compile (h : compile pattern o .core = .ok t) :
    Segment.ofPattern pattern.toList = .ok t.segments ∧ ∀ line : String,
      ((t.matchLine? line).isSome = true ↔
        ∃ values, Cut o.Accepts (tokens t.segments) line.toList values) ∧
      ∀ p, t.matchLine? line = some p →
        (∃ values, Cut o.Accepts (tokens t.segments) line.toList values ∧
          p.names = t.placeholders.eraseDups ∧
          ∀ name, p.get? name = (values.lookup name).map String.ofList) ∧
        (t.placeholders.Nodup → t.render p = line) := by
  have hc := compiled h
  refine ⟨hc.segments, fun line => ⟨hc.isSome_matchLine?_iff line, fun p hp => ?_⟩⟩
  obtain ⟨values, hv, hnames, hget⟩ := hc.exists_cut_of_matchLine? hp
  exact ⟨⟨values, hv, hnames, hget⟩, fun hn => render_of_cut t hn hv hget⟩

/-- For instance where a name has two places and dates have a format of their own. -/
theorem matchLine?_of_repeated_name : ∃ t,
    compile "{name}={name} ({mdate})" { dateFormat := "%d.%b%%" } .core = .ok t ∧ ∀ line : String,
      (t.matchLine? line).isSome = true ↔
        ∃ values, Cut (Options.Accepts { dateFormat := "%d.%b%%" }) (tokens t.segments) line.toList values := by
  obtain ⟨t, ht⟩ : ∃ t, compile "{name}={name} ({mdate})" { dateFormat := "%d.%b%%" } .core = .ok t :=
    exists_eq_ok_of_isOk (by decide +kernel)
  exact ⟨t, ht, fun line => ((matchLine?_of_compile ht).2 line).1⟩

end Template

end TreeListing
