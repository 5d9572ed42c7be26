import TreeListing.Proofs.Usual

/-!
What the texts of the options are in the usual patterns. Indent and mark come into a line through
properties, so they can be any text; ellipsis and newline are parts of the pattern itself, so they
stand for themselves just as other literal text does, with their braces doubled.
-/
namespace TreeListing

open Template (Token tokens fields spell written doubled)

theorem Template.Compiled.properties_eq {t : Template} {pattern : String} {o : Options} {r : Registry}
    (h : t.Compiled pattern o r) (ho : o.properties = []) {names : List String}
    (hf : fields t.segments = names)
    {properties : List (String × Property)} (hr : resolve r names.eraseDups = .ok properties) :
    t.properties = properties := by
  have hp := h.properties
  rw [hf, ho, List.append_nil, hr] at hp
  exact (Except.ok.inj hp).symm

namespace LinePattern

variable {o : Options} {e n : String}

/-- Ellipsis and newline are written in such a way that they mean these texts. -/
structure MeansTexts (o : Options) (e n : String) : Prop where
  ellipsis : o.layout = .plain → o.showEllipsis = true → o.ellipsis.toList = doubled e.toList
  newline : o.newline.toList = doubled n.toList

/-- The options with the texts that ellipsis and newline mean. -/
def meaning (o : Options) (e n : String) : Options := { o with ellipsis := e, newline := n }

theorem spell_front (h : MeansTexts o e n) {kind : Kind} (hk : (usual? o kind).isSome = true) :
    spell (front o kind) = written (front (meaning o e n) kind) := by
  by_cases hdots : o.layout = .plain ∧ kind = .ellipsis
  · obtain ⟨hp, rfl⟩ := hdots
    have hshow : o.showEllipsis = true := by
      cases hs : o.showEllipsis with
      | false => simp [usual?, hs] at hk
      | true => rfl
    have hbody : ∀ o : Options, o.layout = .plain → body o .ellipsis = charTokens o.ellipsis := by
      intro o hp
      rw [body, hp]
      rfl
    have hindent := Template.spell_eq_written fun token hm => (isInner_indent o token hm).isPlain
    rw [front, front, hbody o hp, hbody (meaning o e n) hp, Template.spell_append, Template.written_append,
      spell_charTokens, h.ellipsis hp hshow, charTokens, Template.written_chars, hindent]
    rfl
  · have hfront : front o kind = front (meaning o e n) kind := by
      rw [front, front, body, body]
      cases hx : o.layout with
      | plain =>
        cases kind with
        | ellipsis => exact absurd ⟨hx, rfl⟩ hdots
        | _ => simp only [meaning, hx]; rfl
      | xml => simp only [meaning, hx]; rfl
    have hinner : ∀ token ∈ front o kind, IsInner token := List.forall_mem_append.mpr
      ⟨isInner_indent o, isInner_body kind fun hp hk => absurd ⟨hp, hk⟩ hdots⟩
    rw [Template.spell_eq_written fun token hm => (hinner token hm).isPlain, hfront]

/-- A usual pattern is the row of the meant texts, as it has to be written. -/
theorem usual?_eq_written (h : MeansTexts o e n) {kind : Kind} {pattern : String}
    (hp : usual? o kind = some pattern) : pattern.toList = written (lineTokens (meaning o e n) kind) := by
  have hline : ∀ o, lineTokens o kind = front o kind ++ charTokens o.newline := fun _ => rfl
  have hsome : (usual? o kind).isSome = true := by
    rw [hp]
    rfl
  rw [spell_usual? hp, hline, hline, Template.spell_append, Template.written_append, spell_front h hsome,
    spell_charTokens, h.newline, charTokens, Template.written_chars]
  rfl

theorem isReadable_lineTokens (o : Options) (kind : Kind) :
    ∀ token ∈ lineTokens o kind, token.IsReadable := by
  intro token hm
  cases token with
  | char c => trivial
  | field name =>
    have hname : name ∈ names o kind := by
      rw [← fields_lineTokens]
      exact List.mem_filterMap.mpr ⟨_, hm, rfl⟩
    obtain ⟨property, hg⟩ := exists_property hname
    exact (isInner_field hg).isPlain.isReadable

end LinePattern

namespace Lister

open LinePattern (names lineTokens meaning MeansTexts)

variable {o : Options} {l : Lister} {e n : String}

theorem exists_segments_of_means (h : MeansTexts o e n) (hg : ∀ kind, LinePattern.given? o kind = none)
    {kind : Kind} {pattern : String} (hp : o.pattern? kind = some pattern) : ∃ segments,
      Template.Segment.ofPattern pattern.toList = .ok segments ∧
        tokens segments = lineTokens (meaning o e n) kind ∧ fields segments = names o kind := by
  rw [Options.pattern?, hg kind] at hp
  obtain ⟨segments, hcut, htokens⟩ :=
    Template.tokens_of_written (LinePattern.isReadable_lineTokens (meaning o e n) kind) []
  refine ⟨segments, ?_, htokens, ?_⟩
  · rw [LinePattern.usual?_eq_written h hp]
    exact hcut
  · rw [Template.fields_eq, htokens]
    exact LinePattern.fields_lineTokens (meaning o e n) kind

/-- The template of ellipses has the indent as its only property. -/
theorem properties_of_ellipsis {t : Template} {pattern : String} (hc : t.Compiled pattern o .core)
    (ho : o.properties = []) (hf : fields t.segments = ["indent"]) : t.properties = [("indent", .indent)] :=
  hc.properties_eq ho hf (by decide +kernel)

theorem props_of_ellipsis {t : Template} (hp : t.properties = [("indent", .indent)]) (d : Disk) (i : Item) :
    ∃ p, t.props d i = .ok p ∧ p.get? "indent" = some (String.join
      (List.replicate (Property.levelOf t.options.startLevel i.depth) t.options.indent)) := by
  rw [Template.props, hp]
  exact ⟨_, rfl, rfl⟩

/-- Whatever the texts of indent and mark are, and whatever ellipsis and newline mean, the usual patterns
can be made ready; and in the plain layout the line of an ellipsis is the indent as often as the level of
the folder says, the ellipsis and the newline. -/
theorem texts_stand_for_themselves (hg : ∀ kind, LinePattern.given? o kind = none) (ho : o.properties = [])
    (h : MeansTexts o e n) :
    ∃ l, compile o .core = .ok l ∧
      (o.layout = .plain → o.showIndent = true → o.showEllipsis = true → ∀ (d : Disk) (i : Item),
        ∃ r, l.record? d .ellipsis i = .ok (some r) ∧ r.kind = .ellipsis ∧ r.path = i.path ∧
          l.line r = String.join (List.replicate ((i.depth + o.startLevel) % (Text.maxWord + 1)) o.indent)
            ++ e ++ n) := by
  obtain ⟨l, hl⟩ := exists_compile_of_segments ho fun kind pattern hp => by
    obtain ⟨segments, hs, -, hfields⟩ := exists_segments_of_means h hg hp
    exact ⟨segments, hs, hfields⟩
  refine ⟨l, hl, fun hx hi hdots d i => ?_⟩
  obtain ⟨t, ht⟩ : ∃ t, l.template? .ellipsis = some t := by
    rw [← Option.isSome_iff_exists, isSome_template?_of_usual hl hg]
    simp [LinePattern.usual?, hdots]
  obtain ⟨pattern, hpattern, hc⟩ := compiled_of_template? hl ht
  obtain ⟨segments, hs, htokens, hfields⟩ := exists_segments_of_means h hg hpattern
  obtain rfl := Except.ok.inj (hs.symm.trans hc.segments)
  have hnames : fields t.segments = ["indent"] := by
    rw [hfields, names, hi]
    rfl
  obtain ⟨p, hp, hindent⟩ := props_of_ellipsis (properties_of_ellipsis hc ho hnames) d i
  refine ⟨⟨.ellipsis, i.path, some i.depth, p⟩, ?_, rfl, rfl, ?_⟩
  · rw [record?, ht]
    simp only [hp]
    rfl
  · have hrow : lineTokens (meaning o e n) .ellipsis
        = .field "indent" :: (LinePattern.charTokens e ++ LinePattern.charTokens n) := by
      rw [lineTokens, LinePattern.body]
      simp [meaning, hx, hi, LinePattern.partTokens, LinePattern.plainBody]
    rw [line, ht, Option.map_some, Option.getD_some, ← String.toList_inj, Template.render_eq, htokens, hrow,
      List.flatMap_cons, List.flatMap_append, LinePattern.flatMap_render_charTokens,
      LinePattern.flatMap_render_charTokens, Token.render, hindent, hc.options]
    simp [Property.levelOf]

/-- With doubled braces, for instance, they are part of the ellipsis; in indent and mark they always are. -/
theorem texts_stand_for_themselves_braces : ∃ l,
    compile { showEllipsis := true, ellipsis := "\x7b\x7b...\x7d\x7d", indent := "\x7b", hidden := "\x7d" } .core
      = .ok l ∧ ∀ (d : Disk) (i : Item), i.depth = 1 → ∃ r, l.record? d .ellipsis i = .ok (some r) ∧
        l.line r = "\x7b\x7b...\x7d\n" := by
  obtain ⟨l, hl, h⟩ := texts_stand_for_themselves
    (o := { showEllipsis := true, ellipsis := "\x7b\x7b...\x7d\x7d", indent := "\x7b", hidden := "\x7d" })
    (e := "\x7b...\x7d") (n := "\n") (fun kind => by cases kind <;> rfl) rfl
    ⟨fun _ _ => by decide, by decide⟩
  refine ⟨l, hl, fun d i hi => ?_⟩
  obtain ⟨r, hr, -, -, hline⟩ := h rfl rfl rfl d i
  exact ⟨r, hr, by rw [hline, hi]; rfl⟩

/-- An ellipsis with single braces is taken for a property, and there is no such property. -/
theorem braced_ellipsis_not_compiled :
    ¬ ∃ l, compile { showEllipsis := true, maxDepth := 1, ellipsis := "\x7b...\x7d" } .core = .ok l := by
  have hfails :
      (compile { showEllipsis := true, maxDepth := 1, ellipsis := "\x7b...\x7d" } .core).isOk = false := by
    decide +kernel
  rintro ⟨l, hl⟩
  rw [hl] at hfails
  cases hfails

end Lister

end TreeListing
