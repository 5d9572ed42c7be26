import TreeListing.Proofs.Ordinary
import TreeListing.Proofs.Replay.Shape

/-!
Lines in the plain layout. Nothing closes a name there, so a line of a file is only cut right because
the longest indent is taken and the last bracket begins the details; folders are known by their angle
brackets, and an ellipsis by not being a name.
-/
namespace TreeListing.Replay

open LinePattern (attributeNames names lineTokens body charTokens partTokens plainHeading plainName plainBody
  listed details headings nameOf)
open Template (Cut Token Unambiguous Separated Avoids)

/-- An indent can be made of the character. -/
def IsPad (c : Char) : Prop := c = ' ' ∨ c = '\t'

instance (c : Char) : Decidable (IsPad c) := inferInstanceAs (Decidable (_ ∨ _))

/-- Every line has an indent, and mark and ellipsis are the usual ones. -/
structure FitsPlain (o : Options) : Prop where
  layout : o.layout = .plain
  showIndent : o.showIndent = true
  indent : o.indent ≠ ""
  pads : ∀ c ∈ o.indent.toList, IsPad c
  hidden : o.hidden = "*"
  ellipsis : o.ellipsis = "..."

/-- The name is taken neither for a part of the indent nor for an ellipsis. -/
structure IsPlainName (n : String) : Prop where
  listable : IsListable n
  head : ∀ c ∈ n.toList.head?, ¬ IsPad c
  notDots : n ≠ "..."

instance (n : String) : Decidable (IsPlainName n) :=
  have : Decidable (∀ c ∈ n.toList.head?, ¬ IsPad c) := Option.decidableForallMem n.toList.head?
  decidable_of_iff (IsListable n ∧ (∀ c ∈ n.toList.head?, ¬ IsPad c) ∧ n ≠ "...")
    ⟨fun h => ⟨h.1, h.2.1, h.2.2⟩, fun h => ⟨h.listable, h.head, h.notDots⟩⟩

variable {o : Options} {l : Lister} {kind other : Kind} {p p' : Props} {u v x y : List Char}

theorem unambiguous_plainHeading (h : FitsPlain o) {nameType : NameType} {ts : List Token}
    (hts : Unambiguous o.Texts ts) (hs : ∀ name ∈ headings o nameType, Separated o.Texts name ts) :
    Unambiguous o.Texts (plainHeading o nameType ++ ts) := by
  have hhidden : ∀ u, o.Texts "hidden" u → ∀ c ∈ u, c = '*' := by
    rintro u ⟨property, hg, hu⟩ c hc
    obtain rfl : .hidden = property := Option.some.inj hg
    rcases hu with rfl | rfl
    · cases hc
    · rw [h.hidden] at hc
      exact List.mem_singleton.mp hc
  have hrest : Unambiguous o.Texts (partTokens o.showHidden [.field "hidden"] ++ ts) ∧
      ∀ name, nameOf nameType = some name →
        Separated o.Texts name (partTokens o.showHidden [.field "hidden"] ++ ts) := by
    cases hh : o.showHidden with
    | false => exact ⟨hts, fun name hn => hs name (LinePattern.mem_headings.mpr (.inl hn))⟩
    | true =>
      refine ⟨hts.field (hs "hidden" (LinePattern.mem_headings.mpr (.inr ⟨hh, rfl⟩))), fun name hn => ?_⟩
      refine (hs name (LinePattern.mem_headings.mpr (.inl hn))).field fun u v hu hv c hc => ?_
      exact hhidden u hu c hc ▸ name_notMem (by decide) (by decide) hn v hv
  rw [plainHeading, List.append_assoc, plainName]
  cases hn : nameOf nameType with
  | none => exact hrest.1.char '.'
  | some name => exact hrest.1.field (hrest.2 name hn)

theorem unambiguous_listed {names : List String} (h : ∀ name ∈ names, ∀ u, o.Texts name u → ',' ∉ u ∧ ']' ∉ u)
    {ts : List Token} (hts : Unambiguous o.Texts ts) :
    Unambiguous o.Texts (listed names ++ .char ']' :: ts) := by
  induction names with
  | nil => exact hts.char ']'
  | cons name rest ih =>
    rw [List.forall_mem_cons] at h
    cases rest with
    | nil => exact (hts.char ']').field (Template.separated_char (fun u hu => (h.1 u hu).2) ts)
    | cons other rest =>
      rw [LinePattern.listed_cons_cons]
      exact ((ih h.2).char ',').field (Template.separated_char (fun u hu => (h.1 u hu).1) _)

theorem char_of_mem_listed {names : List String} {c : Char} (h : .char c ∈ listed names) : c = ',' := by
  induction names with
  | nil => cases h
  | cons name rest ih =>
    cases rest with
    | nil => simp [listed] at h
    | cons other rest =>
      rw [LinePattern.listed_cons_cons] at h
      rcases List.mem_cons.mp h with he | h
      · cases he
      · rcases List.mem_cons.mp h with he | h
        · exact Token.char.inj he
        · exact ih h

theorem field_of_mem_listed {names : List String} {name : String} (h : .field name ∈ listed names) :
    name ∈ names := by
  rw [← LinePattern.fields_listed names]
  exact List.mem_filterMap.mpr ⟨_, h, rfl⟩

/-- What is behind the indent of a line in the plain layout can be cut in one way only. -/
theorem unambiguous_plain (h : FitsPlain o) (hn : o.newline = "\n") (kind : Kind) :
    Unambiguous o.Texts (body o kind ++ charTokens o.newline) := by
  have hnil : Unambiguous o.Texts [] := Template.unambiguous_nil
  have hend : Unambiguous o.Texts [.char '\n'] := hnil.char '\n'
  have hfolder : ∀ nameType, Unambiguous o.Texts (.char '<' :: (plainHeading o nameType ++ [.char '>'])
      ++ [.char '\n']) := by
    intro nameType
    have hheading : Unambiguous o.Texts (plainHeading o nameType ++ .char '>' :: [.char '\n']) :=
      unambiguous_plainHeading h (hend.char '>') fun name hm =>
        Template.separated_char (headings_notMem (by decide) (by decide)
          (fun _ hm => by rw [h.hidden] at hm; simp at hm) hm) _
    simpa using hheading.char '<'
  rw [body, h.layout, hn]
  cases kind with
  | file =>
    have hheading : Unambiguous o.Texts (plainHeading o o.nameType ++ []) :=
      unambiguous_plainHeading h hnil fun name _ => Template.separated_nil name
    rw [List.append_nil] at hheading
    cases hd : !(details o).isEmpty with
    | false => simpa [plainBody, hd, partTokens, charTokens] using hheading.concat '\n'
    | true =>
      have hdetails : ∀ c, CharSet.digit.contains c = false → CharSet.hex.contains c = false →
          ∀ name ∈ details o, ∀ u, o.Texts name u → c ∉ u := fun c hd hx name hm => details_notMem hd hx hm
      have hlisted : Unambiguous o.Texts (listed (details o) ++ .char ']' :: [.char '\n']) :=
        unambiguous_listed (fun name hm u hu => ⟨hdetails ',' (by decide +kernel) (by decide) name hm u hu,
          hdetails ']' (by decide +kernel) (by decide) name hm u hu⟩) hend
      have havoids : Avoids o.Texts '[' (listed (details o) ++ .char ']' :: [.char '\n']) := by
        refine ⟨fun hm => ?_, fun name hm => ?_⟩
        · rcases List.mem_append.mp hm with hm | hm
          · exact absurd (char_of_mem_listed hm) (by decide)
          · simp at hm
        · rcases List.mem_append.mp hm with hm | hm
          · exact hdetails '[' (by decide +kernel) (by decide) name (field_of_mem_listed hm)
          · simp at hm
      have hline := (hheading.concat ' ').last hlisted havoids
      simpa [plainBody, hd, partTokens, charTokens] using hline
  | folder => exact hfolder o.nameType
  | root => exact hfolder o.rootNameType
  | folderEnd => exact hend
  | ellipsis =>
    have hchars := hend.chars o.ellipsis.toList
    exact hchars

/-- The lines of folders have a bracket behind the indent, whatever their values may be. -/
theorem eq_bracket_of_cut {language : String → List Char → Prop} {ts : List Token}
    {values : List (String × List Char)} (hp : o.layout = .plain) (hk : kind = .folder ∨ kind = .root)
    (hc : Cut language (body o kind ++ ts) x values) : ∃ rest, x = '<' :: rest := by
  rw [body, hp] at hc
  rcases hk with rfl | rfl <;> cases hc <;> exact ⟨_, rfl⟩

theorem eq_ellipsis_of_cut {language : String → List Char → Prop} {values : List (String × List Char)}
    (hp : o.layout = .plain) (hc : Cut language (body o .ellipsis ++ charTokens o.newline) x values) :
    x = o.ellipsis.toList ++ o.newline.toList := by
  rw [body, hp] at hc
  simp only [plainBody] at hc
  rw [charTokens, charTokens, ← List.map_append] at hc
  exact hc.eq_of_chars

theorem Shaped.notMem (h : FitsPlain o) (hn : o.newline = "\n") (hs : Shaped o kind p u x)
    (hk : kind = .file ∨ kind = .ellipsis) : '<' ∉ x := by
  obtain ⟨values, hc⟩ := hs.cut
  refine hc.notMem ⟨fun hm => ?_, fun name hm => ?_⟩
  · rw [body, h.layout, hn] at hm
    rcases hk with rfl | rfl
    · simp only [plainBody, plainHeading, plainName, partTokens, charTokens] at hm
      cases hn : nameOf o.nameType <;> cases hh : o.showHidden <;> cases hd : (details o).isEmpty <;>
        simp [hn, hh, hd] at hm <;> exact absurd (char_of_mem_listed hm) (by decide)
    · simp [plainBody, charTokens, h.ellipsis] at hm
  · have hattribute : name ∈ attributeNames o kind := by
      rw [← LinePattern.fields_body]
      refine List.mem_filterMap.mpr ⟨.field name, ?_, rfl⟩
      simpa [charTokens] using hm
    exact attributes_notMem (by decide) (by decide) (by decide +kernel) (by decide)
      (fun _ hm => by rw [h.hidden] at hm; simp at hm) hattribute

variable {d : Disk} {base : Path} {m : Mark}

/-- What begins a line of a file behind its indent is no ellipsis, and does not lengthen the indent. -/
structure IsCall (text : String) : Prop where
  head : ∃ c rest, text.toList = c :: rest ∧ ¬ IsPad c
  notDots : text ≠ "..."

theorem isCall_of_head? {text : String} (hne : text ≠ "") (h : ∀ c ∈ text.toList.head?, ¬ IsPad c)
    (hd : text ≠ "...") : IsCall text := by
  obtain ⟨c, rest, hc⟩ := List.exists_cons_of_ne_nil (l := text.toList) (by simpa using hne)
  exact ⟨⟨c, rest, hc, h c (by rw [hc]; rfl)⟩, hd⟩

theorem isCall_of_isOrdinary (hm : m.IsOrdinary d o IsPlainName base) (hk : m.kind = .file)
    {nameType : NameType} {name value : String} {property : Property} (hn : nameOf nameType = some name)
    (hg : Registry.core.get? name = some property) (he : property.extract d o (m.item base) = .ok value) :
    IsCall value := by
  obtain ⟨before, n, hnames⟩ : ∃ before n, m.names = before ++ [n] :=
    ⟨_, _, (List.dropLast_append_getLast (hm.entry (.inl hk))).symm⟩
  have hitem : m.item base = .below base (before ++ [n]) false := by simp [Mark.item, hk, hnames]
  have hall : ∀ k ∈ before ++ [n], Path.IsName k := hnames ▸ hm.isName
  have hgood : ∀ k ∈ before ++ [n], IsPlainName k := hnames ▸ hm.good
  have hlast : Path.IsName n := hall n (by simp)
  have hdots : ∀ path : Path, path.fileName? = some n → path.text ≠ "..." := by
    intro path hf hp
    have hfile : (Path.mk "...").fileName? = some "..." := by decide
    rw [show path = ⟨"..."⟩ from congrArg Path.mk hp, hfile] at hf
    exact (hgood n (by simp)).notDots (Option.some.inj hf).symm
  rw [hitem] at he
  cases nameType with
  | dot => cases hn
  | name =>
    obtain rfl : "name" = name := Option.some.inj hn
    obtain rfl : .name = property := Option.some.inj hg
    have hname := hgood n (by simp)
    rw [← Except.ok.inj he, Item.name_below_concat base before hlast]
    exact isCall_of_head? hlast.nonempty hname.head hname.notDots
  | relpath =>
    obtain rfl : "relpath" = name := Option.some.inj hn
    obtain rfl : .relpath = property := Option.some.inj hg
    have hpath := Path.fileName?_ofSegments_concat before hlast
    rw [← Except.ok.inj he]
    refine isCall_of_head? (fun h => ?_) (fun c hc => ?_) (hdots _ hpath)
    · rw [(Path.text_ofSegments_eq_empty hall).mp h] at hpath
      cases hpath
    · obtain ⟨k, hk, hc⟩ := Path.head?_ofSegments hall hc
      exact (hgood k hk).head c hc
  | abspath =>
    obtain rfl : "abspath" = name := Option.some.inj hn
    obtain rfl : .abspath = property := Option.some.inj hg
    have hbefore : ∀ k ∈ before, Path.IsName k := fun k hk => hall k (List.mem_append_left _ hk)
    have hbase := Path.text_ne_of_fileName? hm.named
    have hhead : (Item.below base (before ++ [n]) false).abspath.text.toList.head? = base.text.toList.head? := by
      rw [Item.abspath]
      split
      · rfl
      · exact Path.head?_join hbase (Path.not_isAbsolute_ofSegments hall)
    rw [← Except.ok.inj he]
    refine isCall_of_head? (Item.abspath_ne hbase hall false) (fun c hc => ?_)
      (hdots _ (Item.fileName?_abspath_below_concat base hbefore hlast false))
    rw [hhead] at hc
    rcases Path.head?_text hc with rfl | rfl | ⟨k, hk, hc⟩
    · decide
    · decide
    · exact (hm.above k hk).head c hc

/-- Behind the indent of a file's line comes what the file is called, and then a mark, details or the
end of the line. -/
theorem exists_call (h : FitsPlain o) (ho : o.IsUsual) {t : Template} (hu : Lister.Usual o .file t)
    (hm : m.IsOrdinary d o IsPlainName base) (hk : m.kind = .file)
    (hp : t.props d (m.item base) = .ok p)
    (ht : ∀ name ∈ Template.fields t.segments, o.Texts name ((p.get? name).getD "").toList) :
    ∃ value more, IsCall value ∧
      (body o .file ++ charTokens o.newline).flatMap (Token.render p) = value.toList ++ more ∧
      (more = ['\n'] ∨ '*' ∈ more ∨ '[' ∈ more) := by
  obtain ⟨name, hn⟩ : ∃ name, nameOf o.nameType = some name := by
    cases hnt : o.nameType with
    | dot => exact absurd hnt ho.name
    | name => exact ⟨_, rfl⟩
    | relpath => exact ⟨_, rfl⟩
    | abspath => exact ⟨_, rfl⟩
  obtain ⟨property, value, hg, hv, he⟩ := hu.exists_of_mem hp (LinePattern.name_mem_names (.inl rfl) hn)
  refine ⟨value, (partTokens o.showHidden [.field "hidden"] ++ partTokens (!(details o).isEmpty)
    (charTokens " [" ++ listed (details o) ++ [.char ']']) ++ charTokens o.newline).flatMap (Token.render p),
    isCall_of_isOrdinary hm hk hn hg he, ?_, ?_⟩
  · rw [body, h.layout]
    simp [plainBody, plainHeading, plainName, hn, Token.render, hv]
  · cases hd : !(details o).isEmpty with
    | true => exact .inr (.inr (by simp [partTokens, charTokens, Token.render]))
    | false =>
      cases hh : o.showHidden with
      | false => exact .inl (by simp [partTokens, charTokens, ho.newline, Token.render])
      | true =>
        have hhidden := ht "hidden" (by
          rw [hu.fields]
          exact List.mem_append_right _ (List.mem_append_left _ (LinePattern.mem_headings.mpr (.inr ⟨hh, rfl⟩))))
        obtain ⟨property, hg, hu⟩ := hhidden
        obtain rfl : .hidden = property := Option.some.inj hg
        rcases hu with hu | hu
        · exact .inl (by simp [partTokens, charTokens, ho.newline, Token.render, hu])
        · exact .inr (.inl (by simp [partTokens, charTokens, Token.render, hu, h.hidden]))

theorem not_indent_prefix (h : FitsPlain o) {text : String} (ht : IsCall text) (more : List Char) :
    ¬ o.indent.toList <+: text.toList ++ more := by
  obtain ⟨c, rest, hc, hpad⟩ := ht.head
  obtain ⟨c', cs, hi⟩ := List.exists_cons_of_ne_nil (l := o.indent.toList) (by simpa using h.indent)
  rw [hi, hc, List.cons_append, List.cons_prefix_cons]
  rintro ⟨rfl, -⟩
  exact hpad (h.pads c' (hi ▸ List.mem_cons_self))

theorem call_ne_ellipsis {text : String} (ht : IsCall text) {more : List Char}
    (hm : more = ['\n'] ∨ '*' ∈ more ∨ '[' ∈ more) : text.toList ++ more ≠ "...\n".toList := by
  intro he
  rcases hm with rfl | hm | hm
  · have hdots : text.toList ++ ['\n'] = "...".toList ++ ['\n'] := he
    exact ht.notDots (String.toList_inj.mp (List.append_cancel_right hdots))
  · have : '*' ∈ "...\n".toList := he ▸ List.mem_append_right _ hm
    simp at this
  · have : '[' ∈ "...\n".toList := he ▸ List.mem_append_right _ hm
    simp at this

theorem Shaped.eq_ellipsis (h : FitsPlain o) (hn : o.newline = "\n") (hs : Shaped o .ellipsis p u x) :
    x = "...\n".toList := by
  obtain ⟨values, hc⟩ := hs.cut
  rw [eq_ellipsis_of_cut h.layout hc, h.ellipsis, hn]
  decide

/-- A line of another kind than a file's can be cut in one way only. -/
theorem unambiguous_lineTokens (h : FitsPlain o) (hn : o.newline = "\n") (hk : kind ≠ .file)
    (hk' : kind ≠ .folderEnd) : Unambiguous o.Texts (lineTokens o kind) := by
  have hsep : ∀ c, ¬ IsPad c → ∀ ts, Separated o.Texts "indent" (.char c :: ts) := fun c hc ts =>
    Template.separated_char (notMem_indent fun hm => hc (h.pads c hm)) ts
  have hbody := unambiguous_plain h hn kind
  rw [lineTokens, h.showIndent, List.append_assoc]
  refine hbody.field ?_
  rw [body, h.layout]
  cases kind with
  | file => exact absurd rfl hk
  | folder => exact hsep '<' (by decide) _
  | root => exact hsep '<' (by decide) _
  | folderEnd => exact absurd rfl hk'
  | ellipsis =>
    rw [plainBody, h.ellipsis]
    exact hsep '.' (by decide) _

/-- The indent of a line with angle brackets is the same for all templates that read it. -/
theorem Shaped.agree_plain (h : FitsPlain o) (hs : Shaped o kind p u x) (hs' : Shaped o other p' v y)
    (hk : kind = .folder ∨ kind = .root) (hk' : other = .folder ∨ other = .root) (he : u ++ x = v ++ y) :
    u = v := by
  have hlt : ∀ {w}, IsIndent o w → '<' ∉ w := fun hw =>
    hw.notMem fun _ hm => absurd (h.pads _ hm) (by decide)
  obtain ⟨values, hc⟩ := hs.cut
  obtain ⟨values', hc'⟩ := hs'.cut
  obtain ⟨rest, rfl⟩ := eq_bracket_of_cut h.layout hk hc
  obtain ⟨rest', rfl⟩ := eq_bracket_of_cut h.layout hk' hc'
  exact (Template.append_inj_of_head? he (fun c hc => Option.some.inj hc ▸ hlt hs'.indent)
    fun c hc => Option.some.inj hc ▸ hlt hs.indent).1

theorem Shaped.mem_iff (h : FitsPlain o) (hn : o.newline = "\n") (hs : Shaped o kind p u x)
    (hk : kind ≠ .folderEnd) : '<' ∈ u ++ x ↔ kind = .folder ∨ kind = .root := by
  have hindent : '<' ∉ u := hs.indent.notMem fun _ hm => absurd (h.pads _ hm) (by decide)
  constructor
  · intro hm
    have hx := (List.mem_append.mp hm).resolve_left hindent
    cases kind with
    | file => exact absurd hx (hs.notMem h hn (.inl rfl))
    | folder => exact .inl rfl
    | folderEnd => exact absurd rfl hk
    | root => exact .inr rfl
    | ellipsis => exact absurd hx (hs.notMem h hn (.inr rfl))
  · intro hk
    obtain ⟨values, hc⟩ := hs.cut
    obtain ⟨rest, rfl⟩ := eq_bracket_of_cut h.layout hk hc
    simp

/-- The line of a file is read, and it is not taken for an ellipsis. -/
theorem distinct_file (hl : Lister.compile o .core = .ok l) (ho : o.IsUsual) (h : FitsPlain o)
    (hm : m.IsOrdinary d o IsPlainName base) (hk : m.kind = .file) {t : Template}
    (ht : l.template? .file = some t) (hp : t.props d (m.item base) = .ok p) :
    t.matchLine? (t.render p) = some p ∧ match? l .ellipsis (t.render p) = none := by
  have he := LinePattern.hasInnerEllipsis_dots fun _ : o.layout = .plain => h.ellipsis
  have hu := Lister.usual_template hl ho he ht
  have htexts := hu.texts ho (hm.isCommon fun _ hn => hn.listable)
    (fun _ => Mark.IsOrdinary.isFolder m base hk) (fun _ => hm.path_ne (.inl hk)) hp
  obtain ⟨value, more, hcall, hx, hmore⟩ := exists_call h ho hu hm hk hp htexts
  refine ⟨hu.matchLine?_render_of_indent ho h.showIndent h.indent (unambiguous_plain h ho.newline _) hp
    htexts (hx ▸ not_indent_prefix h hcall more), Option.eq_none_iff_forall_ne_some.mpr fun p' hp' => ?_⟩
  obtain ⟨v, y, htext, hs⟩ := exists_shaped hl ho he hp'
  obtain rfl := hs.eq_ellipsis h ho.newline
  have hline : (t.render p).toList = ((p.get? "indent").getD "").toList ++ (value.toList ++ more) := by
    rw [← hx, Template.render_eq, hu.tokens, lineTokens, h.showIndent, List.append_assoc]
    rfl
  have hindent := htexts "indent" (by rw [hu.fields]; exact LinePattern.indent_mem_names.mpr h.showIndent)
  obtain ⟨c, rest, hc, hpad⟩ := hcall.head
  refine call_ne_ellipsis hcall hmore (Template.append_inj_of_head? (hline.symm.trans htext)
    (fun c' hc' => ?_) fun c' hc' => ?_).2
  · rw [hc] at hc'
    obtain rfl : c = c' := Option.some.inj hc'
    exact hs.indent.notMem fun _ hm => hpad (h.pads c hm)
  · have hdot : c' = '.' := by
      simpa using hc'.symm
    exact notMem_indent (fun hm => absurd (h.pads c' hm) (hdot ▸ by decide)) _ hindent

/-- The line of a record is told from all other lines. -/
theorem distinct_plain (hl : Lister.compile o .core = .ok l) (ho : o.IsUsual) (h : FitsPlain o)
    (hm : m.IsOrdinary d o IsPlainName base) {r : Record}
    (hr : l.record? d m.kind (m.item base) = .ok (some r)) : Distinct l r (l.line r) := by
  have he := LinePattern.hasInnerEllipsis_dots fun _ : o.layout = .plain => h.ellipsis
  have hend : l.template? .folderEnd = none := by
    have hnone := Lister.isSome_template?_of_usual hl ho.given .folderEnd
    simpa [LinePattern.usual?, h.layout] using hnone
  obtain ⟨t, p, ht, hp, rfl⟩ := Lister.record?_eq_some hr
  have hkind : m.kind ≠ .folderEnd := fun hk => by simp [hk, hend] at ht
  have hu := Lister.usual_template hl ho he ht
  have htexts := hu.texts ho (hm.isCommon fun _ hn => hn.listable) (Mark.IsOrdinary.isFolder m base)
    hm.path_ne hp
  have hline : l.line ⟨m.kind, (m.item base).path, some (m.item base).depth, p⟩ = t.render p := by
    rw [Lister.line, ht]
    rfl
  have hown : match? l m.kind (t.render p) = some p := by
    rw [match?, ht]
    by_cases hk : m.kind = .file
    · exact (distinct_file hl ho h hm hk (hk ▸ ht) hp).1
    · exact hu.matchLine?_render ho (unambiguous_lineTokens h ho.newline hk hkind) hp htexts
  obtain ⟨u, x, htext, hs⟩ := exists_shaped hl ho he hown
  have hsame : ∀ {other p'}, match? l other (t.render p) = some p' → ∃ v y,
      (t.render p).toList = v ++ y ∧ Shaped o other p' v y ∧
        ((m.kind = .folder ∨ m.kind = .root) ↔ (other = .folder ∨ other = .root)) := by
    intro other p' hp'
    obtain ⟨v, y, htext', hs'⟩ := exists_shaped hl ho he hp'
    have hother : other ≠ .folderEnd := fun hk => by simp [match?, hk, hend] at hp'
    refine ⟨v, y, htext', hs', ?_⟩
    rw [← hs.mem_iff h ho.newline hkind, ← hs'.mem_iff h ho.newline hother, ← htext, ← htext']
  rw [hline]
  refine ⟨hown, fun hroot hdots other hmem hne => ?_, fun hroot p' hp' => ?_⟩
  · refine Option.eq_none_iff_forall_ne_some.mpr fun p' hp' => ?_
    obtain ⟨-, -, -, -, hiff⟩ := hsame hp'
    have hentry : ∀ k : Kind, k ≠ .root → k ≠ .ellipsis → k ≠ .folderEnd → k = .file ∨ k = .folder := by
      intro k
      cases k <;> simp
    rcases hentry m.kind hroot hdots hkind with hk | hk
    · rw [hk] at hiff hne
      cases other with
      | file => exact hne rfl
      | folder => simp at hiff
      | folderEnd => simp [match?, hend] at hp'
      | root => simp at hiff
      | ellipsis =>
        rw [(distinct_file hl ho h hm hk (hk ▸ ht) hp).2] at hp'
        cases hp'
    · rw [hk] at hiff hne
      rcases hiff.mp (.inl rfl) with rfl | rfl
      · exact hne rfl
      · exact absurd hmem (by decide)
  · obtain ⟨v, y, htext', hs', hiff⟩ := hsame hp'
    have hfolder := (hiff.mpr (.inr rfl)).resolve_right hroot
    refine ⟨hfolder, ?_⟩
    have hindent := hs.agree_plain h hs' (.inl hfolder) (.inr rfl) (htext.symm.trans htext')
    rw [depthOf_eq (Lister.options_eq hl) hs'.names, depthOf_eq (Lister.options_eq hl) hs.names,
      hs.get?, hs'.get?, hindent]

end TreeListing.Replay
