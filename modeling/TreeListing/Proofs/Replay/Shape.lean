import TreeListing.Proofs.Replay.Tells

/-!
What a line that a template reads looks like: an indent, and behind it the body of the kind. Where
the body begins with a character that no indent has, two templates agree on the indent.
-/
namespace TreeListing.Replay

open LinePattern (names lineTokens body partTokens charTokens)
open Template (Cut Token Unambiguous)

variable {o : Options} {l : Lister} {kind : Kind} {p p' : Props} {line u x : List Char}

theorem name_notMem {c : Char} (hn : CharSet.name.contains c = false)
    (hp : CharSet.path.contains c = false) {nameType : NameType} {name : String}
    (hm : LinePattern.nameOf nameType = some name) : ∀ u, o.Texts name u → c ∉ u := by
  rintro u ⟨property, hg, hu⟩
  cases nameType with
  | dot => cases hm
  | name =>
    obtain rfl : "name" = name := Option.some.inj hm
    obtain rfl : .name = property := Option.some.inj hg
    exact filled_notMem hn hu
  | relpath =>
    obtain rfl : "relpath" = name := Option.some.inj hm
    obtain rfl : .relpath = property := Option.some.inj hg
    exact filled_notMem hp hu
  | abspath =>
    obtain rfl : "abspath" = name := Option.some.inj hm
    obtain rfl : .abspath = property := Option.some.inj hg
    exact filled_notMem hp hu

theorem headings_notMem {c : Char} (hn : CharSet.name.contains c = false)
    (hp : CharSet.path.contains c = false) (hh : o.showHidden = true → c ∉ o.hidden.toList)
    {nameType : NameType} {name : String} (hm : name ∈ LinePattern.headings o nameType) :
    ∀ u, o.Texts name u → c ∉ u := by
  rcases LinePattern.mem_headings.mp hm with hm | ⟨hs, rfl⟩
  · exact name_notMem hn hp hm
  · rintro u ⟨property, hg, hu⟩
    obtain rfl : .hidden = property := Option.some.inj hg
    rcases hu with rfl | rfl
    · exact List.not_mem_nil
    · exact hh hs

theorem details_notMem {c : Char} (hd : CharSet.digit.contains c = false)
    (hx : CharSet.hex.contains c = false) {name : String} (hm : name ∈ LinePattern.details o) :
    ∀ u, o.Texts name u → c ∉ u := by
  rintro u ⟨property, hg, hu⟩
  rcases LinePattern.mem_details.mp hm with ⟨-, rfl⟩ | ⟨-, rfl⟩ | ⟨-, rfl⟩
  · obtain rfl : .size = property := Option.some.inj hg
    exact filled_notMem hd hu
  · cases hdt : o.dateType with
    | newest =>
      rw [hdt] at hg
      obtain rfl : .ndate = property := Option.some.inj hg
      obtain ⟨us, h, rfl⟩ := hu
      exact flatten_notMem hd h
    | creation =>
      rw [hdt] at hg
      obtain rfl : .cdate = property := Option.some.inj hg
      obtain ⟨us, h, rfl⟩ := hu
      exact flatten_notMem hd h
    | modification =>
      rw [hdt] at hg
      obtain rfl : .mdate = property := Option.some.inj hg
      obtain ⟨us, h, rfl⟩ := hu
      exact flatten_notMem hd h
  · obtain rfl : .hash = property := Option.some.inj hg
    exact filled_notMem hx hu

/-- A character that neither names nor marks nor digits have is in no property but the indent. -/
theorem attributes_notMem {c : Char} (hn : CharSet.name.contains c = false)
    (hp : CharSet.path.contains c = false) (hd : CharSet.digit.contains c = false)
    (hx : CharSet.hex.contains c = false) (hh : o.showHidden = true → c ∉ o.hidden.toList)
    {name : String} (hm : name ∈ LinePattern.attributeNames o kind) : ∀ u, o.Texts name u → c ∉ u := by
  cases kind with
  | file =>
    rcases List.mem_append.mp hm with hm | hm
    · exact headings_notMem hn hp hh hm
    · exact details_notMem hd hx hm
  | folder => exact headings_notMem hn hp hh hm
  | root => exact headings_notMem hn hp hh hm
  | folderEnd => cases hm
  | ellipsis => cases hm

theorem notMem_indent {c : Char} (h : c ∉ o.indent.toList) : ∀ u, o.Texts "indent" u → c ∉ u := by
  rintro u ⟨property, hg, hu⟩
  obtain rfl : .indent = property := Option.some.inj hg
  exact Regex.Rounds.notMem h hu

/-- The text of an indent, if there is one. -/
def IsIndent (o : Options) (u : List Char) : Prop :=
  if o.showIndent then Regex.Rounds o.indent.toList u else u = []

theorem IsIndent.notMem (h : IsIndent o u) {c : Char} (hc : o.showIndent = true → c ∉ o.indent.toList) :
    c ∉ u := by
  rw [IsIndent] at h
  split at h
  next hs => exact Regex.Rounds.notMem (hc hs) h
  next => exact h ▸ List.not_mem_nil

/-- The line has the form of the kind, with the indent that the properties tell. -/
structure Shaped (o : Options) (kind : Kind) (p : Props) (u x : List Char) : Prop where
  names : p.names = names o kind
  indent : IsIndent o u
  get? : p.get? "indent" = if o.showIndent then some (String.ofList u) else none
  cut : ∃ values, Cut o.Texts (body o kind ++ charTokens o.newline) x values

theorem match?_eq_some {text : String} (h : match? l kind text = some p) :
    ∃ t, l.template? kind = some t ∧ t.matchLine? text = some p := Option.bind_eq_some_iff.mp h

/-- A line falls apart into its indent and the rest. -/
theorem exists_indent_of_cut {language : String → List Char → Prop}
    (hi : ∀ u, language "indent" u → Regex.Rounds o.indent.toList u) {values : List (String × List Char)}
    (h : Cut language (lineTokens o kind) line values) :
    ∃ u x xs, line = u ++ x ∧ values = (if o.showIndent then [("indent", u)] else []) ++ xs ∧ IsIndent o u ∧
      Cut language (body o kind ++ charTokens o.newline) x xs := by
  rw [lineTokens, List.append_assoc] at h
  obtain ⟨u, x, us, xs, rfl, rfl, hu, hx⟩ := h.exists_of_append
  refine ⟨u, x, xs, rfl, ?_⟩
  rw [IsIndent]
  cases hs : o.showIndent with
  | false =>
    rw [hs] at hu
    cases hu
    exact ⟨rfl, rfl, hx⟩
  | true =>
    rw [hs] at hu
    cases hu with
    | field hu hnil =>
      cases hnil
      rw [List.append_nil]
      exact ⟨rfl, hi _ hu, hx⟩

theorem exists_shaped (hl : Lister.compile o .core = .ok l) (ho : o.IsUsual)
    (he : LinePattern.HasInnerEllipsis o) {text : String} (h : match? l kind text = some p) :
    ∃ u x, text.toList = u ++ x ∧ Shaped o kind p u x := by
  obtain ⟨t, ht, hm⟩ := match?_eq_some h
  obtain ⟨values, hv, hp⟩ := (Lister.usual_template hl ho he ht).exists_cut ho hm
  have hnames : p.names = names o kind := by
    rw [Props.names, hp, List.map_map]
    exact hv.names.trans (LinePattern.fields_lineTokens o kind)
  have hrounds : ∀ u, o.Texts "indent" u → Regex.Rounds o.indent.toList u := by
    rintro u ⟨property, hg, hu⟩
    obtain rfl : .indent = property := Option.some.inj hg
    exact hu
  obtain ⟨u, x, xs, htext, rfl, hu, hx⟩ := exists_indent_of_cut hrounds hv
  refine ⟨u, x, htext, hnames, hu, ?_, xs, hx⟩
  cases hs : o.showIndent with
  | false =>
    refine Props.get?_eq_none fun hm => ?_
    rw [hnames, LinePattern.indent_mem_names, hs] at hm
    cases hm
  | true =>
    rw [Props.get?, hp, hs]
    simp

end TreeListing.Replay
