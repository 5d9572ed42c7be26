import TreeListing.Proofs.Replay.Shape

/-!
Lines in the XML layout. An angle bracket ends the indent and a quotation mark every attribute, so a
line can be cut in one way only; and elements of different kinds begin with different tags.
-/
namespace TreeListing.Replay

open LinePattern (attributeNames names lineTokens namedTokens body charTokens partTokens element tag tail)
open Template (Cut Token Unambiguous Separated)

variable {o : Options} {l : Lister} {kind other : Kind} {p p' : Props} {u v x y : List Char}

/-- Indent and mark have no characters that the layout needs. -/
structure FitsXml (o : Options) : Prop where
  layout : o.layout = .xml
  indent : o.showIndent = true → '<' ∉ o.indent.toList
  hidden : o.showHidden = true → '"' ∉ o.hidden.toList

theorem unambiguous_attributes {names : List String} {ts : List Token}
    (h : ∀ name ∈ names, ∀ u, o.Texts name u → '"' ∉ u) (hts : Unambiguous o.Texts ts) :
    Unambiguous o.Texts (names.flatMap namedTokens ++ ts) := by
  induction names with
  | nil => exact hts
  | cons name names ih =>
    rw [List.forall_mem_cons] at h
    have hrest := ((ih h.2).char '"').field (Template.separated_char h.1 _)
    rw [List.flatMap_cons, namedTokens, List.append_assoc, List.append_assoc, List.append_assoc]
    exact hrest.chars _

theorem tag_cons (kind : Kind) : ∃ rest, (tag kind).toList = '<' :: rest := by
  cases kind with
  | file => exact ⟨"File".toList, rfl⟩
  | folder => exact ⟨"Folder".toList, rfl⟩
  | root => exact ⟨"Folder".toList, rfl⟩
  | folderEnd => exact ⟨"/Folder>".toList, rfl⟩
  | ellipsis => exact ⟨"Ellipsis/>".toList, rfl⟩

theorem tag_inj : ∀ kind other : Kind, (tag kind).toList <+: (tag other).toList → kind = other ∨
    (kind = .folder ∨ kind = .root) ∧ (other = .folder ∨ other = .root) := by
  intro kind other
  cases kind <;> cases other <;> decide

theorem unambiguous_xml (h : FitsXml o) (kind : Kind) : Unambiguous o.Texts (lineTokens o kind) := by
  have hquote : ∀ name ∈ attributeNames o kind, ∀ u, o.Texts name u → '"' ∉ u := fun name hm =>
    attributes_notMem (by decide) (by decide) (by decide +kernel) (by decide) h.hidden hm
  have hbody : Unambiguous o.Texts (body o kind ++ charTokens o.newline) := by
    have hempty : Unambiguous o.Texts [] := Template.unambiguous_nil
    have hnewline := hempty.chars o.newline.toList
    rw [List.append_nil] at hnewline
    rw [body, h.layout]
    simp only [element, List.append_assoc]
    exact (unambiguous_attributes hquote (hnewline.chars _)).chars _
  rw [lineTokens, List.append_assoc]
  cases hs : o.showIndent with
  | false => exact hbody
  | true =>
    refine hbody.field ?_
    obtain ⟨rest, htag⟩ := tag_cons kind
    rw [body, h.layout]
    simp only [element, charTokens, htag, List.map_cons, List.cons_append]
    exact Template.separated_char (notMem_indent (h.indent hs)) _

/-- What follows the indent begins with the tag of the kind. -/
theorem Shaped.tag_prefix (h : FitsXml o) (hs : Shaped o kind p u x) : (tag kind).toList <+: x := by
  obtain ⟨values, hc⟩ := hs.cut
  rw [body, h.layout] at hc
  simp only [element, List.append_assoc] at hc
  obtain ⟨rest, rfl, -⟩ := hc.exists_of_chars
  exact List.prefix_append _ _

/-- Two kinds that read one line have the same tag, and find the same indent. -/
theorem Shaped.agree_xml (h : FitsXml o) (hs : Shaped o kind p u x) (hs' : Shaped o other p' v y)
    (he : u ++ x = v ++ y) : u = v ∧
      (kind = other ∨ (kind = .folder ∨ kind = .root) ∧ (other = .folder ∨ other = .root)) := by
  have hhead : ∀ {kind : Kind} {x : List Char}, (tag kind).toList <+: x → ∀ c ∈ x.head?, c = '<' := by
    rintro kind x ⟨rest, rfl⟩ c hc
    obtain ⟨text, htag⟩ := tag_cons kind
    rw [htag] at hc
    exact (Option.some.inj hc).symm
  have hx := hs.tag_prefix h
  have hy := hs'.tag_prefix h
  obtain ⟨rfl, rfl⟩ := Template.append_inj_of_head? he
    (fun c hc => hhead hx c hc ▸ hs'.indent.notMem h.indent)
    (fun c hc => hhead hy c hc ▸ hs.indent.notMem h.indent)
  refine ⟨rfl, ?_⟩
  rcases List.prefix_or_prefix_of_prefix hx hy with ht | ht
  · exact tag_inj _ _ ht
  · exact (tag_inj _ _ ht).imp Eq.symm And.symm

theorem distinct_of_texts (hl : Lister.compile o .core = .ok l) (ho : o.IsUsual) (h : FitsXml o) {d : Disk}
    {i : Item} {r : Record} (hr : l.record? d kind i = .ok (some r))
    (hx : ∀ name ∈ names o kind, o.Texts name ((r.props.get? name).getD "").toList) :
    Distinct l r (l.line r) := by
  have he : LinePattern.HasInnerEllipsis o := fun hp => by simp [h.layout] at hp
  obtain ⟨t, p, ht, hp, rfl⟩ := Lister.record?_eq_some hr
  have hu := Lister.usual_template hl ho he ht
  have hline : l.line ⟨kind, i.path, some i.depth, p⟩ = t.render p := by rw [Lister.line, ht]; rfl
  have hown : match? l kind (t.render p) = some p := by
    rw [match?, ht]
    exact hu.matchLine?_render ho (unambiguous_xml h kind) hp (hu.fields ▸ hx)
  obtain ⟨u, x, htext, hs⟩ := exists_shaped hl ho he hown
  rw [hline]
  refine ⟨hown, fun hroot _ other hm hne => ?_, fun hroot p' hp' => ?_⟩
  · refine Option.eq_none_iff_forall_ne_some.mpr fun p' hp' => ?_
    obtain ⟨v, y, htext', hs'⟩ := exists_shaped hl ho he hp'
    rcases (hs.agree_xml h hs' (htext.symm.trans htext')).2 with rfl | ⟨hk, hk'⟩
    · exact hne rfl
    · rcases hk' with rfl | rfl
      · exact hk.elim (fun hk => hne hk.symm) hroot
      · exact absurd hm (by decide)
  · obtain ⟨v, y, htext', hs'⟩ := exists_shaped hl ho he hp'
    obtain ⟨rfl, hk⟩ := hs.agree_xml h hs' (htext.symm.trans htext')
    refine ⟨?_, ?_⟩
    · rcases hk with hk | ⟨hk, -⟩
      · exact absurd hk hroot
      · exact hk.resolve_right hroot
    · rw [depthOf_eq (Lister.options_eq hl) hs'.names, depthOf_eq (Lister.options_eq hl) hs.names,
        hs.get?, hs'.get?]

/-- The line of a common item is told from all other lines. -/
theorem distinct_xml (hl : Lister.compile o .core = .ok l) (ho : o.IsUsual) (h : FitsXml o) {d : Disk}
    {i : Item} (hi : i.IsCommon d o) (hf : kind = .file → i.isFolder = false)
    (hpath : kind = .file ∨ kind = .folder → i.path.text ≠ "") {r : Record}
    (hr : l.record? d kind i = .ok (some r)) : Distinct l r (l.line r) := by
  refine distinct_of_texts hl ho h hr ?_
  obtain ⟨t, p, ht, hp, rfl⟩ := Lister.record?_eq_some hr
  have hu := Lister.usual_template hl ho (fun hp => by simp [h.layout] at hp) ht
  exact hu.fields ▸ hu.texts ho hi hf hpath hp

end TreeListing.Replay
