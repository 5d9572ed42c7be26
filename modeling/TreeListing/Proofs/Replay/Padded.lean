import TreeListing.Proofs.Replay.Plain
import TreeListing.Proofs.Replay.Text
import TreeListing.Proofs.Template.Language

/-!
Lines in the plain layout that begin with an indent, where an entry can be called as an ellipsis looks.
No name begins with a character of the indent, so the templates that look for a bracket or for the
ellipsis agree on the indent; the file's takes the longest one it finds. Brackets tell folders from the
rest, but nothing tells a file from an ellipsis of its name.
-/
namespace TreeListing.Replay

open LinePattern (names attributeNames lineTokens body charTokens headings)
open Template (Cut Token)

/-- The name can stand in a listing, and it is not taken for a part of the indent. -/
structure IsUnpadded (n : String) : Prop where
  listable : IsListable n
  head : ∀ c ∈ n.toList.head?, ¬ IsPad c

instance (n : String) : Decidable (IsUnpadded n) :=
  have : Decidable (∀ c ∈ n.toList.head?, ¬ IsPad c) := Option.decidableForallMem n.toList.head?
  decidable_of_iff (IsListable n ∧ ∀ c ∈ n.toList.head?, ¬ IsPad c)
    ⟨fun h => ⟨h.1, h.2⟩, fun h => ⟨h.listable, h.head⟩⟩

/-- Entries are called by their names behind an indent, and an ellipsis looks as a name could. -/
structure Padded (o : Options) : Prop where
  layout : o.layout = .plain
  given : ∀ kind, LinePattern.given? o kind = none
  showIndent : o.showIndent = true
  indent : o.indent ≠ ""
  pads : ∀ c ∈ o.indent.toList, IsPad c
  name : o.nameType = .name
  showEllipsis : o.showEllipsis = true
  nonempty : o.ellipsis ≠ ""
  ellipsis : IsUnpadded o.ellipsis
  inner : LinePattern.HasInnerEllipsis o
  newline : IsLine o.newline
  plainNewline : LinePattern.HasPlainNewline o
  hidden : o.showHidden = true → '\n' ∉ o.hidden.toList
  dates : o.showDate = true → DateFormat.IsReadable o.dateFormat

def indentOf (o : Options) (n : Nat) : String := String.join (List.replicate n o.indent)

/-- What a record writes behind the indent. -/
def restOf (o : Options) (r : Record) : List Char :=
  (body o r.kind ++ charTokens o.newline).flatMap (Token.render r.props)

/-- The line of the record is just what an ellipsis at its depth would be. -/
def LooksLikeEllipsis (l : Lister) (r : Record) : Prop := ∃ depth, r.depth? = some depth ∧
  l.line r = indentOf l.options (depth + l.options.startLevel) ++ l.options.ellipsis ++ l.options.newline

/-- What the template of a kind reads in a line: an indent, and then the body of the kind. -/
structure Found (o : Options) (kind : Kind) (p : Props) (u x : List Char) : Prop where
  names : p.names = names o kind
  indent : Regex.Rounds o.indent.toList u
  get? : p.get? "indent" = some (String.ofList u)
  cut : ∃ values, Cut o.Accepts (body o kind ++ charTokens o.newline) x values

variable {o : Options} {l : Lister} {kind : Kind} {p : Props} {u v x y : List Char} {text : String} {n : Nat}

namespace Padded

theorem usual (h : Padded o) (hl : Lister.compile o .core = .ok l) {t : Template}
    (ht : l.template? kind = some t) : Lister.Usual o kind t :=
  Lister.usual_of_plain hl h.given h.inner h.plainNewline ht

theorem notMem_rounds (h : Padded o) (hu : Regex.Rounds o.indent.toList u) {c : Char} (hc : ¬ IsPad c) :
    c ∉ u := Regex.Rounds.notMem (fun hm => hc (h.pads c hm)) hu

/-- Behind an indent comes what does not begin like one. -/
theorem indent_inj (h : Padded o) (hu : Regex.Rounds o.indent.toList u) (hv : Regex.Rounds o.indent.toList v)
    (hx : ∀ c ∈ x.head?, ¬ IsPad c) (hy : ∀ c ∈ y.head?, ¬ IsPad c) (he : u ++ x = v ++ y) :
    u = v ∧ x = y :=
  Template.append_inj_of_head? he (fun c hc => h.notMem_rounds hv (hx c hc))
    fun c hc => h.notMem_rounds hu (hy c hc)

theorem not_indent_prefix (h : Padded o) (hx : ∀ c ∈ x.head?, ¬ IsPad c) : ¬ o.indent.toList <+: x := by
  obtain ⟨c, cs, hi⟩ := List.exists_cons_of_ne_nil (l := o.indent.toList) (by simpa using h.indent)
  rintro ⟨more, rfl⟩
  rw [hi] at hx
  exact hx c rfl (h.pads c (hi ▸ List.mem_cons_self))

theorem head_ellipsis (h : Padded o) : ∃ c rest, o.ellipsis.toList = c :: rest ∧ ¬ IsPad c ∧ c ≠ '<' := by
  obtain ⟨c, rest, hc⟩ := List.exists_cons_of_ne_nil (l := o.ellipsis.toList) (by simpa using h.nonempty)
  refine ⟨c, rest, hc, h.ellipsis.head c (by rw [hc]; rfl), ?_⟩
  rintro rfl
  exact h.ellipsis.listable '<' (hc ▸ List.mem_cons_self) (by decide)

end Padded

theorem exists_found (h : Padded o) (hl : Lister.compile o .core = .ok l)
    (hm : match? l kind text = some p) : ∃ u x, text.toList = u ++ x ∧ Found o kind p u x := by
  obtain ⟨t, ht, hm⟩ := match?_eq_some hm
  have hu := h.usual hl ht
  obtain ⟨pattern, hc⟩ := hu.compiled
  obtain ⟨values, hv, hnames, hget⟩ := hc.exists_cut_of_matchLine? hm
  rw [hu.tokens] at hv
  obtain ⟨u, x, xs, htext, rfl, hindent, hx⟩ :=
    exists_indent_of_cut (fun u hu => Options.accepts_indent.mp hu) hv
  rw [IsIndent, if_pos h.showIndent] at hindent
  refine ⟨u, x, htext, ?_, hindent, ?_, xs, hx⟩
  · have hplaceholders : t.placeholders = names o kind := hu.fields
    rw [hnames, hplaceholders, eraseDups_eq_self (LinePattern.nodup_names o kind)]
  · rw [hget, h.showIndent]
    simp

namespace Found

theorem depthOf (hf : Found o kind p (indentOf o n).toList x) (h : Padded o) (hl : l.options = o) :
    depthOf l p = Props.minus? n o.startLevel := by
  have hpos : 0 < o.indent.length := by
    rw [Nat.pos_iff_ne_zero]
    simpa [← String.length_toList] using h.indent
  rw [depthOf_eq hl hf.names, hf.get?, String.ofList_toList]
  simp only [if_neg h.indent, indentOf, Text.length_join_replicate, Nat.mul_div_cancel _ hpos]

/-- What a template other than the file's finds does not begin like an indent. -/
theorem head (h : Padded o) (hf : Found o kind p u x)
    (hk : kind = .folder ∨ kind = .root ∨ kind = .ellipsis) : ∀ c ∈ x.head?, ¬ IsPad c := by
  obtain ⟨values, hc⟩ := hf.cut
  rcases or_assoc.mpr hk with hk | rfl
  · obtain ⟨rest, rfl⟩ := eq_bracket_of_cut h.layout hk hc
    simp [IsPad]
  · obtain ⟨c, rest, hhead, hpad, -⟩ := h.head_ellipsis
    rw [eq_ellipsis_of_cut h.layout hc, hhead]
    simpa using hpad

end Found

/-- A template reads what can be cut behind an indent, and finds all of the indent. -/
theorem exists_match (h : Padded o) (hl : Lister.compile o .core = .ok l) {t : Template}
    (ht : l.template? kind = some t) (htext : text.toList = (indentOf o n).toList ++ x)
    (hx : ∀ c ∈ x.head?, ¬ IsPad c) {values : List (String × List Char)}
    (hc : Cut o.Accepts (body o kind ++ charTokens o.newline) x values) :
    ∃ p, match? l kind text = some p ∧ Found o kind p (indentOf o n).toList x := by
  have hu := h.usual hl ht
  obtain ⟨pattern, hcompiled⟩ := hu.compiled
  have htokens : Template.tokens t.segments = .field "indent" :: (body o kind ++ charTokens o.newline) := by
    rw [hu.tokens, lineTokens, h.showIndent, List.append_assoc]
    rfl
  have hrounds : Regex.Rounds o.indent.toList (indentOf o n).toList := Property.texts_indent o n
  obtain ⟨p, hm, hi⟩ := hcompiled.exists_matchLine?_of_indent (hu.fields ▸ LinePattern.nodup_names o kind)
    h.indent htokens htext hrounds (h.not_indent_prefix hx) hc
  have hmatch : match? l kind text = some p := by rw [match?, ht, Option.bind_some, hm]
  obtain ⟨_, _, _, hfound⟩ := exists_found h hl hmatch
  exact ⟨p, hmatch, hfound.names, hrounds, hi, values, hc⟩

/-- The record is what the mark of an entry gives, or of the folder that is listed. -/
structure Written (o : Options) (l : Lister) (d : Disk) (r : Record) (m : Mark) : Prop where
  compiled : Lister.compile o .core = .ok l
  listed : ∃ base, m.IsListed d o IsUnpadded base ∧ l.record? d m.kind (m.item base) = .ok (some r)
  deep : m.names.length + o.startLevel ≤ Text.maxWord

namespace Written

variable {d : Disk} {r : Record} {m : Mark}

theorem kind_eq (hw : Written o l d r m) : r.kind = m.kind := by
  obtain ⟨-, ⟨base, -, hr⟩, -⟩ := hw
  obtain ⟨t, p, -, -, rfl⟩ := Lister.record?_eq_some hr
  rfl

theorem depth?_eq (hw : Written o l d r m) : r.depth? = some m.names.length := by
  obtain ⟨-, ⟨base, -, hr⟩, -⟩ := hw
  obtain ⟨t, p, -, -, rfl⟩ := Lister.record?_eq_some hr
  rfl

theorem template? (hw : Written o l d r m) : ∃ t, l.template? r.kind = some t := by
  obtain ⟨-, ⟨base, -, hr⟩, -⟩ := hw
  obtain ⟨t, p, ht, -, rfl⟩ := Lister.record?_eq_some hr
  exact ⟨t, ht⟩

theorem kind_cases (h : Padded o) (hw : Written o l d r m) :
    r.kind = .file ∨ r.kind = .ellipsis ∨ r.kind = .folder ∨ r.kind = .root := by
  obtain ⟨t, ht⟩ := hw.template?
  cases hk : r.kind with
  | folderEnd =>
    have hnone := Lister.isSome_template?_of_usual hw.compiled h.given .folderEnd
    rw [← hk, ht, hk] at hnone
    simp [LinePattern.usual?, h.layout] at hnone
  | _ => simp

theorem toList_line (h : Padded o) (hw : Written o l d r m) :
    (l.line r).toList = (indentOf o (m.names.length + o.startLevel)).toList ++ restOf o r := by
  obtain ⟨hl, ⟨base, -, hr⟩, hdeep⟩ := hw
  obtain ⟨t, p, ht, hp, rfl⟩ := Lister.record?_eq_some hr
  have hu := h.usual hl ht
  obtain ⟨property, value, hg, hv, he⟩ := hu.exists_of_mem hp (LinePattern.indent_mem_names.mpr h.showIndent)
  obtain rfl : .indent = property := Option.some.inj hg
  have hindent : p.get? "indent" = some (indentOf o (m.names.length + o.startLevel)) := by
    rw [hv, ← Except.ok.inj he]
    exact congrArg (fun n => some (indentOf o n)) (levelOf_eq hdeep)
  rw [Lister.line, ht, Option.map_some, Option.getD_some, Template.render_eq, hu.tokens, lineTokens,
    h.showIndent, List.append_assoc, LinePattern.partTokens, if_pos rfl, List.flatMap_append,
    List.flatMap_singleton, Token.render, hindent]
  rfl

theorem restOf_bracket (h : Padded o) (hk : r.kind = .folder ∨ r.kind = .root) :
    ∃ rest, restOf o r = '<' :: rest := by
  rw [restOf, body, h.layout]
  rcases hk with hk | hk <;> rw [hk] <;> exact ⟨_, rfl⟩

theorem restOf_ellipsis (h : Padded o) (hk : r.kind = .ellipsis) :
    restOf o r = o.ellipsis.toList ++ o.newline.toList := by
  rw [restOf, body, h.layout, hk, LinePattern.plainBody, List.flatMap_append,
    LinePattern.flatMap_render_charTokens, LinePattern.flatMap_render_charTokens]

/-- The name that a record of an entry has is the one that the entry has in its folder. -/
theorem exists_name (h : Padded o) (hw : Written o l d r m) (hk : m.kind = .file ∨ m.kind = .folder) :
    ∃ n, Path.IsName n ∧ IsUnpadded n ∧ r.props.get? "name" = some n := by
  obtain ⟨hl, ⟨base, hm, hr⟩, -⟩ := hw
  obtain ⟨t, p, ht, hp, rfl⟩ := Lister.record?_eq_some hr
  have hname : "name" ∈ names o m.kind := LinePattern.name_mem_names hk (by rw [h.name]; rfl)
  obtain ⟨property, value, hg, hv, he⟩ := (h.usual hl ht).exists_of_mem hp hname
  obtain rfl : .name = property := Option.some.inj hg
  have hmem := hm.name_mem hk
  exact ⟨_, hm.isName _ hmem, hm.good _ hmem, hv.trans (congrArg some (Except.ok.inj he).symm)⟩

theorem restOf_file (h : Padded o) (hw : Written o l d r m) (hk : r.kind = .file) :
    ∃ c rest, restOf o r = c :: rest ∧ ¬ IsPad c ∧ c ≠ '<' := by
  obtain ⟨n, hn, hgood, hvalue⟩ := hw.exists_name h (.inl (hw.kind_eq.symm.trans hk))
  obtain ⟨c, cs, hc⟩ := List.exists_cons_of_ne_nil (l := n.toList) (by simpa using hn.nonempty)
  obtain ⟨ts, hts⟩ : ∃ ts, body o .file ++ charTokens o.newline = .field "name" :: ts := by
    rw [body, h.layout]
    simp only [LinePattern.plainBody, LinePattern.plainHeading, LinePattern.plainName, h.name,
      LinePattern.nameOf, List.append_assoc, List.singleton_append]
    exact ⟨_, rfl⟩
  have hrest : restOf o r = n.toList ++ ts.flatMap (Token.render r.props) := by
    rw [restOf, hk, hts, List.flatMap_cons, Token.render, hvalue]
    rfl
  refine ⟨c, cs ++ ts.flatMap (Token.render r.props), by rw [hrest, hc]; rfl, ?_, ?_⟩
  · exact hgood.head c (by rw [hc]; rfl)
  rintro rfl
  exact hgood.listable '<' (hc ▸ List.mem_cons_self) (by decide)

/-- Behind the indent of an ellipsis or a file comes no bracket. -/
theorem restOf_plain (h : Padded o) (hw : Written o l d r m) (hk : r.kind = .file ∨ r.kind = .ellipsis) :
    ∃ c rest, restOf o r = c :: rest ∧ ¬ IsPad c ∧ c ≠ '<' := by
  rcases hk with hk | hk
  · exact hw.restOf_file h hk
  · obtain ⟨c, rest, hc, hpad, hbracket⟩ := h.head_ellipsis
    exact ⟨c, rest ++ o.newline.toList, by rw [restOf_ellipsis h hk, hc]; rfl, hpad, hbracket⟩

theorem head_restOf (h : Padded o) (hw : Written o l d r m) : ∀ c ∈ (restOf o r).head?, ¬ IsPad c := by
  have hbracket : r.kind = .folder ∨ r.kind = .root → ∀ c ∈ (restOf o r).head?, ¬ IsPad c := fun hk => by
    obtain ⟨rest, hrest⟩ := restOf_bracket h hk
    simp [hrest, IsPad]
  have hplain : r.kind = .file ∨ r.kind = .ellipsis → ∀ c ∈ (restOf o r).head?, ¬ IsPad c := fun hk => by
    obtain ⟨c, rest, hrest, hpad, -⟩ := hw.restOf_plain h hk
    simpa [hrest] using hpad
  rcases hw.kind_cases h with hk | hk | hk
  · exact hplain (.inl hk)
  · exact hplain (.inr hk)
  · exact hbracket hk

/-- What a line of an entry says is accepted by the expressions of its properties. -/
theorem exists_cut (h : Padded o) (hw : Written o l d r m) (hk : r.kind = .file ∨ r.kind = .folder) :
    ∃ values, Cut o.Accepts (body o r.kind ++ charTokens o.newline) (restOf o r) values := by
  obtain ⟨n, hn, hgood, hvalue⟩ := hw.exists_name h (hw.kind_eq ▸ hk)
  obtain ⟨hl, ⟨base, hm, hr⟩, -⟩ := hw
  obtain ⟨t, p, ht, hp, rfl⟩ := Lister.record?_eq_some hr
  refine ⟨_, Template.cut_flatMap fun name hfield => ?_⟩
  have hattribute : name ∈ attributeNames o m.kind := by
    rw [← LinePattern.fields_body]
    refine List.mem_filterMap.mpr ⟨.field name, ?_, rfl⟩
    simpa [charTokens] using hfield
  obtain ⟨property, value, hg, hv, he⟩ :=
    (h.usual hl ht).exists_of_mem hp (List.mem_append_right _ hattribute)
  rw [hv, Option.getD_some]
  have hheading : name ∈ headings o .name → o.Accepts name value.toList := by
    intro hheading
    rcases LinePattern.mem_headings.mp hheading with hname | ⟨-, rfl⟩
    · obtain rfl : "name" = name := Option.some.inj hname
      obtain rfl : .name = property := Option.some.inj hg
      obtain rfl : value = n := Option.some.inj (hv.symm.trans hvalue)
      exact Options.accepts_name.mpr (hgood.listable.filled_name hn.nonempty)
    · obtain rfl : .hidden = property := Option.some.inj hg
      exact Options.accepts_extract hg trivial he
  rcases hk with hk | hk
  · rw [show m.kind = .file from hk, attributeNames, h.name] at hattribute
    rcases List.mem_append.mp hattribute with hname | hdetail
    · exact hheading hname
    · rcases LinePattern.mem_details.mp hdetail with ⟨-, rfl⟩ | ⟨hs, rfl⟩ | ⟨-, rfl⟩
      · obtain rfl : .size = property := Option.some.inj hg
        exact Options.accepts_extract hg trivial he
      · obtain ⟨t, hdate, hrender⟩ := Property.exists_date hg he
        have hread := h.dates hs t value ((hm.regular hk).date hs t hdate) hrender
        refine Options.accepts_of_recognised hg ?_ hread.2
        cases hd : o.dateType <;> rw [hd] at hg <;> exact Option.some.inj hg ▸ rfl
      · obtain rfl : .hash = property := Option.some.inj hg
        exact Options.accepts_extract hg (hm.regular hk).file he
  · rw [show m.kind = .folder from hk, attributeNames, h.name] at hattribute
    exact hheading hattribute

/-- The line of an entry is read by the template of its kind, which finds its depth. -/
theorem exists_match (h : Padded o) (hw : Written o l d r m) (hk : r.kind = .file ∨ r.kind = .folder) :
    ∃ p, match? l r.kind (l.line r) = some p ∧ p.names = names o r.kind ∧ depthOf l p = r.depth? := by
  obtain ⟨t, ht⟩ := hw.template?
  obtain ⟨values, hc⟩ := hw.exists_cut h hk
  obtain ⟨p, hm, hf⟩ := Replay.exists_match h hw.compiled ht (hw.toList_line h) (hw.head_restOf h) hc
  refine ⟨p, hm, hf.names, ?_⟩
  rw [hf.depthOf h (Lister.options_eq hw.compiled), hw.depth?_eq, Props.minus?, if_pos (by omega),
    Nat.add_sub_cancel]

/-- A template other than the file's finds the depth of the line and all that is behind the indent. -/
theorem found (h : Padded o) (hw : Written o l d r m) {kind : Kind} (hm : match? l kind (l.line r) = some p)
    (hk : kind = .folder ∨ kind = .root ∨ kind = .ellipsis) :
    (∃ u, Found o kind p u (restOf o r)) ∧ depthOf l p = r.depth? := by
  obtain ⟨u, x, htext, hf⟩ := exists_found h hw.compiled hm
  rw [hw.toList_line h] at htext
  have hrounds : Regex.Rounds o.indent.toList (indentOf o (m.names.length + o.startLevel)).toList :=
    Property.texts_indent o _
  obtain ⟨rfl, rfl⟩ := h.indent_inj hrounds hf.indent (hw.head_restOf h) (hf.head h hk) htext
  refine ⟨⟨_, hf⟩, ?_⟩
  rw [hf.depthOf h (Lister.options_eq hw.compiled), hw.depth?_eq, Props.minus?, if_pos (by omega),
    Nat.add_sub_cancel]

/-- The line of a file or an ellipsis is read neither as a folder's nor as a root's. -/
theorem match?_bracket (h : Padded o) (hw : Written o l d r m) {kind : Kind}
    (hk : kind = .folder ∨ kind = .root) (hr : r.kind = .file ∨ r.kind = .ellipsis) :
    match? l kind (l.line r) = none := by
  rw [Option.eq_none_iff_forall_ne_some]
  intro p hm
  obtain ⟨⟨u, hf⟩, -⟩ := hw.found h hm (by rw [← or_assoc]; exact .inl hk)
  obtain ⟨values, hcut⟩ := hf.cut
  obtain ⟨rest, hrest⟩ := eq_bracket_of_cut h.layout hk hcut
  obtain ⟨c, rest', hrest', -, hc⟩ := hw.restOf_plain h hr
  exact hc (List.cons.inj (hrest'.symm.trans hrest)).1

theorem looksLikeEllipsis_iff (h : Padded o) (hw : Written o l d r m) :
    LooksLikeEllipsis l r ↔ restOf o r = o.ellipsis.toList ++ o.newline.toList := by
  rw [LooksLikeEllipsis, Lister.options_eq hw.compiled, hw.depth?_eq]
  simp only [Option.some.injEq, exists_eq_left', ← String.toList_inj, String.toList_append, hw.toList_line h,
    List.append_assoc, List.append_cancel_left_eq]

theorem isSome_match?_ellipsis (h : Padded o) (hw : Written o l d r m) :
    (match? l .ellipsis (l.line r)).isSome = true ↔ LooksLikeEllipsis l r := by
  rw [hw.looksLikeEllipsis_iff h]
  constructor
  · intro hm
    obtain ⟨p, hm⟩ := Option.isSome_iff_exists.mp hm
    obtain ⟨⟨u, hf⟩, -⟩ := hw.found h hm (.inr (.inr rfl))
    obtain ⟨values, hcut⟩ := hf.cut
    exact eq_ellipsis_of_cut h.layout hcut
  · intro hrest
    obtain ⟨t, ht⟩ : ∃ t, l.template? .ellipsis = some t := by
      rw [← Option.isSome_iff_exists, Lister.isSome_template?_of_usual hw.compiled h.given]
      simp [LinePattern.usual?, h.showEllipsis]
    have hcut : Cut o.Accepts (body o .ellipsis ++ charTokens o.newline) (restOf o r) [] := by
      rw [hrest, body, h.layout]
      simp only [LinePattern.plainBody]
      rw [charTokens, charTokens, ← List.map_append]
      exact Template.cut_chars _ _
    obtain ⟨p, hm, -⟩ := Replay.exists_match h hw.compiled ht (hw.toList_line h) (hw.head_restOf h) hcut
    rw [hm]
    rfl

/-- The line of a folder is never read as that of an ellipsis. -/
theorem match?_ellipsis (h : Padded o) (hw : Written o l d r m) (hk : r.kind = .folder ∨ r.kind = .root) :
    match? l .ellipsis (l.line r) = none := by
  rw [← Option.not_isSome_iff_eq_none, hw.isSome_match?_ellipsis h, hw.looksLikeEllipsis_iff h]
  obtain ⟨rest, hrest⟩ := restOf_bracket h hk
  obtain ⟨c, more, hc, -, hbracket⟩ := h.head_ellipsis
  rw [hrest, hc]
  exact fun he => hbracket (List.cons.inj he).1.symm

/-- The line ends with the newline, so it is read as it was written. -/
theorem exists_front (h : Padded o) (hw : Written o l d r m) : ∃ front, l.line r = front ++ o.newline := by
  obtain ⟨hl, ⟨base, -, hr⟩, -⟩ := hw
  obtain ⟨t, p, ht, -, rfl⟩ := Lister.record?_eq_some hr
  refine ⟨String.ofList ((LinePattern.front o m.kind).flatMap (Token.render p)), String.toList_inj.mp ?_⟩
  rw [Lister.line, ht, Option.map_some, Option.getD_some, toList_render (h.usual hl ht), String.toList_append,
    String.toList_ofList]

theorem terminated_line (h : Padded o) (hw : Written o l d r m) :
    terminated o.newline (l.line r) = l.line r := by
  obtain ⟨front, hline⟩ := hw.exists_front h
  rw [hline]
  exact terminated_of_suffix (String.toList_append ▸ List.suffix_append _ _)

/-- All but the line of a root, whose folder can be called anything, are one line. -/
theorem isLine (h : Padded o) (hw : Written o l d r m) (hk : r.kind ≠ .root) : IsLine (l.line r) := by
  have hkinds := hw.kind_cases h
  obtain ⟨hl, ⟨base, hm, hr⟩, -⟩ := hw
  obtain ⟨t, p, ht, hp, rfl⟩ := Lister.record?_eq_some hr
  have hkeeps : KeepsLine o := ⟨fun _ hm => absurd (h.pads _ hm) (by decide), h.hidden⟩
  have hentry : m.kind = .file ∨ m.kind = .folder → '\n' ∉ (m.item base).name.toList := fun hk hn =>
    (hm.good _ (hm.name_mem hk)).listable _ hn (by decide)
  have hcalled : '\n' ∉ ((m.item base).calledBy (LinePattern.nameTypeOf o m.kind)).toList := by
    rcases hkinds with hkind | hkind | hkind | hkind
    · rw [show m.kind = .file from hkind, LinePattern.nameTypeOf, h.name]
      exact hentry (.inl hkind)
    · rw [show m.kind = .ellipsis from hkind]
      exact List.not_mem_nil
    · rw [show m.kind = .folder from hkind, LinePattern.nameTypeOf, h.name]
      exact hentry (.inr hkind)
    · exact absurd hkind hk
  rw [Lister.line, ht]
  exact isLine_render (h.usual hl ht) h.newline h.inner hkeeps h.dates (fun hk _ => hm.regular hk) hcalled hp

end Written

end TreeListing.Replay
