import TreeListing.Proofs.Extract
import TreeListing.Proofs.LinePattern
import TreeListing.Proofs.Template.Line

/-!
Listings with the usual patterns. Which properties a line of a kind has follows from the options, and
what a template writes for an item without oddities are texts of these properties.
-/
namespace TreeListing

open Template (Token tokens fields)

/-- The patterns are the usual ones, the properties are those of the patterns, and every entry has a
name of its own in its line. -/
structure Options.IsUsual (o : Options) : Prop where
  given : ∀ kind, LinePattern.given? o kind = none
  properties : o.properties = []
  folders : o.showFolders = true
  newline : o.newline = "\n"
  name : o.nameType ≠ .dot
  rootName : o.rootNameType ≠ .relpath
  dates : o.showDate = true → o.dateFormat = Property.usualFormat

namespace LinePattern

variable {o : Options}

def names (o : Options) (kind : Kind) : List String :=
  (if o.showIndent then ["indent"] else []) ++ attributeNames o kind

theorem fields_charTokens (text : String) : (charTokens text).filterMap Token.field? = [] := by
  simp [charTokens, List.filterMap_map, Function.comp_def, Token.field?]

theorem flatMap_render_charTokens (p : Props) (text : String) :
    (charTokens text).flatMap (Token.render p) = text.toList := by
  simp [charTokens, List.flatMap_map, Token.render]

theorem fields_partTokens (shown : Bool) (name : String) :
    (partTokens shown [.field name]).filterMap Token.field? = if shown then [name] else [] := by
  cases shown <;> rfl

theorem fields_namedTokens (names : List String) :
    (names.flatMap namedTokens).filterMap Token.field? = names := by
  induction names with
  | nil => rfl
  | cons name names ih =>
    rw [List.flatMap_cons, List.filterMap_append, ih, namedTokens, List.filterMap_append,
      List.filterMap_append, fields_charTokens, fields_charTokens]
    rfl

theorem fields_listed (names : List String) : (listed names).filterMap Token.field? = names := by
  induction names with
  | nil => rfl
  | cons name rest ih =>
    cases rest with
    | nil => rfl
    | cons other rest =>
      rw [listed_cons_cons]
      exact congrArg (name :: ·) ih

theorem fields_plainHeading (o : Options) (nameType : NameType) :
    (plainHeading o nameType).filterMap Token.field? = headings o nameType := by
  rw [plainHeading, List.filterMap_append, fields_partTokens, headings, plainName]
  cases nameOf nameType <;> rfl

theorem fields_plainFolder (o : Options) (nameType : NameType) :
    (Token.char '<' :: (plainHeading o nameType ++ [.char '>'])).filterMap Token.field?
      = headings o nameType := by
  rw [List.filterMap_cons_none rfl, List.filterMap_append, fields_plainHeading]
  exact List.append_nil _

theorem fields_body (o : Options) (kind : Kind) :
    (body o kind).filterMap Token.field? = attributeNames o kind := by
  rw [body]
  cases o.layout with
  | plain =>
    cases kind with
    | file =>
      have hdetails : (partTokens (!(details o).isEmpty)
          (charTokens " [" ++ listed (details o) ++ [.char ']'])).filterMap Token.field?
            = details o := by
        cases hd : details o with
        | nil => rfl
        | cons name rest =>
          simp only [List.isEmpty_cons, Bool.not_false, partTokens, if_true, List.filterMap_append,
            fields_charTokens, fields_listed]
          simp [Token.field?]
      simp only [plainBody, List.filterMap_append, fields_plainHeading, hdetails]
      rfl
    | folder => exact fields_plainFolder o o.nameType
    | root => exact fields_plainFolder o o.rootNameType
    | folderEnd => rfl
    | ellipsis => exact fields_charTokens o.ellipsis
  | xml =>
    simp only [element, List.filterMap_append, fields_charTokens, fields_namedTokens,
      List.nil_append, List.append_nil]

theorem fields_lineTokens (o : Options) (kind : Kind) :
    (lineTokens o kind).filterMap Token.field? = names o kind := by
  rw [lineTokens, List.filterMap_append, List.filterMap_append, fields_partTokens, fields_body,
    fields_charTokens, List.append_nil, names]

theorem sublist_part (shown : Bool) (name : String) :
    (if shown then [name] else []).Sublist [name] := by
  cases shown <;> simp

theorem mem_part {shown : Bool} {name other : String} :
    other ∈ (if shown then [name] else []) ↔ shown = true ∧ other = name := by
  cases shown <;> simp

theorem mem_details {name : String} : name ∈ details o ↔ o.showSize = true ∧ name = "size" ∨
    o.showDate = true ∧ name = dateOf o.dateType ∨ o.showHash = true ∧ name = "hash" := by
  rw [details, List.mem_append, List.mem_append, mem_part, mem_part, mem_part, or_assoc]

theorem nodup_names (o : Options) (kind : Kind) : (names o kind).Nodup := by
  have hheadings : ∀ nameType, ∃ n ∈ ["name", "relpath", "abspath"],
      (headings o nameType).Sublist [n, "hidden"] := by
    intro nameType
    cases nameType with
    | dot => exact ⟨"name", by simp, (sublist_part o.showHidden "hidden").trans (by simp)⟩
    | name => exact ⟨"name", by simp, (sublist_part o.showHidden "hidden").cons_cons _⟩
    | relpath => exact ⟨"relpath", by simp, (sublist_part o.showHidden "hidden").cons_cons _⟩
    | abspath => exact ⟨"abspath", by simp, (sublist_part o.showHidden "hidden").cons_cons _⟩
  have hdetails : (details o).Sublist ["size", dateOf o.dateType, "hash"] :=
    ((sublist_part o.showSize "size").append (sublist_part o.showDate _)).append
      (sublist_part o.showHash "hash")
  have hattributes : ∃ n ∈ ["name", "relpath", "abspath"],
      (attributeNames o kind).Sublist [n, "hidden", "size", dateOf o.dateType, "hash"] := by
    cases kind with
    | file =>
      obtain ⟨n, hn, hs⟩ := hheadings o.nameType
      exact ⟨n, hn, hs.append hdetails⟩
    | folder =>
      obtain ⟨n, hn, hs⟩ := hheadings o.nameType
      exact ⟨n, hn, hs.trans (List.sublist_append_left _ _)⟩
    | root =>
      obtain ⟨n, hn, hs⟩ := hheadings o.rootNameType
      exact ⟨n, hn, hs.trans (List.sublist_append_left _ _)⟩
    | folderEnd => exact ⟨"name", by simp, List.nil_sublist _⟩
    | ellipsis => exact ⟨"name", by simp, List.nil_sublist _⟩
  obtain ⟨n, hn, hs⟩ := hattributes
  refine ((sublist_part o.showIndent "indent").append hs).nodup ?_
  have hdate : dateOf o.dateType ∈ ["ndate", "cdate", "mdate"] := by
    cases o.dateType <;> decide
  revert hn hdate
  generalize dateOf o.dateType = m
  simp only [List.mem_cons, List.not_mem_nil, or_false]
  rintro (rfl | rfl | rfl) (rfl | rfl | rfl) <;> decide

theorem knows_names (hd : o.showDate = true → o.dateFormat = Property.usualFormat) (kind : Kind) :
    o.Knows (names o kind) := by
  have hheadings : ∀ nameType, ∀ name ∈ headings o nameType,
      ∃ property, Registry.core.get? name = some property ∧ property.IsUsual o := by
    intro nameType name hm
    rcases List.mem_append.mp hm with hm | hm
    · cases nameType with
      | dot => cases hm
      | name => exact List.mem_singleton.mp hm ▸ ⟨.name, rfl, trivial⟩
      | relpath => exact List.mem_singleton.mp hm ▸ ⟨.relpath, rfl, trivial⟩
      | abspath => exact List.mem_singleton.mp hm ▸ ⟨.abspath, rfl, trivial⟩
    · obtain ⟨-, rfl⟩ := mem_part.mp hm
      exact ⟨.hidden, rfl, trivial⟩
  intro name hm
  rcases List.mem_append.mp hm with hm | hm
  · obtain ⟨-, rfl⟩ := mem_part.mp hm
    exact ⟨.indent, rfl, trivial⟩
  · cases kind with
    | file =>
      rcases List.mem_append.mp hm with hm | hm
      · exact hheadings _ name hm
      · rcases mem_details.mp hm with ⟨-, rfl⟩ | ⟨hs, rfl⟩ | ⟨-, rfl⟩
        · exact ⟨.size, rfl, trivial⟩
        · cases o.dateType with
          | newest => exact ⟨.ndate, rfl, hd hs⟩
          | creation => exact ⟨.cdate, rfl, hd hs⟩
          | modification => exact ⟨.mdate, rfl, hd hs⟩
        · exact ⟨.hash, rfl, trivial⟩
    | folder => exact hheadings _ name hm
    | root => exact hheadings _ name hm
    | folderEnd => cases hm
    | ellipsis => cases hm

/-- Whatever the options are, the names are those of properties that are always known. -/
theorem exists_property {kind : Kind} {name : String} (hm : name ∈ names o kind) :
    ∃ property, Registry.core.get? name = some property := by
  obtain ⟨property, hg, -⟩ :=
    knows_names (o := { o with dateFormat := Property.usualFormat }) (fun _ => rfl) kind name hm
  exact ⟨property, hg⟩

/-- The character stands for itself in a pattern, and it does not end the line. -/
def IsInnerChar (c : Char) : Prop := c ≠ '\x7b' ∧ c ≠ '\x7d' ∧ c ≠ '\n'

instance (c : Char) : Decidable (IsInnerChar c) := inferInstanceAs (Decidable (_ ∧ _))

def IsInnerText (cs : List Char) : Prop := ∀ c ∈ cs, IsInnerChar c

instance (cs : List Char) : Decidable (IsInnerText cs) := List.decidableBAll _ cs

/-- What can stand in the pattern of a line before its end. -/
def IsInner : Token → Prop
  | .char c => IsInnerChar c
  | .field name => IsInnerText name.toList ∧
    Template.Segment.ofField name.toList = .ok (.field name)

theorem IsInner.isPlain {token : Token} (h : IsInner token) : token.IsPlain := by
  cases token with
  | char c => exact ⟨h.1, h.2.1⟩
  | field name => exact ⟨fun c hc => ⟨(h.1 c hc).1, (h.1 c hc).2.1⟩, h.2⟩

theorem isInner_field {name : String} {property : Property}
    (h : Registry.core.get? name = some property) : IsInner (.field name) := by
  have hall : ∀ pair ∈ Registry.core.entries,
      IsInnerText pair.1.toList ∧
        Template.Segment.ofField pair.1.toList = .ok (.field pair.1) := by
    decide +kernel
  exact hall _ (mem_of_lookup h)

theorem isInner_charTokens {text : String} (h : IsInnerText text.toList) :
    ∀ token ∈ charTokens text, IsInner token := by
  intro token hm
  obtain ⟨c, hc, rfl⟩ := List.mem_map.mp hm
  exact h c hc

theorem isInner_namedTokens {names : List String} (h : ∀ name ∈ names, IsInner (.field name)) :
    ∀ token ∈ names.flatMap namedTokens, IsInner token := by
  intro token hm
  obtain ⟨name, hn, hm⟩ := List.mem_flatMap.mp hm
  have hname := h name hn
  rcases List.mem_append.mp hm with hm | hm
  · rcases List.mem_append.mp hm with hm | hm
    · have hspace : IsInnerText " ".toList := by decide
      have hquote : IsInnerText "=\"".toList := by decide
      refine isInner_charTokens (fun c hc => ?_) token hm
      simp only [String.toList_append, List.mem_append] at hc
      exact hc.elim (fun hc => hc.elim (hspace c) (hname.1 c)) (hquote c)
    · exact List.mem_singleton.mp hm ▸ hname
  · exact isInner_charTokens (by decide) token hm

theorem isInner_listed {names : List String} (h : ∀ name ∈ names, IsInner (.field name)) :
    ∀ token ∈ listed names, IsInner token := by
  induction names with
  | nil => exact fun _ hm => absurd hm List.not_mem_nil
  | cons name rest ih =>
    rw [List.forall_mem_cons] at h
    cases rest with
    | nil => exact fun token hm => List.mem_singleton.mp hm ▸ h.1
    | cons other rest =>
      rw [listed_cons_cons, List.forall_mem_cons, List.forall_mem_cons]
      exact ⟨h.1, (by decide : IsInnerChar _), ih h.2⟩

theorem isInner_plainHeading {nameType : NameType}
    (h : ∀ name ∈ headings o nameType, IsInner (.field name)) :
    ∀ token ∈ plainHeading o nameType, IsInner token := by
  intro token hm
  cases token with
  | char c =>
    have hc : c = '.' := by
      cases hn : nameOf nameType <;> cases hs : o.showHidden <;>
        simp [plainHeading, plainName, hn, hs, partTokens] at hm <;> exact hm
    exact hc ▸ (by decide : IsInnerChar _)
  | field name =>
    refine h name ?_
    rw [← fields_plainHeading]
    exact List.mem_filterMap.mpr ⟨_, hm, rfl⟩

/-- The line of a kind without its end. -/
def front (o : Options) (kind : Kind) : List Token := partTokens o.showIndent [.field "indent"] ++ body o kind

/-- The ellipsis can stand in its line as it is. -/
def HasInnerEllipsis (o : Options) : Prop := o.layout = .plain → IsInnerText o.ellipsis.toList

theorem hasInnerEllipsis_dots (he : o.layout = .plain → o.ellipsis = "...") : HasInnerEllipsis o :=
  fun hp => he hp ▸ by decide

theorem isInner_body (kind : Kind) (he : o.layout = .plain → kind = .ellipsis → IsInnerText o.ellipsis.toList) :
    ∀ token ∈ body o kind, IsInner token := by
  have hnames : ∀ kind, ∀ name ∈ attributeNames o kind, IsInner (.field name) := fun kind name hm => by
    have hname : name ∈ names o kind := List.mem_append_right _ hm
    obtain ⟨property, hg⟩ := exists_property hname
    exact isInner_field hg
  have hfolder : ∀ {nameType : NameType}, (∀ name ∈ headings o nameType, IsInner (.field name)) →
      ∀ token ∈ Token.char '<' :: (plainHeading o nameType ++ [.char '>']), IsInner token := by
    intro nameType h
    rw [List.forall_mem_cons, List.forall_mem_append]
    exact ⟨(by decide : IsInnerChar _), isInner_plainHeading h,
      List.forall_mem_singleton.mpr (by decide : IsInnerChar _)⟩
  rw [body]
  cases hx : o.layout with
  | plain =>
    cases kind with
    | file =>
      have hlisted := isInner_listed fun name hm => hnames .file name (List.mem_append_right _ hm)
      refine List.forall_mem_append.mpr ⟨isInner_plainHeading fun name hm =>
        hnames .file name (List.mem_append_left _ hm), ?_⟩
      cases hd : !(details o).isEmpty with
      | false => exact fun _ hm => absurd hm List.not_mem_nil
      | true =>
        refine List.forall_mem_append.mpr ⟨List.forall_mem_append.mpr
          ⟨isInner_charTokens (by decide), hlisted⟩,
          List.forall_mem_singleton.mpr (by decide : IsInnerChar _)⟩
    | folder => exact hfolder (hnames .folder)
    | root => exact hfolder (hnames .root)
    | folderEnd => exact fun _ hm => absurd hm List.not_mem_nil
    | ellipsis => exact isInner_charTokens (he hx rfl)
  | xml =>
    refine List.forall_mem_append.mpr ⟨List.forall_mem_append.mpr ⟨isInner_charTokens ?_,
      isInner_namedTokens (hnames kind)⟩, isInner_charTokens ?_⟩
    · cases kind <;> decide
    · cases kind <;> decide

theorem isInner_indent (o : Options) : ∀ token ∈ partTokens o.showIndent [.field "indent"], IsInner token := by
  intro token hm
  cases hs : o.showIndent with
  | false => simp [hs, partTokens] at hm
  | true =>
    obtain rfl : token = .field "indent" := by simpa [hs, partTokens] using hm
    exact isInner_field (rfl : Registry.core.get? "indent" = some .indent)

theorem isInner_front (he : HasInnerEllipsis o) (kind : Kind) : ∀ token ∈ front o kind, IsInner token :=
  List.forall_mem_append.mpr ⟨isInner_indent o, isInner_body kind fun hp _ => he hp⟩

/-- The newline can stand in a pattern as it is. -/
def HasPlainNewline (o : Options) : Prop := ∀ c ∈ o.newline.toList, c ≠ '\x7b' ∧ c ≠ '\x7d'

/-- Nothing in a usual pattern has to be written in another way. -/
theorem isPlain_lineTokens (he : HasInnerEllipsis o) (hn : HasPlainNewline o) (kind : Kind) :
    ∀ token ∈ lineTokens o kind, token.IsPlain := by
  refine List.forall_mem_append.mpr ⟨fun token hm => (isInner_front he kind token hm).isPlain, ?_⟩
  intro token hm
  obtain ⟨c, hc, rfl⟩ := List.mem_map.mp hm
  exact hn c hc

end LinePattern

namespace Lister

open LinePattern (names headings body charTokens lineTokens)

variable {o : Options} {l : Lister} {kind : Kind} {t : Template}

/-- The template of a kind comes from its usual pattern. -/
structure Usual (o : Options) (kind : Kind) (t : Template) : Prop where
  compiled : ∃ pattern, t.Compiled pattern o .core
  tokens : tokens t.segments = lineTokens o kind
  fields : fields t.segments = names o kind

theorem exists_segments (hg : ∀ kind, LinePattern.given? o kind = none) (he : LinePattern.HasInnerEllipsis o)
    (hn : LinePattern.HasPlainNewline o) {pattern : String} (hp : o.pattern? kind = some pattern) :
    ∃ segments, Template.Segment.ofPattern pattern.toList = .ok segments ∧
      tokens segments = lineTokens o kind ∧ fields segments = names o kind := by
  rw [Options.pattern?, hg kind] at hp
  have hplain := LinePattern.isPlain_lineTokens he hn kind
  obtain ⟨segments, hcut, htokens⟩ := Template.tokens_of_written (fun token hm => (hplain token hm).isReadable) []
  refine ⟨segments, ?_, htokens, ?_⟩
  · rw [LinePattern.spell_usual? hp, Template.spell_eq_written hplain]
    exact hcut
  · rw [Template.fields_eq, htokens]
    exact LinePattern.fields_lineTokens o kind

theorem usual_of_plain (hl : compile o .core = .ok l) (hg : ∀ kind, LinePattern.given? o kind = none)
    (he : LinePattern.HasInnerEllipsis o) (hn : LinePattern.HasPlainNewline o) {kind : Kind} {t : Template}
    (ht : l.template? kind = some t) : Usual o kind t := by
  obtain ⟨pattern, hpattern, hc⟩ := compiled_of_template? hl ht
  obtain ⟨segments, hs, htokens, hfields⟩ := exists_segments hg he hn hpattern
  obtain rfl := Except.ok.inj (hs.symm.trans hc.segments)
  exact ⟨⟨pattern, hc⟩, htokens, hfields⟩

theorem hasPlainNewline (ho : o.IsUsual) : LinePattern.HasPlainNewline o := by
  intro c hc
  rw [ho.newline] at hc
  obtain rfl := List.mem_singleton.mp hc
  decide

theorem usual_template (hl : compile o .core = .ok l) (ho : o.IsUsual)
    (he : LinePattern.HasInnerEllipsis o) {kind : Kind} {t : Template}
    (ht : l.template? kind = some t) : Usual o kind t :=
  usual_of_plain hl ho.given he (hasPlainNewline ho) ht

/-- Patterns that can be cut, and name only what is always known, can be made ready. -/
theorem exists_compile_of_segments (ho : o.properties = [])
    (h : ∀ kind pattern, o.pattern? kind = some pattern → ∃ segments,
      Template.Segment.ofPattern pattern.toList = .ok segments ∧ fields segments = names o kind) :
    ∃ l, compile o .core = .ok l := by
  have hkind : ∀ kind, ∃ t?, compileKind o .core kind = .ok t? := by
    intro kind
    rw [compileKind]
    split
    next => exact ⟨none, rfl⟩
    next pattern hp =>
      obtain ⟨segments, hs, hfields⟩ := h kind pattern hp
      have hknown : ∀ name ∈ fields segments ++ o.properties,
          ∃ property, Registry.core.get? name = some property := by
        rw [hfields, ho, List.append_nil]
        exact fun name hm => LinePattern.exists_property hm
      obtain ⟨t, ht⟩ := Template.exists_compile hs hknown
      exact ⟨some t, mapError_eq_ok.mpr (map_eq_ok.mpr ⟨t, ht, rfl⟩)⟩
  obtain ⟨file, hfile⟩ := hkind .file
  obtain ⟨folder, hfolder⟩ := hkind .folder
  obtain ⟨folderEnd, hfolderEnd⟩ := hkind .folderEnd
  obtain ⟨root, hroot⟩ := hkind .root
  obtain ⟨ellipsis, hellipsis⟩ := hkind .ellipsis
  have hl : compile o .core = .ok ⟨o, file, folder, folderEnd, root, ellipsis⟩ := by
    rw [compile, hfile, hfolder, hfolderEnd, hroot, hellipsis]
    rfl
  exact ⟨_, hl⟩

/-- The usual patterns can be made ready. -/
theorem exists_compile (ho : o.IsUsual) (he : o.layout = .plain → o.ellipsis = "...") :
    ∃ l, compile o .core = .ok l := by
  refine exists_compile_of_segments ho.properties fun kind pattern hp => ?_
  obtain ⟨segments, hs, -, hfields⟩ :=
    exists_segments ho.given (LinePattern.hasInnerEllipsis_dots he) (hasPlainNewline ho) hp
  exact ⟨segments, hs, hfields⟩

theorem Usual.names_eq (hu : Usual o kind t) (ho : o.IsUsual) {d : Disk} {i : Item} {p : Props}
    (hp : t.props d i = .ok p) : p.names = names o kind := by
  obtain ⟨pattern, hc⟩ := hu.compiled
  have hpairs := hc.pairs_eq (hu.fields ▸ LinePattern.nodup_names o kind) ho.properties hp
  rw [Props.names, hpairs, List.map_map, hu.fields]
  exact List.map_id _

theorem Usual.exists_of_mem (hu : Usual o kind t) {d : Disk} {i : Item} {p : Props}
    (hp : t.props d i = .ok p) {name : String} (hm : name ∈ names o kind) :
    ∃ property value, Registry.core.get? name = some property ∧ p.get? name = some value ∧
      property.extract d o i = .ok value := by
  obtain ⟨pattern, hc⟩ := hu.compiled
  exact hc.exists_of_mem_fields hp (hu.fields ▸ hm)

theorem Usual.texts (hu : Usual o kind t) (ho : o.IsUsual) {d : Disk} {i : Item}
    (hi : i.IsCommon d o) (hf : kind = .file → i.isFolder = false)
    (hpath : kind = .file ∨ kind = .folder → i.path.text ≠ "") {p : Props} (hp : t.props d i = .ok p) :
    ∀ name ∈ Template.fields t.segments, o.Texts name ((p.get? name).getD "").toList := by
  intro name hm
  rw [hu.fields] at hm
  obtain ⟨property, value, hg, hv, he⟩ := hu.exists_of_mem hp hm
  refine ⟨property, hg, ?_⟩
  rw [hv, Option.getD_some]
  have hheadings : ∀ nameType, (nameType = .relpath → i.path.text ≠ "") → name ∈ headings o nameType →
      property.Texts o value.toList := by
    intro nameType hr hm
    rcases List.mem_append.mp hm with hm | hm
    · cases nameType with
      | dot => cases hm
      | name =>
        obtain rfl := List.mem_singleton.mp hm
        obtain rfl : .name = property := Option.some.inj hg
        exact Property.texts_extract hi.name he
      | relpath =>
        obtain rfl := List.mem_singleton.mp hm
        obtain rfl : .relpath = property := Option.some.inj hg
        exact Property.texts_extract (hi.path (hr rfl)) he
      | abspath =>
        obtain rfl := List.mem_singleton.mp hm
        obtain rfl : .abspath = property := Option.some.inj hg
        exact Property.texts_extract hi.abspath he
    · obtain ⟨-, rfl⟩ := LinePattern.mem_part.mp hm
      obtain rfl : .hidden = property := Option.some.inj hg
      exact Property.texts_extract trivial he
  rcases List.mem_append.mp hm with hm | hm
  · obtain ⟨-, rfl⟩ := LinePattern.mem_part.mp hm
    obtain rfl : .indent = property := Option.some.inj hg
    exact Property.texts_extract trivial he
  · cases kind with
    | file =>
      rcases List.mem_append.mp hm with hm | hm
      · exact hheadings _ (fun _ => hpath (.inl rfl)) hm
      · rcases LinePattern.mem_details.mp hm with ⟨-, rfl⟩ | ⟨hd, rfl⟩ | ⟨-, rfl⟩
        · obtain rfl : .size = property := Option.some.inj hg
          exact Property.texts_size he
        · exact Property.texts_dateOf (ho.dates hd) (hi.date (hf rfl) hd) hg he
        · obtain rfl : .hash = property := Option.some.inj hg
          exact Property.texts_hash (hi.file (hf rfl)) he
    | folder => exact hheadings _ (fun _ => hpath (.inr rfl)) hm
    | root => exact hheadings _ (fun h => absurd h ho.rootName) hm
    | folderEnd => cases hm
    | ellipsis => cases hm

/-- A template reads its own line, where that can be cut in one way only. -/
theorem Usual.matchLine?_render (hu : Usual o kind t) (ho : o.IsUsual)
    (hunamb : Template.Unambiguous o.Texts (lineTokens o kind)) {d : Disk} {i : Item}
    {p : Props} (hp : t.props d i = .ok p)
    (ht : ∀ name ∈ Template.fields t.segments, o.Texts name ((p.get? name).getD "").toList) :
    t.matchLine? (t.render p) = some p := by
  obtain ⟨pattern, hc⟩ := hu.compiled
  have hnames := hu.fields
  exact hc.matchLine?_render (hnames ▸ LinePattern.knows_names ho.dates kind)
    (hnames ▸ LinePattern.nodup_names o kind) ho.properties (hu.tokens ▸ hunamb) hp ht

/-- With an indent a template reads its own line, where no indent comes behind the indent, and what
comes there can be cut in one way only. -/
theorem Usual.matchLine?_render_of_indent (hu : Usual o kind t) (ho : o.IsUsual)
    (hs : o.showIndent = true) (hi : o.indent ≠ "")
    (hunamb : Template.Unambiguous o.Texts (body o kind ++ charTokens o.newline)) {d : Disk} {i : Item}
    {p : Props} (hp : t.props d i = .ok p)
    (ht : ∀ name ∈ Template.fields t.segments, o.Texts name ((p.get? name).getD "").toList)
    (hfree : ¬ o.indent.toList <+: (body o kind ++ charTokens o.newline).flatMap (Token.render p)) :
    t.matchLine? (t.render p) = some p := by
  obtain ⟨pattern, hc⟩ := hu.compiled
  have hnames := hu.fields
  have htokens : Template.tokens t.segments = .field "indent" :: (body o kind ++ charTokens o.newline) := by
    rw [hu.tokens, lineTokens, hs, List.append_assoc]
    rfl
  exact hc.matchLine?_render_of_indent (hnames ▸ LinePattern.knows_names ho.dates kind)
    (hnames ▸ LinePattern.nodup_names o kind) ho.properties hi htokens hunamb hp ht hfree

theorem Usual.exists_cut (hu : Usual o kind t) (ho : o.IsUsual) {line : String} {p : Props}
    (h : t.matchLine? line = some p) : ∃ values, Template.Cut o.Texts (lineTokens o kind) line.toList values ∧
      p.pairs = values.map fun v => (v.1, String.ofList v.2) := by
  obtain ⟨pattern, hc⟩ := hu.compiled
  have hnames := hu.fields
  exact hu.tokens ▸ hc.exists_cut (hnames ▸ LinePattern.knows_names ho.dates kind)
    (hnames ▸ LinePattern.nodup_names o kind) h

end Lister

end TreeListing
