import TreeListing.Proofs.Fragment
import TreeListing.Proofs.Template.Unambiguous

/-!
What a template of the usual properties finds in a line. A line that can be cut in one way only gives
the texts of that cut, so a template finds again what it has written.
-/
namespace TreeListing

def Options.Texts (o : Options) (name : String) (u : List Char) : Prop :=
  ∃ property, Registry.core.get? name = some property ∧ property.Texts o u

def Options.items (o : Options) (name : String) : List Regex :=
  ((Registry.core.get? name).map (·.items o)).getD []

/-- The expression of the property with the name, for any format of dates. -/
def Options.pieces (o : Options) (name : String) : List Regex :=
  ((Registry.core.get? name).map (·.pieces o)).getD []

/-- The properties with the names are usual ones. -/
def Options.Knows (o : Options) (names : List String) : Prop :=
  ∀ name ∈ names, ∃ property, Registry.core.get? name = some property ∧ property.IsUsual o

namespace Template

variable {t : Template} {pattern : String} {o : Options} {r : Registry}

theorem mem_fields {segments : List Segment} {name : String} :
    name ∈ fields segments ↔ .field name ∈ tokens segments := by
  rw [fields_eq, List.mem_filterMap]
  constructor
  · rintro ⟨token, hm, he⟩
    cases token with
    | char c => cases he
    | field n => exact Option.some.inj he ▸ hm
  · exact fun hm => ⟨_, hm, rfl⟩

theorem recognises (hk : o.Knows (fields t.segments)) (name : String)
    (hm : .field name ∈ tokens t.segments) :
    (Regex.concat (o.items name)).Recognises (o.Texts name) := by
  obtain ⟨property, hg, -⟩ := hk name (mem_fields.mpr hm)
  rw [Options.items, hg]
  refine (property.recognises_items o).congr fun u => ⟨fun h => ⟨property, hg, h⟩, ?_⟩
  rintro ⟨other, ho, h⟩
  obtain rfl := Option.some.inj (hg.symm.trans ho)
  exact h

theorem matchLine?_eq {language : String → List Char → Prop} (hn : (fields t.segments).Nodup) {line : String}
    {values : List (String × List Char)} (hv : Cut language (tokens t.segments) line.toList values) {q : Regex.Place}
    (hq : t.matcher.search line.toList = some q) (hp : q.passed = groupsOf 0 values) :
    ∃ p, t.matchLine? line = some p ∧ p.pairs = values.map fun v => (v.1, String.ofList v.2) := by
  have hnames : values.map Prod.fst = fields t.segments := hv.names_eq_fields
  refine ⟨_, by rw [matchLine?, hq]; rfl, ?_⟩
  rw [placeholders, ← hnames]
  exact pairs_found (hnames ▸ hn) hp

/-- What tokens are written as, where properties are texts of their names, can be cut. -/
theorem cut_flatMap {language : String → List Char → Prop} {p : Props} {ts : List Token}
    (h : ∀ name, .field name ∈ ts → language name ((p.get? name).getD "").toList) :
    Cut language ts (ts.flatMap (Token.render p))
      ((ts.filterMap Token.field?).map fun name => (name, ((p.get? name).getD "").toList)) := by
  induction ts with
  | nil => exact .nil
  | cons token ts ih =>
    have ih := ih fun name hm => h name (List.mem_cons_of_mem _ hm)
    cases token with
    | char c => exact .char ih
    | field name => exact .field (h name List.mem_cons_self) ih

def placed (t : Template) (p : Props) : List (String × List Char) :=
  t.placeholders.map fun name => (name, ((p.get? name).getD "").toList)

theorem cut_render {language : String → List Char → Prop} (t : Template) {p : Props}
    (ht : ∀ name ∈ t.placeholders, language name ((p.get? name).getD "").toList) :
    Cut language (tokens t.segments) (t.render p).toList (t.placed p) := by
  rw [render_eq, placed, placeholders, fields_eq]
  exact cut_flatMap fun name hm => ht name (mem_fields.mpr hm)

/-- The expression for a line that begins with the indent finds the longest one, if no indent comes behind
it. -/
theorem exists_search_of_indent {body : String → Regex} {language : String → List Char → Prop}
    {ts : List Token} (hb : ∀ name, .field name ∈ ts → (body name).Recognises (language name))
    {indent : List Char} (hi : body "indent" = Regex.concat [.star true (.word indent)]) (hne : indent ≠ [])
    {u rest : List Char} (hu : Regex.Rounds indent u) (hfree : ¬ indent <+: rest)
    {values : List (String × List Char)} (h : Cut language ts rest values) :
    ∃ q values', (lineRegex body (.field "indent" :: ts)).search (u ++ rest) = some q ∧
      Cut language ts rest values' ∧ q.passed = groupsOf 0 (("indent", u) :: values') := by
  obtain ⟨k, rfl⟩ := hu
  obtain ⟨q, hq, hl, -⟩ := Regex.first_star_word (p := ⟨0, (List.replicate k indent).flatten ++ rest, []⟩)
    hne hfree rfl
  exact exists_search_of_first hb (hi ▸ hq) hl h

theorem lookup_of_resolve {names : List String} {properties : List (String × Property)}
    (h : resolve r names = .ok properties) {name : String} (hm : name ∈ names) :
    ∃ property, properties.lookup name = some property ∧ r.get? name = some property := by
  obtain ⟨hn, hg⟩ := resolve_ok h
  obtain ⟨property, hl⟩ := exists_lookup_of_mem (hn.symm ▸ hm)
  exact ⟨property, hl, hg _ _ (mem_of_lookup hl)⟩

theorem exists_resolve {names : List String} (h : ∀ name ∈ names, ∃ property, r.get? name = some property) :
    ∃ properties, resolve r names = .ok properties := by
  induction names with
  | nil => exact ⟨[], rfl⟩
  | cons name rest ih =>
    rw [List.forall_mem_cons] at h
    obtain ⟨property, hg⟩ := h.1
    obtain ⟨others, ho⟩ := ih h.2
    refine ⟨(name, property) :: others, ?_⟩
    rw [resolve, hg]
    simp only [ho]
    rfl

theorem leaves_items {names : List String} (hk : o.Knows names) {name : String} (hm : name ∈ names)
    {property : Property} (hg : Registry.core.get? name = some property) :
    Regex.Parser.Leaves (property.pattern o) (o.items name) := by
  obtain ⟨property', hg', hu⟩ := hk name hm
  obtain rfl := Option.some.inj (hg.symm.trans hg')
  rw [Options.items, hg]
  exact Property.leaves_pattern hu

/-- Where the expressions of the properties are read as `body` says, so is that of a line. -/
theorem parse?_segments {segments : List Segment} {body : String → List Regex}
    (hb : ∀ name ∈ fields segments, ∀ property, Registry.core.get? name = some property →
      Regex.Parser.Leaves (property.pattern o) (body name))
    {properties : List (String × Property)} (hp : ∀ name ∈ fields segments,
      ∃ property, properties.lookup name = some property ∧ Registry.core.get? name = some property) :
    Regex.parse? (lineText (fragment o properties) segments)
      = some (lineRegex (fun name => Regex.concat (body name)) (tokens segments)) := by
  apply parse?_lineText
  intro name hm
  have hm := mem_fields.mpr hm
  obtain ⟨property, hl, hg⟩ := hp name hm
  rw [fragment, hl]
  exact hb name hm property hg

theorem leaves_pieces {name : String} {property : Property}
    (hg : Registry.core.get? name = some property) :
    Regex.Parser.Leaves (property.pattern o) (o.pieces name) := by
  rw [Options.pieces, hg]
  exact Property.leaves_pieces ⟨name, hg⟩

/-- A pattern can be made ready where its properties and the other ones asked for are always known. -/
theorem exists_compile {segments : List Segment} (hs : Segment.ofPattern pattern.toList = .ok segments)
    (hk : ∀ name ∈ fields segments ++ o.properties, ∃ property, Registry.core.get? name = some property) :
    ∃ t, compile pattern o .core = .ok t := by
  obtain ⟨properties, hp⟩ := exists_resolve fun name hm => hk name (List.mem_eraseDups.mp hm)
  have hparse := parse?_segments (o := o) (fun _ _ _ => leaves_pieces) fun name hm =>
    lookup_of_resolve hp (List.mem_eraseDups.mpr (List.mem_append_left _ hm))
  let matcher := lineRegex (fun name => Regex.concat (o.pieces name)) (tokens segments)
  have ht : compile pattern o .core = .ok ⟨pattern, segments, properties, matcher, o⟩ := by
    refine bind_eq_ok.mpr ⟨segments, mapError_eq_ok.mpr hs,
      bind_eq_ok.mpr ⟨properties, mapError_eq_ok.mpr hp, ?_⟩⟩
    rw [hparse]
    rfl
  exact ⟨_, ht⟩

namespace Compiled

theorem lookup (hc : t.Compiled pattern o r) {name : String} (hm : name ∈ fields t.segments) :
    ∃ property, t.properties.lookup name = some property ∧ r.get? name = some property :=
  lookup_of_resolve hc.properties (List.mem_eraseDups.mpr (List.mem_append_left _ hm))

theorem matcher_eq_of_leaves (hc : t.Compiled pattern o .core) {body : String → List Regex}
    (hb : ∀ name ∈ fields t.segments, ∀ property, Registry.core.get? name = some property →
      Regex.Parser.Leaves (property.pattern o) (body name)) :
    t.matcher = lineRegex (fun name => Regex.concat (body name)) (tokens t.segments) :=
  Option.some.inj (hc.matcher.symm.trans (parse?_segments hb fun _ => hc.lookup))

theorem matcher_eq (hc : t.Compiled pattern o .core) (hk : o.Knows (fields t.segments)) :
    t.matcher = lineRegex (fun name => Regex.concat (o.items name)) (tokens t.segments) :=
  hc.matcher_eq_of_leaves fun _ hm _ => leaves_items hk hm

/-- What is found in a line is a cut of it. -/
theorem exists_cut (hc : t.Compiled pattern o .core) (hk : o.Knows (fields t.segments))
    (hn : (fields t.segments).Nodup) {line : String} {p : Props} (h : t.matchLine? line = some p) :
    ∃ values, Cut o.Texts (tokens t.segments) line.toList values ∧
      p.pairs = values.map fun v => (v.1, String.ofList v.2) := by
  obtain ⟨q, hq, rfl⟩ := Option.map_eq_some_iff.mp h
  rw [hc.matcher_eq hk] at hq
  obtain ⟨values, hv, hp⟩ := exists_cut_of_search (recognises hk) hq
  have hnames : values.map Prod.fst = fields t.segments := hv.names_eq_fields
  refine ⟨values, hv, ?_⟩
  rw [placeholders, ← hnames]
  exact pairs_found (hnames ▸ hn) hp

/-- A line that can be cut in one way only gives the texts of its cut. -/
theorem matchLine?_of_unambiguous (hc : t.Compiled pattern o .core)
    (hk : o.Knows (fields t.segments)) (hn : (fields t.segments).Nodup)
    (hu : Unambiguous o.Texts (tokens t.segments)) {line : String}
    {values : List (String × List Char)} (hv : Cut o.Texts (tokens t.segments) line.toList values) :
    ∃ p, t.matchLine? line = some p ∧ p.pairs = values.map fun v => (v.1, String.ofList v.2) := by
  obtain ⟨q, hq⟩ := exists_search_of_cut (recognises hk) hv
  obtain ⟨values', hv', hp⟩ := exists_cut_of_search (recognises hk) hq
  obtain rfl := hu _ _ _ hv hv'
  exact matchLine?_eq hn hv (hc.matcher_eq hk ▸ hq) hp

theorem pairs_eq (hc : t.Compiled pattern o r) (hn : (fields t.segments).Nodup)
    (ho : o.properties = []) {d : Disk} {i : Item} {p : Props} (hp : t.props d i = .ok p) :
    p.pairs = (fields t.segments).map fun name => (name, (p.get? name).getD "") := by
  have hnames : p.names = fields t.segments := by
    rw [Props.names, map_fst_values (forall₂_props hc.nodup hp), hc.names, ho, List.append_nil]
    exact eraseDups_eq_self hn
  rw [p.pairs_eq, hnames]

/-- Properties with the texts of an item's properties are those of the item. -/
theorem eq_of_pairs (hc : t.Compiled pattern o r) (hn : (fields t.segments).Nodup)
    (ho : o.properties = []) {d : Disk} {i : Item} {p p' : Props} (hp : t.props d i = .ok p)
    (h : p'.pairs = (t.placed p).map fun v => (v.1, String.ofList v.2)) : p' = p := by
  refine Props.ext (h.trans ?_)
  rw [hc.pairs_eq hn ho hp, placed, placeholders, List.map_map]
  simp [Function.comp_def]

/-- A template reads its own line, where that can be cut in one way only. -/
theorem matchLine?_render (hc : t.Compiled pattern o .core) (hk : o.Knows (fields t.segments))
    (hn : (fields t.segments).Nodup) (ho : o.properties = [])
    (hu : Unambiguous o.Texts (tokens t.segments)) {d : Disk} {i : Item} {p : Props}
    (hp : t.props d i = .ok p)
    (ht : ∀ name ∈ fields t.segments, o.Texts name ((p.get? name).getD "").toList) :
    t.matchLine? (t.render p) = some p := by
  obtain ⟨p', hm, hpairs⟩ := hc.matchLine?_of_unambiguous hk hn hu (cut_render t ht)
  rw [hm, hc.eq_of_pairs hn ho hp hpairs]

/-- A template that begins with the indent finds the longest one. So it reads its own line where no
indent comes behind the indent, and what comes there can be cut in one way only. -/
theorem matchLine?_render_of_indent (hc : t.Compiled pattern o .core) (hk : o.Knows (fields t.segments))
    (hn : (fields t.segments).Nodup) (ho : o.properties = []) (hi : o.indent ≠ "") {ts : List Token}
    (htokens : tokens t.segments = .field "indent" :: ts) (hu : Unambiguous o.Texts ts) {d : Disk}
    {i : Item} {p : Props} (hp : t.props d i = .ok p)
    (ht : ∀ name ∈ fields t.segments, o.Texts name ((p.get? name).getD "").toList)
    (hfree : ¬ o.indent.toList <+: ts.flatMap (Token.render p)) : t.matchLine? (t.render p) = some p := by
  have htexts : ∀ name, .field name ∈ .field "indent" :: ts →
      o.Texts name ((p.get? name).getD "").toList :=
    fun name hm => ht name (mem_fields.mpr (htokens ▸ hm))
  have hrecognises : ∀ name, .field name ∈ ts → (Regex.concat (o.items name)).Recognises (o.Texts name) :=
    fun name hm => recognises hk name (htokens ▸ List.mem_cons_of_mem _ hm)
  have hline : (t.render p).toList = ((p.get? "indent").getD "").toList ++ ts.flatMap (Token.render p) := by
    rw [render_eq, htokens]
    rfl
  have hrest := cut_flatMap fun name hm => htexts name (List.mem_cons_of_mem _ hm)
  have hrounds : Regex.Rounds o.indent.toList ((p.get? "indent").getD "").toList := by
    obtain ⟨property, hg, hindent⟩ := htexts "indent" List.mem_cons_self
    obtain rfl : .indent = property := Option.some.inj hg
    exact hindent
  have hitems : o.items "indent" = [.star true (.word o.indent.toList)] := if_neg hi
  obtain ⟨place, values, hsearch, hvalues, hpassed⟩ :=
    exists_search_of_indent hrecognises (congrArg Regex.concat hitems) (by simpa using hi) hrounds hfree hrest
  obtain rfl := hu _ _ _ hvalues hrest
  have hplaced : t.placed p = ("indent", ((p.get? "indent").getD "").toList)
      :: (ts.filterMap Token.field?).map fun name => (name, ((p.get? name).getD "").toList) := by
    rw [placed, placeholders, fields_eq, htokens]
    rfl
  rw [← hline, ← htokens, ← hc.matcher_eq hk] at hsearch
  obtain ⟨p', hm, hpairs⟩ := matchLine?_eq hn (cut_render t ht) hsearch (hplaced ▸ hpassed)
  rw [hm, hc.eq_of_pairs hn ho hp hpairs]

end Compiled

end Template

end TreeListing
