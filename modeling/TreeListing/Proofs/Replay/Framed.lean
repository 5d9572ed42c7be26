import TreeListing.Proofs.Alike
import TreeListing.Proofs.Balance
import TreeListing.Proofs.Extras
import TreeListing.Proofs.Replay.Noise
import TreeListing.Proofs.Replay.Opened
import TreeListing.Proofs.Replay.Root
import TreeListing.Proofs.Template.Language

/-!
Texts around a listing. Reading knows lines by their form alone, so a line of the header or the footer is
passed over just if no template reads it; every other one gives a record of its own. The main statement is
`header_and_footer_unread_iff`.
-/
namespace TreeListing

/-- Where the depth is limited every folder shows a forest, also if links lead back to it, and nothing in the
forest is deeper than the limit. -/
theorem Lister.exists_shows_of_maxDepth {l : Lister} (hm : 0 < l.options.maxDepth) {d : Disk} {base : Path}
    {Good : String → Prop}
    (hgood : ∀ i, (Item.root base).Within d i → ∀ n ∈ d.entryNames i, Path.IsName n ∧ Good n)
    {names : List String} (hn : ∀ n ∈ names, Path.IsName n)
    (hw : (Item.root base).Within d (.below base names true)) :
    ∃ f : Forest, f.Shows d l base names (l.entries d (.below base names true)) ∧
      f.Each (fun names heads => ∀ head ∈ heads,
        names.length < l.options.maxDepth ∧ Path.IsName head.2 ∧ Good head.2) names := by
  by_cases hlt : names.length < l.options.maxDepth
  · obtain ⟨f, hs, he, hh⟩ := exists_shows hn (fun n hm => (hgood _ hw n hm).1) fun n hname hj =>
      exists_shows_of_maxDepth hm hgood
        (List.forall_mem_append.mpr ⟨hn, List.forall_mem_singleton.mpr hname⟩)
        (hw.entry (mem_children_of_mem_entries hj))
    exact ⟨f, hs, fun head hm => ⟨hlt, hgood _ hw _ (hh head hm).named⟩, he⟩
  · have hlimits : l.options.limits (Item.below base names true).depth = true := by
      rw [← Bool.not_eq_false, Options.limits_eq_false hm]
      exact hlt
    have hnone : l.entries d (.below base names true) = [] := by rw [entries, if_pos hlimits]
    exact ⟨.nil, hnone ▸ .nil, by simp [Forest.heads], trivial⟩
termination_by l.options.maxDepth - names.length
decreasing_by
  rw [List.length_append, List.length_singleton]
  omega

/-- The names that lead to the mark can stand in a listing, and a file or a folder has one of its own. -/
structure Mark.IsNamed (m : Mark) : Prop where
  isName : ∀ n ∈ m.names, Path.IsName n
  listable : ∀ n ∈ m.names, IsListable n
  entry : m.kind = .file ∨ m.kind = .folder → m.names ≠ []

theorem Mark.isNamed_of_mem {l : Lister} {f : Forest} (hf : f.Each (fun names heads => ∀ head ∈ heads,
      names.length < l.options.maxDepth ∧ Path.IsName head.2 ∧ IsListable head.2) []) {m : Mark}
    (hm : m ∈ l.folderMarks .root [] (f.marks l [])) :
    m.IsNamed ∧ m.names.length ≤ l.options.maxDepth := by
  rcases Lister.mem_folderMarks hm with ⟨hn, hk⟩ | hm
  · refine ⟨⟨by simp [hn], by simp [hn], fun hentry => ?_⟩, by simp [hn]⟩
    rcases hk with hk | hk | hk <;> simp [hk] at hentry
  · have hnames := Forest.forall_names (Q := fun n => Path.IsName n ∧ IsListable n)
      (List.forall_mem_nil _) (hf.imp fun _ _ h head hm => (h head hm).2) hm
    obtain ⟨before, n, hb, hlt, -⟩ := Forest.exists_of_mem_marks hf hm
    refine ⟨⟨fun n hn => (hnames n hn).1, fun n hn => (hnames n hn).2, fun _ => by simp [hb]⟩, ?_⟩
    rw [hb, List.length_append, List.length_singleton]
    exact hlt

/-- The path is that of a folder, and all names in the folder and below it can stand in a listing. -/
def Disk.HasListable (d : Disk) (folder : Path) : Prop :=
  d.isFolder folder = true ∧ ∃ base, folder.absolute? d.cwd = some base ∧
    ∀ i, (Item.root base).Within d i → ∀ n ∈ d.entryNames i, Path.IsName n ∧ IsListable n

/-- The usual options but for the layout and the texts around a listing. -/
def Options.framed (layout : Layout) (header footer : String) : Options := { layout, header, footer }

namespace Replay

open Options (framed)
open LinePattern (MeansTexts names lineTokens body plainBody plainHeading plainName partTokens charTokens nameOf)

variable {layout : Layout} {header footer : String} {l : Lister} {d : Disk} {base : Path} {m : Mark}
  {r : Record} {s : State} {kind : Kind} {text : String} {p : Props}

theorem isUsual_framed : (framed layout header footer).IsUsual :=
  ⟨fun kind => by cases kind <;> rfl, rfl, rfl, rfl, (by decide : NameType.name ≠ .dot),
    (by decide : NameType.dot ≠ .relpath), fun h => by cases h⟩

theorem hasInnerEllipsis_framed : LinePattern.HasInnerEllipsis (framed layout header footer) :=
  LinePattern.hasInnerEllipsis_dots fun _ => rfl

theorem fitsPlain_framed : FitsPlain (framed .plain header footer) :=
  ⟨rfl, rfl, (by decide : " " ≠ ""), by simp [framed, IsPad], rfl, rfl⟩

theorem fitsXml_framed : FitsXml (framed .xml header footer) :=
  ⟨rfl, fun _ => (by decide : '<' ∉ " ".toList), fun h => by cases h⟩

theorem meansTexts_framed : MeansTexts (framed layout header footer) "..." "\n" :=
  ⟨fun _ h => (by cases h), (by decide : "\n".toList = Template.doubled "\n".toList)⟩

theorem names_framed : names (framed layout header footer) kind
    = "indent" :: if kind = .file ∨ kind = .folder then ["name"] else [] := by
  cases kind <;> rfl

theorem exists_compile_framed (layout : Layout) (header footer : String) :
    ∃ l, Lister.compile (framed layout header footer) .core = .ok l :=
  Lister.exists_compile isUsual_framed fun _ => rfl

section
variable (hl : Lister.compile (framed layout header footer) .core = .ok l)
include hl

theorem shows_framed (hu : (LinePattern.usual? (framed layout header footer) kind).isSome = true) :
    l.shows kind = true :=
  (Lister.isSome_template?_of_usual hl isUsual_framed.given kind).trans hu

theorem usual_framed {t : Template} (ht : l.template? kind = some t) :
    Lister.Usual (framed layout header footer) kind t :=
  Lister.usual_template hl isUsual_framed hasInnerEllipsis_framed ht

theorem shaped_framed (h : match? l kind text = some p) :
    ∃ u x, text.toList = u ++ x ∧ Shaped (framed layout header footer) kind p u x :=
  exists_shaped hl isUsual_framed hasInnerEllipsis_framed h

/-- What a line says suits the properties that it is said by. -/
theorem exists_suits (hm : m.IsNamed) {t : Template} (ht : l.template? m.kind = some t)
    (hp : t.props d (m.item base) = .ok p) {name : String}
    (hn : name ∈ names (framed layout header footer) m.kind) :
    ∃ property value, Registry.core.get? name = some property ∧ p.get? name = some value ∧
      property.Suits d (m.item base) ∧
      property.extract d (framed layout header footer) (m.item base) = .ok value := by
  have hu := usual_framed hl ht
  obtain ⟨property, value, hg, hv, he⟩ := hu.exists_of_mem hp hn
  refine ⟨property, value, hg, hv, ?_, he⟩
  rw [names_framed, List.mem_cons] at hn
  rcases hn with rfl | hn
  · obtain rfl : .indent = property := Option.some.inj hg
    trivial
  · split at hn
    next hk =>
      obtain rfl := List.mem_singleton.mp hn
      obtain rfl : .name = property := Option.some.inj hg
      have hname := Mark.name_mem hm.isName (hm.entry hk) base
      exact (hm.listable _ hname).filled_name (hm.isName _ hname).nonempty
    next => cases hn

theorem texts_framed (hm : m.IsNamed) {t : Template} (ht : l.template? m.kind = some t)
    (hp : t.props d (m.item base) = .ok p) : ∀ name ∈ names (framed layout header footer) m.kind,
      (framed layout header footer).Texts name ((p.get? name).getD "").toList := by
  intro name hn
  obtain ⟨property, value, hg, hv, hs, he⟩ := exists_suits hl hm ht hp hn
  rw [hv, Option.getD_some]
  exact ⟨property, hg, Property.texts_extract hs he⟩

theorem isLine_line (hm : m.IsNamed) (hr : l.record? d m.kind (m.item base) = .ok (some r)) :
    IsLine (l.line r) := by
  obtain ⟨t, p, ht, hp, rfl⟩ := Lister.record?_eq_some hr
  have hu := usual_framed hl ht
  have hentry : m.kind = .file ∨ m.kind = .folder → '\n' ∉ (m.item base).name.toList := fun hk hn =>
    hm.listable _ (Mark.name_mem hm.isName (hm.entry hk) base) _ hn (by decide)
  have hcalled : '\n' ∉ ((m.item base).calledBy
      (LinePattern.nameTypeOf (framed layout header footer) m.kind)).toList := by
    generalize m.kind = kind at hentry ⊢
    cases kind with
    | file => exact hentry (.inl rfl)
    | folder => exact hentry (.inr rfl)
    | _ => exact List.not_mem_nil
  rw [Lister.line, ht]
  exact isLine_render hu (isLine_newline isUsual_framed) hasInnerEllipsis_framed
    ⟨fun _ => (by decide : '\n' ∉ " ".toList), fun h => by cases h⟩ (isReadable_dateFormat isUsual_framed)
    (fun _ h => absurd rfl h) hcalled hp

theorem exists_match?_line (hm : m.IsNamed) (hr : l.record? d m.kind (m.item base) = .ok (some r)) :
    ∃ q, match? l m.kind (l.line r) = some q := by
  obtain ⟨t, p, ht, hp, rfl⟩ := Lister.record?_eq_some hr
  have hu := usual_framed hl ht
  obtain ⟨pattern, hc⟩ := hu.compiled
  rw [Lister.line, ht, match?, ht, ← Option.isSome_iff_exists]
  refine (hc.isSome_matchLine?_iff _).mpr ⟨_, Template.cut_render t fun name hn => ?_⟩
  rw [Template.placeholders, hu.fields] at hn
  obtain ⟨property, value, hg, hv, hs, he⟩ := exists_suits hl hm ht hp hn
  rw [hv]
  exact Options.accepts_extract hg hs he

/-- The line of the root tells that it is no deeper than the listing itself. -/
theorem match?_root_line (hm : m.IsNamed) (hk : m.kind = .root) (hn : m.names = [])
    (hr : l.record? d m.kind (m.item base) = .ok (some r)) :
    match? l .root (l.line r) = some r.props ∧ depthOf l r.props = some 0 := by
  obtain ⟨t, p, ht, hp, rfl⟩ := Lister.record?_eq_some hr
  have hu := usual_framed hl ht
  have hunamb : Template.Unambiguous (framed layout header footer).Texts
      (lineTokens (framed layout header footer) m.kind) := by
    cases layout with
    | plain => exact unambiguous_lineTokens fitsPlain_framed rfl (by simp [hk]) (by simp [hk])
    | xml => exact unambiguous_xml fitsXml_framed m.kind
  have hzero : (m.item base).depth = 0 := congrArg List.length hn
  refine ⟨?_, ?_⟩
  · rw [Lister.line, ht, match?, ← hk, ht]
    exact hu.matchLine?_render isUsual_framed hunamb hp (hu.fields ▸ texts_framed hl hm ht hp)
  · rw [depthOf_props (Lister.options_eq hl) isUsual_framed hu hp (hzero ▸ Nat.zero_le _), hzero]
    exact if_pos ⟨rfl, (by decide : " " ≠ "")⟩

/-- Whatever the line is, the indent in it tells a depth. -/
theorem isSome_depthOf_framed (h : match? l kind text = some p) : (depthOf l p).isSome = true := by
  obtain ⟨u, x, -, hs⟩ := shaped_framed hl h
  rw [depthOf_eq (Lister.options_eq hl) hs.names, hs.get?]
  rfl

theorem isSome_name?_framed (h : match? l kind text = some p) :
    p.name?.isSome = true ∨ kind.isFolderMarker = true := by
  obtain ⟨u, x, -, hs⟩ := shaped_framed hl h
  by_cases hk : kind = .file ∨ kind = .folder
  · have hname : "name" ∈ p.names := by
      rw [hs.names, names_framed, if_pos hk]
      decide
    obtain ⟨n, hn⟩ := Option.isSome_iff_exists.mp (Props.contains_iff.mpr hname)
    exact .inl (by rw [Props.name?, hn, Option.some_or]; rfl)
  · refine .inr ?_
    cases kind <;> simp [Kind.isFolderMarker] at hk ⊢

theorem exists_record (hm : match? l kind text = some p) {warnings : List Warning}
    (hc : classify l { s with line := s.line + 1 } text = (some (kind, p), warnings)) :
    ∃ q, (step l s text).1.filterMap Signal.record? = [q] := by
  obtain ⟨path, h⟩ :=
    exists_record_of_classify hc (.inr (isSome_depthOf_framed hl hm)) (isSome_name?_framed hl hm)
  exact ⟨_, h⟩

theorem exists_record_of_tried (hk : kind ≠ .root) (hm : match? l kind text = some p) (s : State) :
    ∃ q, (step l s text).1.filterMap Signal.record? = [q] := by
  have htried : kind ∈ Kind.tried := by
    cases kind with
    | root => exact absurd rfl hk
    | _ => decide
  rcases classify_cases l { s with line := s.line + 1 } text with ⟨-, hn⟩ | ⟨found, q, hq, hc⟩
  · cases (hn kind htried).symm.trans hm
  · rcases hc with hc | ⟨others, hc⟩
    · exact exists_record hl hq hc
    · exact exists_record hl hq hc

/-- In the plain layout the line of a root is also that of a folder called by a dot. -/
theorem exists_folder_of_root (hp : layout = .plain) (h : match? l .root text = some p) :
    ∃ q, match? l .folder text = some q := by
  subst hp
  obtain ⟨t, ht, hmatch⟩ := match?_eq_some h
  have hu := usual_framed hl ht
  obtain ⟨pattern, hc⟩ := hu.compiled
  obtain ⟨values, hv, -⟩ := hc.exists_cut_of_matchLine? hmatch
  have hshows : l.shows .folder = true := shows_framed hl rfl
  obtain ⟨t', ht'⟩ := Option.isSome_iff_exists.mp hshows
  have hu' := usual_framed hl ht'
  obtain ⟨pattern', hc'⟩ := hu'.compiled
  rw [match?, ht', ← Option.isSome_iff_exists]
  refine (hc'.isSome_matchLine?_iff text).mpr ?_
  have hroot : lineTokens (framed .plain header footer) .root
      = .field "indent" :: .char '<' :: .char '.' :: .char '>' :: charTokens "\n" := by
    simp [lineTokens, body, plainBody, plainHeading, plainName, partTokens, framed, nameOf]
  have hfolder : lineTokens (framed .plain header footer) .folder
      = .field "indent" :: .char '<' :: .field "name" :: .char '>' :: charTokens "\n" := by
    simp [lineTokens, body, plainBody, plainHeading, plainName, partTokens, framed, nameOf]
  rw [hu.tokens, hroot] at hv
  rw [hu'.tokens, hfolder]
  generalize text.toList = line at hv ⊢
  cases hv with
  | field hindent hv =>
    cases hv with
    | char hv =>
      cases hv with
      | char hv =>
        have hdot : (framed .plain header footer).Accepts "name" ['.'] := Options.accepts_name.mpr (by decide)
        exact ⟨_, .field hindent (.char (.field hdot hv))⟩

/-- Where a root can come next every line that fits a template gives a record. -/
theorem exists_record_of_fresh (hs : Fresh l s) (hm : match? l kind text = some p) :
    ∃ q, (step l s text).1.filterMap Signal.record? = [q] := by
  by_cases hk : kind = .root
  · subst hk
    cases layout with
    | plain =>
      obtain ⟨q, hq⟩ := exists_folder_of_root hl rfl hm
      exact exists_record_of_tried hl (by decide) hq s
    | xml =>
      have hcloses : l.closesFolders = true := by
        rw [closesFolders_eq, shows_framed hl rfl, shows_framed hl rfl]
        rfl
      refine exists_record hl hm (classify_root hm ?_)
      cases hseen : s.rootSeen with
      | false => exact .inl rfl
      | true => exact .inr (.inr (hs.rootSeen hseen hcloses))
  · exact exists_record_of_tried hl hk hm s

/-- Where a root can come next, lines that give no record fit no template, and behind them a root can still
come next. -/
theorem noise_of_silent (hs : Fresh l s) {texts : List String}
    (h : (readTexts l s texts).1.filterMap Signal.record? = []) :
    (∀ text ∈ texts, ∀ kind, match? l kind text = none) ∧ Fresh l (readTexts l s texts).2 := by
  induction texts generalizing s with
  | nil => exact ⟨List.forall_mem_nil _, hs⟩
  | cons text texts ih =>
    simp only [readTexts, List.filterMap_append, List.append_eq_nil_iff] at h
    have hnoise : ∀ kind, match? l kind text = none := by
      intro kind
      refine Option.eq_none_iff_forall_ne_some.mpr fun p hp => ?_
      obtain ⟨q, hq⟩ := exists_record_of_fresh hl hs hp
      rw [hq] at h
      cases h.1
    have hfresh : Fresh l (step l s text).2 := by
      rw [step_noise hnoise]
      exact ⟨hs.open?, hs.rootSeen⟩
    obtain ⟨hrest, hlast⟩ := ih hfresh h.2
    exact ⟨List.forall_mem_cons.mpr ⟨hnoise, hrest⟩, hlast⟩

/-- In the XML layout the record can be read from its line. -/
theorem legible_framed (hx : layout = .xml) (hm : m.IsNamed)
    (hr : l.record? d m.kind (m.item base) = .ok (some r))
    (hw : m.names.length ≤ Text.maxWord) : Legible l m r := by
  subst hx
  have htells := tells_of_record? hl isUsual_framed hasInnerEllipsis_framed hm.isName hm.entry hw
    (.inl ⟨rfl, (by decide : " " ≠ "")⟩) hr
  obtain ⟨t, p, ht, hp, rfl⟩ := Lister.record?_eq_some hr
  exact ⟨rfl, distinct_of_texts hl isUsual_framed fitsXml_framed hr (texts_framed hl hm ht hp), htells,
    hm.isName⟩

end

/-- Each line of the records is one, and gives a record wherever it stands; and where a root could come before
the lines it can come behind them. -/
structure Stands (l : Lister) (records : List Record) : Prop where
  isLine : ∀ r ∈ records, IsLine (l.line r)
  heard : ∀ r ∈ records, ∀ s, ∃ q, (step l s (l.line r)).1.filterMap Signal.record? = [q]
  fresh : ∀ s, Fresh l s → Fresh l (readTexts l s (records.map l.line)).2

theorem Stands.nil : Stands l [] := ⟨List.forall_mem_nil _, List.forall_mem_nil _, fun _ h => h⟩

theorem Stands.append {records others : List Record} (h : Stands l records) (h' : Stands l others) :
    Stands l (records ++ others) := by
  refine ⟨List.forall_mem_append.mpr ⟨h.isLine, h'.isLine⟩,
    List.forall_mem_append.mpr ⟨h.heard, h'.heard⟩, fun s hs => ?_⟩
  rw [List.map_append, readTexts_append]
  exact h'.fresh _ (h.fresh s hs)

theorem Stands.length_eq {records : List Record} (h : Stands l records) (s : State) :
    ((readTexts l s (records.map l.line)).1.filterMap Signal.record?).length = records.length := by
  obtain ⟨-, heard, -⟩ := h
  induction records generalizing s with
  | nil => rfl
  | cons r records ih =>
    rw [List.forall_mem_cons] at heard
    obtain ⟨q, hq⟩ := heard.1 s
    simp only [List.map_cons, readTexts, List.filterMap_append, List.length_append, hq, ih _ heard.2,
      List.length_cons, List.length_nil]
    omega

theorem isSome_open?_step (l : Lister) (s : State) (text : String) :
    (step l s text).2.open?.isSome = s.open?.isSome := by
  rw [step]
  dsimp only
  generalize classify l { s with line := s.line + 1 } text = classified
  obtain ⟨found?, warnings⟩ := classified
  cases found? with
  | none => rfl
  | some found =>
    dsimp only
    rw [place]
    dsimp only
    split <;> simp

theorem isSome_open?_readTexts (l : Lister) (s : State) (texts : List String) :
    (readTexts l s texts).2.open?.isSome = s.open?.isSome := by
  induction texts generalizing s with
  | nil => rfl
  | cons text texts ih => exact (ih _).trans (isSome_open?_step l s text)

/-- Where lines do not close folders a root that could come before some lines can come behind them. -/
theorem Fresh.readTexts_of_not_closes (hc : l.closesFolders = false) (hs : Fresh l s) (texts : List String) :
    Fresh l (readTexts l s texts).2 := by
  refine ⟨(isSome_open?_readTexts l s texts).trans hs.open?, fun _ h => ?_⟩
  rw [hc] at h
  cases h

/-- The line of a record gives a record wherever it stands. -/
theorem exists_record_of_line (hl : Lister.compile (framed layout header footer) .core = .ok l)
    (hm : m.IsNamed) (hroot : m.kind = .root → m.names = [])
    (hr : l.record? d m.kind (m.item base) = .ok (some r)) (s : State) :
    ∃ q, (step l s (l.line r)).1.filterMap Signal.record? = [q] := by
  by_cases hk : m.kind = .root
  · obtain ⟨hown, hdepth⟩ := match?_root_line hl hm hk (hroot hk) hr
    exact exists_record hl hown (classify_root hown (.inr (.inl hdepth)))
  · obtain ⟨q, hq⟩ := exists_match?_line hl hm hr
    exact exists_record_of_tried hl hk hq s

/-- On every disk the walk of a folder comes to an end, if the names in it can stand in a listing. -/
theorem exists_walked_framed (hl : Lister.compile (framed layout header footer) .core = .ok l) {folder : Path}
    (hf : d.HasListable folder) : ∃ records, Listing.Walked l d folder records ∧ Stands l records := by
  obtain ⟨hd, base, hb, hgood⟩ := hf
  have hlimit : 0 < l.options.maxDepth := by
    rw [Lister.options_eq hl]
    exact Nat.succ_pos 19
  obtain ⟨f, hs, he⟩ := Lister.exists_shows_of_maxDepth hlimit hgood (List.forall_mem_nil _) .self
  have hrecords : ∀ kind i, ∃ record?, l.record? d kind i = .ok record? := fun kind i =>
    (Lister.exists_record? hl isUsual_framed.given rfl meansTexts_framed rfl d kind i).imp
      fun _ => And.left
  have hrun := Walk.run_root hs
  obtain ⟨records, hr⟩ := Walk.run_records hrecords hrun
  rw [hr] at hrun
  have hwalked : Listing.Walked l d folder records :=
    ⟨[.enter (.root base)], by rw [Walk.start, if_pos hd, hb], hrun⟩
  obtain ⟨rfl, hmade⟩ := walk_eq_marks hb hs hwalked.walk_eq
  have hnamed := fun m hm => Mark.isNamed_of_mem (m := m) he hm
  have hwrites : ∀ m ∈ l.folderMarks .root [] (f.marks l []), l.Writes m :=
    Lister.writes_folderMarks (by decide) (fun _ => rfl) Forest.writes_marks
  refine ⟨_, hwalked, ?_, ?_, fun s hfresh => ?_⟩
  · exact List.forall_mem_map.mpr fun m hm => isLine_line hl (hnamed m hm).1 (hmade m hm)
  · exact List.forall_mem_map.mpr fun m hm =>
      exists_record_of_line hl (hnamed m hm).1 (hwrites m hm).root (hmade m hm)
  · cases layout with
    | plain =>
      have hend : l.shows .folderEnd = false :=
        Lister.isSome_template?_of_usual hl isUsual_framed.given .folderEnd
      refine hfresh.readTexts_of_not_closes ?_ _
      rw [closesFolders_eq, hend, Bool.and_false]
    | xml =>
      have hdeep : l.options.maxDepth ≤ Text.maxWord :=
        Lister.options_eq hl ▸ (by decide : 20 ≤ Text.maxWord)
      have hlegible := fun m hm =>
        legible_framed hl rfl (hnamed m hm).1 (hmade m hm) (Nat.le_trans (hnamed m hm).2 hdeep)
      obtain ⟨s', hr, hs'⟩ := reads_walk (shows_framed hl rfl) (shows_framed hl rfl) hlegible hfresh
      have hlast := congrArg Prod.snd hr
      rw [List.map_map]
      exact hlast ▸ hs'

/-- Lines around a listing leave its records as they are just if no template fits any of them. -/
theorem records_around_iff (hl : Lister.compile (framed layout header footer) .core = .ok l)
    {records : List Record} (hr : Stands l records) (before after : List String) :
    (readTexts l (State.start l) (before ++ records.map l.line ++ after)).1.filterMap Signal.record?
        = (readTexts l (State.start l) (records.map l.line)).1.filterMap Signal.record? ↔
      ∀ text ∈ before ++ after, ∀ kind, match? l kind text = none := by
  rw [List.forall_mem_append]
  constructor
  · intro h
    rw [readTexts_append, readTexts_append] at h
    dsimp only at h
    rw [List.filterMap_append, List.filterMap_append] at h
    have hlength := congrArg List.length h
    rw [List.length_append, List.length_append, hr.length_eq, hr.length_eq] at hlength
    obtain ⟨hbefore, hafter⟩ : ((readTexts l (State.start l) before).1.filterMap Signal.record?).length = 0 ∧
        ((readTexts l (readTexts l (readTexts l (State.start l) before).2 (records.map l.line)).2
          after).1.filterMap Signal.record?).length = 0 := by omega
    obtain ⟨hbefore, hfresh⟩ := noise_of_silent hl (fresh_start l) (List.eq_nil_of_length_eq_zero hbefore)
    exact ⟨hbefore, (noise_of_silent hl (hr.fresh _ hfresh) (List.eq_nil_of_length_eq_zero hafter)).1⟩
  · rintro ⟨hbefore, hafter⟩
    exact (strewn_around hbefore hafter _).filterMap_record? (State.start l) 0

/-- Texts around the listing are no matter of the walks. -/
theorem exists_walks_framed {l₀ : Lister} (hl₀ : Lister.compile (framed layout "" "") .core = .ok l₀)
    (hasks : l.Asks l₀ []) {folders : List Path} (hf : ∀ folder ∈ folders, d.HasListable folder) :
    ∃ walks walks₀ : List (List Record), List.Forall₂ (Listing.Walked l d) folders walks ∧
      List.Forall₂ (Listing.Walked l₀ d) folders walks₀ ∧
      walks₀.flatten.map l₀.line = walks.flatten.map l.line ∧ Stands l₀ walks₀.flatten := by
  induction folders with
  | nil => exact ⟨[], [], .nil, .nil, rfl, .nil⟩
  | cons folder folders ih =>
    rw [List.forall_mem_cons] at hf
    obtain ⟨records₀, hw₀, hstands₀⟩ := exists_walked_framed hl₀ hf.1
    obtain ⟨records, hw, hrel⟩ := Listing.walked_asks hasks hw₀
    obtain ⟨walks, walks₀, hwalks, hwalks₀, hlines, hstands⟩ := ih hf.2
    refine ⟨records :: walks, records₀ :: walks₀, .cons hw hwalks, .cons hw₀ hwalks₀, ?_,
      hstands₀.append hstands⟩
    rw [List.flatten_cons, List.flatten_cons, List.map_append, List.map_append, hlines,
      Lister.map_line_asks hasks hrel]

/-- A listing with a header and a footer of whole lines is read as it is without them just if no line of the
header or the footer fits a template, whatever folders are listed. -/
theorem header_and_footer_unread_iff (layout : Layout) {above below : List String}
    (ha : ∀ front ∈ above, '\n' ∉ front.toList) (hb : ∀ front ∈ below, '\n' ∉ front.toList) :
    ∃ l l₀, Lister.compile (framed layout (unlines above) (unlines below)) .core = .ok l ∧
      Lister.compile (framed layout "" "") .core = .ok l₀ ∧
      ∀ (d : Disk) (folders : List Path), (∀ folder ∈ folders, d.HasListable folder) →
        ∃ count s s₀, Listing.write .memory l folders ⟨d, #[]⟩ = (.ok count, s) ∧
          Listing.write .memory l₀ folders ⟨d, #[]⟩ = (.ok count, s₀) ∧
          ((l.replay s.written.toList).filterMap Signal.record?
              = (l₀.replay s₀.written.toList).filterMap Signal.record? ↔
            ∀ front ∈ above ++ below, ∀ kind, match? l kind (front ++ "\n") = none) := by
  obtain ⟨l, hl⟩ := exists_compile_framed layout (unlines above) (unlines below)
  obtain ⟨l₀, hl₀⟩ := exists_compile_framed layout "" ""
  have hasks : l.Asks l₀ [] := Lister.asks_of_compile ⟨rfl, [], "", "", rfl⟩ (List.forall_mem_nil _) hl hl₀
  refine ⟨l, l₀, hl, hl₀, fun d folders hf => ?_⟩
  obtain ⟨walks, walks₀, hwalks, hwalks₀, hlines, hstands⟩ := exists_walks_framed hl₀ hasks hf
  obtain ⟨s, hwrite, hbytes⟩ := Listing.write_memory hwalks
  obtain ⟨s₀, hwrite₀, hbytes₀⟩ := Listing.write_memory hwalks₀
  have hcount : walks.flatten.length = walks₀.flatten.length := by
    rw [← List.length_map (f := l.line), ← hlines, List.length_map]
  refine ⟨walks.flatten.length, s, s₀, hwrite, hcount ▸ hwrite₀, ?_⟩
  rw [Lister.options_eq hl, framed, encode_unlines, encode_unlines, Lister.bytes, ← hlines,
    ← List.flatMap_append, ← List.flatMap_append] at hbytes
  rw [Lister.options_eq hl₀, framed, Text.encode_empty, List.nil_append, List.append_nil,
    Lister.bytes] at hbytes₀
  have hnewline : l₀.options.newline = "\n" := by
    rw [Lister.options_eq hl₀]
    rfl
  have hlisting : ∀ text ∈ walks₀.flatten.map l₀.line, IsLine text :=
    List.forall_mem_map.mpr hstands.isLine
  have haround : ∀ fronts : List String, (∀ front ∈ fronts, '\n' ∉ front.toList) →
      ∀ text ∈ fronts.map (· ++ "\n"), IsLine text := fun fronts h =>
    List.forall_mem_map.mpr fun front hm => ⟨front, rfl, h front hm⟩
  have hall := List.forall_mem_append.mpr
    ⟨List.forall_mem_append.mpr ⟨haround above ha, hlisting⟩, haround below hb⟩
  rw [← replay_asks hasks, hbytes, hbytes₀, replay_flatMap hnewline hall, replay_flatMap hnewline hlisting,
    records_around_iff hl₀ hstands, ← List.map_append, List.forall_mem_map]
  simp only [hasks.reads]

theorem header_and_footer_unread_iff_marks : ∃ l l₀ count s s₀,
    Lister.compile (framed .plain (unlines ["*"]) (unlines ["?"])) .core = .ok l ∧
      Lister.compile (framed .plain "" "") .core = .ok l₀ ∧
      Listing.write .memory l [⟨"/t"⟩] ⟨.oneFile "a", #[]⟩ = (.ok count, s) ∧
      Listing.write .memory l₀ [⟨"/t"⟩] ⟨.oneFile "a", #[]⟩ = (.ok count, s₀) ∧
      (l.replay s.written.toList).filterMap Signal.record?
        = (l₀.replay s₀.written.toList).filterMap Signal.record? := by
  obtain ⟨l, l₀, hl, hl₀, h⟩ := @header_and_footer_unread_iff .plain ["*"] ["?"] (by decide) (by decide)
  have hchecked : ((Lister.compile (framed .plain (unlines ["*"]) (unlines ["?"])) .core).toOption.any fun l =>
      ["*", "?"].all fun front => Kind.all.all fun kind => (match? l kind (front ++ "\n")).isNone) = true := by
    decide +kernel
  rw [hl] at hchecked
  simp only [Except.toOption, Option.any_some, List.all_eq_true, Option.isNone_iff_eq_none] at hchecked
  have hlistable : (Disk.oneFile "a").HasListable ⟨"/t"⟩ := by
    refine ⟨by decide, ⟨"/t"⟩, by decide, fun i _ n hn => ?_⟩
    simp only [Disk.entryNames, Disk.oneFile] at hn
    split at hn
    next =>
      obtain rfl : n = "a" := List.mem_singleton.mp hn
      exact ⟨⟨by decide, by decide, by decide, by decide⟩, by decide⟩
    next => cases hn
  obtain ⟨count, s, s₀, hwrite, hwrite₀, hiff⟩ :=
    h (.oneFile "a") [⟨"/t"⟩] (List.forall_mem_singleton.mpr hlistable)
  exact ⟨l, l₀, count, s, s₀, hl, hl₀, hwrite, hwrite₀,
    hiff.mpr fun front hm kind => hchecked front hm kind (by cases kind <;> decide)⟩

/-- What is read from the listing of an empty folder below a header. -/
theorem replay_emptyFolder (header : String) {found : List (Kind × String)}
    (hc : ((Lister.compile (framed .xml header "") .core).toOption.any fun l =>
      !l.options.limits 0 && decide (l.folderOutcomes (.emptyFolders []) .root (.root ⟨"/t"⟩) []
        = [Record.rootStart, .rootEnd].map .ok) &&
      decide (((l.replay (Text.encode header ++ l.bytes [.rootStart, .rootEnd])).filterMap Signal.record?).map
        (fun r => (r.kind, r.path.text)) = found)) = true) :
    ∃ l s, Lister.compile (framed .xml header "") .core = .ok l ∧
      Listing.write .memory l [⟨"/t"⟩] ⟨.emptyFolders [], #[]⟩ = (.ok 2, s) ∧
      ((l.replay s.written.toList).filterMap Signal.record?).map (fun r => (r.kind, r.path.text)) = found := by
  obtain ⟨l, hl, hc⟩ := exists_eq_ok_of_any hc
  simp only [Bool.and_eq_true, decide_eq_true_eq, Bool.not_eq_true'] at hc
  obtain ⟨⟨hlimits, houtcomes⟩, hfound⟩ := hc
  have hlistable : (Disk.emptyFolders []).HasListable ⟨"/t"⟩ := by
    refine ⟨by decide, ⟨"/t"⟩, by decide, fun i _ n hn => ?_⟩
    simp only [Disk.entryNames, Disk.emptyFolders, List.not_mem_nil, false_and, exists_false, if_false] at hn
    split at hn <;> cases hn
  obtain ⟨records, hwalked, -⟩ := exists_walked_framed hl hlistable
  have hw := hwalked.walk_eq
  rw [walk_emptyFolders (List.forall_mem_nil _) hlimits .nil (List.forall_mem_nil _)] at hw
  obtain rfl : [.rootStart, .rootEnd] = records :=
    List.map_injective_iff.mpr (fun _ _ => Except.ok.inj) (houtcomes.symm.trans (Except.ok.inj hw))
  obtain ⟨s, hwrite, hbytes⟩ := Listing.write_memory (.cons hwalked .nil)
  refine ⟨l, s, hl, hwrite, ?_⟩
  rw [← hfound, hbytes, Lister.options_eq hl]
  simp [framed, Text.encode_empty]

/-- A header that looks like a file is read as one. -/
theorem header_read_as_file : ∃ l l₀ s s₀,
    Lister.compile (framed .xml "<File name=\"f\"/>\n" "") .core = .ok l ∧
      Lister.compile (framed .xml "" "") .core = .ok l₀ ∧
      Listing.write .memory l [⟨"/t"⟩] ⟨.emptyFolders [], #[]⟩ = (.ok 2, s) ∧
      Listing.write .memory l₀ [⟨"/t"⟩] ⟨.emptyFolders [], #[]⟩ = (.ok 2, s₀) ∧
      ((l.replay s.written.toList).filterMap Signal.record?).map (fun r => (r.kind, r.path.text))
        = [(.file, ""), (.root, ""), (.folderEnd, "")] ∧
      ((l₀.replay s₀.written.toList).filterMap Signal.record?).map (fun r => (r.kind, r.path.text))
        = [(.root, ""), (.folderEnd, "")] := by
  obtain ⟨l, s, hl, hwrite, hread⟩ := @replay_emptyFolder "<File name=\"f\"/>\n"
    [(.file, ""), (.root, ""), (.folderEnd, "")] (by decide +kernel)
  obtain ⟨l₀, s₀, hl₀, hwrite₀, hread₀⟩ := @replay_emptyFolder "" [(.root, ""), (.folderEnd, "")]
    (by decide +kernel)
  exact ⟨l, l₀, s, s₀, hl, hl₀, hwrite, hwrite₀, hread, hread₀⟩

end Replay

end TreeListing
