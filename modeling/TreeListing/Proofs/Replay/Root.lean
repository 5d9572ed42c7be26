import TreeListing.Proofs.Listing
import TreeListing.Proofs.Literal
import TreeListing.Proofs.Recursion
import TreeListing.Proofs.Replay.Plain
import TreeListing.Proofs.Replay.Text
import TreeListing.Proofs.Replay.Xml

/-!
The first line of a listing, which is that of the folder listed. It is read back as a root whatever
the root is called in it, unless it is called by its relative path: that is empty, and no line tells
an empty path.
-/
namespace TreeListing

section
variable {o : Options} {l : Lister} {d : Disk} {e n : String}

/-- Without details no line asks the disk for anything. -/
theorem LinePattern.exists_extract (hd : details o = []) {kind : Kind} {name : String}
    (hm : name ∈ names o kind) {property : Property} (hg : Registry.core.get? name = some property)
    (d : Disk) (i : Item) : ∃ value, property.extract d o i = .ok value := by
  have hheadings : ∀ nameType, name ∈ headings o nameType →
      name ∈ ["indent", "name", "relpath", "abspath", "hidden"] := by
    intro nameType hm
    rcases mem_headings.mp hm with hm | ⟨-, rfl⟩
    · cases nameType with
      | dot => cases hm
      | _ => exact Option.some.inj hm ▸ by decide
    · decide
  have hname : name ∈ ["indent", "name", "relpath", "abspath", "hidden"] := by
    rcases List.mem_append.mp hm with hm | hm
    · obtain ⟨-, rfl⟩ := mem_part.mp hm
      decide
    · cases kind with
      | file => exact hheadings _ (by simpa [attributeNames, hd] using hm)
      | folder => exact hheadings _ hm
      | root => exact hheadings _ hm
      | folderEnd => cases hm
      | ellipsis => cases hm
  simp only [List.mem_cons, List.not_mem_nil, or_false] at hname
  rcases hname with rfl | rfl | rfl | rfl | rfl <;> obtain rfl := Option.some.inj hg <;> exact ⟨_, rfl⟩

/-- Without details no record fails, and there is one for every line that is written. -/
theorem Lister.exists_record? (hl : compile o .core = .ok l) (hg : ∀ kind, LinePattern.given? o kind = none)
    (ho : o.properties = []) (hm : LinePattern.MeansTexts o e n) (hd : LinePattern.details o = [])
    (d : Disk) (kind : Kind) (i : Item) :
    ∃ record?, l.record? d kind i = .ok record? ∧ record?.isSome = l.shows kind := by
  rw [record?, shows]
  cases ht : l.template? kind with
  | none => exact ⟨none, rfl, rfl⟩
  | some t =>
    obtain ⟨pattern, hpattern, hc⟩ := compiled_of_template? hl ht
    obtain ⟨segments, hs, -, hfields⟩ := exists_segments_of_means hm hg hpattern
    obtain rfl := Except.ok.inj (hs.symm.trans hc.segments)
    have hextract : ∀ x ∈ t.properties, ∃ value, x.2.extract d t.options i = .ok value := by
      intro x hx
      have hname : x.1 ∈ LinePattern.names o kind := by
        have hmem := List.mem_map_of_mem (f := Prod.fst) hx
        rwa [hc.names, ho, List.append_nil, List.mem_eraseDups, hfields] at hmem
      rw [hc.options]
      exact LinePattern.exists_extract hd hname (hc.get?_of_mem hx) d i
    obtain ⟨p, hp⟩ := Template.exists_props hextract
    exact ⟨some ⟨kind, i.path, some i.depth, p⟩, by simp only [hp]; rfl, rfl⟩

/-- Where no record fails, a walk gives records only. -/
theorem Walk.run_records (h : ∀ kind i, ∃ record?, l.record? d kind i = .ok record?) {tasks : List Task}
    {outcomes : List Signal.Outcome} (hr : l.run d tasks = some outcomes) :
    ∃ records : List Record, outcomes = records.map .ok := by
  have hyield : ∀ kind i, (yieldOf (l.record? d kind i) = none ∨
      ∃ r, yieldOf (l.record? d kind i) = some (.ok r)) := by
    intro kind i
    obtain ⟨record?, hrecord⟩ := h kind i
    rw [hrecord]
    cases record? with
    | none => exact .inl rfl
    | some r => exact .inr ⟨r, rfl⟩
  have henter : ∀ i rest, (enter d l i rest).1 = none ∨ ∃ r, (enter d l i rest).1 = some (.ok r) := by
    intro i rest
    obtain ⟨record?, hrecord⟩ := h (if i.depth = 0 then .root else .folder) i
    rw [enter, hrecord]
    cases record? with
    | none => exact .inl rfl
    | some r => exact .inr ⟨r, rfl⟩
  have hperform : ∀ task rest, (perform d l task rest).1 = none ∨
      ∃ r, (perform d l task rest).1 = some (.ok r) := by
    intro task rest
    cases task with
    | enter i => exact henter i rest
    | visit i =>
      rw [perform]
      split
      · exact .inl rfl
      · split
        · exact henter i rest
        · exact hyield .file i
    | ellipsis i => exact hyield .ellipsis i
    | leave i => exact hyield .folderEnd i
  refine Lister.run.partial_correctness l d
    (fun _ outcomes => ∃ records : List Record, outcomes = records.map .ok) ?_ tasks outcomes hr
  rintro run ih (_ | ⟨task, rest⟩) outcomes hr
  · exact ⟨[], by simpa using hr.symm⟩
  · obtain ⟨⟨outcome?, next⟩, hp⟩ : ∃ p, perform d l task rest = p := ⟨_, rfl⟩
    have hone := hperform task rest
    simp only [hp] at hr hone
    rcases hone with rfl | ⟨r, rfl⟩
    · exact ih next outcomes hr
    · obtain ⟨others, ho, he⟩ := Option.bind_eq_some_iff.mp hr
      obtain ⟨records, rfl⟩ := ih next others ho
      exact ⟨r :: records, (Option.some.inj he).symm⟩

/-- With a limit of the depth a walk comes to an end on every disk, and begins with the root. -/
theorem Listing.exists_walked (h : ∀ kind i, ∃ record?, l.record? d kind i = .ok record?)
    (hlimit : 0 < l.options.maxDepth) {folder base : Path} (hd : d.isFolder folder = true)
    (hb : folder.absolute? d.cwd = some base) {r : Record}
    (hr : l.record? d .root (.root base) = .ok (some r)) :
    ∃ more, Walked l d folder (r :: more) := by
  obtain ⟨outcomes, ho⟩ := l.exists_listing_of_maxDepth (d := d) hlimit (.root base)
  have hrun : l.run d [.enter (.root base)] = some outcomes := (Walk.run_enter_eq_listing _).trans ho
  obtain ⟨records, rfl⟩ := Walk.run_records h hrun
  have hkind : (Item.root base).ownKind = .root := rfl
  have hok : (Except.ok (some r) : Except ListError (Option Record)).isOk = true := rfl
  rw [Walk.listing_eq, hkind, hr, if_pos hok] at ho
  obtain ⟨inner, -, he⟩ := Option.map_eq_some_iff.mp ho
  have hown : l.outcomes d .root (.root base) = [.ok r] := by
    rw [Lister.outcomes, hr]
    rfl
  rw [hown] at he
  cases records with
  | nil => cases he
  | cons first more =>
    obtain ⟨hfirst, -⟩ := List.cons.inj he
    obtain rfl := Except.ok.inj hfirst
    exact ⟨more, [.enter (.root base)], by rw [Walk.start, if_pos hd, hb], hrun⟩

end

/-- The usual options but for layout, indent and what the root is called. -/
def Options.calling (layout : Layout) (showIndent : Bool) (rootNameType : NameType) : Options :=
  { layout, showIndent, rootNameType }

namespace Replay

open Options (calling)
open LinePattern (MeansTexts HasInnerEllipsis lineTokens)

variable {layout : Layout} {showIndent : Bool} {rootNameType : NameType} {l : Lister} {d : Disk}
  {folder base : Path} {r : Record}

theorem meansTexts_calling : MeansTexts (calling layout showIndent rootNameType) "..." "\n" :=
  ⟨fun _ h => by simp [calling] at h, (by decide : "\n".toList = Template.doubled "\n".toList)⟩

theorem given?_calling (kind : Kind) :
    LinePattern.given? (calling layout showIndent rootNameType) kind = none := by
  cases kind <;> rfl

theorem exists_compile_calling (layout : Layout) (showIndent : Bool) (rootNameType : NameType) :
    ∃ l, Lister.compile (calling layout showIndent rootNameType) .core = .ok l := by
  apply Lister.exists_compile_of_segments rfl
  intro kind pattern hp
  obtain ⟨segments, hs, -, hfields⟩ := Lister.exists_segments_of_means meansTexts_calling given?_calling hp
  exact ⟨segments, hs, hfields⟩

theorem isUsual_calling (h : rootNameType ≠ .relpath) : (calling layout showIndent rootNameType).IsUsual :=
  ⟨given?_calling, rfl, rfl, rfl, nofun, h, nofun⟩

theorem unambiguous_calling (hs : layout = .plain → showIndent = true) :
    Template.Unambiguous (calling layout showIndent rootNameType).Texts
      (lineTokens (calling layout showIndent rootNameType) .root) := by
  cases layout with
  | plain =>
    have hfits : FitsPlain (calling .plain showIndent rootNameType) :=
      ⟨rfl, hs rfl, (by decide : " " ≠ ""), by simp [calling, IsPad], rfl, rfl⟩
    exact unambiguous_lineTokens hfits rfl (by decide) (by decide)
  | xml =>
    have hfits : FitsXml (calling .xml showIndent rootNameType) :=
      ⟨rfl, fun _ => (by decide : '<' ∉ " ".toList), nofun⟩
    exact unambiguous_xml hfits .root

/-- Whatever the folder holds, the listing begins with the line of the root. -/
theorem exists_first_line (hl : Lister.compile (calling layout showIndent rootNameType) .core = .ok l)
    (hb : folder.absolute? d.cwd = some base) (hd : d.isFolder folder = true) :
    ∃ count s r rest, Listing.write .memory l [folder] ⟨d, #[]⟩ = (.ok (count + 1), s) ∧
      l.record? d .root (.root base) = .ok (some r) ∧ s.written.toList = Text.encode (l.line r) ++ rest := by
  have hopt := Lister.options_eq hl
  have hrecords : ∀ kind i, ∃ record?, l.record? d kind i = .ok record? ∧ record?.isSome = l.shows kind :=
    fun kind i => Lister.exists_record? hl given?_calling rfl meansTexts_calling rfl d kind i
  have hroot : l.shows .root = true := by
    rw [Lister.shows, Lister.isSome_template?_of_usual hl given?_calling]
    cases layout <;> rfl
  obtain ⟨r, hr⟩ : ∃ r, l.record? d .root (.root base) = .ok (some r) := by
    obtain ⟨record?, hrecord, hsome⟩ := hrecords .root (.root base)
    obtain ⟨r, rfl⟩ := Option.isSome_iff_exists.mp (hsome.trans hroot)
    exact ⟨r, hrecord⟩
  have hlimit : 0 < l.options.maxDepth := by
    rw [hopt]
    exact Nat.succ_pos 19
  obtain ⟨more, hwalked⟩ :=
    Listing.exists_walked (fun kind i => (hrecords kind i).imp fun _ => And.left) hlimit hd hb hr
  obtain ⟨s, hwrite, hbytes⟩ := Listing.write_memory (.cons hwalked .nil)
  exact ⟨more.length, s, r, l.bytes more, by simpa using hwrite, hr,
    by simpa [hopt, calling, Lister.bytes] using hbytes⟩

/-- The line of the root is recognised if it says what the root is called. -/
theorem recorded_calling (hl : Lister.compile (calling layout showIndent rootNameType) .core = .ok l)
    (hrel : rootNameType ≠ .relpath) (hs : layout = .plain → showIndent = true)
    (hb : base.fileName?.isSome = true) (hn : ∀ n ∈ base.names, IsListable n)
    (hr : l.record? d .root (.root base) = .ok (some r)) :
    IsLine (l.line r) ∧ Recorded l (l.line r) r (State.start l) (Opened l []) := by
  have ho : (calling layout showIndent rootNameType).IsUsual := isUsual_calling hrel
  have he : HasInnerEllipsis (calling layout showIndent rootNameType) :=
    LinePattern.hasInnerEllipsis_dots fun _ => rfl
  have hcommon : (Item.root base).IsCommon d (calling layout showIndent rootNameType) :=
    Item.isCommon_below hb hn (List.forall_mem_nil _) (List.forall_mem_nil _) fun hf => by cases hf
  have habove : ∀ n ∈ base.names, ∀ c ∈ n.toList, c ≠ '\n' := fun n hm c hc he =>
    hn n hm c hc (he ▸ by decide)
  have hspelled : (Item.root base).Spelled (· ≠ '\n') :=
    Item.spelled_below (by decide) (by decide) habove (List.forall_mem_nil _) (List.forall_mem_nil _) true
  have hdepth : showIndent = true ∧ " " ≠ "" ∨ l.closesFolders = true := by
    cases layout with
    | plain => exact .inl ⟨hs rfl, by decide⟩
    | xml =>
      refine .inr ?_
      rw [closesFolders_eq, Lister.shows, Lister.shows, Lister.isSome_template?_of_usual hl given?_calling,
        Lister.isSome_template?_of_usual hl given?_calling]
      rfl
  have htells : Tells l [] r := tells_of_record? (m := ⟨.root, []⟩) hl ho he (List.forall_mem_nil _)
    (by simp) (Nat.zero_le _) hdepth hr
  obtain ⟨t, p, ht, hp, rfl⟩ := Lister.record?_eq_some hr
  have hu := Lister.usual_template hl ho he ht
  have htexts := hu.texts ho hcommon (fun hk => by cases hk) (by simp) hp
  have hline : l.line ⟨.root, (Item.root base).path, some (Item.root base).depth, p⟩ = t.render p := by
    rw [Lister.line, ht]
    rfl
  have hown : match? l .root (t.render p) = some p := by
    rw [match?, ht]
    exact hu.matchLine?_render ho (unambiguous_calling hs) hp htexts
  have hkeeps : KeepsLine (calling layout showIndent rootNameType) :=
    ⟨fun _ => (by decide : '\n' ∉ " ".toList), fun hs => by cases hs⟩
  rw [hline]
  exact ⟨isLine_render hu (isLine_newline ho) he hkeeps (isReadable_dateFormat ho) (fun hk => by cases hk)
      (fun hn => hspelled.calledBy _ _ hn rfl) hp,
    recorded_root hown htells rfl (fresh_start l)⟩

/-- The line of the root where it is called by its relative path. -/
def namelessLine : Layout → String
  | .plain => "<>\n"
  | .xml => "<Folder relpath=\"\">\n"

theorem line_eq_namelessLine (hl : Lister.compile (calling layout showIndent .relpath) .core = .ok l)
    (hr : l.record? d .root (.root base) = .ok (some r)) : l.line r = namelessLine layout := by
  obtain ⟨t, p, ht, hp, rfl⟩ := Lister.record?_eq_some hr
  obtain ⟨pattern, hpattern, hc⟩ := Lister.compiled_of_template? hl ht
  obtain ⟨segments, hs, htokens, hfields⟩ :=
    Lister.exists_segments_of_means meansTexts_calling given?_calling hpattern
  obtain rfl := Except.ok.inj (hs.symm.trans hc.segments)
  have hnames : Template.fields t.segments = (if showIndent then ["indent"] else []) ++ ["relpath"] := hfields
  have hproperties : t.properties
      = (if showIndent then [("indent", .indent)] else []) ++ [("relpath", .relpath)] :=
    hc.properties_eq rfl hnames (by cases showIndent <;> decide +kernel)
  rw [Template.props, hproperties, hc.options] at hp
  rw [Lister.line, ht, Option.map_some, Option.getD_some, ← String.toList_inj, Template.render_eq, htokens]
  cases showIndent <;> cases layout <;> obtain rfl := Except.ok.inj hp <;> rfl

/-- A path is never empty where it is read, so the line gives no record. -/
theorem replay_namelessLine (hl : Lister.compile (calling layout showIndent .relpath) .core = .ok l)
    (hs : layout = .plain → showIndent = true) (hr : l.record? d .root (.root base) = .ok (some r))
    (rest : List UInt8) : IsLine (l.line r) ∧
      (l.replay (Text.encode (l.line r) ++ rest)).head?.bind Signal.record? = none := by
  have hall : ∀ layout showIndent, (layout = .plain → showIndent = true) →
      (match Lister.compile (calling layout showIndent .relpath) .core with
        | .ok l => (step l (State.start l) (namelessLine layout)).1.map Signal.record?
        | .error _ => []) = [none] := by
    intro layout showIndent hs
    cases layout <;> cases showIndent
    · cases hs rfl
    · decide +kernel
    · decide +kernel
    · decide +kernel
  have hstep := hall layout showIndent hs
  rw [hl] at hstep
  obtain ⟨signal, hsignals, hnone⟩ := List.map_eq_singleton_iff.mp hstep
  have hnewline : l.options.newline = "\n" := by
    rw [Lister.options_eq hl]
    rfl
  have hline : IsLine (namelessLine layout) := by
    cases layout with
    | plain => exact ⟨"<>", rfl, by decide⟩
    | xml => exact ⟨"<Folder relpath=\"\">", rfl, by decide⟩
  rw [line_eq_namelessLine hl hr, replay_line hnewline hline, hsignals]
  exact ⟨hline, hnone⟩

/-- Whatever folder is listed, the first line is that of the root. Read back it is that same root, unless
the root is called by its relative path: then the line gives no record. -/
theorem root_line_read (layout : Layout) {showIndent : Bool} (hs : layout = .plain → showIndent = true)
    (rootNameType : NameType) :
    ∃ l, Lister.compile (calling layout showIndent rootNameType) .core = .ok l ∧
      ∀ (d : Disk) (folder base : Path), folder.absolute? d.cwd = some base → d.isFolder folder = true →
        base.fileName?.isSome = true → (∀ n ∈ base.names, IsListable n) →
        ∃ count s r, Listing.write .memory l [folder] ⟨d, #[]⟩ = (.ok (count + 1), s) ∧
          (IsLine (l.line r) ∧ Text.encode (l.line r) <+: s.written.toList) ∧
          (r.kind = .root ∧ r.path = .empty ∧ r.depth? = some 0) ∧
          (l.replay s.written.toList).head?.bind Signal.record?
            = if rootNameType = .relpath then none else some r := by
  obtain ⟨l, hl⟩ := exists_compile_calling layout showIndent rootNameType
  refine ⟨l, hl, fun d folder base hb hd hname hn => ?_⟩
  obtain ⟨count, s, r, rest, hwrite, hr, hwritten⟩ := exists_first_line hl hb hd
  have hplace : r.kind = .root ∧ r.path = .empty ∧ r.depth? = some 0 := by
    obtain ⟨t, p, -, -, rfl⟩ := Lister.record?_eq_some hr
    exact ⟨rfl, rfl, rfl⟩
  refine ⟨count, s, r, hwrite, ?_⟩
  rw [hwritten]
  by_cases hrel : rootNameType = .relpath
  · subst hrel
    obtain ⟨hline, hnone⟩ := replay_namelessLine hl hs hr rest
    exact ⟨⟨hline, List.prefix_append _ _⟩, hplace, hnone⟩
  · have hnewline : l.options.newline = "\n" := by
      rw [Lister.options_eq hl]
      rfl
    obtain ⟨hline, s', hstep, -⟩ := recorded_calling hl hrel hs hname hn hr
    rw [replay_line hnewline hline, hstep, if_neg hrel]
    exact ⟨⟨hline, List.prefix_append _ _⟩, hplace, rfl⟩

theorem root_line_read_oneFile : ∃ l, Lister.compile (calling .plain true .name) .core = .ok l ∧
    ∃ count s r, Listing.write .memory l [⟨"/t"⟩] ⟨.oneFile "a", #[]⟩ = (.ok (count + 1), s) ∧
      r.kind = .root ∧ (l.replay s.written.toList).head?.bind Signal.record? = some r := by
  obtain ⟨l, hl, h⟩ := root_line_read .plain (fun _ => rfl) .name
  obtain ⟨count, s, r, hwrite, -, hplace, hread⟩ :=
    h (.oneFile "a") ⟨"/t"⟩ ⟨"/t"⟩ (by decide) (by decide) (by decide) (by decide)
  exact ⟨l, hl, count, s, r, hwrite, hplace.1, hread⟩

/-- The root that is called by its relative path is lost. -/
theorem root_line_by_relpath_unread : ∃ l, Lister.compile (calling .plain true .relpath) .core = .ok l ∧
    ∃ count s, Listing.write .memory l [⟨"/t"⟩] ⟨.oneFile "a", #[]⟩ = (.ok (count + 1), s) ∧
      ¬ ∃ p signals, l.replay s.written.toList = .record ⟨.root, .empty, some 0, p⟩ :: signals := by
  obtain ⟨l, hl⟩ := exists_compile_calling .plain true .relpath
  have hb : (⟨"/t"⟩ : Path).absolute? (Disk.oneFile "a").cwd = some ⟨"/t"⟩ := by decide
  obtain ⟨count, s, r, rest, hwrite, hr, hwritten⟩ := exists_first_line hl hb (by decide)
  refine ⟨l, hl, count, s, hwrite, ?_⟩
  rintro ⟨p, signals, hread⟩
  have hnone := (replay_namelessLine hl (fun _ => rfl) hr rest).2
  rw [← hwritten, hread] at hnone
  cases hnone

end Replay

end TreeListing
