import TreeListing.Proofs.Comparison.Mixed
import TreeListing.Proofs.Table

/-!
Paths that are a file on one side and a folder on the other. Where entries are grouped such a path is
reported once for each side, and what is reported together is of one kind. In mixed grouping a merge does
not look at the kinds, so the file and the folder are reported together. The main statement is
`nature_told_by_grouping`.
-/
namespace TreeListing.Comparison

/-- The path is that of a file on one side and of a folder on the other. -/
def ChangesNature (x y : Record) : Prop :=
  x.path = y.path ∧ (x.kind = .file ∧ y.kind = .folder ∨ x.kind = .folder ∧ y.kind = .file)

theorem ChangesNature.symm {x y : Record} (h : ChangesNature x y) : ChangesNature y x :=
  ⟨h.1.symm, h.2.elim (fun hk => .inr hk.symm) fun hk => .inl hk.symm⟩

/-- What a walk says of a path is what the disk has there. -/
theorem isFolder_of_mem_walk {l : Lister} {d : Disk} {folder base : Path}
    (hb : folder.absolute? d.cwd = some base) (ht : d.Tree DistinctNames (.root base))
    {records : List Record} (hw : l.walk d folder = .ok (records.map .ok)) {x : Record} (hx : x ∈ records)
    (hk : x.kind = .file ∨ x.kind = .folder) :
    d.isFolder (Item.mk base x.path 0 true).abspath = decide (x.kind = .folder) := by
  obtain ⟨f, he, hmarks⟩ := exists_forest_of_walk hb ht hw
  obtain ⟨m, hm, hkind, hpath⟩ := hmarks x hx
  rw [hkind] at hk ⊢
  rw [hpath]
  rcases Lister.mem_folderMarks hm with ⟨-, hown⟩ | hinner
  · rcases hown with hown | hown | hown <;> simp [hown] at hk
  · obtain ⟨before, n, hnames, hhas⟩ := Forest.exists_of_mem_marks he hinner
    have hfolder : decide (m.kind ≠ .file) = d.isFolder (Item.mk base (.ofSegments m.names) 0 true).abspath :=
      hnames ▸ hhas.isFolder
    refine hfolder.symm.trans (decide_eq_decide.mpr ⟨fun h => hk.resolve_left h, fun h hfile => ?_⟩)
    exact absurd (hfile.symm.trans h) (by decide)

theorem not_changesNature_of_mem_walk {l : Lister} {d : Disk} {folder base : Path}
    (hb : folder.absolute? d.cwd = some base) (ht : d.Tree DistinctNames (.root base))
    {records : List Record} (hw : l.walk d folder = .ok (records.map .ok)) {x y : Record} (hx : x ∈ records)
    (hy : y ∈ records) : ¬ ChangesNature x y := by
  rintro ⟨hpath, hk⟩
  have hx' := isFolder_of_mem_walk hb ht hw hx (hk.imp And.left And.left)
  have hy' := isFolder_of_mem_walk hb ht hw hy (hk.symm.imp And.right And.right)
  rw [hpath, hy'] at hx'
  rcases hk with ⟨h, h'⟩ | ⟨h, h'⟩ <;> simp [h, h'] at hx'

section
variable {o : SiblingOrder} {known : List String → Prop} {a b : Mark → Record} {ms ns : List Mark}
  {old new : List Record}

/-- What a report has to say about files and folders. Lines that are reported together are of one path,
and of one kind in a grouping. A file and a folder of one path are each reported once: alone in a grouping,
and together in none. -/
structure TellsNature (grouping : Grouping) (old new : List Record) (reported : List Event) : Prop where
  pair : ∀ x y, .pair x y ∈ reported → x ∈ old ∧ y ∈ new ∧ x.path = y.path ∧
    (x.kind = y.kind ∨ grouping = .mixed ∧ ChangesNature x y)
  old_side : ∀ x ∈ old, ∀ y ∈ new, ChangesNature x y →
    reported.filter (fun e => e.old? = some x) = [if grouping = .mixed then .pair x y else .deletion x]
  new_side : ∀ x ∈ old, ∀ y ∈ new, ChangesNature x y →
    reported.filter (fun e => e.new? = some y) = [if grouping = .mixed then .pair x y else .addition y]

theorem placeOfRecord_eq_of_changesNature {x y : Record} (h : ChangesNature x y) :
    placeOfRecord x = placeOfRecord y := by
  obtain ⟨hpath, ⟨hk, hk'⟩ | ⟨hk, hk'⟩⟩ := h
  · rw [placeOfRecord, placeOfRecord, hpath, hk, hk']
    rfl
  · rw [placeOfRecord, placeOfRecord, hpath, hk, hk']
    rfl

theorem tellsNature_mixed {reported : List Event} (h : Arranged o known a ms) (h' : Arranged o known b ns)
    (hold : old = ms.map a) (hnew : new = ns.map b) (hkeyed : Keyed placeOfRecord old new reported) :
    TellsNature .mixed old new reported where
  pair x y he := by
    obtain ⟨hx, hy, hplace⟩ := (hkeyed.pair_iff x y).mp he
    refine ⟨hx, hy, ?_⟩
    rw [hold] at hx
    rw [hnew] at hy
    obtain ⟨m, hm, rfl⟩ := List.mem_map.mp hx
    obtain ⟨m', hm', rfl⟩ := List.mem_map.mp hy
    have hp := h.placed m hm
    have hp' := h'.placed m' hm'
    rw [placeOfRecord_eq hp, placeOfRecord_eq hp'] at hplace
    obtain ⟨hn, hk⟩ := h.alike h' hm hm' hplace
    have hpath : (a m).path = (b m').path := by rw [hp.made.path, hp'.made.path, hn]
    rw [ChangesNature, hp.made.kind, hp'.made.kind]
    exact ⟨hpath, hk.imp_right fun hk => ⟨rfl, hpath, hk⟩⟩
  old_side x hx y hy hc := by
    rw [if_pos rfl]
    have hpair := (hkeyed.pair_iff x y).mpr ⟨hx, hy, placeOfRecord_eq_of_changesNature hc⟩
    exact hkeyed.filter_old hpair rfl
  new_side x hx y hy hc := by
    rw [if_pos rfl]
    have hpair := (hkeyed.pair_iff x y).mpr ⟨hx, hy, placeOfRecord_eq_of_changesNature hc⟩
    exact hkeyed.filter_new hpair rfl

/-- Where a walk has a line of a path, it has none of the other nature there. -/
theorem keyOfRecord_notMem {records : List Record} (hone : ∀ x ∈ records, ∀ y ∈ records, ¬ ChangesNature x y)
    {x y : Record} (hy : y ∈ records) (hc : ChangesNature x y) : keyOfRecord x ∉ records.map keyOfRecord := by
  intro hm
  obtain ⟨z, hz, he⟩ := List.mem_map.mp hm
  obtain ⟨hk, hp⟩ := Prod.mk.inj he
  refine hone z hz y hy ⟨hp.trans hc.1, ?_⟩
  rw [hk]
  exact hc.2

theorem tellsNature_grouped {grouping : Grouping} (hg : grouping ≠ .mixed) {reported : List Event}
    (hone : ∀ x ∈ old, ∀ y ∈ old, ¬ ChangesNature x y) (hone' : ∀ x ∈ new, ∀ y ∈ new, ¬ ChangesNature x y)
    (hkeyed : Keyed keyOfRecord old new reported) : TellsNature grouping old new reported where
  pair x y he := by
    obtain ⟨hx, hy, hkey⟩ := (hkeyed.pair_iff x y).mp he
    obtain ⟨hk, hp⟩ := Prod.mk.inj hkey
    exact ⟨hx, hy, hp, .inl hk⟩
  old_side x hx y hy hc := by
    rw [if_neg hg]
    exact hkeyed.filter_old ((hkeyed.deletion_iff x).mpr ⟨hx, keyOfRecord_notMem hone' hy hc⟩) rfl
  new_side x hx y hy hc := by
    rw [if_neg hg]
    exact hkeyed.filter_new ((hkeyed.addition_iff y).mpr ⟨hy, keyOfRecord_notMem hone hx hc.symm⟩) rfl

/-- A line whose path the other side has is in no folder that the other side lacks. -/
theorem not_hides_deletion {reported : List Event} (h : Arranged o known a ms) (h' : Arranged o known b ns)
    (hold : old = ms.map a) (hnew : new = ns.map b)
    (hdeletion : ∀ r, .deletion r ∈ reported → r ∈ old ∧ keyOfRecord r ∉ new.map keyOfRecord)
    {x y : Record} (hx : x ∈ old) (hy : y ∈ new) (hc : ChangesNature x y) :
    ∀ d ∈ reported, ¬ d.Hides (.deletion x) := by
  intro d hd hh
  cases d with
  | pair _ _ => exact hh
  | addition _ => exact hh
  | deletion r =>
    obtain ⟨hr, hnot⟩ := hdeletion r hd
    rw [hold] at hx hr
    rw [hnew] at hy hnot
    obtain ⟨m, hm, rfl⟩ := List.mem_map.mp hx
    obtain ⟨folder, hf, rfl⟩ := List.mem_map.mp hr
    obtain ⟨m', hm', rfl⟩ := List.mem_map.mp hy
    have hp := h.placed m hm
    have hpf := h.placed folder hf
    have hp' := h'.placed m' hm'
    have hholds := (hides_deletion_iff hpf hp).mp hh
    have hn : m.names = m'.names := by
      have hpath := hc.1
      rwa [hp.made.path, hp'.made.path, Path.ofSegments_inj hp.isName hp'.isName] at hpath
    have hlt : folder.names.length < m.names.length := by
      refine (hholds.belongs.resolve_right fun hline => ?_).2
      have hk := hc.2
      rw [hp.made.kind] at hk
      rcases hline.1 with he | he <;> simp [he] at hk
    have hopening := h'.opens m' hm' folder.names (hn ▸ hholds.isPrefix) (Nat.zero_le _) (.inl (hn ▸ hlt))
    rw [Mark.opening, if_neg (h.named folder hf hholds.isFolder)] at hopening
    have hpo := h'.placed _ hopening
    refine hnot (List.mem_map.mpr ⟨_, List.mem_map_of_mem hopening, ?_⟩)
    rw [keyOfRecord, keyOfRecord, hpo.made.kind, hpo.made.path, hpf.made.kind, hpf.made.path, hholds.isFolder]

theorem not_hides_addition {reported : List Event} (h : Arranged o known a ms) (h' : Arranged o known b ns)
    (hold : old = ms.map a) (hnew : new = ns.map b)
    (haddition : ∀ r, .addition r ∈ reported → r ∈ new ∧ keyOfRecord r ∉ old.map keyOfRecord)
    {x y : Record} (hx : x ∈ old) (hy : y ∈ new) (hc : ChangesNature x y) :
    ∀ d ∈ reported, ¬ d.Hides (.addition y) := by
  have hmirror : ∀ r, .deletion r ∈ reported.map Event.mirror → r ∈ new ∧ keyOfRecord r ∉ old.map keyOfRecord := by
    intro r hr
    obtain ⟨e, he, hmirror⟩ := List.mem_map.mp hr
    cases e <;> cases hmirror
    exact haddition r he
  intro d hd hh
  apply not_hides_deletion h' h hnew hold hmirror hy hx hc.symm d.mirror (List.mem_map_of_mem hd)
  exact (Event.hides_mirror d (.addition y)).mpr hh

theorem filter_unhidden {reported : List Event} {p : Event → Bool} {e : Event} (h : reported.filter p = [e])
    (he : ∀ d ∈ reported, ¬ d.Hides e) : (unhidden Event.Hides reported).filter p = [e] := by
  rw [unhidden, List.filter_filter]
  simp only [Bool.and_comm (p _)]
  rw [← List.filter_filter, h]
  exact List.filter_eq_self.mpr (List.forall_mem_singleton.mpr (decide_eq_true he))

theorem not_hides_pair (d : Event) (x y : Record) : ¬ d.Hides (.pair x y) := by
  intro h
  cases d <;> exact h

/-- Skipping what is in folders takes nothing of it away. -/
theorem TellsNature.unhidden {grouping : Grouping} {reported : List Event}
    (h : TellsNature grouping old new reported)
    (hkept : grouping ≠ .mixed → ∀ x ∈ old, ∀ y ∈ new, ChangesNature x y →
      (∀ d ∈ reported, ¬ d.Hides (.deletion x)) ∧ ∀ d ∈ reported, ¬ d.Hides (.addition y)) :
    TellsNature grouping old new (unhidden Event.Hides reported) where
  pair x y he := h.pair x y (List.mem_filter.mp he).1
  old_side x hx y hy hc := by
    apply filter_unhidden (h.old_side x hx y hy hc)
    by_cases hg : grouping = .mixed
    · rw [if_pos hg]
      exact fun d _ => not_hides_pair d x y
    · rw [if_neg hg]
      exact (hkept hg x hx y hy hc).1
  new_side x hx y hy hc := by
    apply filter_unhidden (h.new_side x hx y hy hc)
    by_cases hg : grouping = .mixed
    · rw [if_pos hg]
      exact fun d _ => not_hides_pair d x y
    · rw [if_neg hg]
      exact (hkept hg x hx y hy hc).2

end

/-- A comparison of two walks over finite trees, without failures and ellipses. What is reported together
is of one path, and of one kind where entries are grouped; in mixed grouping it may be a file and a folder.
A path that is a file on one side and a folder on the other is reported accordingly: the file and the
folder each alone where entries are grouped, and together in mixed grouping, with what is in folders or
without. -/
theorem nature_told_by_grouping {o : Options} {r : Registry} {l : Lister}
    (hd : ∀ kind, LinePattern.given? o kind = none) (hf : o.showFolders = true)
    (hr : r.TellsNames) (hl : Lister.compile o r = .ok l) (hk : o.sortKey? = none)
    {d d' : Disk} {folder folder' base base' : Path} (hb : folder.absolute? d.cwd = some base)
    (hb' : folder'.absolute? d'.cwd = some base') (ht : d.Tree DistinctNames (.root base))
    (ht' : d'.Tree DistinctNames (.root base')) {old new : List Record}
    (hw : l.walk d folder = .ok (old.map .ok)) (hw' : l.walk d' folder' = .ok (new.map .ok))
    (hdots : ∀ r ∈ old ++ new, r.kind ≠ .ellipsis) (skipChildren namesOnly : Bool) :
    ∃ reported : List Event,
      results (run (settings l skipChildren namesOnly) (.ofSignals (old.map .record) (new.map .record)))
        = reported.map (·.answer (settings l skipChildren namesOnly)) ∧
      TellsNature o.grouping old new reported := by
  refine ⟨_, results_run_records _ old new, ?_⟩
  have hopt : l.options = o := Lister.options_eq hl
  have hkey : l.options.order.ByName id := SiblingOrder.byName_id (by rw [hopt]; exact hk)
  have hknown : ∀ r ∈ old ++ new, KnownIn (old ++ new) r.path.names := fun r hr => ⟨r, hr, rfl⟩
  obtain ⟨a, ms, hold, h⟩ := exists_arranged hd hf hr hl hkey hb ht hw
    (fun r hr => hdots r (List.mem_append_left _ hr)) fun r hr => hknown r (List.mem_append_left _ hr)
  obtain ⟨b, ns, hnew, h'⟩ := exists_arranged hd hf hr hl hkey hb' ht' hw'
    (fun r hr => hdots r (List.mem_append_right _ hr)) fun r hr => hknown r (List.mem_append_right _ hr)
  have hexact : o.grouping ≠ .mixed → Exact old new (events (settings l false namesOnly) old new) := fun hg =>
    exact_events hd hf hr hl hg hb hb' ht ht' hw hw' (.inl hk) (fun r hr he => absurd he (hdots r hr)) namesOnly
  have hfull : TellsNature o.grouping old new (events (settings l false namesOnly) old new) := by
    by_cases hg : o.grouping = .mixed
    · rw [hg]
      apply tellsNature_mixed h h' hold hnew
      exact keyed_mixed rfl hkey (by rw [settings, hopt]; exact hg) h h' hold hnew
    · apply tellsNature_grouped hg _ _ (hexact hg).keyed
      · exact fun x hx y hy => not_changesNature_of_mem_walk hb ht hw hx hy
      · exact fun x hx y hy => not_changesNature_of_mem_walk hb' ht' hw' hx hy
  cases skipChildren with
  | false => exact hfull
  | true =>
    have hevents : events (settings l true namesOnly) old new
        = unhidden Event.Hides (events (settings l false namesOnly) old new) :=
      events_eq_unhidden rfl hkey hold hnew h.toTold h'.toTold
    rw [hevents]
    apply hfull.unhidden
    intro hg x hx y hy hc
    exact ⟨not_hides_deletion h h' hold hnew (fun r => ((hexact hg).deletion_iff r).mp) hx hy hc,
      not_hides_addition h h' hold hnew (fun r => ((hexact hg).addition_iff r).mp) hx hy hc⟩

def entryLine (kind : Kind) (names : List String) : Record :=
  ⟨kind, .ofSegments names, some names.length,
    .ofList [("indent", String.ofList (List.replicate names.length ' ')), ("name", names.getLast?.getD "")]⟩

/-- A folder in which `p` is a folder with a file. -/
def folderInside : Disk :=
  .ofTable [("/t", ["d"]), ("/t/d", ["p"]), ("/t/d/p", ["q"])] ["/t/d/p/q"]

def fileInside : Disk := .ofTable [("/t", ["d"]), ("/t/d", ["p"])] ["/t/d/p"]

def folderInsideLines : List Record :=
  [rootRecord, entryLine .folder ["d"], entryLine .folder ["d", "p"], entryLine .file ["d", "p", "q"]]

def fileInsideLines : List Record := [rootRecord, entryLine .folder ["d"], entryLine .file ["d", "p"]]

theorem nature_told_by_grouping_inside :
    ∃ (l : Lister) (reported : List Event), Lister.compile {} .core = .ok l ∧
      l.walk folderInside ⟨"/t"⟩ = .ok (folderInsideLines.map .ok) ∧
      l.walk fileInside ⟨"/t"⟩ = .ok (fileInsideLines.map .ok) ∧
      results (run (settings l true true) (.ofSignals (folderInsideLines.map .record)
        (fileInsideLines.map .record))) = reported.map (·.answer (settings l true true)) ∧
      reported.filter (fun e => e.old? = some (entryLine .folder ["d", "p"]))
        = [.deletion (entryLine .folder ["d", "p"])] ∧
      reported.filter (fun e => e.new? = some (entryLine .file ["d", "p"]))
        = [.addition (entryLine .file ["d", "p"])] := by
  obtain ⟨l, hl⟩ : ∃ l, Lister.compile {} .core = .ok l := exists_eq_ok_of_isOk (by decide +kernel)
  have hw : l.walk folderInside ⟨"/t"⟩ = .ok (folderInsideLines.map .ok) :=
    walk_of_shown hl Path.absolute?_t (.folder "d" (.folder "p" (.file "q" .nil) .nil) .nil)
      (by decide +kernel)
  have hw' : l.walk fileInside ⟨"/t"⟩ = .ok (fileInsideLines.map .ok) :=
    walk_of_shown hl Path.absolute?_t (.folder "d" (.file "p" .nil) .nil) (by decide +kernel)
  obtain ⟨reported, hresults, htells⟩ := nature_told_by_grouping (fun kind => by cases kind <;> rfl) rfl
    Registry.tellsNames_core hl rfl Path.absolute?_t Path.absolute?_t
    (Disk.tree_of_isTree 3 (by decide +kernel)) (Disk.tree_of_isTree 2 (by decide +kernel)) hw hw' (by decide +kernel) true true
  have hold : entryLine .folder ["d", "p"] ∈ folderInsideLines := by decide +kernel
  have hnew : entryLine .file ["d", "p"] ∈ fileInsideLines := by decide +kernel
  have hc : ChangesNature (entryLine .folder ["d", "p"]) (entryLine .file ["d", "p"]) := ⟨rfl, .inr ⟨rfl, rfl⟩⟩
  exact ⟨l, reported, hl, hw, hw', hresults, htells.old_side _ hold _ hnew hc, htells.new_side _ hold _ hnew hc⟩

theorem file_and_folder_reported_together :
    ∃ l : Lister, Lister.compile { grouping := .mixed } .core = .ok l ∧
      l.walk (.oneFile "a") ⟨"/t"⟩ = .ok ([rootRecord, entryLine .file ["a"]].map .ok) ∧
      l.walk (.emptyFolders ["a"]) ⟨"/t"⟩ = .ok ([rootRecord, entryLine .folder ["a"]].map .ok) ∧
      results (run (settings l false true) (.ofSignals ([rootRecord, entryLine .file ["a"]].map .record)
        ([rootRecord, entryLine .folder ["a"]].map .record)))
          = [.ok ⟨.kept, .root, ⟨""⟩, some rootRecord.props, some rootRecord.props⟩,
            .ok ⟨.kept, .folder, ⟨"a"⟩, some (entryLine .file ["a"]).props,
              some (entryLine .folder ["a"]).props⟩] := by
  obtain ⟨l, hl⟩ : ∃ l, Lister.compile { grouping := .mixed } .core = .ok l :=
    exists_eq_ok_of_isOk (by decide +kernel)
  have hw : l.walk (.oneFile "a") ⟨"/t"⟩ = .ok ([rootRecord, entryLine .file ["a"]].map .ok) :=
    walk_oneFile_of_compile hl (by decide) (by decide +kernel)
  have hw' : l.walk (.emptyFolders ["a"]) ⟨"/t"⟩ = .ok ([rootRecord, entryLine .folder ["a"]].map .ok) :=
    walk_emptyFolders_of_compile hl (by decide) (by decide +kernel)
  have ho : (settings l false true).order = ⟨.mixed, none⟩ := by
    rw [settings, Lister.options_eq hl]
    rfl
  have hroot : compareRecords (settings l false true).order rootRecord rootRecord = .eq := by
    rw [ho]
    decide
  have hentry : compareRecords (settings l false true).order (entryLine .file ["a"]) (entryLine .folder ["a"])
      = .eq := by
    rw [ho]
    decide +kernel
  refine ⟨l, hl, hw, hw', ?_⟩
  have hpath : (entryLine .folder ["a"]).path = ⟨"a"⟩ := by decide +kernel
  rw [results_run_records, events_pair hroot, events_pair hentry, events, ← hpath]
  rfl

end TreeListing.Comparison
