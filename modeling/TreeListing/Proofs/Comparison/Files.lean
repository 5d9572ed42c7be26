import Mathlib.Data.Prod.Lex
import Mathlib.Data.String.Basic
import TreeListing.Proofs.Comparison.Keyed
import TreeListing.Proofs.Table

/-!
Listings without lines for folders. A merge of them only sees how deep a file lies and what it is called,
so it finds the files of both sides together where the walks come in that order: the deeper files first,
and by their names if they are equally deep, whatever folders they are in. A walk does not come so by
itself, and then it misreports files that both sides have. The main statement is
`file_listings_compared_exactly`.
-/
namespace TreeListing.Comparison

/-- Each line comes before all behind it in the order of a merge. -/
def InOrder (o : SiblingOrder) (records : List Record) : Prop :=
  records.Pairwise fun x y => compareRecords o x y = .lt

instance (o : SiblingOrder) (records : List Record) : Decidable (InOrder o records) :=
  inferInstanceAs (Decidable (records.Pairwise _))

/-- The line of a file, with its depth and its name. -/
structure IsFileLine (r : Record) : Prop where
  isFile : r.kind = .file
  depth : r.depth?.isSome = true
  name : r.name?.isSome = true

/-- All that a merge sees of the line of a file; the deeper ones come first. -/
def placeOfFile (r : Record) : ℕᵒᵈ ×ₗ String :=
  toLex (OrderDual.toDual (r.depth?.getD 0), r.name?.getD "")

section
variable {o : SiblingOrder} {a b : Record}

theorem compareSiblings_files (hk : o.key? = none) (ha : IsFileLine a) (hb : IsFileLine b) :
    compareSiblings o a b = Ord.compare (a.name?.getD "") (b.name?.getD "") := by
  have hgroups : SiblingOrder.compareGroups o.grouping Kind.file.isFolderLike Kind.file.isFolderLike = .eq :=
    Std.ReflCmp.compare_self
  obtain ⟨n, hn⟩ := Option.isSome_iff_exists.mp ha.name
  obtain ⟨n', hn'⟩ := Option.isSome_iff_exists.mp hb.name
  rw [compareSiblings, ha.isFile, hb.isFile, hgroups, hn, hn', hk]
  rfl

theorem compareRecords_of_depth_eq (hk : o.key? = none) (ha : IsFileLine a) (hb : IsFileLine b) {depth : Nat}
    (hd : a.depth? = some depth) (hd' : b.depth? = some depth) :
    compareRecords o a b = Ord.compare (a.name?.getD "") (b.name?.getD "") := by
  rw [← compareSiblings_files hk ha hb, compareRecords, hd, hd']
  simp only [ne_eq, not_true_eq_false, if_false, ha.isFile, Kind.isFolderLike, Bool.false_eq_true,
    false_and, and_false]

theorem compareRecords_of_placeOfFile_lt (hk : o.key? = none) (ha : IsFileLine a) (hb : IsFileLine b)
    (h : placeOfFile a < placeOfFile b) : compareRecords o a b = .lt := by
  obtain ⟨depth, hd⟩ := Option.isSome_iff_exists.mp ha.depth
  obtain ⟨depth', hd'⟩ := Option.isSome_iff_exists.mp hb.depth
  rw [placeOfFile, placeOfFile, Prod.Lex.toLex_lt_toLex, hd, hd'] at h
  rcases h with hdeep | ⟨hsame, hname⟩
  · have hdeep : depth' < depth := hdeep
    rw [compareRecords, hd, hd']
    simp only [if_pos (Nat.ne_of_gt hdeep)]
    exact Nat.compare_eq_lt.mpr hdeep
  · obtain rfl : depth = depth' := hsame
    rw [compareRecords_of_depth_eq hk ha hb hd hd', compare_lt_iff_lt]
    exact hname

theorem compareRecords_files (hk : o.key? = none) (ha : IsFileLine a) (hb : IsFileLine b) :
    compareRecords o a b = Ord.compare (placeOfFile a) (placeOfFile b) := by
  apply compareRecords_eq_compare (compareRecords_of_placeOfFile_lt hk ha hb)
    (compareRecords_of_placeOfFile_lt hk hb ha)
  intro h
  obtain ⟨depth, hd⟩ := Option.isSome_iff_exists.mp ha.depth
  obtain ⟨depth', hd'⟩ := Option.isSome_iff_exists.mp hb.depth
  rw [placeOfFile, placeOfFile, hd, hd'] at h
  obtain ⟨hdepth, hname⟩ := Prod.mk.inj (toLex.injective h)
  obtain rfl : depth = depth' := OrderDual.toDual.injective hdepth
  rw [compareRecords_of_depth_eq hk ha hb hd hd', compare_eq_iff_eq]
  exact hname

end

section
variable {c : Settings} {old new : List Record}

/-- Files in the order of the merge are found together if they are equally deep and of one name. -/
theorem keyed_files (hc : c.skipChildren = false) (hk : c.order.key? = none)
    (hfiles : ∀ r ∈ old ++ new, IsFileLine r) (ho : InOrder c.order old) (hn : InOrder c.order new) :
    Keyed placeOfFile old new (events c old new) := by
  have hsorted : ∀ {records : List Record}, (∀ r ∈ records, IsFileLine r) → InOrder c.order records →
      records.Pairwise fun x y => placeOfFile x < placeOfFile y := by
    intro records hall h
    refine h.imp_of_mem fun hx hy hlt => ?_
    rwa [compareRecords_files hk (hall _ hx) (hall _ hy), compare_lt_iff_lt] at hlt
  have hold : ∀ r ∈ old, IsFileLine r := fun r hr => hfiles r (List.mem_append_left _ hr)
  have hnew : ∀ r ∈ new, IsFileLine r := fun r hr => hfiles r (List.mem_append_right _ hr)
  apply keyed_events hc _ (hsorted hold ho) (hsorted hnew hn)
  intro us vs as bs a b hus hvs _ _
  apply compareRecords_files hk
  · exact hold a (hus ▸ List.mem_append_right _ List.mem_cons_self)
  · exact hnew b (hvs ▸ List.mem_append_right _ List.mem_cons_self)

theorem not_pair_mem_events_nil (hc : c.skipChildren = false) {x y : Record} :
    .pair x y ∉ events c old [] := by
  intro h
  have hy : y ∈ (events c old []).filterMap Event.new? := List.mem_filterMap.mpr ⟨_, h, rfl⟩
  rw [filterMap_new?_events hc] at hy
  cases hy

/-- A merge that finds a line together with itself, alone on the other side, has left all in front of
it behind. -/
theorem before_of_pair_mem (hc : c.skipChildren = false) {us as : List Record} {y : Record} (hy : y ∉ us)
    (h : .pair y y ∈ events c (us ++ y :: as) [y]) : ∀ u ∈ us, compareRecords c.order u y = .lt := by
  induction us with
  | nil => exact List.forall_mem_nil _
  | cons u us ih =>
    rw [List.mem_cons, not_or] at hy
    rw [List.cons_append] at h
    cases hcmp : compareRecords c.order u y with
    | lt =>
      rw [events_deletion hc (by simpa using hcmp)] at h
      have hrest := (List.mem_cons.mp h).resolve_left (by simp)
      exact List.forall_mem_cons.mpr ⟨hcmp, ih hy.2 hrest⟩
    | eq =>
      rw [events_pair hcmp] at h
      have hpair := (List.mem_cons.mp h).resolve_right (not_pair_mem_events_nil hc)
      exact absurd (Event.pair.inj hpair).1 hy.1
    | gt =>
      rw [events_addition hc (by simpa using hcmp)] at h
      have hrest := (List.mem_cons.mp h).resolve_left (by simp)
      exact absurd hrest (not_pair_mem_events_nil hc)

/-- A listing in which a merge finds every single line is in order. -/
theorem inOrder_of_found (hc : c.skipChildren = false) (hn : old.Nodup)
    (h : ∀ y ∈ old, .pair y y ∈ events c old [y]) : InOrder c.order old := by
  apply List.pairwise_iff_forall_sublist.mpr
  intro x y hs
  obtain ⟨front, back, rfl, hx, hy⟩ := List.cons_sublist_iff.mp hs
  obtain ⟨others, as, rfl⟩ := List.append_of_mem (List.singleton_sublist.mp hy)
  rw [← List.append_assoc] at h hn
  have hnot : y ∉ front ++ others := by
    intro hm
    exact (List.nodup_append.mp hn).2.2 y hm y List.mem_cons_self rfl
  have hfound := h y (List.mem_append_right _ List.mem_cons_self)
  exact before_of_pair_mem hc hnot hfound x (List.mem_append_left _ hx)

end

/-- What kinds of lines a walk has: those that are written, and an ellipsis only where a folder is too
deep. -/
theorem shows_of_mem_walk {l : Lister} {d : Disk} {folder base : Path}
    (hb : folder.absolute? d.cwd = some base) (ht : d.Tree DistinctNames (.root base))
    {records : List Record} (hw : l.walk d folder = .ok (records.map .ok)) :
    ∀ r ∈ records, l.shows r.kind = true ∧
      (r.kind = .ellipsis → ∃ depth, l.options.limits depth = true) := by
  obtain ⟨f, -, hmarks⟩ := exists_forest_of_walk hb ht hw
  intro r hr
  obtain ⟨m, hm, hk, -⟩ := hmarks r hr
  have hwritten := Lister.writes_folderMarks (by decide) (fun _ => rfl) Forest.writes_marks m hm
  rw [hk]
  exact ⟨hwritten.shown, fun he => ⟨_, hwritten.limited he⟩⟩

/-- A walk in a listing without folders has lines of files alone, each once, and they are told by the
names that lead there. -/
theorem file_lines_of_walk {o : Options} {r : Registry} {l : Lister}
    (hd : ∀ kind, LinePattern.given? o kind = none) (hf : o.showFolders = false) (hm : o.maxDepth = 0)
    (hk : o.sortKey? = none) (hr : r.TellsNames) (hl : Lister.compile o r = .ok l)
    {d : Disk} {folder base : Path} (hb : folder.absolute? d.cwd = some base)
    (ht : d.Tree DistinctNames (.root base)) {records : List Record}
    (hw : l.walk d folder = .ok (records.map .ok)) :
    records.Nodup ∧ ∀ x ∈ records, IsFileLine x ∧
      ∃ names, (∀ n ∈ names, Path.IsName n) ∧ x.path = .ofSegments names ∧
        x.depth? = some names.length ∧ x.name? = names.getLast? := by
  have hopt : l.options = o := Lister.options_eq hl
  have hshows : ∀ kind, l.shows kind = true → kind = .file ∨ kind = .ellipsis := by
    intro kind hs
    rw [Lister.shows, Lister.isSome_template?_of_usual hl hd] at hs
    cases kind <;> simp_all [LinePattern.usual?]
  have hlimits : ∀ depth, l.options.limits depth = false := by
    intro depth
    simp [hopt, Options.limits, hm]
  have hfile : ∀ x ∈ records, x.kind = .file := by
    intro x hx
    obtain ⟨hs, hdots⟩ := shows_of_mem_walk hb ht hw x hx
    apply (hshows _ hs).resolve_right
    intro he
    obtain ⟨depth, hl⟩ := hdots he
    rw [hlimits] at hl
    cases hl
  have hknown : ∀ x ∈ records, KnownIn records x.path.names := fun x hx => ⟨x, hx, rfl⟩
  obtain ⟨f, -, hwalked⟩ := exists_walked hl hr (SiblingOrder.byName_id (by rw [hopt]; exact hk)) hb ht hw
    (fun x hx he => absurd ((hfile x hx).symm.trans he) (by decide)) hknown
  refine ⟨hwalked.nodup_keys.of_map _, fun x hx => ?_⟩
  have hkind := hfile x hx
  rw [hwalked.records_eq] at hx
  obtain ⟨m, hm, rfl⟩ := List.mem_map.mp hx
  obtain ⟨hmade, hnames, -, -⟩ := hwalked.placed m hm
  have hne : m.names ≠ [] := by
    rcases Lister.mem_folderMarks hm with ⟨-, hown⟩ | hm
    · rw [← hmade.kind, hkind] at hown
      simp at hown
    · exact List.length_pos_iff.mp (Forest.deeper_of_mem_marks m hm)
  obtain ⟨before, n, hn⟩ := (List.eq_nil_or_concat' m.names).resolve_left hne
  have hname := hmade.name before n hn
  refine ⟨⟨hkind, by rw [hmade.depth]; rfl, by rw [hname]; rfl⟩, m.names, hnames, hmade.path, hmade.depth, ?_⟩
  rw [hname, hn, List.getLast?_concat]

/-- Where both walks are in the order of the merge, a file that both sides have is reported once, and with
its counterpart. Any walk out of that order is misreported already against a listing of one of its own
files. -/
theorem file_listings_compared_exactly {o : Options} {r : Registry} {l : Lister}
    (hd : ∀ kind, LinePattern.given? o kind = none) (hf : o.showFolders = false) (hm : o.maxDepth = 0)
    (hk : o.sortKey? = none) (hr : r.TellsNames) (hl : Lister.compile o r = .ok l)
    {d d' : Disk} {folder folder' base base' : Path} (hb : folder.absolute? d.cwd = some base)
    (hb' : folder'.absolute? d'.cwd = some base') (ht : d.Tree DistinctNames (.root base))
    (ht' : d'.Tree DistinctNames (.root base')) {old new : List Record}
    (hw : l.walk d folder = .ok (old.map .ok)) (hw' : l.walk d' folder' = .ok (new.map .ok))
    (namesOnly : Bool) :
    ∃ reported : List Event,
      results (run (settings l false namesOnly) (.ofSignals (old.map .record) (new.map .record)))
        = reported.map (·.answer (settings l false namesOnly)) ∧
      (InOrder o.order old → InOrder o.order new → ∀ x ∈ old, ∀ y ∈ new, x.path = y.path →
        reported.filter (fun e => e.old? = some x) = [.pair x y] ∧
          reported.filter (fun e => e.new? = some y) = [.pair x y]) ∧
      (InOrder o.order old ↔ ∀ y ∈ old, .pair y y ∈ events (settings l false namesOnly) old [y]) := by
  have horder : (settings l false namesOnly).order = o.order := by rw [settings, Lister.options_eq hl]
  obtain ⟨hnodup, hold⟩ := file_lines_of_walk hd hf hm hk hr hl hb ht hw
  obtain ⟨-, hnew⟩ := file_lines_of_walk hd hf hm hk hr hl hb' ht' hw'
  have hkey : (settings l false namesOnly).order.key? = none := by rw [horder]; exact hk
  refine ⟨_, results_run_records _ old new, ?_, ?_, ?_⟩
  · intro ho hn x hx y hy hpath
    have hkeyed : Keyed placeOfFile old new (events (settings l false namesOnly) old new) :=
      keyed_files rfl hkey (List.forall_mem_append.mpr ⟨fun r hr => (hold r hr).1, fun r hr => (hnew r hr).1⟩)
        (horder ▸ ho) (horder ▸ hn)
    have hplace : placeOfFile x = placeOfFile y := by
      obtain ⟨-, names, hnames, hp, hdepth, hname⟩ := hold x hx
      obtain ⟨-, names', hnames', hp', hdepth', hname'⟩ := hnew y hy
      have hsame : names = names' := (Path.ofSegments_inj hnames hnames').mp (hp ▸ hp' ▸ hpath)
      rw [placeOfFile, placeOfFile, hdepth, hname, hdepth', hname', hsame]
    have hpair := (hkeyed.pair_iff x y).mpr ⟨hx, hy, hplace⟩
    exact ⟨hkeyed.filter_old hpair rfl, hkeyed.filter_new hpair rfl⟩
  · intro ho y hy
    have hkeyed : Keyed placeOfFile old [y] (events (settings l false namesOnly) old [y]) :=
      keyed_files rfl hkey (List.forall_mem_append.mpr ⟨fun r hr => (hold r hr).1,
        List.forall_mem_singleton.mpr (hold y hy).1⟩) (horder ▸ ho) (List.pairwise_singleton _ _)
    exact (hkeyed.pair_iff y y).mpr ⟨hy, List.mem_singleton_self y, rfl⟩
  · intro hfound
    exact horder ▸ inOrder_of_found rfl hnodup hfound

def nestedFiles (entries : List (String × String)) : Disk :=
  .ofTable (("/t", entries.map Prod.fst) :: entries.map fun e => ("/t/" ++ e.1, [e.2]))
    (entries.map fun e => "/t/" ++ e.1 ++ "/" ++ e.2)

def nestedForest (entries : List (String × String)) : Forest :=
  entries.foldr (fun e rest => .folder e.1 (.file e.2 .nil) rest) .nil

def nestedLine (e : String × String) : Record :=
  ⟨.file, ⟨e.1 ++ "/" ++ e.2⟩, some 2, .ofList [("indent", "  "), ("name", e.2)]⟩

def filesAlone : Options := { showFolders := false, maxDepth := 0 }

theorem file_listings_compared_exactly_nestedFiles :
    ∃ (l : Lister) (reported : List Event), Lister.compile filesAlone .core = .ok l ∧
      l.walk (nestedFiles [("a", "x"), ("b", "y")]) ⟨"/t"⟩
        = .ok ([nestedLine ("a", "x"), nestedLine ("b", "y")].map .ok) ∧
      l.walk (nestedFiles [("b", "y")]) ⟨"/t"⟩ = .ok ([nestedLine ("b", "y")].map .ok) ∧
      results (run (settings l false true) (.ofSignals
          ([nestedLine ("a", "x"), nestedLine ("b", "y")].map .record) ([nestedLine ("b", "y")].map .record)))
        = reported.map (·.answer (settings l false true)) ∧
      reported.filter (fun e => e.old? = some (nestedLine ("b", "y")))
        = [.pair (nestedLine ("b", "y")) (nestedLine ("b", "y"))] := by
  obtain ⟨l, hl⟩ : ∃ l, Lister.compile filesAlone .core = .ok l := exists_eq_ok_of_isOk (by decide +kernel)
  have hw : l.walk (nestedFiles [("a", "x"), ("b", "y")]) ⟨"/t"⟩
      = .ok ([nestedLine ("a", "x"), nestedLine ("b", "y")].map .ok) :=
    walk_of_shown hl Path.absolute?_t (nestedForest [("a", "x"), ("b", "y")]) (by decide +kernel)
  have hw' : l.walk (nestedFiles [("b", "y")]) ⟨"/t"⟩ = .ok ([nestedLine ("b", "y")].map .ok) :=
    walk_of_shown hl Path.absolute?_t (nestedForest [("b", "y")]) (by decide +kernel)
  obtain ⟨reported, hresults, hfound, -⟩ := file_listings_compared_exactly (o := filesAlone)
    (fun kind => by cases kind <;> rfl) rfl rfl rfl Registry.tellsNames_core hl Path.absolute?_t Path.absolute?_t
    (Disk.tree_of_isTree 2 (by decide +kernel))
    (Disk.tree_of_isTree 2 (by decide +kernel)) hw hw' true
  refine ⟨l, reported, hl, hw, hw', hresults, ?_⟩
  exact (hfound (by decide +kernel) (by decide +kernel) _ (by simp) _ (by simp) rfl).1

/-- Of two equally deep files the one that is named first is taken first. If it is the only one on its
side, it is reported as added, and once more as deleted behind the other one. -/
theorem events_out_of_order {c : Settings} (ho : c.order = ⟨.filesFirst, none⟩) (hs : c.skipChildren = false) :
    events c [nestedLine ("a", "y"), nestedLine ("b", "x")] [nestedLine ("b", "x")]
      = [.addition (nestedLine ("b", "x")), .deletion (nestedLine ("a", "y")),
        .deletion (nestedLine ("b", "x"))] :=
  calc events c [nestedLine ("a", "y"), nestedLine ("b", "x")] [nestedLine ("b", "x")]
    _ = .addition (nestedLine ("b", "x")) :: events c [nestedLine ("a", "y"), nestedLine ("b", "x")] [] :=
      events_addition hs (by rw [ho]; decide) _
    _ = .addition (nestedLine ("b", "x")) :: .deletion (nestedLine ("a", "y")) ::
        events c [nestedLine ("b", "x")] [] := congrArg _ (events_deletion hs (by simp) _)
    _ = .addition (nestedLine ("b", "x")) :: .deletion (nestedLine ("a", "y")) ::
        .deletion (nestedLine ("b", "x")) :: events c [] [] :=
      congrArg (_ :: _ :: ·) (events_deletion hs (by simp) _)
    _ = _ := congrArg (_ :: _ :: _ :: ·) (events.eq_1 c)

theorem file_listings_misreported :
    ∃ l : Lister, Lister.compile filesAlone .core = .ok l ∧
      l.walk (nestedFiles [("a", "y"), ("b", "x")]) ⟨"/t"⟩
        = .ok ([nestedLine ("a", "y"), nestedLine ("b", "x")].map .ok) ∧
      l.walk (nestedFiles [("b", "x")]) ⟨"/t"⟩ = .ok ([nestedLine ("b", "x")].map .ok) ∧
      results (run (settings l false true) (.ofSignals
          ([nestedLine ("a", "y"), nestedLine ("b", "x")].map .record) ([nestedLine ("b", "x")].map .record)))
        = [.ok (addition (nestedLine ("b", "x"))), .ok (deletion (nestedLine ("a", "y"))),
          .ok (deletion (nestedLine ("b", "x")))] := by
  obtain ⟨l, hl⟩ : ∃ l, Lister.compile filesAlone .core = .ok l := exists_eq_ok_of_isOk (by decide +kernel)
  have hw : l.walk (nestedFiles [("a", "y"), ("b", "x")]) ⟨"/t"⟩
      = .ok ([nestedLine ("a", "y"), nestedLine ("b", "x")].map .ok) :=
    walk_of_shown hl Path.absolute?_t (nestedForest [("a", "y"), ("b", "x")]) (by decide +kernel)
  have hw' : l.walk (nestedFiles [("b", "x")]) ⟨"/t"⟩ = .ok ([nestedLine ("b", "x")].map .ok) :=
    walk_of_shown hl Path.absolute?_t (nestedForest [("b", "x")]) (by decide +kernel)
  have ho : (settings l false true).order = ⟨.filesFirst, none⟩ := by
    rw [settings, Lister.options_eq hl]
    rfl
  refine ⟨l, hl, hw, hw', ?_⟩
  rw [results_run_records, events_out_of_order ho rfl]
  rfl

end TreeListing.Comparison
