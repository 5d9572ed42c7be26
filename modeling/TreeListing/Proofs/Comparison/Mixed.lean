import TreeListing.Proofs.Comparison.Collapse
import TreeListing.Proofs.Comparison.Keyed
import TreeListing.Proofs.Comparison.Place

/-!
A merge of two walks in mixed grouping. Both come in the order of their places, so the merge finds
together what has one place on both sides: lines of one path, and of one kind unless they are a file and a
folder. The main statements are `keyed_mixed` and `Arranged.alike`.
-/
namespace TreeListing.Comparison

/-- What is known of the marks of a walk that no depth ends. -/
structure Arranged (o : SiblingOrder) (known : List String → Prop) (a : Mark → Record) (ms : List Mark) :
    Prop extends Told o known a ms where
  plain : ∀ m ∈ ms, m.kind ≠ .ellipsis
  /-- the first lines of all folders on the way to a line are there -/
  opens : Opens 0 ms
  root : ∀ m ∈ ms, m.kind = .root → m.names = []
  /-- the folder that is listed has no other lines of its own -/
  outer : ∀ m ∈ ms, m.names = [] → m.kind = .root ∨ m.kind = .folderEnd
  /-- there is an order of places only where files and folders are mixed -/
  sorted : o.grouping = .mixed → ms.Pairwise fun m m' => m.place < m'.place

/-- Entries in mixed grouping come in the order of their names. -/
theorem pairwise_names_of_mixed {l : Lister} (hg : l.options.order.grouping = .mixed)
    {heads : List (Bool × String)} (h : Ordered l id heads) : heads.Pairwise fun a b => a.2 < b.2 := by
  refine h.sorted.imp fun {a b} hab => ?_
  have hle := hab.1
  rw [SiblingOrder.compareHeads, hg] at hle
  have hcompare : (Ord.compare a.2 b.2).isLE = true := hle
  rcases lt_trichotomy a.2 b.2 with hlt | he | hgt
  · exact hlt
  · exact absurd he hab.2
  · rw [compare_gt_iff_gt.mpr hgt] at hcompare
    cases hcompare

theorem exists_arranged {o : Options} {r : Registry} {l : Lister}
    (hd : ∀ kind, LinePattern.given? o kind = none) (hf : o.showFolders = true)
    (hr : r.TellsNames) (hl : Lister.compile o r = .ok l) (hk : l.options.order.ByName id)
    {d : Disk} {folder base : Path} (hb : folder.absolute? d.cwd = some base)
    (ht : d.Tree DistinctNames (.root base)) {records : List Record}
    (hw : l.walk d folder = .ok (records.map .ok)) (hdots : ∀ r ∈ records, r.kind ≠ .ellipsis)
    {known : List String → Prop} (hknown : ∀ r ∈ records, known r.path.names) :
    ∃ a ms, records = ms.map a ∧ Arranged l.options.order known a ms := by
  obtain ⟨f, hordered, hwalked⟩ := exists_walked hl hr hk hb ht hw
    (fun r hr he => absurd he (hdots r hr)) hknown
  have hfolder := shows_of_showFolders hl hd hf (.inl rfl)
  have hwritten : ∀ m ∈ l.folderMarks .root [] (f.marks l []), l.Writes m :=
    Lister.writes_folderMarks (by decide) (fun _ => rfl) Forest.writes_marks
  have hplain : ∀ m ∈ l.folderMarks .root [] (f.marks l []), m.kind ≠ .ellipsis := by
    intro m hm he
    have hrecord : l.recordAt d base m ∈ records := hwalked.records_eq ▸ List.mem_map_of_mem hm
    exact hdots _ hrecord ((hwalked.placed m hm).made.kind.trans he)
  refine ⟨_, _, hwalked.records_eq, told_of_walked hfolder hordered hwalked, hplain, ?_,
    fun m hm => (hwritten m hm).root, ?_, ?_⟩
  · exact opens_folderMarks (shows_of_showFolders hl hd hf (.inr rfl)) rfl (opens_marks hfolder) fun m _ => List.nil_prefix
  · intro m hm hnil
    rcases Lister.mem_folderMarks hm with ⟨-, hown⟩ | hinner
    · exact hown.imp_right fun hown => hown.resolve_left (hplain m hm)
    · exact absurd hnil (List.length_pos_iff.mp (Forest.deeper_of_mem_marks m hinner))
  · intro hg
    apply pairwise_folderMarks rfl
    · exact pairwise_place (hordered.imp fun _ _ h => pairwise_names_of_mixed hg h)
    · intro m hm
      obtain ⟨head, -, more, hn, -⟩ := Forest.mem_marks hm
      exact ⟨head.2, more, hn⟩

section
variable {o : SiblingOrder} {known : List String → Prop} {a b : Mark → Record} {ms ns : List Mark}
  {old new : List Record}

def placeOfRecord (r : Record) : List (WithTop String) := (Mark.mk r.kind r.path.names).place

theorem placeOfRecord_eq {m : Mark} (h : Placed o known a m) : placeOfRecord (a m) = m.place := by
  rw [placeOfRecord, h.made.kind, h.made.path, Path.names_ofSegments h.isName]

theorem Arranged.pairwise (h : Arranged o known a ms) (hg : o.grouping = .mixed) :
    (ms.map a).Pairwise fun x y => placeOfRecord x < placeOfRecord y := by
  refine List.pairwise_map.mpr ((h.sorted hg).imp_of_mem fun hm hm' hlt => ?_)
  rwa [placeOfRecord_eq (h.placed _ hm), placeOfRecord_eq (h.placed _ hm')]

theorem Arranged.isFolderLike (h : Arranged o known a ms) {m : Mark} (hm : m ∈ ms) (hn : m.names = []) :
    m.kind.isFolderLike = true := by
  rcases h.outer m hm hn with hk | hk
  · rw [hk]
    rfl
  · rw [hk]
    rfl

/-- The folders on the way to the next line of a side have been taken before, so their places are in
front of what the other side comes to. -/
theorem Arranged.opened (h : Arranged o known b ns) (hg : o.grouping = .mixed) {m : Mark} (hm : m ∈ ns)
    {vs bs : List Record} (hs : ns.map b = vs ++ b m :: bs) {k : List (WithTop String)}
    (hv : ∀ v ∈ vs, placeOfRecord v < k) {p s : List (WithTop String)} {z : WithTop String}
    (hp : m.place = p ++ z :: s) : p < k := by
  obtain ⟨names, hprefix, hne, hplace⟩ := Mark.exists_opening_of_place_eq hp
  have hopening := h.opens m hm names hprefix (Nat.zero_le _) hne
  have hrecord := placeOfRecord_eq (h.placed _ hopening)
  rw [hplace] at hrecord
  have hmem : b (Mark.opening names) ∈ vs ++ b m :: bs := hs ▸ List.mem_map_of_mem hopening
  have hbefore : placeOfRecord (b (Mark.opening names)) < placeOfRecord (b m) := by
    rw [hrecord, placeOfRecord_eq (h.placed m hm), hp]
    exact lt_append_cons p z s
  rcases List.mem_append.mp hmem with hmem | hmem
  · exact hrecord ▸ hv _ hmem
  · rcases List.mem_cons.mp hmem with he | hmem
    · rw [he] at hbefore
      exact absurd hbefore (lt_irrefl _)
    · exact absurd hbefore (lt_asymm (key_lt_of_mem hs (h.pairwise hg) _ hmem))

/-- In mixed grouping a merge of two walks finds together what has one place. -/
theorem keyed_mixed {c : Settings} (hc : c.skipChildren = false) (ho : c.order.ByName id)
    (hg : c.order.grouping = .mixed) (h : Arranged c.order known a ms) (h' : Arranged c.order known b ns)
    (hold : old = ms.map a) (hnew : new = ns.map b) :
    Keyed placeOfRecord old new (events c old new) := by
  subst hold hnew
  apply keyed_events hc _ (h.pairwise hg) (h'.pairwise hg)
  intro us vs as bs x y hs hs' hu hv
  have hx : x ∈ ms.map a := hs ▸ List.mem_append_right us List.mem_cons_self
  have hy : y ∈ ns.map b := hs' ▸ List.mem_append_right vs List.mem_cons_self
  obtain ⟨m, hm, rfl⟩ := List.mem_map.mp hx
  obtain ⟨m', hm', rfl⟩ := List.mem_map.mp hy
  have hp := h.placed m hm
  have hp' := h'.placed m' hm'
  have hplace := placeOfRecord_eq hp
  have hplace' := placeOfRecord_eq hp'
  apply compareRecords_eq_compare
  · intro hlt
    rw [hplace, hplace'] at hlt
    apply compareRecords_of_place_lt ho hg hp.made hp'.made hp.isName hp'.isName (h.plain m hm)
      (h'.plain m' hm') hlt
    exact fun p z s he => hplace ▸ h'.opened hg hm' hs' hv he
  · intro hgt
    rw [hplace, hplace'] at hgt
    apply compareRecords_of_place_lt ho hg hp'.made hp.made hp'.isName hp.isName (h'.plain m' hm')
      (h.plain m hm) hgt
    exact fun p z s he => hplace' ▸ h.opened hg hm hs hu he
  · intro he
    rw [hplace, hplace'] at he
    exact compareRecords_of_place_eq ho hg hp.made hp'.made hp.isName (h.plain m hm) (h'.plain m' hm')
      (h.isFolderLike hm) (h'.isFolderLike hm') he

theorem Arranged.kind_cases (h : Arranged o known a ms) {m : Mark} (hm : m ∈ ms) :
    m.kind = .folderEnd ∨ m.kind = .root ∧ m.names = [] ∨
      (m.kind = .file ∨ m.kind = .folder) ∧ m.names ≠ [] := by
  by_cases hn : m.names = []
  · exact (h.outer m hm hn).symm.imp_right fun hk => .inl ⟨hk, hn⟩
  · cases hk : m.kind with
    | file => exact .inr (.inr ⟨.inl rfl, hn⟩)
    | folder => exact .inr (.inr ⟨.inr rfl, hn⟩)
    | folderEnd => exact .inl rfl
    | root => exact absurd (h.root m hm hk) hn
    | ellipsis => exact absurd hk (h.plain m hm)

/-- Lines of one place are of one path, and of one kind unless they are a file and a folder. -/
theorem Arranged.alike (h : Arranged o known a ms) (h' : Arranged o known b ns) {m m' : Mark} (hm : m ∈ ms)
    (hm' : m' ∈ ns) (he : m.place = m'.place) : m.names = m'.names ∧ (m.kind = m'.kind ∨
      m.kind = .file ∧ m'.kind = .folder ∨ m.kind = .folder ∧ m'.kind = .file) := by
  obtain ⟨hn, hend⟩ := Mark.names_eq_of_place_eq (h.plain m hm) (h'.plain m' hm') he
  refine ⟨hn, ?_⟩
  rcases h.kind_cases hm with hk | ⟨hk, hnil⟩ | ⟨hk, hne⟩
  · exact .inl (hk.trans (hend.mp hk).symm)
  · rcases h'.kind_cases hm' with hk' | ⟨hk', -⟩ | ⟨-, hne'⟩
    · exact .inl ((hend.mpr hk').trans hk'.symm)
    · exact .inl (hk.trans hk'.symm)
    · exact absurd (hn ▸ hnil) hne'
  · rcases h'.kind_cases hm' with hk' | ⟨-, hnil'⟩ | ⟨hk', -⟩
    · exact .inl ((hend.mpr hk').trans hk'.symm)
    · exact absurd (hn.trans hnil') hne
    · rcases hk with hk | hk <;> rcases hk' with hk' | hk' <;> simp [hk, hk']

end

end TreeListing.Comparison
