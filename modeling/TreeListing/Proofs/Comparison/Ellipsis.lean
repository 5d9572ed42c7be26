import TreeListing.Proofs.Comparison.Exactness

/-!
Walks that stop at a depth. The ellipsis of a folder stands where the folder does, but it counts as a
file: where files come first it goes by before the next folder, and the comparison is exact; where
folders come first a folder behind it can be reported as deleted and as added. The main statement is
`depth_limited_walks_compared_exactly`.
-/
namespace TreeListing.Comparison

/-- Two walks over finite trees that stop at any depth, with ellipses or without, are compared
exactly if no folder is skipped and files come first. -/
theorem depth_limited_walks_compared_exactly {o : Options} {r : Registry} {l : Lister}
    (hd : ∀ kind, LinePattern.given? o kind = none) (hf : o.showFolders = true)
    (hr : r.TellsNames) (hl : Lister.compile o r = .ok l) (hg : o.grouping = .filesFirst)
    {d d' : Disk} {folder folder' base base' : Path} (hb : folder.absolute? d.cwd = some base)
    (hb' : folder'.absolute? d'.cwd = some base') (ht : d.Tree DistinctNames (.root base))
    (ht' : d'.Tree DistinctNames (.root base')) {old new : List Record}
    (hw : l.walk d folder = .ok (old.map .ok)) (hw' : l.walk d' folder' = .ok (new.map .ok))
    (hk : o.sortKey? = none ∨ o.sortKey? = some SiblingOrder.ignoringCase ∧ NoCaseClash (old ++ new))
    (namesOnly : Bool) :
    ∃ events : List Event,
      results (run (settings l false namesOnly) (.ofSignals (old.map .record) (new.map .record)))
        = events.map (·.answer (settings l false namesOnly)) ∧
      Exact old new events ∧
      ∀ x y, .pair x y ∈ events → ((Event.pair x y).entry (settings l false namesOnly)).diff
        = if x.kind = .file ∧ namesOnly = false ∧ filesMatch x.props y.props = false
          then .changed else .kept := by
  refine ⟨_, results_run_records _ old new, ?_, ?_⟩
  · apply exact_events hd hf hr hl (by simp [hg]) hb hb' ht ht' hw hw' hk
    intro record _ _
    simp [hg]
  · intro x y _
    simp [Event.entry, aligned, settings]

def rootRecord : Record := ⟨.root, ⟨""⟩, some 0, .ofList [("indent", "")]⟩

def folderRecord (n : String) : Record := ⟨.folder, ⟨n⟩, some 1, .ofList [("indent", " "), ("name", n)]⟩

def dotsRecord (n : String) : Record := ⟨.ellipsis, ⟨n⟩, some 1, .ofList [("indent", " ")]⟩

/-- What a walk gives for folders that it does not enter. -/
def cutFolders (names : List String) : List Record :=
  rootRecord :: names.flatMap fun n => [folderRecord n, dotsRecord n]

theorem isName_a_b : ∀ n ∈ ["a", "b"], Path.IsName n := by
  intro n hn
  rcases List.mem_pair.mp hn with rfl | rfl <;> exact ⟨by decide, by decide, by decide, by decide⟩

theorem walks_cutFolders (grouping : Grouping) :
    ∃ l, Lister.compile { maxDepth := 1, showEllipsis := true, grouping := grouping } .core = .ok l ∧
      l.walk (.emptyFolders ["a", "b"]) ⟨"/t"⟩ = .ok ((cutFolders ["a", "b"]).map .ok) ∧
      l.walk (.emptyFolders ["b"]) ⟨"/t"⟩ = .ok ((cutFolders ["b"]).map .ok) := by
  obtain ⟨l, hl⟩ : ∃ l, Lister.compile { maxDepth := 1, showEllipsis := true, grouping := grouping } .core
      = .ok l := exists_eq_ok_of_isOk (by cases grouping <;> decide +kernel)
  refine ⟨l, hl, ?_, ?_⟩
  · exact walk_emptyFolders_of_compile hl isName_a_b (by cases grouping <;> decide +kernel)
  · exact walk_emptyFolders_of_compile hl (fun n hm => isName_a_b n (List.mem_cons_of_mem _ hm))
      (by cases grouping <;> decide +kernel)

theorem tree_emptyFolders_a_b {names : List String} (hs : ∀ n ∈ names, n ∈ ["a", "b"]) (hd : names.Nodup) :
    (Disk.emptyFolders names).Tree DistinctNames (.root ⟨"/t"⟩) := by
  have hn : ∀ n ∈ names, Path.IsName n := fun n hm => isName_a_b n (hs n hm)
  exact Disk.tree_emptyFolders hn ⟨hd, hn⟩ fun i => ⟨.nil, by simp⟩

theorem depth_limited_walks_compared_exactly_emptyFolders :
    ∃ (l : Lister) (events : List Event),
      Lister.compile { maxDepth := 1, showEllipsis := true } .core = .ok l ∧
      l.walk (.emptyFolders ["a", "b"]) ⟨"/t"⟩ = .ok ((cutFolders ["a", "b"]).map .ok) ∧
      l.walk (.emptyFolders ["b"]) ⟨"/t"⟩ = .ok ((cutFolders ["b"]).map .ok) ∧
      Exact (cutFolders ["a", "b"]) (cutFolders ["b"]) events := by
  obtain ⟨l, hl, hw, hw'⟩ := walks_cutFolders .filesFirst
  have hbase : Path.absolute? ⟨"/t"⟩ ⟨"/"⟩ = some ⟨"/t"⟩ := by decide +kernel
  obtain ⟨events, -, he, -⟩ := depth_limited_walks_compared_exactly (fun kind => by cases kind <;> rfl)
    rfl Registry.tellsNames_core hl rfl hbase hbase (tree_emptyFolders_a_b (by simp) (by decide))
    (tree_emptyFolders_a_b (by simp) (by decide)) hw hw' (.inl rfl) false
  exact ⟨l, events, hl, hw, hw', he⟩

/-- Where folders come first, the ellipsis of a deleted folder is behind the next folder of the other
side: that folder is reported as added, and as deleted once the ellipsis has gone by. -/
theorem events_cutFolders {c : Settings} (ho : c.order = ⟨.foldersFirst, none⟩)
    (hs : c.skipChildren = false) : events c (cutFolders ["a", "b"]) (cutFolders ["b"])
      = [.pair rootRecord rootRecord, .deletion (folderRecord "a"), .addition (folderRecord "b"),
        .deletion (dotsRecord "a"), .deletion (folderRecord "b"),
        .pair (dotsRecord "b") (dotsRecord "b")] := by
  calc events c (cutFolders ["a", "b"]) (cutFolders ["b"])
    _ = .pair rootRecord rootRecord ::
        events c [folderRecord "a", dotsRecord "a", folderRecord "b", dotsRecord "b"]
          [folderRecord "b", dotsRecord "b"] := events_pair (by rw [ho]; decide) _ _
    _ = .pair rootRecord rootRecord :: .deletion (folderRecord "a") ::
        events c [dotsRecord "a", folderRecord "b", dotsRecord "b"]
          [folderRecord "b", dotsRecord "b"] :=
      congrArg _ (events_deletion hs (by rw [ho]; decide) _)
    _ = .pair rootRecord rootRecord :: .deletion (folderRecord "a") :: .addition (folderRecord "b") ::
        events c [dotsRecord "a", folderRecord "b", dotsRecord "b"] [dotsRecord "b"] :=
      congrArg (_ :: _ :: ·) (events_addition hs (by rw [ho]; decide) _)
    _ = .pair rootRecord rootRecord :: .deletion (folderRecord "a") :: .addition (folderRecord "b") ::
        .deletion (dotsRecord "a") :: events c [folderRecord "b", dotsRecord "b"] [dotsRecord "b"] :=
      congrArg (_ :: _ :: _ :: ·) (events_deletion hs (by rw [ho]; decide) _)
    _ = .pair rootRecord rootRecord :: .deletion (folderRecord "a") :: .addition (folderRecord "b") ::
        .deletion (dotsRecord "a") :: .deletion (folderRecord "b") ::
        events c [dotsRecord "b"] [dotsRecord "b"] :=
      congrArg (_ :: _ :: _ :: _ :: ·) (events_deletion hs (by rw [ho]; decide) _)
    _ = _ := congrArg (_ :: _ :: _ :: _ :: _ :: ·)
        ((events_pair (by rw [ho]; decide) _ _).trans (congrArg _ (events.eq_1 c)))

theorem depth_limited_walks_misreported :
    ∃ (l : Lister) (events : List Event),
      Lister.compile { maxDepth := 1, showEllipsis := true, grouping := .foldersFirst } .core = .ok l ∧
      l.walk (.emptyFolders ["a", "b"]) ⟨"/t"⟩ = .ok ((cutFolders ["a", "b"]).map .ok) ∧
      l.walk (.emptyFolders ["b"]) ⟨"/t"⟩ = .ok ((cutFolders ["b"]).map .ok) ∧
      results (run (settings l false true) (.ofSignals ((cutFolders ["a", "b"]).map .record)
        ((cutFolders ["b"]).map .record))) = events.map (·.answer (settings l false true)) ∧
      .deletion (folderRecord "b") ∈ events ∧ .addition (folderRecord "b") ∈ events := by
  obtain ⟨l, hl, hw, hw'⟩ := walks_cutFolders .foldersFirst
  have ho : (settings l false true).order = ⟨.foldersFirst, none⟩ := by
    rw [settings, Lister.options_eq hl]
    rfl
  have hresults := results_run_records (settings l false true) (cutFolders ["a", "b"]) (cutFolders ["b"])
  rw [events_cutFolders ho rfl] at hresults
  exact ⟨l, _, hl, hw, hw', hresults, by decide, by decide⟩

end TreeListing.Comparison
