import TreeListing.Proofs.Replay.Line

/-!
Reading the lines of a walk back. By induction on the forest, the lines of the entries of a folder
give their records and leave the folder open; so the lines of one walk after the other are read.
-/
namespace TreeListing.Replay

variable {l : Lister} {a : Mark → Record} {s : State} {ms ns : List Mark} {names : List String}
  {P Q : State → Prop}

def readTexts (l : Lister) (s : State) : List String → List Signal × State
  | [] => ([], s)
  | text :: rest =>
    let (signals, s) := step l s text
    let (others, s) := readTexts l s rest
    (signals ++ others, s)

theorem readTexts_append (s : State) (texts others : List String) :
    readTexts l s (texts ++ others)
      = ((readTexts l s texts).1 ++ (readTexts l (readTexts l s texts).2 others).1,
        (readTexts l (readTexts l s texts).2 others).2) := by
  induction texts generalizing s with
  | nil => rfl
  | cons text texts ih => simp [readTexts, ih]

/-- The record can be read from its line, and is the one of the mark. -/
structure Legible (l : Lister) (m : Mark) (r : Record) : Prop where
  kind : r.kind = m.kind
  distinct : Distinct l r (l.line r)
  tells : Tells l m.names r
  isName : ∀ n ∈ m.names, Path.IsName n

/-- The lines of the marks give their records. -/
def Reads (l : Lister) (a : Mark → Record) (s : State) (ms : List Mark) (P : State → Prop) : Prop :=
  ∃ s', readTexts l s (ms.map fun m => l.line (a m)) = (ms.map fun m => .record (a m), s') ∧ P s'

theorem Reads.nil (h : P s) : Reads l a s [] P := ⟨s, rfl, h⟩

theorem Reads.append (h : Reads l a s ms Q) (k : ∀ s, Q s → Reads l a s ns P) :
    Reads l a s (ms ++ ns) P := by
  obtain ⟨s', hs, hq⟩ := h
  obtain ⟨s'', hs', hp⟩ := k s' hq
  refine ⟨s'', ?_, hp⟩
  rw [List.map_append, readTexts_append, hs]
  simp [hs']

theorem Recorded.reads {m : Mark} (h : Recorded l (l.line (a m)) (a m) s P) : Reads l a s [m] P := by
  obtain ⟨s', hs, hp⟩ := h
  exact ⟨s', by simp [readTexts, hs], hp⟩

theorem reads_marks {kind : Kind} (h : l.shows kind = true → Reads l a s [⟨kind, names⟩] P)
    (hn : l.shows kind = false → P s) : Reads l a s (l.marks kind names) P := by
  rw [Lister.marks]
  cases hs : l.shows kind with
  | true => exact h hs
  | false => exact .nil (hn hs)

/-- Between its start and its end a folder has its entries, or an ellipsis. -/
theorem reads_inner (hs : Opened l names s) {inner : List Mark}
    (hi : (∀ m ∈ inner, Legible l m (a m)) → ∀ s, Ready l names s → Reads l a s inner (Ready l names))
    (hm : ∀ m ∈ (if l.options.limits names.length then l.marks .ellipsis names else inner),
      Legible l m (a m)) :
    Reads l a s (if l.options.limits names.length then l.marks .ellipsis names else inner)
      (Ready l names) := by
  cases hl : l.options.limits names.length with
  | true =>
    rw [if_pos rfl]
    refine reads_marks (fun hshow => ?_) fun _ => hs.ready
    have h := hm ⟨.ellipsis, names⟩ (by rw [if_pos hl]; exact Lister.mem_marks.mpr ⟨hshow, rfl⟩)
    exact (recorded_ellipsis h.distinct h.tells h.kind hs).reads
  | false =>
    rw [hl, if_neg Bool.false_ne_true] at hm
    exact hi hm s hs.ready

theorem closesFolders_eq (l : Lister) : l.closesFolders = (l.shows .folder && l.shows .folderEnd) := rfl

/-- The lines of the entries of a folder give their records, and the folder stays open. -/
theorem reads_forest (hf : l.shows .folder = true) {f : Forest}
    (hm : ∀ m ∈ f.marks l names, Legible l m (a m)) (hs : Ready l names s) :
    Reads l a s (f.marks l names) (Ready l names) := by
  induction f generalizing names s with
  | nil => exact .nil hs
  | file n rest ih =>
    rw [Forest.marks, List.forall_mem_append] at hm
    refine (reads_marks (fun hshow => ?_) fun _ => hs).append fun s hs => ih hm.2 hs
    have h := hm.1 ⟨.file, names ++ [n]⟩ (Lister.mem_marks.mpr ⟨hshow, rfl⟩)
    exact (recorded_file h.distinct h.tells h.kind h.isName hs).reads
  | folder n inner rest ihi ihr =>
    rw [Forest.marks, List.forall_mem_append] at hm
    obtain ⟨hfolder, hrest⟩ := hm
    rw [Lister.folderMarks, List.forall_mem_append, List.forall_mem_append] at hfolder
    obtain ⟨⟨hopen, hinner⟩, hend⟩ := hfolder
    have hstart : Reads l a s (l.marks .folder (names ++ [n])) (Opened l (names ++ [n])) := by
      refine reads_marks (fun hshow => ?_) fun hshow => by simp [hf] at hshow
      have h := hopen ⟨.folder, names ++ [n]⟩ (Lister.mem_marks.mpr ⟨hshow, rfl⟩)
      exact (recorded_folder h.distinct h.tells h.kind h.isName hs).reads
    have hin : ∀ s, Opened l (names ++ [n]) s → Reads l a s _ (Ready l (names ++ [n])) :=
      fun s hs => reads_inner hs (fun hm s hs => ihi hm hs) hinner
    have hclose : ∀ s, Ready l (names ++ [n]) s →
        Reads l a s (l.marks .folderEnd (names ++ [n])) (Ready l names) := by
      intro s hs
      refine reads_marks (fun hshow => ?_) fun hshow => ?_
      · have h := hend ⟨.folderEnd, names ++ [n]⟩ (Lister.mem_marks.mpr ⟨hshow, rfl⟩)
        exact (recorded_folderEnd h.distinct h.tells h.kind hs).reads
      · have hl : l.closesFolders = false := by simp [closesFolders_eq, hshow]
        exact ⟨(List.prefix_append names [n]).trans hs.parents, hs.rootSeen, by rw [hs.open?, hl]; rfl⟩
    exact ((hstart.append hin).append hclose).append fun s hs => ihr hrest hs

/-- The lines of a walk give its records, and another walk can follow. -/
theorem reads_walk (hf : l.shows .folder = true) (hr : l.shows .root = true) {f : Forest}
    (hm : ∀ m ∈ l.folderMarks .root [] (f.marks l []), Legible l m (a m)) (hs : Fresh l s) :
    Reads l a s (l.folderMarks .root [] (f.marks l [])) (Fresh l) := by
  rw [Lister.folderMarks] at hm ⊢
  rw [List.forall_mem_append, List.forall_mem_append] at hm
  obtain ⟨⟨hopen, hinner⟩, hend⟩ := hm
  have hstart : Reads l a s (l.marks .root []) (Opened l []) := by
    refine reads_marks (fun hshow => ?_) fun hshow => by simp [hr] at hshow
    have h := hopen ⟨.root, []⟩ (Lister.mem_marks.mpr ⟨hshow, rfl⟩)
    exact (recorded_root h.distinct.own h.tells h.kind hs).reads
  have hin : ∀ s, Opened l [] s → Reads l a s _ (Ready l []) :=
    fun s hs => reads_inner hs (fun hm s hs => reads_forest hf hm hs) hinner
  refine (hstart.append hin).append fun s hs => ?_
  refine reads_marks (fun hshow => ?_) fun hshow => ?_
  · have h := hend ⟨.folderEnd, []⟩ (Lister.mem_marks.mpr ⟨hshow, rfl⟩)
    exact (recorded_rootEnd h.distinct h.tells h.kind hs).reads
  · have hl : l.closesFolders = false := by simp [closesFolders_eq, hshow]
    exact ⟨by rw [hs.open?, hl]; rfl, fun _ h => by simp [hl] at h⟩

end TreeListing.Replay
