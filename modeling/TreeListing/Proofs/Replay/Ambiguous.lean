import TreeListing.Proofs.Listing
import TreeListing.Proofs.Neighbours
import TreeListing.Proofs.Replay.Opened
import TreeListing.Proofs.Replay.Padded
import TreeListing.Proofs.Table

/-!
Files that are called as an ellipsis looks. Such a line is read as an ellipsis just where one could stand:
when the start of a folder at the depth of the line was read last. In a listing this takes an empty folder
and a file behind it, and no order that has files first brings them together.
-/
namespace TreeListing.Replay

open LinePattern (names)

variable {o : Options} {l : Lister} {d : Disk} {r b : Record} {m : Mark} {p : Props} {s : State}
  {text : String}

theorem ReadFrom.isSome_depth? (h : Padded o) (hl : Lister.compile o .core = .ok l) (hr : ReadFrom l text r)
    (hk : r.kind = .folder) : r.depth?.isSome = true := by
  refine hr.known (Props.get?_eq_none fun hm => ?_)
  obtain ⟨u, x, -, hf⟩ := exists_found h hl hr.line
  rw [hf.names, hk] at hm
  rcases LinePattern.mem_names hm with ⟨-, hm⟩ | hm | ⟨hm, -⟩ | ⟨-, hm⟩
  · exact absurd hm (by decide)
  · exact absurd hm (by decide)
  · rw [h.name] at hm
    exact absurd hm (by decide)
  · cases hm

theorem isSome_name? {kind : Kind} (h : Padded o) (hk : kind = .file ∨ kind = .folder)
    (hp : p.names = names o kind) : p.name?.isSome = true := by
  have hm : "name" ∈ p.names := hp ▸ LinePattern.name_mem_names hk (by rw [h.name]; rfl)
  obtain ⟨value, hv⟩ := Option.isSome_iff_exists.mp (Props.contains_iff.mpr hm)
  rw [Props.name?, hv]
  rfl

namespace Written

theorem root?_eq_none (h : Padded o) (hw : Written o l d r m) (hk : r.kind = .file ∨ r.kind = .ellipsis) :
    root? l s (l.line r) = none := by
  rw [root?, hw.match?_bracket h (.inr rfl) hk]
  rfl

/-- A line that is classified, and has a name if one is needed, gives a record at the depth that is read. -/
theorem reads_classified (hw : Written o l d r m) {kind : Kind} {warnings : List Warning}
    (hc : classify l { s with line := s.line + 1 } text = (some (kind, p), warnings)) (hk : kind ≠ .root)
    (hdepth : depthOf l p = r.depth?) (hn : p.name?.isSome = true ∨ kind.isFolderMarker = true) :
    ∃ r', (step l s text).1.filterMap Signal.record? = [r'] ∧ r'.kind = kind ∧ r'.depth? = r.depth? := by
  have hknown : (depthOf l p).isSome = true := by
    rw [hdepth, hw.depth?_eq]
    rfl
  obtain ⟨path, hrecord⟩ := exists_record_of_classify hc (.inr hknown) hn
  exact ⟨_, hrecord, rfl, (if_neg hk).trans hdepth⟩

/-- A line that can be that of an ellipsis is one behind a folder at its depth. -/
theorem reads_ellipsis (h : Padded o) (hw : Written o l d r m) (hk : r.kind = .file ∨ r.kind = .ellipsis)
    (hline : LooksLikeEllipsis l r) (hs : s.opened? = some r.depth?) :
    ∃ r', (step l s (l.line r)).1.filterMap Signal.record? = [r'] ∧ r'.kind = .ellipsis ∧
      r'.depth? = r.depth? := by
  obtain ⟨p, hm⟩ := Option.isSome_iff_exists.mp ((hw.isSome_match?_ellipsis h).mpr hline)
  obtain ⟨-, hdepth⟩ := hw.found h hm (.inr (.inr rfl))
  have hellipsis : ellipsis? l { s with line := s.line + 1 } (l.line r) = some p := by
    rw [ellipsis?, hs, Option.bind_some, hm, Option.filter_some_pos]
    simp [hdepth]
  have hc : classify l { s with line := s.line + 1 } (l.line r) = (some (.ellipsis, p), []) := by
    rw [classify, hw.root?_eq_none h hk, hellipsis]
  exact hw.reads_classified hc (by decide) hdepth (.inr rfl)

/-- Anywhere else the line of a file is that of a file. -/
theorem reads_file (h : Padded o) (hw : Written o l d r m) (hk : r.kind = .file) (hs : s.opened? ≠ some none)
    (hother : LooksLikeEllipsis l r → s.opened? ≠ some r.depth?) :
    ∃ r', (step l s (l.line r)).1.filterMap Signal.record? = [r'] ∧ r'.kind = .file ∧
      r'.depth? = r.depth? := by
  obtain ⟨p, hm, hnames, hdepth⟩ := hw.exists_match h (.inl hk)
  rw [hk] at hm hnames
  have hellipsis : ellipsis? l { s with line := s.line + 1 } (l.line r) = none := by
    rw [ellipsis?, Option.bind_eq_none_iff]
    intro folderDepth? hopened
    rw [Option.filter_eq_none_iff]
    intro q hq
    obtain ⟨-, hqdepth⟩ := hw.found h hq (.inr (.inr rfl))
    have hline := (hw.isSome_match?_ellipsis h).mp (Option.isSome_iff_exists.mpr ⟨q, hq⟩)
    have hne : folderDepth? ≠ r.depth? := fun he => hother hline (he ▸ hopened)
    have hnone : folderDepth? ≠ none := fun he => hs (he ▸ hopened)
    simp only [hqdepth, Bool.or_eq_true, decide_eq_true_eq, not_or]
    exact ⟨⟨by simp [hw.depth?_eq], hnone⟩, hne.symm⟩
  have hfolder : ∀ other ∈ [Kind.folder], match? l other (l.line r) = none :=
    List.forall_mem_singleton.mpr (hw.match?_bracket h (.inl rfl) (.inl hk))
  have htried : Kind.tried = [.folder] ++ .file :: [.folderEnd, .ellipsis] := rfl
  obtain ⟨warnings, hc⟩ := classify_tried (hw.root?_eq_none h (.inl hk)) hellipsis htried hfolder hm
  exact hw.reads_classified hc (by decide) hdepth (.inl (isSome_name? h (.inl rfl) hnames))

/-- The line of a folder gives a record wherever it stands, of a folder if it cannot be that of a root. -/
theorem reads_folder (h : Padded o) (hw : Written o l d r m) (hk : r.kind = .folder) (s : State) :
    ∃ r', (step l s (l.line r)).1.filterMap Signal.record? = [r'] ∧
      (match? l .root (l.line r) = none → r'.kind = .folder ∧ r'.depth? = r.depth?) := by
  obtain ⟨p, hm, hnames, hdepth⟩ := hw.exists_match h (.inr hk)
  rw [hk] at hm hnames
  cases hroot : root? l { s with line := s.line + 1 } (l.line r) with
  | some q =>
    have hc : classify l { s with line := s.line + 1 } (l.line r) = (some (.root, q), []) := by
      rw [classify, hroot]
    obtain ⟨path, hrecord⟩ := exists_record_of_classify hc (.inl rfl) (.inr rfl)
    refine ⟨_, hrecord, fun hnone => ?_⟩
    rw [root?, hnone] at hroot
    cases hroot
  | none =>
    have hellipsis : ellipsis? l { s with line := s.line + 1 } (l.line r) = none := by
      rw [ellipsis?, hw.match?_ellipsis h (.inl hk)]
      cases s.opened? <;> rfl
    have htried : Kind.tried = [] ++ .folder :: [.file, .folderEnd, .ellipsis] := rfl
    obtain ⟨warnings, hc⟩ := classify_tried hroot hellipsis htried (List.forall_mem_nil _) hm
    obtain ⟨r', hr', hkind, hdepth'⟩ :=
      hw.reads_classified hc (by decide) hdepth (.inl (isSome_name? h (.inr rfl) hnames))
    exact ⟨r', hr', fun _ => ⟨hkind, hdepth'⟩⟩

theorem folder_of_readFrom (h : Padded o) (hw : Written o l d r m) {q : Record}
    (hq : ReadFrom l (l.line r) q) (hk : q.kind = .folder) :
    (r.kind = .folder ∨ r.kind = .root) ∧ q.depth? = r.depth? := by
  have hline := hq.line
  rw [hk] at hline
  refine ⟨?_, ?_⟩
  · have hplain : ¬ (r.kind = .file ∨ r.kind = .ellipsis) := fun hr => by
      rw [hw.match?_bracket h (.inl rfl) hr] at hline
      cases hline
    rcases hw.kind_cases h with hr | hr | hr
    · exact absurd (.inl hr) hplain
    · exact absurd (.inr hr) hplain
    · exact hr
  · obtain ⟨-, hdepth⟩ := hw.found h hline (.inl rfl)
    rw [hw.depth?_eq] at hdepth ⊢
    exact hq.depth (by simp [hk]) _ hdepth

end Written

/-- The records are those of walks, one after the other. -/
structure Listed (o : Options) (l : Lister) (d : Disk) (records : List Record) : Prop where
  written : ∀ r ∈ records, ∃ m, Written o l d r m
  follows : o.showFolders = true → (records.map Record.outline).IsChain (Outline.Follows o.grouping)
  head : o.showFolders = true → ∀ r ∈ records.head?, r.kind = .root

theorem Listed.append {records others : List Record} (h : Listed o l d records) (k : Listed o l d others) :
    Listed o l d (records ++ others) where
  written := List.forall_mem_append.mpr ⟨h.written, k.written⟩
  follows hf := by
    rw [List.map_append]
    refine (h.follows hf).append (k.follows hf) fun b _ m hm => ?_
    rw [List.head?_map, Option.mem_def, Option.map_eq_some_iff] at hm
    obtain ⟨r, hr, rfl⟩ := hm
    have hroot : r.outline.kind = .root := k.head hf r hr
    exact Outline.follows_of_kind (by simp [hroot]) fun he => by simp [hroot] at he
  head hf r hr := by
    rw [List.head?_append, Option.mem_def, Option.or_eq_some_iff] at hr
    rcases hr with hr | ⟨-, hr⟩
    · exact h.head hf r hr
    · exact k.head hf r hr

theorem Listed.flatten {walks : List (List Record)} (h : ∀ records ∈ walks, Listed o l d records) :
    Listed o l d walks.flatten := by
  induction walks with
  | nil => exact ⟨List.forall_mem_nil _, fun _ => .nil, fun _ => nofun⟩
  | cons records walks ih =>
    rw [List.forall_mem_cons] at h
    exact h.1.append (ih h.2)

/-- A walk through a tree of entries with good names comes to an end, and gives listed records. -/
theorem listed_walk (h : Padded o) (hl : Lister.compile o .core = .ok l) {folder base : Path}
    (hb : folder.absolute? d.cwd = some base) (ht : d.Tree (d.Ordinary o IsUnpadded) (.root base))
    {records : List Record} (hw : l.walk d folder = .ok (records.map .ok))
    (hdeep : ∀ r ∈ records, ∀ depth, r.depth? = some depth → depth + o.startLevel ≤ Text.maxWord) :
    Listing.Walked l d folder records ∧ Listed o l d records := by
  obtain ⟨f, hs, hlisted⟩ := ht.exists_listed l
  have hwalked := Listing.walked_of_walk hb hs hw
  obtain ⟨rfl, hmade⟩ := walk_eq_marks hb hs hw
  have houtline : ∀ m ∈ l.folderMarks .root [] (f.marks l []), (l.recordAt d base m).outline = m.outline := by
    intro m hm
    obtain ⟨t, p, -, -, he⟩ := Lister.record?_eq_some (hmade m hm)
    rw [he]
    rfl
  have hshows : ∀ kind, (LinePattern.usual? o kind).isSome = true → l.shows kind = true := fun kind hk =>
    (Lister.isSome_template?_of_usual hl h.given kind).trans hk
  have hchain : o.showFolders = true → _ := fun hf =>
    Forest.isChain_root (hshows .root (by simp [LinePattern.usual?, hf]))
      (hshows .folder (by simp [LinePattern.usual?, hf])) hs
  refine ⟨hwalked, fun r hr => ?_, fun hf => ?_, fun hf r hr => ?_⟩
  · obtain ⟨m, hm, rfl⟩ := List.mem_map.mp hr
    refine ⟨m, hl, ⟨base, hlisted m hm, hmade m hm⟩, hdeep _ hr _ ?_⟩
    exact congrArg Outline.depth? (houtline m hm)
  · have hsame : (l.folderMarks .root [] (f.marks l [])).map (Record.outline ∘ l.recordAt d base)
        = (l.folderMarks .root [] (f.marks l [])).map Mark.outline := List.map_congr_left houtline
    rw [List.map_map, hsame, List.isChain_map]
    exact Lister.options_eq hl ▸ (hchain hf).2
  · rw [List.head?_map, (hchain hf).1] at hr
    obtain rfl := Option.some.inj hr
    exact congrArg Outline.kind (houtline _ (List.mem_of_mem_head? (hchain hf).1))

/-- The text of a listing as far as these records. -/
def textOf (l : Lister) (records : List Record) : String :=
  l.options.header ++ String.join (records.map l.line)

/-- What the text of a listing holds as far as these records. -/
def signalsOf (l : Lister) (records : List Record) : List Signal := l.replay (Text.encode (textOf l records))

theorem encode_textOf (l : Lister) (records : List Record) :
    Text.encode (textOf l records) = Text.encode l.options.header ++ l.bytes records := by
  rw [textOf, Text.encode_append, Text.encode_join, Lister.bytes]

theorem exists_written {folders : List Path} {walks : List (List Record)}
    (h : List.Forall₂ (Listing.Walked l d) folders walks) :
    ∃ s, Listing.write .memory l folders ⟨d, #[]⟩ = (.ok walks.flatten.length, s) ∧
      s.written.toList = Text.encode (textOf l walks.flatten ++ l.options.footer) := by
  obtain ⟨s, hwrite, hbytes⟩ := Listing.write_memory h
  exact ⟨s, hwrite, by rw [hbytes, Text.encode_append, encode_textOf]⟩

theorem textOf_concat (l : Lister) (records : List Record) (r : Record) :
    textOf l (records ++ [r]) = textOf l records ++ l.line r := by
  simp [textOf, String.append_assoc]

theorem Listed.isLines {records before after : List Record} (hd : Listed o l d records) (h : Padded o)
    (hl : Lister.compile o .core = .ok l) (hh : o.showFolders = true ∨ IsLines o.header)
    (he : records = before ++ r :: after) (hr : r.kind ≠ .root) : IsLines (textOf l before) := by
  cases before using List.reverseRecOn with
  | nil =>
    have hheader : IsLines o.header := hh.resolve_left fun hf =>
      hr (hd.head hf r (by rw [he]; rfl))
    simpa [textOf, Lister.options_eq hl] using hheader
  | append_singleton before b =>
    obtain ⟨m, hb⟩ := hd.written b (by simp [he])
    obtain ⟨front, hline⟩ := hb.exists_front h
    obtain ⟨final, hend, -⟩ := h.newline
    rw [textOf_concat, hline, hend]
    exact .inr ⟨textOf l before ++ (front ++ final), by simp only [String.append_assoc]⟩

theorem Listed.next {records before after : List Record} (hd : Listed o l d records)
    (hf : o.showFolders = true) (he : records = before ++ b :: r :: after) :
    b.outline.Follows o.grouping r.outline := by
  have hchain := hd.follows hf
  rw [he, List.map_append, List.map_cons, List.map_cons, List.isChain_append_cons_cons] at hchain
  exact hchain.2.1

/-- The line of a record is read in the state that everything before it leaves. -/
theorem Written.exists_step (h : Padded o) (hw : Written o l d r m) (hk : r.kind ≠ .root)
    {before : List Record} (hlines : IsLines (textOf l before)) :
    ∃ s : State, LeftBy l (signalsOf l before) s ∧
      signalsOf l (before ++ [r]) = signalsOf l before ++ (step l s (l.line r)).1 ∧
      ∀ rest, ∃ others, l.replay (Text.encode (textOf l (before ++ [r])) ++ rest)
        = signalsOf l (before ++ [r]) ++ others := by
  obtain ⟨s, hs, hread⟩ := exists_state l hlines
  have hall : ∀ rest, l.replay (Text.encode (textOf l (before ++ [r])) ++ rest)
      = signalsOf l before ++ (step l s (l.line r)).1
        ++ readLines l (step l s (l.line r)).2 (linesFrom [] rest) := by
    intro rest
    have hnewline : terminated l.options.newline (l.line r) = l.line r := by
      rw [Lister.options_eq hw.compiled, hw.terminated_line h]
    rw [textOf_concat, Text.encode_append, List.append_assoc, hread, readLines_line l s (hw.isLine h hk),
      hnewline, List.append_assoc]
    rfl
  have hown : signalsOf l (before ++ [r]) = signalsOf l before ++ (step l s (l.line r)).1 := by
    have hread := hall []
    rwa [List.append_nil, linesFrom, if_pos rfl, readLines, List.append_nil] at hread
  exact ⟨s, hs, hown, fun rest => ⟨_, by rw [hown, hall rest]⟩⟩

theorem last?_of_singleton {signals others : List Signal} (h : others.filterMap Signal.record? = [r]) :
    last? (signals ++ others) = some r := by
  rw [last?_append, last?, h]
  rfl

theorem readFrom_of_singleton (h : (step l s text).1.filterMap Signal.record? = [r]) : ReadFrom l text r :=
  readFrom_of_mem_step (mem_of_last? (by rw [last?, h]; rfl))

section
variable {records before after : List Record} {q : Record}

/-- A folder that is read last where the line before is that of a folder is that one. -/
theorem Written.depth?_of_last? (h : Padded o) (hw : Written o l d b m) (hk : b.kind = .folder)
    (hlines : IsLines (textOf l before)) (hq : last? (signalsOf l (before ++ [b])) = some q)
    (hfolder : q.kind = .folder) : q.depth? = b.depth? := by
  obtain ⟨s, -, hread, -⟩ := hw.exists_step h (by simp [hk]) hlines
  obtain ⟨r', hr', -⟩ := hw.reads_folder h hk s
  rw [hread, last?_of_singleton hr'] at hq
  obtain rfl := Option.some.inj hq
  exact (hw.folder_of_readFrom h (readFrom_of_singleton hr') hfolder).2

theorem LeftBy.opened?_ne {signals : List Signal} (hs : LeftBy l signals s) (h : Padded o)
    (hl : Lister.compile o .core = .ok l) : s.opened? ≠ some none := by
  rw [hs.opened]
  cases hq : last? signals with
  | none => simp
  | some q =>
    obtain ⟨line, hline⟩ := hs.read q hq
    rw [Option.elim_some, openedBy]
    split
    next hk =>
      intro hnone
      rcases hk with hk | hk
      · rw [hline.root hk] at hnone
        cases hnone
      · have hknown := hline.isSome_depth? h hl hk
        rw [Option.some.inj hnone] at hknown
        cases hknown
    next => simp

theorem Written.not_folder (h : Padded o) (hw : Written o l d b m) (hk : b.kind = .file ∨ b.kind = .ellipsis)
    (hq : last? (step l s (l.line b)).1 = some q) : q.kind ≠ .folder := by
  intro hfolder
  obtain ⟨hb, -⟩ := hw.folder_of_readFrom h (readFrom_of_mem_step (mem_of_last? hq)) hfolder
  rcases hk with hk | hk <;> simp [hk] at hb

theorem showFolders_of_readFrom (h : Padded o) (hl : Lister.compile o .core = .ok l) (hq : ReadFrom l text q)
    (hk : q.kind = .folder) : o.showFolders = true := by
  obtain ⟨t, ht, -⟩ := match?_eq_some (hk ▸ hq.line)
  have hsome := Lister.isSome_template?_of_usual hl h.given .folder
  rw [ht] at hsome
  by_contra hf
  simp [LinePattern.usual?, hf] at hsome

/-- The line looks like an ellipsis, and what was read last is the start of a folder at its depth. -/
structure Mistaken (l : Lister) (signals : List Signal) (r : Record) : Prop where
  line : LooksLikeEllipsis l r
  opened : ∃ q, last? signals = some q ∧ q.kind = .folder ∧ q.depth? = r.depth?

/-- The line of a file gives one record, and that is one of an ellipsis just if the line is mistaken. -/
theorem Written.reads (h : Padded o) (hw : Written o l d r m) (hk : r.kind = .file) {signals : List Signal}
    (hs : LeftBy l signals s) :
    ∃ r', (step l s (l.line r)).1.filterMap Signal.record? = [r'] ∧ r'.depth? = r.depth? ∧
      (Mistaken l signals r → r'.kind = .ellipsis) ∧ (¬ Mistaken l signals r → r'.kind = .file) := by
  have hopened : s.opened? = some r.depth? ↔
      ∃ q, last? signals = some q ∧ q.kind = .folder ∧ q.depth? = r.depth? := by
    obtain ⟨base, hm, -⟩ := hw.listed
    obtain ⟨n, names, hnames⟩ := List.exists_cons_of_ne_nil (hm.entry (.inl (hw.kind_eq ▸ hk)))
    rw [hw.depth?_eq, hnames, List.length_cons]
    exact hs.opened?_eq_iff
  by_cases hmistaken : Mistaken l signals r
  · obtain ⟨r', hr', hkind, hdepth⟩ :=
      hw.reads_ellipsis h (.inl hk) hmistaken.line (hopened.mpr hmistaken.opened)
    exact ⟨r', hr', hdepth, fun _ => hkind, fun hn => absurd hmistaken hn⟩
  · obtain ⟨r', hr', hkind, hdepth⟩ := hw.reads_file h hk (hs.opened?_ne h hw.compiled)
      fun hline ho => hmistaken ⟨hline, hopened.mp ho⟩
    exact ⟨r', hr', hdepth, fun hy => absurd hy hmistaken, fun _ => hkind⟩

/-- An ellipsis stands behind its folder, so its line gives a record where a folder was read last. -/
theorem Listed.reads_ellipsis (hd : Listed o l d records) (h : Padded o)
    (hl : Lister.compile o .core = .ok l) (hh : o.showFolders = true ∨ IsLines o.header)
    (hf : o.showFolders = true) (he : records = before ++ b :: after) (hk : b.kind = .ellipsis)
    (hs : LeftBy l (signalsOf l before) s) (hq : last? (signalsOf l before) = some q)
    (hfolder : q.kind = .folder) :
    ∃ r', (step l s (l.line b)).1.filterMap Signal.record? = [r'] := by
  obtain ⟨m, hb⟩ := hd.written b (by simp [he])
  cases before using List.reverseRecOn with
  | nil =>
    have hroot := hd.head hf b (by rw [he]; rfl)
    simp [hk] at hroot
  | append_singleton before c =>
    rw [List.append_assoc, List.singleton_append] at he
    obtain ⟨hck, hcdepth⟩ := (hd.next hf he).ellipsis hk
    have hck : c.kind = .folder := hck
    obtain ⟨m', hc⟩ := hd.written c (by simp [he])
    have hown := hc.depth?_of_last? h hck (hd.isLines h hl hh he (by simp [hck])) hq hfolder
    have hopened : s.opened? = some b.depth? := by
      rw [hs.opened, hq, Option.elim_some, openedBy, if_pos (.inr hfolder), hown]
      exact congrArg some hcdepth
    have hline : LooksLikeEllipsis l b := (hb.looksLikeEllipsis_iff h).mpr (Written.restOf_ellipsis h hk)
    obtain ⟨r', hr', -⟩ := hb.reads_ellipsis h (.inr hk) hline hopened
    exact ⟨r', hr'⟩

/-- In front of a file at the depth of the folder that was read last stands that folder, unless the line
of a root is there that was not read. -/
theorem Listed.exists_neighbour (hd : Listed o l d records) (h : Padded o)
    (hl : Lister.compile o .core = .ok l) (hh : o.showFolders = true ∨ IsLines o.header)
    (he : records = before ++ r :: after) (hk : r.kind = .file)
    (hq : last? (signalsOf l before) = some q) (hfolder : q.kind = .folder) (hdepth : q.depth? = r.depth?) :
    ∃ b, before.getLast? = some b ∧
      (b.kind = .root ∨ b.kind = .folder ∧ b.depth? = r.depth? ∧ o.grouping ≠ .filesFirst) := by
  have hf : o.showFolders = true := by
    obtain ⟨s, hs, -⟩ := exists_state l (hd.isLines h hl hh he (by simp [hk]))
    obtain ⟨line, hline⟩ := hs.read q hq
    exact showFolders_of_readFrom h hl hline hfolder
  cases before using List.reverseRecOn with
  | nil =>
    have hroot := hd.head hf r (by rw [he]; rfl)
    simp [hk] at hroot
  | append_singleton before b =>
    rw [List.append_assoc, List.singleton_append] at he
    refine ⟨b, by simp, ?_⟩
    by_cases hroot : b.kind = .root
    · exact .inl hroot
    obtain ⟨m, hb⟩ := hd.written b (by simp [he])
    have hlines := hd.isLines h hl hh he hroot
    by_cases hbk : b.kind = .folder
    · have hown := hb.depth?_of_last? h hbk hlines hq hfolder
      refine .inr ⟨hbk, hown.symm.trans hdepth, fun hg => ?_⟩
      exact (hd.next hf he).file hk hbk hg (hown.symm.trans hdepth)
    exfalso
    have hplain : b.kind = .file ∨ b.kind = .ellipsis := by
      rcases hb.kind_cases h with hk | hk | hk | hk
      · exact .inl hk
      · exact .inr hk
      · exact absurd hk hbk
      · exact absurd hk hroot
    obtain ⟨s, hs, hread, -⟩ := hb.exists_step h hroot hlines
    rw [hread, last?_append, Option.or_eq_some_iff] at hq
    have hbehind : last? (step l s (l.line b)).1 = none ∧
        last? (signalsOf l before) = some q :=
      hq.resolve_left fun hq => hb.not_folder h hplain hq hfolder
    have hsilent : ∀ r', (step l s (l.line b)).1.filterMap Signal.record? ≠ [r'] := fun r' hr' => by
      simp [last?, hr'] at hbehind
    rcases hplain with hkind | hkind
    · obtain ⟨r', hr', -⟩ := hb.reads h hkind hs
      exact hsilent r' hr'
    · obtain ⟨r', hr'⟩ := hd.reads_ellipsis h hl hh hf he hkind hs hbehind.2 hfolder
      exact hsilent r' hr'

end

/-- Every line of a file is read as one of a file at its depth, unless it is mistaken: then it is read as
one of an ellipsis. This takes a folder at the same depth just in front of it, where files do not come
first, or a root there whose line was not read. -/
theorem file_lines_read (h : Padded o) (hh : o.showFolders = true ∨ IsLines o.header) :
    (o.properties = [] → ∃ l, Lister.compile o .core = .ok l) ∧
      ∀ l, Lister.compile o .core = .ok l →
      ∀ (d : Disk) (folders : List Path) (walks : List (List Record)),
        (∀ folder ∈ folders, ∃ base, folder.absolute? d.cwd = some base ∧
          d.Tree (d.Ordinary o IsUnpadded) (.root base)) →
        List.Forall₂ (fun folder records => l.walk d folder = .ok (records.map .ok)) folders walks →
        (∀ records ∈ walks, ∀ r ∈ records, ∀ depth, r.depth? = some depth →
          depth + o.startLevel ≤ Text.maxWord) →
        ∃ s, Listing.write .memory l folders ⟨d, #[]⟩ = (.ok walks.flatten.length, s) ∧
          s.written.toList = Text.encode (textOf l walks.flatten ++ o.footer) ∧
          ∀ before r after, walks.flatten = before ++ r :: after → r.kind = .file →
            ∃ reading others r',
              signalsOf l (before ++ [r]) = signalsOf l before ++ reading ∧
              l.replay s.written.toList = signalsOf l (before ++ [r]) ++ others ∧
              reading.filterMap Signal.record? = [r'] ∧ r'.depth? = r.depth? ∧
              (¬ Mistaken l (signalsOf l before) r → r'.kind = .file) ∧
              (Mistaken l (signalsOf l before) r → r'.kind = .ellipsis ∧ ∃ b, before.getLast? = some b ∧
                (b.kind = .root ∨
                  b.kind = .folder ∧ b.depth? = r.depth? ∧ o.grouping ≠ .filesFirst)) := by
  refine ⟨fun ho => ?_, fun l hl d folders walks hf hw hdeep => ?_⟩
  · refine Lister.exists_compile_of_segments ho fun kind pattern hp => ?_
    obtain ⟨segments, hs, -, hfields⟩ := Lister.exists_segments h.given h.inner h.plainNewline hp
    exact ⟨segments, hs, hfields⟩
  have hall : List.Forall₂ (Listing.Walked l d) folders walks ∧ ∀ records ∈ walks, Listed o l d records := by
    induction hw with
    | nil => exact ⟨.nil, List.forall_mem_nil _⟩
    | cons hwalk _ ih =>
      rw [List.forall_mem_cons] at hf hdeep
      obtain ⟨base, hb, ht⟩ := hf.1
      obtain ⟨hwalked, hlisted⟩ := listed_walk h hl hb ht hwalk hdeep.1
      obtain ⟨hwalks, hlists⟩ := ih hf.2 hdeep.2
      exact ⟨.cons hwalked hwalks, List.forall_mem_cons.mpr ⟨hlisted, hlists⟩⟩
  have hlisted := Listed.flatten hall.2
  obtain ⟨s, hwrite, hwritten⟩ := exists_written hall.1
  rw [Lister.options_eq hl] at hwritten
  refine ⟨s, hwrite, hwritten, fun before r after he hk => ?_⟩
  obtain ⟨m, hr⟩ := hlisted.written r (by simp [he])
  have hne : r.kind ≠ .root := by simp [hk]
  obtain ⟨state, hstate, hread, hrest⟩ := hr.exists_step h hne (hlisted.isLines h hl hh he hne)
  obtain ⟨r', hr', hdepth, hmistaken, hfile⟩ := hr.reads h hk hstate
  obtain ⟨others, hothers⟩ := hrest (l.bytes after ++ Text.encode o.footer)
  refine ⟨_, others, r', hread, ?_, hr', hdepth, hfile, fun hm => ⟨hmistaken hm, ?_⟩⟩
  · rw [← hothers, hwritten, he, Text.encode_append, encode_textOf, encode_textOf]
    simp [Lister.bytes]
  · obtain ⟨q, hq, hfolder, hqdepth⟩ := hm.opened
    exact hlisted.exists_neighbour h hl hh he hk hq hfolder hqdepth

/-- The usual options, but with ellipses and the grouping given. -/
def withEllipsis (grouping : Grouping) : Options := { showEllipsis := true, grouping }

theorem padded_withEllipsis (grouping : Grouping) : Padded (withEllipsis grouping) where
  layout := rfl
  given kind := by cases kind <;> rfl
  showIndent := rfl
  indent := (by decide : " " ≠ "")
  pads := by simp [withEllipsis, IsPad]
  name := rfl
  showEllipsis := rfl
  nonempty := (by decide : "..." ≠ "")
  ellipsis := (by decide : IsUnpadded "...")
  inner := fun _ => (by decide : LinePattern.IsInnerText "...".toList)
  newline := ⟨"", rfl, List.not_mem_nil⟩
  plainNewline := by simp [LinePattern.HasPlainNewline, withEllipsis]
  hidden := nofun
  dates := nofun

instance (d : Disk) (grouping : Grouping) (i : Item) (names : List String) :
    Decidable (d.Ordinary (withEllipsis grouping) IsUnpadded i names) :=
  decidable_of_iff _ (Disk.ordinary_iff rfl)

/-- The line of an entry of the folder that is listed, or of that folder itself. -/
def lineAt (kind : Kind) (names : List String) : Record :=
  ⟨kind, .ofSegments names, some names.length,
    .ofList (("indent", String.join (List.replicate names.length " ")) :: names.map ("name", ·))⟩

/-- A folder with two files, the second of which is called as an ellipsis looks. -/
def twoFiles : Disk := .ofTable [("/t", ["+", "..."])] ["/t/+", "/t/..."]

theorem file_lines_read_twoFiles :
    ∃ (l : Lister) (s : Medium.Memory), Lister.compile (withEllipsis .foldersFirst) .core = .ok l ∧
      twoFiles.Tree (twoFiles.Ordinary (withEllipsis .foldersFirst) IsUnpadded) (.root ⟨"/t"⟩) ∧
      l.walk twoFiles ⟨"/t"⟩ = .ok ([lineAt .root [], lineAt .file ["+"], lineAt .file ["..."]].map .ok) ∧
      Listing.write .memory l [⟨"/t"⟩] ⟨twoFiles, #[]⟩ = (.ok 3, s) ∧
      ∃ before reading after r', l.replay s.written.toList = before ++ reading ++ after ∧
        reading.filterMap Signal.record? = [r'] ∧ r'.kind = .file ∧ r'.depth? = some 1 := by
  obtain ⟨hcompile, h⟩ := file_lines_read (padded_withEllipsis .foldersFirst) (.inl rfl)
  obtain ⟨l, hl⟩ := hcompile rfl
  have hw : l.walk twoFiles ⟨"/t"⟩
      = .ok ([lineAt .root [], lineAt .file ["+"], lineAt .file ["..."]].map .ok) :=
    walk_of_shown hl Path.absolute?_t (.file "+" (.file "..." .nil)) (by decide +kernel)
  have ht : twoFiles.Tree (twoFiles.Ordinary (withEllipsis .foldersFirst) IsUnpadded) (.root ⟨"/t"⟩) :=
    Disk.tree_of_isTree 2 (by decide +kernel)
  obtain ⟨s, hwrite, -, hread⟩ := h l hl twoFiles [⟨"/t"⟩]
    [[lineAt .root [], lineAt .file ["+"], lineAt .file ["..."]]]
    (List.forall_mem_singleton.mpr ⟨⟨"/t"⟩, Path.absolute?_t, ht⟩) (.cons hw .nil) (by decide +kernel)
  obtain ⟨reading, others, r', hsignals, hreplay, hr', hdepth, hfile, hmistaken⟩ :=
    hread [lineAt .root [], lineAt .file ["+"]] (lineAt .file ["..."]) [] rfl rfl
  refine ⟨l, s, hl, ht, hw, hwrite, _, reading, others, r', by rw [hreplay, hsignals], hr', hfile ?_, hdepth⟩
  intro hm
  obtain ⟨-, b, hb, hkind⟩ := hmistaken hm
  obtain rfl := Option.some.inj hb
  rcases hkind with hkind | ⟨hkind, -⟩ <;> cases hkind

/-- A folder with an empty folder and with a file that is called as an ellipsis looks. -/
def folderAndFile : Disk := .ofTable [("/t", ["a", "..."]), ("/t/a", [])] ["/t/..."]

/-- A file that is called as an ellipsis looks is read as one behind an empty folder. -/
theorem file_read_as_ellipsis : Padded (withEllipsis .foldersFirst) ∧
    ∃ (l : Lister) (s : Medium.Memory), Lister.compile (withEllipsis .foldersFirst) .core = .ok l ∧
      folderAndFile.Tree (folderAndFile.Ordinary (withEllipsis .foldersFirst) IsUnpadded) (.root ⟨"/t"⟩) ∧
      l.walk folderAndFile ⟨"/t"⟩
        = .ok ([lineAt .root [], lineAt .folder ["a"], lineAt .file ["..."]].map .ok) ∧
      Listing.write .memory l [⟨"/t"⟩] ⟨folderAndFile, #[]⟩ = (.ok 3, s) ∧
      ∃ reading r', l.replay s.written.toList = signalsOf l [lineAt .root [], lineAt .folder ["a"]] ++ reading ∧
        reading.filterMap Signal.record? = [r'] ∧ r'.kind = .ellipsis := by
  have h := padded_withEllipsis .foldersFirst
  obtain ⟨l, hl⟩ : ∃ l, Lister.compile (withEllipsis .foldersFirst) .core = .ok l :=
    exists_eq_ok_of_isOk (by decide +kernel)
  have hw : l.walk folderAndFile ⟨"/t"⟩
      = .ok ([lineAt .root [], lineAt .folder ["a"], lineAt .file ["..."]].map .ok) :=
    walk_of_shown hl Path.absolute?_t (.folder "a" .nil (.file "..." .nil)) (by decide +kernel)
  have ht : folderAndFile.Tree (folderAndFile.Ordinary (withEllipsis .foldersFirst) IsUnpadded)
      (.root ⟨"/t"⟩) := Disk.tree_of_isTree 3 (by decide +kernel)
  obtain ⟨hwalked, hlisted⟩ := listed_walk h hl Path.absolute?_t ht hw (by decide +kernel)
  obtain ⟨s, hwrite, hwritten⟩ := exists_written (.cons hwalked .nil)
  obtain ⟨m, hfolder⟩ := hlisted.written (lineAt .folder ["a"]) (by simp)
  obtain ⟨m', hfile⟩ := hlisted.written (lineAt .file ["..."]) (by simp)
  have hroot : match? l .root (l.line (lineAt .folder ["a"])) = none := by
    rw [Option.eq_none_iff_forall_ne_some]
    intro p hp
    obtain ⟨⟨u, hfound⟩, -⟩ := hfolder.found h hp (.inr (.inl rfl))
    obtain ⟨values, hcut⟩ := hfound.cut
    have hline : restOf (withEllipsis .foldersFirst) (lineAt .folder ["a"]) = "<.>\n".toList :=
      hcut.eq_of_chars
    exact absurd hline (by decide +kernel)
  have hlines : IsLines (textOf l [lineAt .root []]) := hlisted.isLines h hl (.inl rfl) rfl (by decide)
  obtain ⟨state, -, hbefore, -⟩ := hfolder.exists_step h (by decide) hlines
  obtain ⟨q, hq, hkind⟩ := hfolder.reads_folder h rfl state
  have hlast : last? (signalsOf l ([lineAt .root []] ++ [lineAt .folder ["a"]])) = some q := by
    rw [hbefore]
    exact last?_of_singleton hq
  have hmistaken : Mistaken l (signalsOf l [lineAt .root [], lineAt .folder ["a"]]) (lineAt .file ["..."]) :=
    ⟨(hfile.looksLikeEllipsis_iff h).mpr (by decide +kernel), q, hlast, hkind hroot⟩
  have hlines' : IsLines (textOf l [lineAt .root [], lineAt .folder ["a"]]) :=
    hlisted.isLines h hl (.inl rfl) rfl (by decide)
  obtain ⟨state, hstate, hread, -⟩ := hfile.exists_step h (by decide) hlines'
  obtain ⟨r', hr', -, hellipsis, -⟩ := hfile.reads h rfl hstate
  refine ⟨h, l, s, hl, ht, hw, hwrite, _, r', ?_, hr', hellipsis hmistaken⟩
  have hfooter : l.options.footer = "" := by rw [Lister.options_eq hl, withEllipsis]
  rw [hwritten, hfooter, String.append_empty, List.flatten_singleton]
  exact hread

end TreeListing.Replay
