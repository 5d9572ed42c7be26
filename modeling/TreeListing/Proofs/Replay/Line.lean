import TreeListing.Proofs.Mark
import TreeListing.Proofs.Replay.Path
import TreeListing.Replay

/-!
Reading one line of a listing back. A line that its own template reads and the others do not is
recognised, and the folders that are open in front of it give it its path and its depth.
-/
namespace TreeListing.Replay

variable {l : Lister} {s : State} {r : Record} {names : List String} {text : String}

/-- The line is read by the template of the record and told apart from lines of other kinds. -/
structure Distinct (l : Lister) (r : Record) (text : String) : Prop where
  own : match? l r.kind text = some r.props
  others : r.kind ≠ .root → r.kind ≠ .ellipsis →
    ∀ kind ∈ Kind.tried, kind ≠ r.kind → match? l kind text = none
  root : r.kind ≠ .root → ∀ p, match? l .root text = some p →
    r.kind = .folder ∧ depthOf l p = depthOf l r.props

/-- What the properties of the record tell is what lies at the end of the names; what they do not
tell can be found out. -/
structure Tells (l : Lister) (names : List String) (r : Record) : Prop where
  path : r.path = .ofSegments names
  depth? : r.depth? = some names.length
  depth : depthOf l r.props = some names.length ∨ depthOf l r.props = none ∧ l.closesFolders = true
  relpath : ∀ text, r.props.get? "relpath" = some text →
    (r.kind = .file ∨ r.kind = .folder) ∧ text = (Path.ofSegments names).text
  named : r.kind = .file ∨ r.kind = .folder → r.props.get? "relpath" = none →
    r.props.name? = names.getLast?
  unnamed : r.kind = .folderEnd ∨ r.kind = .ellipsis → r.props.name? = none

/-- The folders with the names are open, each found in the one before. -/
structure Ready (l : Lister) (names : List String) (s : State) : Prop where
  parents : names <+: s.parents
  rootSeen : s.rootSeen = true
  open? : s.open? = if l.closesFolders then some (names.length + 1) else none

/-- A root can come next. -/
structure Fresh (l : Lister) (s : State) : Prop where
  open? : s.open?.isSome = l.closesFolders
  rootSeen : s.rootSeen = true → l.closesFolders = true → s.open? = some 0

theorem fresh_start (l : Lister) : Fresh l (State.start l) := by
  refine ⟨?_, fun h => by simp [State.start] at h⟩
  rw [State.start]
  cases l.closesFolders <;> rfl

/-- The kinds that are told by their shape alone. -/
def IsEntry (kind : Kind) : Prop := kind = .file ∨ kind = .folder ∨ kind = .folderEnd

theorem classify_root {p : Props} (hown : match? l .root text = some p)
    (hs : s.rootSeen = false ∨ depthOf l p = some 0 ∨ s.open? = some 0) :
    classify l s text = (some (.root, p), []) := by
  have hroot : root? l s text = some p := by
    rw [root?, hown, Option.filter_some_pos]
    rcases hs with hs | hs | hs <;> simp [hs]
  rw [classify, hroot]

/-- Behind the first root no line but that of a root counts as one. -/
theorem root?_eq_none (hd : Distinct l r text) (hk : r.kind ≠ .root) (hr : s.rootSeen = true)
    (hf : r.kind = .folder → depthOf l r.props ≠ some 0 ∧ s.open? ≠ some 0) : root? l s text = none := by
  rw [root?, Option.filter_eq_none_iff]
  intro p hp
  obtain ⟨hfolder, he⟩ := hd.root hk p hp
  simp [hr, he, hf hfolder]

theorem classify_ellipsis (hd : Distinct l r text) (hk : r.kind = .ellipsis) (hr : s.rootSeen = true)
    {folderDepth? : Option Nat} (hs : s.opened? = some folderDepth?)
    (he : depthOf l r.props = none ∨ depthOf l r.props = folderDepth?) :
    classify l s text = (some (.ellipsis, r.props), []) := by
  have hown := hd.own
  rw [hk] at hown
  have hroot : root? l s text = none :=
    root?_eq_none hd (by simp [hk]) hr fun h => by simp [hk] at h
  have hellipsis : ellipsis? l s text = some r.props := by
    rw [ellipsis?, hs, Option.bind_some, hown, Option.filter_some_pos]
    rcases he with he | he <;> simp [he]
  rw [classify, hroot, hellipsis]

/-- What is neither a root nor an ellipsis here is of the first kind whose template reads it. -/
theorem classify_tried (hr : root? l s text = none) (he : ellipsis? l s text = none) {kind : Kind}
    {before after : List Kind} (hk : Kind.tried = before ++ kind :: after)
    (hb : ∀ other ∈ before, match? l other text = none) {p : Props} (hm : match? l kind text = some p) :
    ∃ warnings, classify l s text = (some (kind, p), warnings) := by
  have hnone : before.filterMap (fun kind => (match? l kind text).map (kind, ·)) = [] :=
    List.filterMap_eq_nil_iff.mpr fun other ho => by rw [hb other ho]; rfl
  rw [classify, hr, he, hk, List.filterMap_append, hnone, List.nil_append, List.filterMap_cons, hm]
  dsimp only [Option.map_some]
  generalize after.filterMap _ = others
  cases others with
  | nil => exact ⟨_, rfl⟩
  | cons other others => exact ⟨_, rfl⟩

theorem filterMap_eq_singleton {α β : Type} {f : α → Option β} {xs : List α} (hn : xs.Nodup) {a : α}
    (ha : a ∈ xs) {b : β} (hb : f a = some b) (ho : ∀ x ∈ xs, x ≠ a → f x = none) :
    xs.filterMap f = [b] := by
  induction xs with
  | nil => cases ha
  | cons x xs ih =>
    obtain ⟨hx, hn⟩ := List.nodup_cons.mp hn
    rw [List.forall_mem_cons] at ho
    rcases List.mem_cons.mp ha with rfl | ha
    · have hrest : xs.filterMap f = [] := List.filterMap_eq_nil_iff.mpr fun y hy =>
        ho.2 y hy fun he => hx (he ▸ hy)
      rw [List.filterMap_cons_some hb, hrest]
    · rw [List.filterMap_cons_none (ho.1 fun he => hx (he ▸ ha)), ih hn ha ho.2]

theorem classify_entry (hd : Distinct l r text) (hk : IsEntry r.kind) (hr : s.rootSeen = true)
    (hf : r.kind = .folder → depthOf l r.props ≠ some 0 ∧ s.open? ≠ some 0) :
    classify l s text = (some (r.kind, r.props), []) := by
  have hroot : r.kind ≠ .root := by rcases hk with hk | hk | hk <;> simp [hk]
  have hdots : r.kind ≠ .ellipsis := by rcases hk with hk | hk | hk <;> simp [hk]
  have hothers := hd.others hroot hdots
  have hellipsis : ellipsis? l s text = none := by
    rw [ellipsis?, hothers .ellipsis (by decide) (Ne.symm hdots)]
    cases s.opened? <;> rfl
  have hmem : r.kind ∈ Kind.tried := by rcases hk with hk | hk | hk <;> rw [hk] <;> decide
  have htried : Kind.tried.filterMap (fun kind => (match? l kind text).map (kind, ·))
      = [(r.kind, r.props)] :=
    filterMap_eq_singleton (by decide) hmem (by rw [hd.own]; rfl)
      fun kind hm hne => by rw [hothers kind hm hne]; rfl
  rw [classify, root?_eq_none hd hroot hr hf, hellipsis, htried]

/-- A line that is recognised gives a record if its place has a path. -/
theorem step_eq {kind : Kind} {p : Props} (hc : classify l { s with line := s.line + 1 } text
      = (some (kind, p), [])) {opened? : Option (Nat × Nat)}
    (ho : opened? = s.open?.map (position kind)) {depth? : Option Nat}
    (hd : depth? = if kind = .root then some 0 else (depthOf l p).or (opened?.map (·.1)))
    {path : Path} {parents : List String}
    (hp : p.path? kind s.parents depth? l.options.startLevel l.options.indent = some (path, parents)) :
    step l s text = ([.record ⟨kind, path, depth?, p⟩],
      { line := s.line + 1, parents, open? := opened?.map (·.2), rootSeen := s.rootSeen || kind = .root
        opened? := if kind = .root ∨ kind = .folder then some depth? else none }) := by
  subst ho hd
  simp only [step, hc, place, hp]
  rfl

theorem Tells.depth_or (ht : Tells l names r) (position? : Option Nat)
    (hp : l.closesFolders = true → position? = some names.length) :
    (depthOf l r.props).or position? = some names.length := by
  rcases ht.depth with h | ⟨h, hc⟩
  · rw [h, Option.some_or]
  · rw [h, hp hc, Option.none_or]

theorem Tells.path?_entry {before : List String} {n : String} (ht : Tells l (before ++ [n]) r)
    (hk : r.kind = .file ∨ r.kind = .folder) (hn : ∀ m ∈ before ++ [n], Path.IsName m)
    {parents : List String} (hp : before <+: parents) :
    r.props.path? r.kind parents (some (before.length + 1)) l.options.startLevel l.options.indent
      = some (r.path, Props.openAfter r.kind (before ++ [n])) := by
  have hlength : (before ++ [n]).length = before.length + 1 := by simp
  have hdepth := ht.depth_or (some (before.length + 1)) fun _ => by rw [hlength]
  rw [ht.path]
  cases hr : r.props.get? "relpath" with
  | none =>
    have hname := ht.named hk hr
    rw [List.getLast?_concat] at hname
    exact Props.path?_of_name hdepth hr hname (by simp) (by rwa [List.dropLast_concat])
  | some text =>
    obtain ⟨-, rfl⟩ := ht.relpath text hr
    exact Props.path?_of_relpath hdepth hn hr

theorem Tells.relpath_eq_none (ht : Tells l names r) (hf : r.kind ≠ .file) (hd : r.kind ≠ .folder) :
    r.props.get? "relpath" = none := by
  cases hr : r.props.get? "relpath" with
  | none => rfl
  | some text => exact ((ht.relpath text hr).1.elim hf hd).elim

/-- A line without a name means the folder that is open at its depth. -/
theorem Tells.path?_unnamed (ht : Tells l names r) (hk : r.kind = .folderEnd ∨ r.kind = .ellipsis)
    {parents : List String} (hp : names <+: parents) :
    r.props.path? r.kind parents (some names.length) l.options.startLevel l.options.indent
      = some (r.path, if r.kind = .folderEnd then names.dropLast else names) := by
  have hdepth := ht.depth_or (some names.length) fun _ => rfl
  have hmarker : r.kind.isFolderMarker = true := by rcases hk with hk | hk <;> rw [hk] <;> rfl
  have hrel := ht.relpath_eq_none (by rcases hk with hk | hk <;> simp [hk])
    (by rcases hk with hk | hk <;> simp [hk])
  have hopen : Props.openAfter r.kind names = if r.kind = .folderEnd then names.dropLast else names := by
    rcases hk with hk | hk <;> simp [hk, Props.openAfter, Kind.leavesFolder]
  have hroot : r.kind = .root → names = [] := fun h => by rcases hk with hk | hk <;> simp [hk] at h
  rw [ht.path, ← hopen]
  exact Props.path?_of_nameless hdepth hmarker hroot hrel (ht.unnamed hk) hp

theorem Tells.path?_root (ht : Tells l [] r) (hk : r.kind = .root) (parents : List String) :
    r.props.path? r.kind parents (some 0) l.options.startLevel l.options.indent = some (r.path, []) := by
  have hdepth := ht.depth_or (some 0) fun _ => rfl
  have hrel := ht.relpath_eq_none (by simp [hk]) (by simp [hk])
  rw [ht.path, hk]
  cases hname : r.props.name? with
  | some n => exact Props.path?_of_name hdepth hrel hname nofun List.nil_prefix
  | none => exact Props.path?_of_nameless hdepth rfl (fun _ => rfl) hrel hname List.nil_prefix

/-- What a line leaves behind: its record, and a state from which the listing goes on. -/
def Recorded (l : Lister) (text : String) (r : Record) (s : State) (P : State → Prop) : Prop :=
  ∃ s', step l s text = ([.record r], s') ∧ P s'

theorem recorded_of_classify (ht : Tells l names r) {P : State → Prop}
    (hc : classify l { s with line := s.line + 1 } text = (some (r.kind, r.props), []))
    {opened? : Option (Nat × Nat)} (ho : opened? = s.open?.map (position r.kind))
    (hpos : l.closesFolders = true → opened?.map (·.1) = some names.length)
    (hroot : r.kind = .root → names = []) {parents : List String}
    (hp : r.props.path? r.kind s.parents (some names.length) l.options.startLevel l.options.indent
      = some (r.path, parents))
    (hP : P { line := s.line + 1, parents, open? := opened?.map (·.2)
              rootSeen := s.rootSeen || r.kind = .root
              opened? := if r.kind = .root ∨ r.kind = .folder then some (some names.length) else none }) :
    Recorded l text r s P := by
  have hdepth : some names.length
      = if r.kind = .root then some 0 else (depthOf l r.props).or (opened?.map (·.1)) := by
    split
    next hk => rw [hroot hk]; rfl
    next => exact (ht.depth_or _ hpos).symm
  refine ⟨_, (step_eq hc ho hdepth hp).trans ?_, hP⟩
  obtain ⟨kind, path, depth?, p⟩ := r
  obtain rfl : depth? = _ := ht.depth?
  rfl

theorem recorded_file {before : List String} {n : String} (hd : Distinct l r text)
    (ht : Tells l (before ++ [n]) r) (hk : r.kind = .file) (hn : ∀ m ∈ before ++ [n], Path.IsName m)
    (hs : Ready l before s) : Recorded l text r s (Ready l before) := by
  have hc := classify_entry (s := { s with line := s.line + 1 }) hd (.inl hk) hs.rootSeen
    fun hf => by simp [hk] at hf
  have hpath := ht.path?_entry (.inl hk) hn hs.parents
  refine recorded_of_classify ht hc rfl (fun hl => ?_) (by simp [hk]) (by simpa using hpath) ⟨?_, ?_, ?_⟩
  · simp [hs.open?, hl, hk, position]
  · simp [hk, Props.openAfter, Kind.leavesFolder]
  · simp [hs.rootSeen]
  · simp [hs.open?, hk, position]

/-- The folder with the names was opened last. -/
structure Opened (l : Lister) (names : List String) (s : State) : Prop where
  ready : Ready l names s
  opened? : s.opened? = some (some names.length)

theorem recorded_folder {before : List String} {n : String} (hd : Distinct l r text)
    (ht : Tells l (before ++ [n]) r) (hk : r.kind = .folder) (hn : ∀ m ∈ before ++ [n], Path.IsName m)
    (hs : Ready l before s) : Recorded l text r s (Opened l (before ++ [n])) := by
  have hdeep : depthOf l r.props ≠ some 0 := by
    rcases ht.depth with h | ⟨h, -⟩ <;> simp [h]
  have hopen : s.open? ≠ some 0 := by
    rw [hs.open?]
    split <;> simp
  have hc := classify_entry (s := { s with line := s.line + 1 }) hd (.inr (.inl hk)) hs.rootSeen
    fun _ => ⟨hdeep, hopen⟩
  have hpath := ht.path?_entry (.inr hk) hn hs.parents
  refine recorded_of_classify ht hc rfl (fun hl => ?_) (by simp [hk]) (by simpa using hpath)
    ⟨⟨?_, ?_, ?_⟩, ?_⟩
  · simp [hs.open?, hl, hk, position]
  · simp [hk, Props.openAfter, Kind.leavesFolder]
  · simp [hs.rootSeen]
  · simp [hs.open?, hk, position]
  · simp [hk]

/-- An ellipsis stands directly behind the start of its folder, which it leaves open. -/
theorem recorded_ellipsis (hd : Distinct l r text) (ht : Tells l names r) (hk : r.kind = .ellipsis)
    (hs : Opened l names s) : Recorded l text r s (Ready l names) := by
  have hc : classify l { s with line := s.line + 1 } text = (some (r.kind, r.props), []) :=
    hk ▸ classify_ellipsis (s := { s with line := s.line + 1 }) hd hk hs.ready.rootSeen hs.opened?
      (ht.depth.symm.imp_left And.left)
  have hpath := ht.path?_unnamed (.inr hk) hs.ready.parents
  refine recorded_of_classify ht hc rfl (fun hl => ?_) (by simp [hk]) hpath ⟨?_, ?_, ?_⟩
  · simp [hs.ready.open?, hl, hk, position]
  · simp [hk]
  · simp [hs.ready.rootSeen]
  · simp [hs.ready.open?, hk, position]

/-- The end of a folder leaves the folder that holds it open. -/
theorem recorded_folderEnd {before : List String} {n : String} (hd : Distinct l r text)
    (ht : Tells l (before ++ [n]) r) (hk : r.kind = .folderEnd) (hs : Ready l (before ++ [n]) s) :
    Recorded l text r s (Ready l before) := by
  have hc := classify_entry (s := { s with line := s.line + 1 }) hd (.inr (.inr hk)) hs.rootSeen
    fun hf => by simp [hk] at hf
  have hpath := ht.path?_unnamed (.inl hk) hs.parents
  refine recorded_of_classify ht hc rfl (fun hl => ?_) (by simp [hk]) hpath ⟨?_, ?_, ?_⟩
  · simp [hs.open?, hl, hk, position]
  · simp [hk]
  · simp [hs.rootSeen]
  · simp [hs.open?, hk, position]

/-- Behind the end of the whole listing another root can come. -/
theorem recorded_rootEnd (hd : Distinct l r text) (ht : Tells l [] r) (hk : r.kind = .folderEnd)
    (hs : Ready l [] s) : Recorded l text r s (Fresh l) := by
  have hc := classify_entry (s := { s with line := s.line + 1 }) hd (.inr (.inr hk)) hs.rootSeen
    fun hf => by simp [hk] at hf
  have hpath := ht.path?_unnamed (.inl hk) hs.parents
  refine recorded_of_classify ht hc rfl (fun hl => ?_) (by simp [hk]) hpath ⟨?_, fun _ hl => ?_⟩
  · simp [hs.open?, hl, hk, position]
  · rw [hs.open?]
    cases l.closesFolders <;> rfl
  · simp [hs.open?, hl, hk, position]

/-- A root opens itself, whatever else its line could be. -/
theorem recorded_root (hown : match? l r.kind text = some r.props) (ht : Tells l [] r)
    (hk : r.kind = .root) (hs : Fresh l s) : Recorded l text r s (Opened l []) := by
  have hroot : match? l .root text = some r.props := hk ▸ hown
  have hfirst : s.rootSeen = false ∨ depthOf l r.props = some 0 ∨ s.open? = some 0 := by
    cases hr : s.rootSeen with
    | false => exact .inl rfl
    | true =>
      rcases ht.depth with h | ⟨-, hl⟩
      · exact .inr (.inl h)
      · exact .inr (.inr (hs.rootSeen hr hl))
  have hc : classify l { s with line := s.line + 1 } text = (some (r.kind, r.props), []) :=
    hk ▸ classify_root (s := { s with line := s.line + 1 }) hroot hfirst
  have hopen := hs.open?
  refine recorded_of_classify ht hc rfl (fun hl => ?_) (fun _ => rfl) (ht.path?_root hk s.parents)
    ⟨⟨List.nil_prefix, ?_, ?_⟩, ?_⟩
  · obtain ⟨opened, ho⟩ := Option.isSome_iff_exists.mp (hopen.trans hl)
    simp [ho, hk, position]
  · simp [hk]
  · cases hl : l.closesFolders with
    | true =>
      obtain ⟨opened, ho⟩ := Option.isSome_iff_exists.mp (hopen.trans hl)
      simp [ho, hk, position]
    | false =>
      rw [hl, Option.isSome_eq_false_iff, Option.isNone_iff_eq_none] at hopen
      simp [hopen]
  · simp [hk]

end TreeListing.Replay
