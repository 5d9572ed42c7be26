import TreeListing.Proofs.Replay.Noise

/-!
What the lines so far have left open. Only the record that was read last tells it: behind a root or a
folder that one is open, and behind any other record none has just been opened.
-/
namespace TreeListing.Replay

def last? (signals : List Signal) : Option Record := (signals.filterMap Signal.record?).getLast?

/-- The depth of what the record has just opened. -/
def openedBy (r : Record) : Option (Option Nat) :=
  if r.kind = .root ∨ r.kind = .folder then some r.depth? else none

variable {l : Lister} {s : State} {text : String} {texts : List String} {kind : Kind} {p : Props} {r : Record}

theorem last?_append (signals others : List Signal) :
    last? (signals ++ others) = (last? others).or (last? signals) := by
  rw [last?, List.filterMap_append, List.getLast?_append]
  rfl

theorem last?_warnings (warnings : List Warning) : last? (warnings.map .warning) = none := by
  rw [last?, filterMap_record?_warnings]
  rfl

theorem mem_of_last? {signals : List Signal} (h : last? signals = some r) : .record r ∈ signals := by
  obtain ⟨signal, hm, hr⟩ := List.mem_filterMap.mp (List.mem_of_getLast? h)
  cases signal with
  | record r' =>
    obtain rfl : r' = r := Option.some.inj hr
    exact hm
  | warning w => cases hr
  | failure e => cases hr

theorem opened?_place (l : Lister) (s : State) (text : String) (kind : Kind) (p : Props) :
    (place l s text kind p).2.opened? = (last? (place l s text kind p).1).elim s.opened? openedBy := by
  rw [place]
  dsimp only
  split <;> rfl

theorem opened?_step (l : Lister) (s : State) (text : String) :
    (step l s text).2.opened? = (last? (step l s text).1).elim s.opened? openedBy := by
  rw [step]
  dsimp only
  generalize classify l { s with line := s.line + 1 } text = classified
  obtain ⟨found?, warnings⟩ := classified
  cases found? with
  | none =>
    rw [last?_warnings]
    rfl
  | some found =>
    have hplace := opened?_place l { s with line := s.line + 1 } text found.1 found.2
    dsimp only at hplace ⊢
    rw [last?_append, last?_warnings, Option.or_none]
    exact hplace

/-- Lines leave open what the last record of theirs has opened; without a record all is as before. -/
theorem opened?_readTexts (l : Lister) (s : State) (texts : List String) :
    (readTexts l s texts).2.opened? = (last? (readTexts l s texts).1).elim s.opened? openedBy := by
  induction texts generalizing s with
  | nil => rfl
  | cons text texts ih =>
    simp only [readTexts, ih, last?_append, opened?_step l s text]
    cases last? (readTexts l (step l s text).2 texts).1 <;> rfl

/-- What a record says comes from a line that the template of its kind reads. -/
structure ReadFrom (l : Lister) (text : String) (r : Record) : Prop where
  line : match? l r.kind text = some r.props
  root : r.kind = .root → r.depth? = some 0
  depth : r.kind ≠ .root → ∀ depth, depthOf l r.props = some depth → r.depth? = some depth
  known : r.props.get? "relpath" = none → r.depth?.isSome = true

theorem readFrom_of_mem_place (h : match? l kind text = some p) (hr : .record r ∈ (place l s text kind p).1) :
    ReadFrom l text r := by
  rw [place] at hr
  dsimp only at hr
  split at hr
  next => simp at hr
  next path parents hp =>
    obtain rfl := Signal.record.inj (List.mem_singleton.mp hr)
    refine ⟨h, fun hk => if_pos hk, fun hk depth hd => ?_, fun hrel => ?_⟩
    · exact (if_neg hk).trans (by rw [hd, Option.some_or])
    · dsimp only at hrel ⊢
      generalize hdepth : (if kind = .root then some 0 else (depthOf l p).or _) = depth? at hp ⊢
      cases depth? with
      | some depth => rfl
      | none =>
        have hnone : p.depth? l.options.startLevel l.options.indent = none := by
          split at hdepth
          · cases hdepth
          · exact (Option.or_eq_none_iff.mp hdepth).1
        rw [Props.path?, hrel, hnone] at hp
        cases hp

theorem readFrom_of_mem_step (hr : .record r ∈ (step l s text).1) : ReadFrom l text r := by
  rw [step] at hr
  rcases classify_cases l { s with line := s.line + 1 } text with ⟨hc, -⟩ | ⟨kind, p, hp, hc⟩
  · rw [hc] at hr
    simp at hr
  · rcases hc with hc | ⟨others, hc⟩ <;> rw [hc] at hr <;>
      exact readFrom_of_mem_place hp (by simpa using hr)

theorem exists_readFrom (hr : .record r ∈ (readTexts l s texts).1) : ∃ text ∈ texts, ReadFrom l text r := by
  induction texts generalizing s with
  | nil => cases hr
  | cons text texts ih =>
    rcases List.mem_append.mp hr with hr | hr
    · exact ⟨text, List.mem_cons_self, readFrom_of_mem_step hr⟩
    · obtain ⟨text', hm, h⟩ := ih hr
      exact ⟨text', List.mem_cons_of_mem _ hm, h⟩

/-- The state is one that lines with these signals leave behind. -/
structure LeftBy (l : Lister) (signals : List Signal) (s : State) : Prop where
  opened : s.opened? = (last? signals).elim none openedBy
  read : ∀ r, last? signals = some r → ∃ line, ReadFrom l line r

/-- The start of an entry's folder was read last just if it is what is open. -/
theorem LeftBy.opened?_eq_iff {signals : List Signal} (hs : LeftBy l signals s) {n : Nat} :
    s.opened? = some (some (n + 1)) ↔
      ∃ q, last? signals = some q ∧ q.kind = .folder ∧ q.depth? = some (n + 1) := by
  rw [hs.opened]
  constructor
  · intro ho
    obtain ⟨q, hq⟩ : ∃ q, last? signals = some q := by
      cases hl : last? signals with
      | none => simp [hl] at ho
      | some q => exact ⟨q, rfl⟩
    obtain ⟨line, hline⟩ := hs.read q hq
    rw [hq, Option.elim_some, openedBy] at ho
    split at ho
    next hk =>
      have hdepth := Option.some.inj ho
      refine ⟨q, hq, hk.resolve_left fun hroot => ?_, hdepth⟩
      rw [hline.root hroot] at hdepth
      cases hdepth
    next => cases ho
  · rintro ⟨q, hq, hk, hdepth⟩
    rw [hq, Option.elim_some, openedBy, if_pos (.inr hk), hdepth]

/-- What whole lines have left behind is all that the rest of a text has to know of them. -/
theorem exists_state (l : Lister) {text : String} (h : IsLines text) :
    ∃ s : State, LeftBy l (l.replay (Text.encode text)) s ∧
      ∀ bytes, l.replay (Text.encode text ++ bytes)
        = l.replay (Text.encode text) ++ readLines l s (linesFrom [] bytes) := by
  obtain ⟨texts, hlines, rfl⟩ := h.exists_lines
  have hread := replay_append l hlines
  rw [← Text.encode_join] at hread
  have hown := hread []
  rw [List.append_nil, linesFrom, if_pos rfl, readLines, List.append_nil] at hown
  refine ⟨_, ⟨?_, fun r hr => ?_⟩, fun bytes => hown ▸ hread bytes⟩
  · rw [hown, opened?_readTexts]
    rfl
  · rw [hown] at hr
    obtain ⟨line, -, hline⟩ := exists_readFrom (mem_of_last? hr)
    exact ⟨line, hline⟩

theorem exists_path? {position? : Option Nat} {startLevel : Nat} {indent : String} (parents : List String)
    (hd : ((p.depth? startLevel indent).or position?).isSome = true)
    (hn : p.name?.isSome = true ∨ kind.isFolderMarker = true) :
    ∃ path kept, p.path? kind parents position? startLevel indent = some (path, kept) := by
  obtain ⟨depth, hd⟩ := Option.isSome_iff_exists.mp hd
  rw [Props.path?, hd]
  cases p.get? "relpath" with
  | some relpath => exact ⟨_, _, rfl⟩
  | none =>
    cases hname : p.name? with
    | some n => cases depth <;> exact ⟨_, _, rfl⟩
    | none => exact ⟨_, _, if_pos (hn.resolve_left (by simp [hname]))⟩

/-- A line gives a record where its depth is known and its name is not missing. -/
theorem exists_record_of_classify {warnings : List Warning}
    (hc : classify l { s with line := s.line + 1 } text = (some (kind, p), warnings))
    (hd : kind = .root ∨ (depthOf l p).isSome = true)
    (hn : p.name?.isSome = true ∨ kind.isFolderMarker = true) :
    ∃ path, (step l s text).1.filterMap Signal.record?
      = [⟨kind, path, if kind = .root then some 0 else depthOf l p, p⟩] := by
  have hdepth : (if kind = .root then some 0 else (depthOf l p).or ((s.open?.map (position kind)).map (·.1)))
      = if kind = .root then some 0 else depthOf l p := by
    split
    next => rfl
    next hk =>
      obtain ⟨depth, hd⟩ := Option.isSome_iff_exists.mp (hd.resolve_left hk)
      rw [hd, Option.some_or]
  have hknown : ((p.depth? l.options.startLevel l.options.indent).or
      (if kind = .root then some 0 else depthOf l p)).isSome = true := by
    rw [Option.isSome_or, Bool.or_eq_true]
    rcases hd with rfl | hd
    · exact .inr rfl
    · exact .inl hd
  obtain ⟨path, kept, hp⟩ := exists_path? s.parents hknown hn
  refine ⟨path, ?_⟩
  rw [step]
  dsimp only
  rw [hc]
  simp only [place, hdepth, hp, List.filterMap_append, filterMap_record?_warnings]
  rfl

end TreeListing.Replay
