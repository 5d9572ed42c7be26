import TreeListing.Proofs.Replay.Text

/-!
What becomes of the lines of a text. Each of them is answered, by a record or by a warning with its
number; and a line that fits no template leaves all behind as it was but the number of lines, so the
records are the same without it. The main statement is `lines_accounted_for`.
-/
namespace TreeListing.Replay

/-- The lines of a text, with their ends; the last line can do without one. -/
inductive Lines : String → List String → Prop
  | nil : Lines "" []
  | last {text : String} (hne : text ≠ "") (hn : '\n' ∉ text.toList) : Lines text [text]
  | cons {line rest : String} {lines : List String} (hl : IsLine line) (hr : Lines rest lines) :
      Lines (line ++ rest) (line :: lines)

def unlines (fronts : List String) : String := String.join (fronts.map (· ++ "\n"))

theorem lines_unlines {fronts : List String} (h : ∀ front ∈ fronts, '\n' ∉ front.toList) :
    Lines (unlines fronts) (fronts.map (· ++ "\n")) := by
  induction fronts with
  | nil => exact .nil
  | cons front fronts ih =>
    rw [List.forall_mem_cons] at h
    rw [unlines, List.map_cons, String.join_cons]
    exact .cons ⟨front, rfl, h.1⟩ (ih h.2)

theorem encode_unlines (fronts : List String) :
    Text.encode (unlines fronts) = (fronts.map (· ++ "\n")).flatMap Text.encode := Text.encode_join _

/-- A character that ends no line goes in front of the first one. -/
theorem Lines.exists_cons {c : Char} (hc : c ≠ '\n') {text : String} {lines : List String}
    (h : Lines text lines) : ∃ lines', Lines (String.singleton c ++ text) lines' := by
  have hnotMem : ∀ {front : String}, '\n' ∉ front.toList →
      '\n' ∉ (String.singleton c ++ front).toList := fun hn => by simpa [Ne.symm hc] using hn
  cases h with
  | nil => exact ⟨_, .last (by simp) (hnotMem (by simp))⟩
  | last hne hn => exact ⟨_, .last (by simp) (hnotMem hn)⟩
  | cons hl hr =>
    obtain ⟨front, rfl, hf⟩ := hl
    rw [← String.append_assoc]
    exact ⟨_, .cons ⟨String.singleton c ++ front, (String.append_assoc ..).symm, hnotMem hf⟩ hr⟩

theorem exists_lines (text : String) : ∃ lines, Lines text lines := by
  have hall : ∀ cs : List Char, ∃ lines, Lines (String.ofList cs) lines := by
    intro cs
    induction cs with
    | nil => exact ⟨[], .nil⟩
    | cons c cs ih =>
      obtain ⟨lines, h⟩ := ih
      have hcons : String.ofList (c :: cs) = String.singleton c ++ String.ofList cs := by
        rw [String.singleton_eq_ofList, ← String.ofList_append, List.singleton_append]
      rw [hcons]
      by_cases hc : c = '\n'
      · exact ⟨_, .cons ⟨"", by rw [hc]; rfl, by simp⟩ h⟩
      · exact h.exists_cons hc
  rw [← String.ofList_toList (s := text)]
  exact hall text.toList

theorem linesFrom_of_notMem {bytes : List UInt8} (h : 10 ∉ bytes) (line : List UInt8)
    (hne : line.reverse ++ bytes ≠ []) : linesFrom line bytes = [line.reverse ++ bytes] := by
  induction bytes generalizing line with
  | nil =>
    rw [List.append_nil] at hne ⊢
    rw [linesFrom, if_neg (by simpa using hne)]
  | cons b bytes ih =>
    rw [List.mem_cons, not_or] at h
    rw [linesFrom, if_neg (Ne.symm h.1), ih h.2 _ (by simp)]
    simp

theorem encode_ne_nil {text : String} (h : text ≠ "") : Text.encode text ≠ [] := fun he => by
  have hd := Text.decode?_encode text
  rw [he] at hd
  exact h (Option.some.inj hd).symm

theorem Lines.linesFrom_encode {text : String} {lines : List String} (h : Lines text lines) :
    linesFrom [] (Text.encode text) = lines.map Text.encode := by
  induction h with
  | nil => exact Text.encode_eq "" ▸ rfl
  | @last text hne hn =>
    rw [linesFrom_of_notMem (Text.notMem_encode hn) [] (encode_ne_nil hne)]
    rfl
  | cons hl _ ih => rw [Text.encode_append, linesFrom_line hl, ih, List.map_cons]

/-- The text is read line by line, each as it is handed on. -/
theorem Lines.replay_encode {text : String} {lines : List String} (h : Lines text lines) (l : Lister) :
    l.replay (Text.encode text)
      = (readTexts l (State.start l) (lines.map (terminated l.options.newline))).1 := by
  rw [Lister.replay, h.linesFrom_encode, readLines_map_encode]

/-- What there is for a line in the end: a record with the properties that the template of its kind
finds in the line, or one of two warnings. -/
inductive Answer (l : Lister) (number : Nat) (text : String) : Signal → Prop
  | record (r : Record) (h : match? l r.kind text = some r.props) : Answer l number text (.record r)
  | unparsed (h : ∀ kind ∈ Kind.tried, match? l kind text = none) :
    Answer l number text (.warning (.unparsed number (trimmed text)))
  | pathless {kind : Kind} {p : Props} (h : match? l kind text = some p) :
    Answer l number text (.warning (.pathless number (trimmed text)))

/-- There is one answer to the line, and perhaps in front of it the warning that the line fits
several templates. -/
def Answered (l : Lister) (number : Nat) (text : String) (signals : List Signal) : Prop :=
  ∃ answer, Answer l number text answer ∧ (signals = [answer] ∨
    ∃ first others, signals = [.warning (.ambiguous number (trimmed text) first others), answer])

section
variable {l : Lister} {s : State} {text : String} {kind : Kind} {p : Props}

theorem classify_cases (l : Lister) (s : State) (text : String) :
    (classify l s text = (none, [.unparsed s.line (trimmed text)]) ∧
      ∀ kind ∈ Kind.tried, match? l kind text = none) ∨
    ∃ kind p, match? l kind text = some p ∧ (classify l s text = (some (kind, p), []) ∨
      ∃ others, classify l s text
        = (some (kind, p), [.ambiguous s.line (trimmed text) kind others])) := by
  rw [classify]
  cases hr : root? l s text with
  | some p => exact .inr ⟨.root, p, (Option.filter_eq_some_iff.mp hr).1, .inl rfl⟩
  | none =>
    cases he : ellipsis? l s text with
    | some p =>
      obtain ⟨depth?, -, hp⟩ := Option.bind_eq_some_iff.mp he
      exact .inr ⟨.ellipsis, p, (Option.filter_eq_some_iff.mp hp).1, .inl rfl⟩
    | none =>
      cases hf : Kind.tried.filterMap fun kind => (match? l kind text).map (kind, ·) with
      | nil =>
        rw [List.filterMap_eq_nil_iff] at hf
        exact .inl ⟨rfl, fun kind hk => Option.map_eq_none_iff.mp (hf kind hk)⟩
      | cons found others =>
        obtain ⟨kind, -, hk⟩ := List.mem_filterMap.mp (hf ▸ List.mem_cons_self)
        obtain ⟨p, hp, rfl⟩ := Option.map_eq_some_iff.mp hk
        refine .inr ⟨kind, p, hp, ?_⟩
        cases others with
        | nil => exact .inl rfl
        | cons other others => exact .inr ⟨_, rfl⟩

theorem exists_answer_place (h : match? l kind text = some p) :
    ∃ answer, Answer l s.line text answer ∧ (place l s text kind p).1 = [answer] := by
  rw [place]
  dsimp only
  split
  · exact ⟨_, .pathless h, rfl⟩
  · exact ⟨_, .record ⟨kind, _, _, p⟩ h, rfl⟩

theorem line_place : (place l s text kind p).2.line = s.line := by
  rw [place]
  dsimp only
  split <;> rfl

theorem step_answered (l : Lister) (s : State) (text : String) :
    Answered l (s.line + 1) text (step l s text).1 ∧ (step l s text).2.line = s.line + 1 := by
  rw [step]
  rcases classify_cases l { s with line := s.line + 1 } text with ⟨hc, hn⟩ | ⟨kind, p, hp, hc⟩
  · rw [hc]
    exact ⟨⟨_, .unparsed hn, .inl rfl⟩, rfl⟩
  · obtain ⟨answer, ha, hplace⟩ := exists_answer_place (s := { s with line := s.line + 1 }) hp
    rcases hc with hc | ⟨others, hc⟩
    · rw [hc]
      exact ⟨⟨answer, ha, .inl hplace⟩, line_place⟩
    · rw [hc]
      exact ⟨⟨answer, ha, .inr ⟨kind, others, congrArg (_ :: ·) hplace⟩⟩, line_place⟩

/-- Every line has its answer, with the number of the line. -/
theorem readTexts_answered (l : Lister) (s : State) (texts : List String) :
    ∃ answers : List (List Signal), (readTexts l s texts).1 = answers.flatten ∧
      List.Forall₂ (fun numbered signals => Answered l numbered.2 numbered.1 signals)
        (texts.zipIdx (s.line + 1)) answers := by
  induction texts generalizing s with
  | nil => exact ⟨[], rfl, .nil⟩
  | cons text texts ih =>
    obtain ⟨hanswered, hline⟩ := step_answered l s text
    obtain ⟨answers, he, hall⟩ := ih (step l s text).2
    refine ⟨(step l s text).1 :: answers, congrArg (_ ++ ·) he, ?_⟩
    rw [List.zipIdx_cons]
    exact .cons hanswered (hline ▸ hall)

/-- The number of lines so far tells nothing about the kind of a line. -/
theorem classify_line (n : Nat) : (classify l { s with line := n } text).1 = (classify l s text).1 := by
  have hr : root? l { s with line := n } text = root? l s text := rfl
  have he : ellipsis? l { s with line := n } text = ellipsis? l s text := rfl
  rw [classify, classify, hr, he]
  split
  · rfl
  · split
    · rfl
    · split <;> rfl

theorem place_line (l : Lister) (s : State) (n : Nat) (text : String) (kind : Kind) (p : Props) :
    (place l { s with line := n } text kind p).1.filterMap Signal.record?
      = (place l s text kind p).1.filterMap Signal.record? ∧
    (place l { s with line := n } text kind p).2 = { (place l s text kind p).2 with line := n } := by
  rw [place, place]
  dsimp only
  split <;> exact ⟨rfl, rfl⟩

theorem filterMap_record?_warnings (warnings : List Warning) :
    (warnings.map Signal.warning).filterMap Signal.record? = [] := by
  rw [List.filterMap_map, List.filterMap_eq_nil_iff]
  exact fun _ _ => rfl

theorem step_line (l : Lister) (s : State) (n : Nat) (text : String) :
    (step l { s with line := n } text).1.filterMap Signal.record?
      = (step l s text).1.filterMap Signal.record? ∧
    (step l { s with line := n } text).2 = { (step l s text).2 with line := n + 1 } := by
  have hfound : (classify l { s with line := n + 1 } text).1
      = (classify l { s with line := s.line + 1 } text).1 := (classify_line _).trans (classify_line _).symm
  rw [step, step]
  dsimp only
  generalize classify l { s with line := n + 1 } text = classified at hfound ⊢
  generalize classify l { s with line := s.line + 1 } text = classified' at hfound ⊢
  obtain ⟨found?, warnings⟩ := classified
  obtain ⟨_, warnings'⟩ := classified'
  cases hfound
  cases found? with
  | none =>
    dsimp only
    rw [filterMap_record?_warnings, filterMap_record?_warnings]
    exact ⟨rfl, rfl⟩
  | some found =>
    obtain ⟨hrecords, hstate⟩ :=
      place_line l { s with line := s.line + 1 } (n + 1) text found.1 found.2
    dsimp only at hrecords hstate ⊢
    rw [List.filterMap_append, List.filterMap_append, filterMap_record?_warnings,
      filterMap_record?_warnings, hrecords]
    exact ⟨rfl, hstate⟩

/-- A line that fits no template is only counted. -/
theorem step_noise (h : ∀ kind, match? l kind text = none) : step l s text
    = ([.warning (.unparsed (s.line + 1) (trimmed text))], { s with line := s.line + 1 }) := by
  rcases classify_cases l { s with line := s.line + 1 } text with ⟨hc, -⟩ | ⟨kind, p, hp, -⟩
  · rw [step, hc]
    rfl
  · cases (h kind).symm.trans hp

end

/-- The other lines are these with noise among them. -/
inductive Strewn (IsNoise : String → Prop) : List String → List String → Prop
  | nil : Strewn IsNoise [] []
  | keep (line : String) {lines noisy : List String} (h : Strewn IsNoise lines noisy) :
    Strewn IsNoise (line :: lines) (line :: noisy)
  | noise {line : String} {lines noisy : List String} (hn : IsNoise line)
    (h : Strewn IsNoise lines noisy) : Strewn IsNoise lines (line :: noisy)

theorem Strewn.map {P Q : String → Prop} {f : String → String} (hf : ∀ line, P line → Q (f line))
    {lines noisy : List String} (h : Strewn P lines noisy) :
    Strewn Q (lines.map f) (noisy.map f) := by
  induction h with
  | nil => exact .nil
  | keep line _ ih => exact .keep _ ih
  | noise hn _ ih => exact .noise (hf _ hn) ih

theorem strewn_around {IsNoise : String → Prop} {before after : List String}
    (hb : ∀ line ∈ before, IsNoise line) (ha : ∀ line ∈ after, IsNoise line) (lines : List String) :
    Strewn IsNoise lines (before ++ lines ++ after) := by
  induction before with
  | nil =>
    induction lines with
    | nil =>
      induction after with
      | nil => exact .nil
      | cons line after ih =>
        rw [List.forall_mem_cons] at ha
        exact .noise ha.1 (ih ha.2)
    | cons line lines ih => exact .keep line ih
  | cons line before ih =>
    rw [List.forall_mem_cons] at hb
    exact .noise hb.1 (ih hb.2)

/-- The same records are read although there is noise. The count of lines differs by the noise so
far, so it is any number here. -/
theorem Strewn.filterMap_record? {l : Lister} {texts noisy : List String}
    (h : Strewn (fun text => ∀ kind, match? l kind text = none) texts noisy) (s : State) (n : Nat) :
    (readTexts l { s with line := n } noisy).1.filterMap Signal.record?
      = (readTexts l s texts).1.filterMap Signal.record? := by
  induction h generalizing s n with
  | nil => rfl
  | keep text _ ih =>
    obtain ⟨hrecords, hstate⟩ := step_line l s n text
    simp only [readTexts, List.filterMap_append, hrecords, hstate, ih]
  | noise hn _ ih =>
    simp only [readTexts, step_noise hn, List.filterMap_append]
    exact ih s (n + 1)

/-- Every line of a text is answered by one record or one warning with its number, and no line by a
failure. Lines that fit no template can be put anywhere between the lines of a text, and the records
stay the same. -/
theorem lines_accounted_for (l : Lister) :
    (∀ text, ∃ (lines : List String) (answers : List (List Signal)), Lines text lines ∧
      l.replay (Text.encode text) = answers.flatten ∧
      List.Forall₂ (fun numbered signals => Answered l numbered.2 numbered.1 signals)
        ((lines.map (terminated l.options.newline)).zipIdx 1) answers) ∧
    ∀ text lines text' noisy, Lines text lines → Lines text' noisy →
      Strewn (fun line => ∀ kind, match? l kind (terminated l.options.newline line) = none) lines noisy →
      (l.replay (Text.encode text')).filterMap Signal.record?
        = (l.replay (Text.encode text)).filterMap Signal.record? := by
  refine ⟨fun text => ?_, fun text lines text' noisy hl hl' hnoise => ?_⟩
  · obtain ⟨lines, h⟩ := exists_lines text
    obtain ⟨answers, he, hanswers⟩ :=
      readTexts_answered l (State.start l) (lines.map (terminated l.options.newline))
    exact ⟨lines, answers, h, (h.replay_encode l).trans he, hanswers⟩
  · rw [hl'.replay_encode, hl.replay_encode]
    have hhanded : Strewn (fun text => ∀ kind, match? l kind text = none)
        (lines.map (terminated l.options.newline)) (noisy.map (terminated l.options.newline)) :=
      hnoise.map (f := terminated l.options.newline) fun _ h => h
    exact hhanded.filterMap_record? (State.start l) 0

/-- The depths are counted here, and a line that fits no template is between a folder and its
ellipsis. -/
theorem lines_accounted_for_ellipsis :
    ∃ l, Lister.compile { layout := .xml, showIndent := false, showEllipsis := true } .core = .ok l ∧
      ((l.replay (Text.encode (unlines ["<Folder>", "<Folder name=\"a\">", "-", "<Ellipsis/>",
        "</Folder>", "</Folder>"]))).filterMap Signal.record?).map (fun r => (r.kind, r.path.text))
        = [(.root, ""), (.folder, "a"), (.ellipsis, "a"), (.folderEnd, "a"), (.folderEnd, "")] := by
  let o : Options := { layout := .xml, showIndent := false, showEllipsis := true }
  let clean : List String := ["<Folder>", "<Folder name=\"a\">", "<Ellipsis/>", "</Folder>", "</Folder>"]
  obtain ⟨l, hl⟩ : ∃ l, Lister.compile o .core = .ok l := exists_eq_ok_of_isOk (by decide +kernel)
  have hchecked : ((Lister.compile o .core).toOption.any fun l =>
      (Kind.all.all fun kind => (match? l kind (terminated l.options.newline "-\n")).isNone) &&
      decide (((l.replay (Text.encode (unlines clean))).filterMap Signal.record?).map
        (fun r => (r.kind, r.path.text))
        = [(.root, ""), (.folder, "a"), (.ellipsis, "a"), (.folderEnd, "a"), (.folderEnd, "")])) = true := by
    decide +kernel
  rw [hl] at hchecked
  simp only [Except.toOption, Option.any_some, Bool.and_eq_true, List.all_eq_true,
    Option.isNone_iff_eq_none, decide_eq_true_eq] at hchecked
  obtain ⟨hnoise, hrecords⟩ := hchecked
  refine ⟨l, hl, ?_⟩
  have hlines := @lines_unlines clean (by decide)
  have hlines' := @lines_unlines ["<Folder>", "<Folder name=\"a\">", "-", "<Ellipsis/>", "</Folder>",
    "</Folder>"] (by decide)
  rw [(lines_accounted_for l).2 _ _ _ _ hlines hlines' (.keep _ (.keep _ (.noise
    (fun kind => hnoise kind (by cases kind <;> decide)) (.keep _ (.keep _ (.keep _ .nil))))))]
  exact hrecords

end TreeListing.Replay
