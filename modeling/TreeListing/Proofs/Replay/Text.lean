import TreeListing.Proofs.Ordinary
import TreeListing.Proofs.Replay.Shape
import TreeListing.Proofs.Replay.Walk
import TreeListing.Proofs.Text

/-!
Lines in a text of bytes. Texts that end with their only line feed are cut apart again, and each is
read as it was written. So it is with the lines of items whose names are on one line.
-/
namespace TreeListing.Replay

open LinePattern (names headings front charTokens)
open Template (Token)

/-- The text is one line, with its end. -/
def IsLine (text : String) : Prop := ∃ front, text = front ++ "\n" ∧ '\n' ∉ front.toList

theorem linesFrom_append {bytes : List UInt8} (h : 10 ∉ bytes) (line rest : List UInt8) :
    linesFrom line (bytes ++ 10 :: rest) = (line.reverse ++ bytes ++ [10]) :: linesFrom [] rest := by
  induction bytes generalizing line with
  | nil => simp [linesFrom]
  | cons b bytes ih =>
    rw [List.mem_cons, not_or] at h
    rw [List.cons_append, linesFrom, if_neg (Ne.symm h.1), ih h.2]
    simp

theorem linesFrom_line {line : String} (h : IsLine line) (rest : List UInt8) :
    linesFrom [] (Text.encode line ++ rest) = Text.encode line :: linesFrom [] rest := by
  obtain ⟨front, rfl, hf⟩ := h
  rw [Text.encode_append, Text.encode_newline, List.append_assoc, List.singleton_append,
    linesFrom_append (Text.notMem_encode hf)]
  rfl

theorem linesFrom_flatMap {texts : List String} (h : ∀ text ∈ texts, IsLine text) (rest : List UInt8) :
    linesFrom [] (texts.flatMap Text.encode ++ rest) = texts.map Text.encode ++ linesFrom [] rest := by
  induction texts with
  | nil => rfl
  | cons text texts ih =>
    rw [List.forall_mem_cons] at h
    rw [List.flatMap_cons, List.append_assoc, linesFrom_line h.1, ih h.2]
    rfl

/-- The text is made of whole lines. -/
def IsLines (text : String) : Prop := text = "" ∨ ∃ front, text = front ++ "\n"

theorem IsLines.exists_lines {text : String} (h : IsLines text) :
    ∃ texts, (∀ line ∈ texts, IsLine line) ∧ text = String.join texts := by
  have hall : ∀ cs : List Char, ∃ line texts, (∀ t ∈ line :: texts, IsLine t) ∧
      String.ofList cs ++ "\n" = String.join (line :: texts) := by
    intro cs
    induction cs with
    | nil => exact ⟨"\n", [], List.forall_mem_singleton.mpr ⟨"", rfl, List.not_mem_nil⟩, rfl⟩
    | cons c cs ih =>
      obtain ⟨line, texts, hlines, he⟩ := ih
      have hcons : String.ofList (c :: cs) ++ "\n" = String.ofList [c] ++ String.join (line :: texts) := by
        rw [← he, ← String.toList_inj]
        simp
      by_cases hc : c = '\n'
      · refine ⟨"\n", line :: texts, List.forall_mem_cons.mpr ⟨⟨"", rfl, List.not_mem_nil⟩, hlines⟩, ?_⟩
        rw [hcons, hc, String.join_cons (s := "\n")]
      · rw [List.forall_mem_cons] at hlines
        obtain ⟨⟨front, rfl, hfront⟩, hlines⟩ := hlines
        refine ⟨String.ofList [c] ++ front ++ "\n", texts,
          List.forall_mem_cons.mpr ⟨⟨_, rfl, ?_⟩, hlines⟩, ?_⟩
        · simpa [Ne.symm hc] using hfront
        · rw [hcons, String.join_cons, String.join_cons, String.append_assoc, String.append_assoc,
            String.append_assoc]
  rcases h with rfl | ⟨front, rfl⟩
  · exact ⟨[], List.forall_mem_nil _, rfl⟩
  · obtain ⟨line, texts, hlines, he⟩ := hall front.toList
    rw [String.ofList_toList] at he
    exact ⟨line :: texts, hlines, he⟩

theorem terminated_of_suffix {newline text : String} (h : newline.toList <:+ text.toList) :
    terminated newline text = text := by
  rw [terminated, if_pos (.inr (List.isSuffixOf_iff_suffix.mpr h))]

theorem terminated_of_isLine {text : String} (h : IsLine text) : terminated "\n" text = text := by
  obtain ⟨front, rfl, -⟩ := h
  refine terminated_of_suffix ?_
  rw [String.toList_append]
  exact List.suffix_append _ _

/-- Lines are read as they are handed on: with the end that the templates expect. -/
theorem readLines_append (l : Lister) (s : State) (texts : List String) (lines : List (List UInt8)) :
    readLines l s (texts.map Text.encode ++ lines)
      = (readTexts l s (texts.map (terminated l.options.newline))).1
        ++ readLines l (readTexts l s (texts.map (terminated l.options.newline))).2 lines := by
  induction texts generalizing s with
  | nil => rfl
  | cons text texts ih =>
    rw [List.map_cons, List.cons_append, readLines, Text.decode?_encode]
    simp only [ih, List.map_cons, readTexts, List.append_assoc]

theorem readLines_map_encode (l : Lister) (s : State) (texts : List String) :
    readLines l s (texts.map Text.encode)
      = (readTexts l s (texts.map (terminated l.options.newline))).1 := by
  have h := readLines_append l s texts []
  rwa [List.append_nil, readLines, List.append_nil] at h

theorem readLines_line (l : Lister) (s : State) {line : String} (h : IsLine line) (rest : List UInt8) :
    readLines l s (linesFrom [] (Text.encode line ++ rest))
      = (step l s (terminated l.options.newline line)).1
        ++ readLines l (step l s (terminated l.options.newline line)).2 (linesFrom [] rest) := by
  rw [linesFrom_line h, readLines, Text.decode?_encode]

/-- Whole lines are read before anything else. -/
theorem replay_append (l : Lister) {texts : List String} (h : ∀ text ∈ texts, IsLine text)
    (rest : List UInt8) : l.replay (texts.flatMap Text.encode ++ rest)
      = (readTexts l (State.start l) (texts.map (terminated l.options.newline))).1
        ++ readLines l (readTexts l (State.start l) (texts.map (terminated l.options.newline))).2
          (linesFrom [] rest) := by
  rw [Lister.replay, linesFrom_flatMap h, readLines_append]

/-- The bytes of lines are read line by line. -/
theorem replay_flatMap {l : Lister} (hn : l.options.newline = "\n") {texts : List String}
    (h : ∀ text ∈ texts, IsLine text) :
    l.replay (texts.flatMap Text.encode) = (readTexts l (State.start l) texts).1 := by
  have hkept : texts.map (terminated l.options.newline) = texts :=
    (List.map_congr_left fun text hm => hn ▸ terminated_of_isLine (h text hm)).trans (List.map_id' _)
  have hread := replay_append l h []
  rwa [List.append_nil, hkept, linesFrom, if_pos rfl, readLines, List.append_nil] at hread

theorem replay_line {l : Lister} (hn : l.options.newline = "\n") {line : String} (h : IsLine line)
    (rest : List UInt8) : l.replay (Text.encode line ++ rest) = (step l (State.start l) line).1
      ++ readLines l (step l (State.start l) line).2 (linesFrom [] rest) := by
  rw [Lister.replay, readLines_line l _ h, hn, terminated_of_isLine h]

/-- Indent and mark do not end a line. -/
structure KeepsLine (o : Options) : Prop where
  indent : o.showIndent = true → '\n' ∉ o.indent.toList
  hidden : o.showHidden = true → '\n' ∉ o.hidden.toList

variable {o : Options} {l : Lister} {kind : Kind} {d : Disk} {i : Item} {t : Template} {p : Props}

theorem newline_notMem (hu : Lister.Usual o kind t) (h : KeepsLine o)
    (hd : o.showDate = true → DateFormat.IsReadable o.dateFormat)
    (hr : kind = .file → LinePattern.details o ≠ [] → i.IsRegular d o)
    (hi : '\n' ∉ (i.calledBy (LinePattern.nameTypeOf o kind)).toList) (hp : t.props d i = .ok p)
    {name : String} (hm : name ∈ names o kind) : '\n' ∉ ((p.get? name).getD "").toList := by
  obtain ⟨property, value, hg, hv, he⟩ := hu.exists_of_mem hp hm
  rw [hv, Option.getD_some]
  have hheadings : ∀ nameType, '\n' ∉ (i.calledBy nameType).toList → name ∈ headings o nameType →
      '\n' ∉ value.toList := by
    intro nameType hi hm
    rcases LinePattern.mem_headings.mp hm with hn | ⟨hs, rfl⟩
    · cases nameType with
      | dot => cases hn
      | name =>
        obtain rfl : "name" = name := Option.some.inj hn
        obtain rfl : .name = property := Option.some.inj hg
        exact Except.ok.inj he ▸ hi
      | relpath =>
        obtain rfl : "relpath" = name := Option.some.inj hn
        obtain rfl : .relpath = property := Option.some.inj hg
        exact Except.ok.inj he ▸ hi
      | abspath =>
        obtain rfl : "abspath" = name := Option.some.inj hn
        obtain rfl : .abspath = property := Option.some.inj hg
        exact Except.ok.inj he ▸ hi
    · obtain rfl : .hidden = property := Option.some.inj hg
      have hvalue := Except.ok.inj he
      split at hvalue
      · exact hvalue ▸ h.hidden hs
      · exact hvalue ▸ List.not_mem_nil
  rcases List.mem_append.mp hm with hm | hm
  · obtain ⟨hs, rfl⟩ := LinePattern.mem_part.mp hm
    obtain rfl : .indent = property := Option.some.inj hg
    exact Except.ok.inj he ▸ Regex.Rounds.notMem (h.indent hs) (Property.texts_indent o _)
  · cases kind with
    | file =>
      rcases List.mem_append.mp hm with hm | hm
      · exact hheadings _ hi hm
      · have hregular := hr rfl (List.ne_nil_of_mem hm)
        rcases LinePattern.mem_details.mp hm with ⟨-, rfl⟩ | ⟨hs, rfl⟩ | ⟨-, rfl⟩
        · obtain rfl : .size = property := Option.some.inj hg
          exact filled_notMem (by decide +kernel) (Property.texts_size he)
        · obtain ⟨t, ht, hrender⟩ := Property.exists_date hg he
          exact (hd hs t value (hregular.date hs t ht) hrender).1
        · obtain rfl : .hash = property := Option.some.inj hg
          exact filled_notMem (by decide) (Property.texts_hash hregular.file he)
    | folder => exact hheadings _ hi hm
    | root => exact hheadings _ hi hm
    | folderEnd => cases hm
    | ellipsis => cases hm

theorem isLine_newline (ho : o.IsUsual) : IsLine o.newline := ⟨"", ho.newline, by simp⟩

theorem isReadable_dateFormat (ho : o.IsUsual) (hs : o.showDate = true) : DateFormat.IsReadable o.dateFormat :=
  ho.dates hs ▸ DateFormat.isReadable_usualFormat

theorem toList_render (hu : Lister.Usual o kind t) (p : Props) :
    (t.render p).toList = (front o kind).flatMap (Token.render p) ++ o.newline.toList := by
  rw [Template.render_eq, hu.tokens, LinePattern.lineTokens, List.flatMap_append,
    LinePattern.flatMap_render_charTokens]
  rfl

/-- What a template writes for an item is one line. -/
theorem isLine_render (hu : Lister.Usual o kind t) (hn : IsLine o.newline)
    (he : LinePattern.HasInnerEllipsis o) (h : KeepsLine o)
    (hd : o.showDate = true → DateFormat.IsReadable o.dateFormat)
    (hr : kind = .file → LinePattern.details o ≠ [] → i.IsRegular d o)
    (hi : '\n' ∉ (i.calledBy (LinePattern.nameTypeOf o kind)).toList) (hp : t.props d i = .ok p) :
    IsLine (t.render p) := by
  obtain ⟨final, hend, hfree⟩ := hn
  refine ⟨String.ofList ((front o kind).flatMap (Token.render p)) ++ final, ?_, ?_⟩
  · rw [← String.toList_inj, toList_render hu, hend]
    simp
  · rw [String.toList_append, String.toList_ofList, List.mem_append, not_or, List.mem_flatMap]
    refine ⟨?_, hfree⟩
    rintro ⟨token, hm, hn⟩
    cases token with
    | char c => exact (LinePattern.isInner_front he kind _ hm).2.2 (List.mem_singleton.mp hn).symm
    | field name =>
      refine newline_notMem hu h hd hr hi hp ?_ hn
      rw [← LinePattern.fields_lineTokens]
      exact List.mem_filterMap.mpr ⟨_, List.mem_append_left _ hm, rfl⟩

end TreeListing.Replay
