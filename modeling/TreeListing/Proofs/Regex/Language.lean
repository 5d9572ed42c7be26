import TreeListing.Proofs.Regex.Sequence

/-!
The texts of an expression without groups and anchors: it matches the same texts wherever they
stand.
-/
namespace TreeListing.Regex

/-- The expression matches just the texts of the language, wherever they stand, past no groups. -/
def Recognises (a : Regex) (language : List Char → Prop) : Prop :=
  ∀ before u after gs, Matches a before u after gs ↔ language u ∧ gs = []

variable {a : Regex} {language : List Char → Prop}

theorem Recognises.congr {other : List Char → Prop} (h : a.Recognises language)
    (he : ∀ u, language u ↔ other u) : a.Recognises other :=
  fun before u after gs => (h before u after gs).trans (and_congr_left' (he u))

theorem recognises_chars (set : CharSet) :
    (Regex.chars set).Recognises fun u => ∃ c, set.contains c = true ∧ u = [c] := by
  intro before u after gs
  constructor
  · intro h
    cases h with
    | chars hc => exact ⟨⟨_, hc, rfl⟩, rfl⟩
  · rintro ⟨⟨c, hc, rfl⟩, rfl⟩
    exact .chars hc

theorem recognises_word (w : List Char) : (word w).Recognises (· = w) :=
  fun _ _ _ _ => matches_word

/-- One round or more, each with a text of its own. -/
theorem Recognises.plus (h : a.Recognises language) (greedy : Bool) :
    (Regex.plus greedy a).Recognises fun u =>
      ∃ us, us ≠ [] ∧ (∀ v ∈ us, language v) ∧ u = us.flatten := by
  intro before u after gs
  constructor
  · intro hm
    generalize hr : Regex.plus greedy a = r at hm
    induction hm with
    | once ha _ =>
      cases hr
      obtain ⟨hl, rfl⟩ := (h _ _ _ _).mp ha
      exact ⟨⟨[_], by simp, by simpa using hl, by simp⟩, rfl⟩
    | more ha _ _ ih =>
      cases hr
      obtain ⟨hl, rfl⟩ := (h _ _ _ _).mp ha
      obtain ⟨⟨us, -, hall, rfl⟩, rfl⟩ := ih rfl
      exact ⟨⟨_ :: us, by simp, List.forall_mem_cons.mpr ⟨hl, hall⟩, rfl⟩, rfl⟩
    | _ => cases hr
  · rintro ⟨⟨us, hne, hall, rfl⟩, rfl⟩
    induction us generalizing before with
    | nil => exact absurd rfl hne
    | cons v us ih =>
      rw [List.forall_mem_cons] at hall
      have ha := fun after => (h before v after []).mpr ⟨hall.1, rfl⟩
      cases us with
      | nil => simpa using Matches.once (ha after)
      | cons v' us => exact .more (ha _) (ih _ (by simp) hall.2)

theorem Recognises.maybe (h : a.Recognises language) (greedy : Bool) :
    (Regex.maybe greedy a).Recognises fun u => u = [] ∨ language u := by
  intro before u after gs
  constructor
  · intro hm
    cases hm with
    | skip => exact ⟨.inl rfl, rfl⟩
    | take ha => exact ((h _ _ _ _).mp ha).imp_left .inr
  · rintro ⟨rfl | hl, rfl⟩
    · exact .skip
    · exact .take ((h _ _ _ _).mpr ⟨hl, rfl⟩)

/-- One after the other, each with a text of its own. -/
theorem recognises_concat {as : List Regex} {languages : List (List Char → Prop)}
    (h : List.Forall₂ Recognises as languages) :
    (concat as).Recognises fun u =>
      ∃ us, List.Forall₂ (fun language v => language v) languages us ∧ u = us.flatten := by
  intro before u after gs
  rw [matches_concat]
  induction h generalizing before u gs with
  | nil =>
    constructor
    · intro hm
      cases hm
      exact ⟨⟨[], .nil, rfl⟩, rfl⟩
    · rintro ⟨⟨us, hall, rfl⟩, rfl⟩
      cases hall
      exact .nil
  | cons ha _ ih =>
    constructor
    · intro hm
      cases hm with
      | cons hm hr =>
        obtain ⟨hl, rfl⟩ := (ha _ _ _ _).mp hm
        obtain ⟨⟨us, hall, rfl⟩, rfl⟩ := (ih _ _ _).mp hr
        exact ⟨⟨_ :: us, .cons hl hall, rfl⟩, rfl⟩
    · rintro ⟨⟨us, hall, rfl⟩, rfl⟩
      cases hall with
      | cons hl hall =>
        exact .cons ((ha _ _ _ _).mpr ⟨hl, rfl⟩) ((ih _ _ _).mpr ⟨⟨_, hall, rfl⟩, rfl⟩)

/-- Between the start and the end of the text an expression finds just the texts that it matches. -/
theorem Recognises.isSome_search (h : a.Recognises language) (text : List Char) :
    ((concat [.atStart, a, .atEnd]).search text).isSome = true ↔ language text := by
  rw [search_atStart]
  constructor
  · intro hs
    obtain ⟨q, hq⟩ := Option.isSome_iff_exists.mp hs
    obtain ⟨u, gs, hl, hm⟩ := sound _ _ q (List.mem_of_head? hq)
    cases matches_concat.mp hm with
    | cons hstart hr =>
      cases hstart
      cases hr with
      | cons ha hr =>
        obtain ⟨hu, -⟩ := (h _ _ _ _).mp ha
        cases hr with
        | cons hend hr =>
          cases hr
          generalize hafter : [] ++ q.rest = after at hend
          cases hend
          have hrest := hl.rest
          simp only [List.nil_append] at hafter
          simp only [hafter, List.nil_append, List.append_nil] at hrest
          rwa [hrest]
  · intro hu
    have hm : MatchesAll [.atStart, a, .atEnd] 0 ([] ++ (text ++ ([] ++ []))) [] ((([] ++ []) ++ []) ++ []) :=
      .cons .atStart (.cons ((h _ _ _ _).mpr ⟨hu, rfl⟩) (.cons .atEnd .nil))
    obtain ⟨q, hq, -⟩ := complete _ _ _ _ _ (matches_concat.mpr hm) ⟨0, text, []⟩ rfl (by simp)
    obtain ⟨q', places, hp⟩ := List.exists_cons_of_ne_nil (List.ne_nil_of_mem hq)
    rw [hp]
    rfl

/-- The text is not empty and all its characters are in the set. -/
def Filled (set : CharSet) (u : List Char) : Prop := u ≠ [] ∧ ∀ c ∈ u, set.contains c = true

instance (set : CharSet) (u : List Char) : Decidable (Filled set u) :=
  decidable_of_iff (u ≠ [] ∧ u.all set.contains = true) (by rw [Filled, List.all_eq_true])

theorem recognises_filled (set : CharSet) (greedy : Bool) :
    (Regex.plus greedy (.chars set)).Recognises (Filled set) := by
  refine ((recognises_chars set).plus greedy).congr fun u => ⟨?_, fun h => ?_⟩
  · rintro ⟨us, hne, hall, rfl⟩
    refine ⟨fun he => ?_, fun c hc => ?_⟩
    · obtain ⟨v, us, rfl⟩ := List.exists_cons_of_ne_nil hne
      obtain ⟨c, -, rfl⟩ := hall v List.mem_cons_self
      cases he
    · obtain ⟨v, hv, hm⟩ := List.mem_flatten.mp hc
      obtain ⟨c', hc', rfl⟩ := hall v hv
      rwa [List.mem_singleton.mp hm]
  · have hflat : u = (u.map fun c => [c]).flatten := by
      rw [← List.flatMap_def, List.flatMap_singleton']
    refine ⟨_, by simpa using h.1, fun v hv => ?_, hflat⟩
    obtain ⟨c, hc, rfl⟩ := List.mem_map.mp hv
    exact ⟨c, h.2 c hc, rfl⟩

/-- The text is the word any number of times. -/
def Rounds (w u : List Char) : Prop := ∃ k, u = (List.replicate k w).flatten

theorem Rounds.notMem {w u : List Char} {c : Char} (hc : c ∉ w) (h : Rounds w u) : c ∉ u := by
  obtain ⟨k, rfl⟩ := h
  intro hm
  obtain ⟨v, hv, hm⟩ := List.mem_flatten.mp hm
  exact hc (List.eq_of_mem_replicate hv ▸ hm)

theorem recognises_rounds (w : List Char) (greedy : Bool) :
    (star greedy (word w)).Recognises (Rounds w) := by
  refine (((recognises_word w).plus greedy).maybe greedy).congr fun u => ⟨?_, ?_⟩
  · rintro (rfl | ⟨us, -, hall, rfl⟩)
    · exact ⟨0, rfl⟩
    · exact ⟨us.length, by rw [← List.eq_replicate_of_mem hall]⟩
  · rintro ⟨k, rfl⟩
    cases k with
    | zero => exact .inl rfl
    | succ k =>
      exact .inr ⟨_, by simp, fun v hv => List.eq_of_mem_replicate hv, rfl⟩

theorem Recognises.single (h : a.Recognises language) : (concat [a]).Recognises language := h

theorem recognises_empty : (concat []).Recognises (· = []) := by
  intro before u after gs
  rw [matches_concat]
  constructor
  · intro h
    cases h
    exact ⟨rfl, rfl⟩
  · rintro ⟨rfl, rfl⟩
    exact .nil

/-- The expression has no groups and no anchors. -/
def IsPlain : Regex → Prop
  | empty | chars _ => True
  | atStart | atEnd | group _ _ => False
  | seq a b | alt a b => a.IsPlain ∧ b.IsPlain
  | plus _ a | maybe _ a => a.IsPlain

/-- Without groups and anchors a match does not depend on where it is. -/
theorem IsPlain.anywhere (ha : a.IsPlain) {before : Nat} {u after : List Char}
    {gs : List (String × List Char)} (h : Matches a before u after gs) :
    gs = [] ∧ ∀ before' after', Matches a before' u after' [] := by
  induction h with
  | empty => exact ⟨rfl, fun _ _ => .empty⟩
  | chars hc => exact ⟨rfl, fun _ _ => .chars hc⟩
  | atStart => exact ha.elim
  | atEnd => exact ha.elim
  | seq _ _ iha ihb =>
    obtain ⟨rfl, hu⟩ := iha ha.1
    obtain ⟨rfl, hv⟩ := ihb ha.2
    exact ⟨rfl, fun _ _ => .seq (hu _ _) (hv _ _)⟩
  | left _ ih =>
    obtain ⟨hgs, hu⟩ := ih ha.1
    exact ⟨hgs, fun _ _ => .left (hu _ _)⟩
  | right _ ih =>
    obtain ⟨hgs, hu⟩ := ih ha.2
    exact ⟨hgs, fun _ _ => .right (hu _ _)⟩
  | once _ ih =>
    obtain ⟨hgs, hu⟩ := ih ha
    exact ⟨hgs, fun _ _ => .once (hu _ _)⟩
  | more _ _ iha ihb =>
    obtain ⟨rfl, hu⟩ := iha ha
    obtain ⟨rfl, hv⟩ := ihb ha
    exact ⟨rfl, fun _ _ => .more (hu _ _) (hv _ _)⟩
  | skip => exact ⟨rfl, fun _ _ => .skip⟩
  | take _ ih =>
    obtain ⟨hgs, hu⟩ := ih ha
    exact ⟨hgs, fun _ _ => .take (hu _ _)⟩
  | group _ _ => exact ha.elim

theorem IsPlain.recognises (ha : a.IsPlain) : a.Recognises fun u => ∃ gs, Matches a 0 u [] gs := by
  intro before u after gs
  constructor
  · intro h
    exact ⟨⟨[], (ha.anywhere h).2 _ _⟩, (ha.anywhere h).1⟩
  · rintro ⟨⟨gs, h⟩, rfl⟩
    exact (ha.anywhere h).2 _ _

theorem isPlain_concat {as : List Regex} (h : ∀ a ∈ as, a.IsPlain) : (concat as).IsPlain := by
  have hfoldl : ∀ (rest : List Regex) (a : Regex), a.IsPlain → (∀ b ∈ rest, b.IsPlain) →
      (rest.foldl seq a).IsPlain := by
    intro rest
    induction rest with
    | nil => exact fun _ ha _ => ha
    | cons b rest ih =>
      intro a ha hr
      rw [List.forall_mem_cons] at hr
      exact ih (.seq a b) ⟨ha, hr.1⟩ hr.2
  cases as with
  | nil => trivial
  | cons a rest =>
    rw [List.forall_mem_cons] at h
    exact hfoldl rest a h.1 h.2

theorem isPlain_word (w : List Char) : (word w).IsPlain := by
  apply isPlain_concat
  intro a ha
  obtain ⟨c, -, rfl⟩ := List.mem_map.mp ha
  trivial

end TreeListing.Regex
