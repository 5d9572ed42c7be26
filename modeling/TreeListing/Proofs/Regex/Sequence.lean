import TreeListing.Proofs.Regex.Matches

/-!
Expressions one after the other, as a line is recognised by them. The search tries the places of the
first expression in their order, so where that one is greedy it decides.
-/
namespace TreeListing.Regex

open Place (Leads)

inductive MatchesAll : List Regex → (before : Nat) → (u after : List Char) →
    (groups : List (String × List Char)) → Prop
  | nil {before : Nat} {after : List Char} : MatchesAll [] before [] after []
  | cons {a : Regex} {rest : List Regex} {before : Nat} {u v after : List Char}
      {gs hs : List (String × List Char)} (ha : Matches a before u (v ++ after) gs)
      (hr : MatchesAll rest (before + u.length) v after hs) :
      MatchesAll (a :: rest) before (u ++ v) after (hs ++ gs)

theorem MatchesAll.single {a : Regex} {before : Nat} {u after : List Char}
    {gs : List (String × List Char)} (h : Matches a before u after gs) :
    MatchesAll [a] before u after gs := by
  have hm : MatchesAll [a] before (u ++ []) after ([] ++ gs) := .cons h .nil
  simpa using hm

theorem matchesAll_append {as bs : List Regex} {before : Nat} {w after : List Char}
    {gs : List (String × List Char)} : MatchesAll (as ++ bs) before w after gs ↔
      ∃ u v gs' hs, w = u ++ v ∧ gs = hs ++ gs' ∧ MatchesAll as before u (v ++ after) gs' ∧
        MatchesAll bs (before + u.length) v after hs := by
  induction as generalizing before w gs with
  | nil =>
    constructor
    · exact fun h => ⟨[], w, [], gs, rfl, by simp, .nil, h⟩
    · rintro ⟨u, v, gs', hs, rfl, rfl, h, h'⟩
      cases h
      simpa using h'
  | cons a as ih =>
    constructor
    · intro h
      cases h with
      | @cons _ _ _ u v _ gs hs ha hr =>
        obtain ⟨u', v', gs', hs', rfl, rfl, h, h'⟩ := ih.mp hr
        refine ⟨u ++ u', v', gs' ++ gs, hs', by simp, by simp, .cons (by simpa using ha) h, ?_⟩
        rwa [List.length_append, ← Nat.add_assoc]
    · rintro ⟨u, v, gs', hs, rfl, rfl, h, h'⟩
      cases h with
      | @cons _ _ _ u u' _ gs hs' ha hr =>
        rw [List.append_assoc, ← List.append_assoc hs]
        refine .cons (by simpa using ha) (ih.mpr ⟨u', v, hs', hs, rfl, rfl, hr, ?_⟩)
        rwa [Nat.add_assoc, ← List.length_append]

theorem matches_foldl_seq {a : Regex} {rest : List Regex} {before : Nat} {w after : List Char}
    {gs : List (String × List Char)} :
    Matches (rest.foldl .seq a) before w after gs ↔ MatchesAll (a :: rest) before w after gs := by
  induction rest generalizing a with
  | nil =>
    refine ⟨.single, fun h => ?_⟩
    cases h with
    | cons ha hr =>
      cases hr
      simpa using ha
  | cons b rest ih =>
    rw [List.foldl_cons, ih]
    constructor
    · intro h
      cases h with
      | @cons _ _ _ u v _ gs hs ha hr =>
        cases ha with
        | @seq _ _ _ u u' _ gs hs' ha hb =>
          rw [List.append_assoc, ← List.append_assoc hs]
          refine .cons (by simpa using ha) (.cons hb ?_)
          rwa [Nat.add_assoc, ← List.length_append]
    · intro h
      cases h with
      | @cons _ _ _ u v _ gs hs ha hr =>
        cases hr with
        | @cons _ _ _ u' v' _ gs' hs' hb hr =>
          rw [← List.append_assoc, List.append_assoc hs']
          refine .cons (.seq (by simpa using ha) hb) ?_
          rwa [List.length_append, ← Nat.add_assoc]

theorem matches_concat {as : List Regex} {before : Nat} {w after : List Char}
    {gs : List (String × List Char)} :
    Matches (concat as) before w after gs ↔ MatchesAll as before w after gs := by
  cases as with
  | nil =>
    constructor
    · intro h
      cases h
      exact .nil
    · intro h
      cases h
      exact .empty
  | cons a rest => exact matches_foldl_seq

/-- An expression that begins with the start of the text only matches there. -/
theorem search_atStart (as : List Regex) (text : List Char) :
    (concat (.atStart :: as)).search text = (ends (concat (.atStart :: as)) ⟨0, text, []⟩).head? := by
  have hlater : ∀ before text, before ≠ 0 → ends (concat (.atStart :: as)) ⟨before, text, []⟩ = [] := by
    intro before text hne
    refine List.eq_nil_iff_forall_not_mem.mpr fun q hq => ?_
    obtain ⟨u, gs, -, hm⟩ := sound _ _ q hq
    cases matches_concat.mp hm with
    | cons ha _ =>
      cases ha
      exact hne rfl
  have hnone : ∀ text before, before ≠ 0 → (concat (.atStart :: as)).searchFrom before text = none := by
    intro text
    induction text with
    | nil => exact fun before hne => by rw [searchFrom, hlater before [] hne]; rfl
    | cons c text ih =>
      intro before hne
      rw [searchFrom, hlater before (c :: text) hne, ih (before + 1) (Nat.succ_ne_zero _)]
      rfl
  cases text with
  | nil => rfl
  | cons c text => rw [search, searchFrom, hnone text 1 (by decide), Option.or_none]

/-- The places behind all expressions of a list, from the places in front of them. -/
def stages (rest : List Regex) (ps : List Place) : List Place :=
  rest.foldl (fun ps b => Place.distinct (ps.flatMap (ends b))) ps

theorem ends_foldl_seq (a : Regex) (rest : List Regex) (p : Place) :
    ends (rest.foldl .seq a) p = stages rest (ends a p) := by
  induction rest generalizing a with
  | nil => rfl
  | cons b rest ih => exact ih (.seq a b)

theorem stages_singleton (rest : List Regex) (p : Place) :
    stages rest [p] = ends (rest.foldl .seq .empty) p := (ends_foldl_seq .empty rest p).symm

/-- What comes from the first places comes first. -/
theorem stages_append (rest : List Regex) (ps qs : List Place) :
    ∃ more, stages rest (ps ++ qs) = stages rest ps ++ more := by
  induction rest generalizing ps qs with
  | nil => exact ⟨qs, rfl⟩
  | cons b rest ih =>
    obtain ⟨more, hm⟩ := Place.distinct_append (ps.flatMap (ends b)) (qs.flatMap (ends b))
    obtain ⟨more', hm'⟩ := ih (Place.distinct (ps.flatMap (ends b))) more
    refine ⟨more', ?_⟩
    rw [stages, List.foldl_cons, List.flatMap_append, hm]
    exact hm'

theorem matchesAll_empty_cons {rest : List Regex} {before : Nat} {w after : List Char}
    {gs : List (String × List Char)} :
    MatchesAll (.empty :: rest) before w after gs ↔ MatchesAll rest before w after gs := by
  constructor
  · intro h
    cases h with
    | cons ha hr =>
      cases ha
      simpa using hr
  · intro h
    simpa using MatchesAll.cons (u := []) .empty h

/-- Where the other expressions match behind the preferred place of the first one, the preferred
match goes on from there. -/
theorem head?_ends_concat {a : Regex} {rest : List Regex} {p q : Place} {others : List Place}
    (ha : ends a p = q :: others) {u after : List Char} {gs : List (String × List Char)}
    (hm : MatchesAll rest q.before u after gs) (hr : q.rest = u ++ after) :
    ∃ r v hs, (ends (concat (a :: rest)) p).head? = some r ∧ q.Leads r v hs ∧
      MatchesAll rest q.before v r.rest hs := by
  obtain ⟨more, hmore⟩ := stages_append rest [q] others
  have hends : ends (concat (a :: rest)) p = ends (rest.foldl .seq .empty) q ++ more := by
    rw [← stages_singleton, ← hmore, concat, ends_foldl_seq, ha]
    rfl
  obtain ⟨r', hr', -⟩ := complete (rest.foldl .seq .empty) _ _ _ _
    (matches_foldl_seq.mpr (matchesAll_empty_cons.mpr hm)) q rfl hr
  obtain ⟨r, places, hplaces⟩ := List.exists_cons_of_ne_nil (List.ne_nil_of_mem hr')
  obtain ⟨v, hs, hl, hmatch⟩ := sound _ q r (hplaces ▸ List.mem_cons_self)
  exact ⟨r, v, hs, by rw [hends, hplaces]; rfl, hl,
    matchesAll_empty_cons.mp (matches_foldl_seq.mp hmatch)⟩

/-- The expression that matches just one text. -/
def word (w : List Char) : Regex := concat (w.map fun c => .chars (.one c))

theorem matches_one {c : Char} {before : Nat} {u after : List Char} {gs : List (String × List Char)} :
    Matches (.chars (.one c)) before u after gs ↔ u = [c] ∧ gs = [] := by
  constructor
  · intro h
    cases h with
    | chars hc => exact ⟨by simpa [CharSet.contains] using hc, rfl⟩
  · rintro ⟨rfl, rfl⟩
    exact .chars (by simp [CharSet.contains])

theorem matchesAll_word {w : List Char} {before : Nat} {u after : List Char}
    {gs : List (String × List Char)} :
    MatchesAll (w.map fun c => .chars (.one c)) before u after gs ↔ u = w ∧ gs = [] := by
  induction w generalizing before u gs with
  | nil =>
    constructor
    · intro h
      cases h
      exact ⟨rfl, rfl⟩
    · rintro ⟨rfl, rfl⟩
      exact .nil
  | cons c w ih =>
    constructor
    · intro h
      cases h with
      | cons ha hr =>
        obtain ⟨rfl, rfl⟩ := matches_one.mp ha
        obtain ⟨rfl, rfl⟩ := ih.mp hr
        exact ⟨rfl, rfl⟩
    · rintro ⟨rfl, rfl⟩
      have hm : MatchesAll (.chars (.one c) :: w.map fun c => .chars (.one c)) before ([c] ++ w) after
          ([] ++ []) := .cons (matches_one.mpr ⟨rfl, rfl⟩) (ih.mpr ⟨rfl, rfl⟩)
      exact hm

theorem matches_word {w : List Char} {before : Nat} {u after : List Char}
    {gs : List (String × List Char)} :
    Matches (word w) before u after gs ↔ u = w ∧ gs = [] := matches_concat.trans matchesAll_word

/-- The place is the preferred end of the expression. -/
def First (a : Regex) (p q : Place) : Prop := ∃ others, ends a p = q :: others

theorem distinct_cons (q : Place) (ps : List Place) : ∃ others, Place.distinct (q :: ps) = q :: others :=
  Place.distinct_append [q] ps

theorem first_word {w rest : List Char} {p : Place} (hr : p.rest = w ++ rest) :
    ∃ q, First (word w) p q ∧ p.Leads q w [] ∧ q.rest = rest := by
  obtain ⟨q', hq', -⟩ := complete (word w) p.before w rest [] (matches_word.mpr ⟨rfl, rfl⟩) p rfl hr
  obtain ⟨q, others, hq⟩ := List.exists_cons_of_ne_nil (List.ne_nil_of_mem hq')
  obtain ⟨u, gs, hl, hm⟩ := sound _ p q (hq ▸ List.mem_cons_self)
  obtain ⟨rfl, rfl⟩ := matches_word.mp hm
  exact ⟨q, ⟨others, hq⟩, hl, hl.rest_eq hr hl.before⟩

theorem ends_word_eq_nil {w : List Char} {p : Place} (h : ¬ w <+: p.rest) : ends (word w) p = [] := by
  refine List.eq_nil_iff_forall_not_mem.mpr fun q hq => ?_
  obtain ⟨u, gs, hl, hm⟩ := sound _ p q hq
  obtain ⟨rfl, -⟩ := matches_word.mp hm
  exact h ⟨q.rest, hl.rest.symm⟩

theorem run_replicate (c : Char) (k before : Nat) (groups : List (String × Piece)) {rest : List Char}
    (h : ¬ [c] <+: rest) : ∃ others, Place.run (.one c) before groups (List.replicate (k + 1) c ++ rest)
      = others ++ [⟨before + (k + 1), rest, groups⟩] := by
  induction k generalizing before with
  | zero =>
    have hstop : Place.run (.one c) (before + 1) groups rest = [] := by
      cases rest with
      | nil => rfl
      | cons c' rest =>
        have hc : c' ≠ c := fun he => h ⟨rest, by rw [he]; rfl⟩
        simp [Place.run, CharSet.contains, hc]
    exact ⟨[], by simp [Place.run, CharSet.contains, hstop]⟩
  | succ k ih =>
    obtain ⟨others, ho⟩ := ih (before + 1)
    refine ⟨⟨before + 1, List.replicate (k + 1) c ++ rest, groups⟩ :: others, ?_⟩
    rw [List.replicate_succ, List.cons_append, Place.run, if_pos (by simp [CharSet.contains]), ho,
      List.cons_append, Nat.add_assoc, Nat.add_comm 1]

theorem le_length_flatten_replicate {w : List Char} (hw : w ≠ []) (k : Nat) :
    k ≤ (List.replicate k w).flatten.length := by
  rw [List.length_flatten, List.map_replicate, List.sum_replicate_nat]
  exact Nat.le_mul_of_pos_right k (List.length_pos_iff.mpr hw)

theorem first_rounds_word {w : List Char} (hw : w ≠ []) {rest : List Char} (h : ¬ w <+: rest)
    {k fuel : Nat} (hf : k ≤ fuel) {p : Place} (hr : p.rest = (List.replicate k w).flatten ++ rest) :
    ∃ q others, Place.rounds true (ends (word w)) fuel p = q :: others ∧
      p.Leads q (List.replicate k w).flatten [] ∧ q.rest = rest := by
  induction k generalizing fuel p with
  | zero =>
    have hrest : p.rest = rest := hr
    refine ⟨p, [], ?_, .refl p, hrest⟩
    cases fuel with
    | zero => rfl
    | succ fuel => simp [Place.rounds, ends_word_eq_nil (hrest ▸ h), Place.distinct]
  | succ k ih =>
    rw [List.replicate_succ, List.flatten_cons, List.append_assoc] at hr
    obtain ⟨q, ⟨others, hq⟩, hl, hqr⟩ := first_word hr
    cases fuel with
    | zero => omega
    | succ fuel =>
      obtain ⟨r, others', hr', hl', hrr⟩ := ih (Nat.le_of_succ_le_succ hf) hqr
      have hlt : p.before < q.before := by
        have := hl.before
        have := List.length_pos_iff.mpr hw
        omega
      obtain ⟨others'', ho⟩ := distinct_cons r (others' ++
        (others.filter (p.before < ·.before)).flatMap (Place.rounds true (ends (word w)) fuel) ++ [p])
      refine ⟨r, others'', ?_, ?_, hrr⟩
      · simpa [Place.rounds, hq, hlt, hr'] using ho
      · rw [List.replicate_succ, List.flatten_cons]
        exact hl.trans hl'

theorem First.star {a : Regex} {p q : Place} (h : First (.plus true a) p q) :
    First (star true a) p q := by
  obtain ⟨others, hq⟩ := h
  obtain ⟨others', ho⟩ := distinct_cons q (others ++ [p])
  exact ⟨others', by simpa [Regex.star, ends, hq] using ho⟩

theorem ends_plus_word_eq_nil {w : List Char} {p : Place} (h : ¬ w <+: p.rest) :
    ends (.plus true (word w)) p = [] := by
  refine List.eq_nil_iff_forall_not_mem.mpr fun q hq => ?_
  obtain ⟨u, gs, hl, hm⟩ := sound _ p q hq
  cases hm with
  | once hm =>
    obtain ⟨rfl, -⟩ := matches_word.mp hm
    exact h ⟨_, hl.rest.symm⟩
  | more hm _ =>
    obtain ⟨rfl, -⟩ := matches_word.mp hm
    exact h ⟨_, (hl.rest.trans (List.append_assoc _ _ _)).symm⟩

/-- A letter is read again and again in one go. -/
theorem first_plus_letter {c : Char} {rest : List Char} (h : ¬ [c] <+: rest) {k : Nat} {p : Place}
    (hr : p.rest = (List.replicate (k + 1) [c]).flatten ++ rest) :
    ∃ q, First (.plus true (word [c])) p q ∧ p.Leads q (List.replicate (k + 1) [c]).flatten [] ∧
      q.rest = rest := by
  obtain ⟨before, text, groups⟩ := p
  rw [List.flatten_replicate_singleton] at hr ⊢
  obtain rfl : text = List.replicate (k + 1) c ++ rest := hr
  obtain ⟨others, ho⟩ := run_replicate c k before groups h
  refine ⟨⟨before + (k + 1), rest, groups⟩, ⟨others.reverse, ?_⟩, ⟨?_, rfl, rfl⟩, rfl⟩
  · rw [word, List.map_singleton, concat, List.foldl_nil, ends, if_pos rfl, ho, List.reverse_append,
      List.reverse_singleton, List.singleton_append]
  · rw [List.length_replicate]

theorem word_ne_chars {w : List Char} (hw : 1 < w.length) (set : CharSet) : word w ≠ .chars set := by
  intro he
  have hm : Matches (word w) 0 w [] [] := matches_word.mpr ⟨rfl, rfl⟩
  rw [he] at hm
  cases hm with
  | chars _ => exact absurd hw (Nat.lt_irrefl 1)

/-- A longer word is read in rounds, each of them from where the one before it ended. -/
theorem first_plus_word {w : List Char} (hw : 1 < w.length) {rest : List Char} (h : ¬ w <+: rest)
    {k : Nat} {p : Place} (hr : p.rest = (List.replicate (k + 1) w).flatten ++ rest) :
    ∃ q, First (.plus true (word w)) p q ∧ p.Leads q (List.replicate (k + 1) w).flatten [] ∧
      q.rest = rest := by
  have hne : w ≠ [] := List.ne_nil_of_length_pos (Nat.zero_lt_of_lt hw)
  rw [List.replicate_succ, List.flatten_cons, List.append_assoc] at hr
  obtain ⟨q, ⟨others, hq⟩, hl, hqr⟩ := first_word hr
  have hlt : p.before < q.before := by
    have := hl.before
    omega
  have hfuel : k ≤ q.rest.length := by
    rw [hqr, List.length_append]
    exact Nat.le_add_right_of_le (le_length_flatten_replicate hne k)
  obtain ⟨r, others', hr', hl', hrr⟩ := first_rounds_word hne h hfuel hqr
  obtain ⟨others'', ho⟩ := distinct_cons r (others' ++ others.flatMap (further true (word w) p))
  refine ⟨r, ⟨others'', ?_⟩, ?_, hrr⟩
  · rw [ends_plus (word_ne_chars hw), hq, List.flatMap_cons, further, if_pos hlt, hr']
    exact ho
  · rw [List.replicate_succ, List.flatten_cons]
    exact hl.trans hl'

/-- A word any number of times, as often as may be: the preferred end is where it stands no more. -/
theorem first_star_word {w : List Char} (hw : w ≠ []) {rest : List Char} (h : ¬ w <+: rest) {k : Nat}
    {p : Place} (hr : p.rest = (List.replicate k w).flatten ++ rest) :
    ∃ q, First (star true (word w)) p q ∧ p.Leads q (List.replicate k w).flatten [] ∧
      q.rest = rest := by
  cases k with
  | zero =>
    have hrest : p.rest = rest := hr
    have hnone := ends_plus_word_eq_nil (hrest ▸ h)
    exact ⟨p, ⟨[], by simp [star, ends, hnone, Place.distinct]⟩, .refl p, hrest⟩
  | succ k =>
    obtain hone | hlong := Nat.eq_or_lt_of_le (Nat.succ_le_of_lt (List.length_pos_iff.mpr hw))
    · obtain ⟨c, rfl⟩ := List.length_eq_one_iff.mp hone.symm
      obtain ⟨q, hq, hl, hqr⟩ := first_plus_letter h hr
      exact ⟨q, hq.star, hl, hqr⟩
    · obtain ⟨q, hq, hl, hqr⟩ := first_plus_word hlong h hr
      exact ⟨q, hq.star, hl, hqr⟩

end TreeListing.Regex
