import Mathlib.Data.List.Basic
import TreeListing.Regex.Ends

/-!
What a regular expression matches, apart from any order of preference, and that the search finds
just that: a place where a match ends is listed if and only if there is such a match.
-/
namespace TreeListing.Regex

/-- The expression matches the text `u` with `before` characters in front and `after` behind it. The
parts that are passed on the way are the `groups`, the latest first. -/
inductive Matches : Regex → (before : Nat) → (u after : List Char) →
    (groups : List (String × List Char)) → Prop
  | empty {before : Nat} {after : List Char} : Matches .empty before [] after []
  | chars {set : CharSet} {before : Nat} {c : Char} {after : List Char} (h : set.contains c = true) :
      Matches (.chars set) before [c] after []
  | atStart {after : List Char} : Matches .atStart 0 [] after []
  | atEnd {before : Nat} : Matches .atEnd before [] [] []
  | seq {a b : Regex} {before : Nat} {u v after : List Char} {gs hs : List (String × List Char)}
      (ha : Matches a before u (v ++ after) gs) (hb : Matches b (before + u.length) v after hs) :
      Matches (.seq a b) before (u ++ v) after (hs ++ gs)
  | left {a b : Regex} {before : Nat} {u after : List Char} {gs : List (String × List Char)}
      (h : Matches a before u after gs) : Matches (.alt a b) before u after gs
  | right {a b : Regex} {before : Nat} {u after : List Char} {gs : List (String × List Char)}
      (h : Matches b before u after gs) : Matches (.alt a b) before u after gs
  | once {greedy : Bool} {a : Regex} {before : Nat} {u after : List Char}
      {gs : List (String × List Char)} (h : Matches a before u after gs) :
      Matches (.plus greedy a) before u after gs
  | more {greedy : Bool} {a : Regex} {before : Nat} {u v after : List Char}
      {gs hs : List (String × List Char)} (ha : Matches a before u (v ++ after) gs)
      (hb : Matches (.plus greedy a) (before + u.length) v after hs) :
      Matches (.plus greedy a) before (u ++ v) after (hs ++ gs)
  | skip {greedy : Bool} {a : Regex} {before : Nat} {after : List Char} :
      Matches (.maybe greedy a) before [] after []
  | take {greedy : Bool} {a : Regex} {before : Nat} {u after : List Char}
      {gs : List (String × List Char)} (h : Matches a before u after gs) :
      Matches (.maybe greedy a) before u after gs
  | group {name : String} {a : Regex} {before : Nat} {u after : List Char}
      {gs : List (String × List Char)} (h : Matches a before u after gs) :
      Matches (.group name a) before u after ((name, u) :: gs)

namespace Place

theorem mem_of_mem_distinctFrom {seen : Std.HashSet Nat} {ps : List Place} {q : Place}
    (h : q ∈ distinctFrom seen ps) : q ∈ ps := by
  induction ps generalizing seen with
  | nil => exact h
  | cons p ps ih =>
    rw [distinctFrom] at h
    split at h
    · exact List.mem_cons_of_mem _ (ih h)
    · rcases List.mem_cons.mp h with h | h
      · exact h ▸ List.mem_cons_self
      · exact List.mem_cons_of_mem _ (ih h)

theorem exists_mem_distinctFrom {seen : Std.HashSet Nat} {ps : List Place} {p : Place} (h : p ∈ ps)
    (hs : seen.contains p.before = false) : ∃ q ∈ distinctFrom seen ps, q.before = p.before := by
  induction ps generalizing seen with
  | nil => cases h
  | cons p' ps ih =>
    rw [distinctFrom]
    by_cases he : p'.before = p.before
    · rw [he, hs]
      exact ⟨p', List.mem_cons_self, he⟩
    · have hmem : p ∈ ps := (List.mem_cons.mp h).resolve_left fun hp => he (hp ▸ rfl)
      split
      · exact ih hmem hs
      · have hfree : (seen.insert p'.before).contains p.before = false := by simp [he, hs]
        obtain ⟨q, hq, hb⟩ := ih hmem hfree
        exact ⟨q, List.mem_cons_of_mem _ hq, hb⟩

theorem distinctFrom_append (seen : Std.HashSet Nat) (ps qs : List Place) :
    ∃ rest, distinctFrom seen (ps ++ qs) = distinctFrom seen ps ++ rest := by
  induction ps generalizing seen with
  | nil => exact ⟨distinctFrom seen qs, rfl⟩
  | cons p ps ih =>
    rw [List.cons_append, distinctFrom, distinctFrom]
    split
    · exact ih seen
    · obtain ⟨rest, hr⟩ := ih (seen.insert p.before)
      exact ⟨rest, congrArg _ hr⟩

/-- Leaving out what is there already makes no exception for a single place. -/
theorem distinct_eq (ps : List Place) : distinct ps = distinctFrom ∅ ps := by
  match ps with
  | [] => rfl
  | [p] => simp [distinct, distinctFrom]
  | _ :: _ :: _ => rfl

theorem mem_of_mem_distinct {ps : List Place} {q : Place} (h : q ∈ distinct ps) : q ∈ ps :=
  mem_of_mem_distinctFrom (distinct_eq ps ▸ h)

theorem exists_mem_distinct {ps : List Place} {p : Place} (h : p ∈ ps) :
    ∃ q ∈ distinct ps, q.before = p.before :=
  distinct_eq ps ▸ exists_mem_distinctFrom h (by simp)

theorem distinct_append (ps qs : List Place) : ∃ rest, distinct (ps ++ qs) = distinct ps ++ rest := by
  rw [distinct_eq, distinct_eq]
  exact distinctFrom_append ∅ ps qs

def passed (p : Place) : List (String × List Char) := p.groups.map fun g => (g.1, g.2.text)

theorem group?_eq (p : Place) (name : String) : p.group? name = p.passed.lookup name := by
  rw [group?, passed]
  induction p.groups with
  | nil => rfl
  | cons g gs ih =>
    rw [List.map_cons, List.lookup_cons, List.lookup_cons, ← ih]
    cases name == g.1 <;> rfl

/-- From one place to another by the text `u`, past these groups. -/
structure Leads (p q : Place) (u : List Char) (gs : List (String × List Char)) : Prop where
  before : q.before = p.before + u.length
  rest : p.rest = u ++ q.rest
  passed : q.passed = gs ++ p.passed

namespace Leads

variable {p q r : Place} {u v : List Char} {gs hs : List (String × List Char)}

theorem refl (p : Place) : p.Leads p [] [] := ⟨rfl, rfl, rfl⟩

theorem trans (h : p.Leads q u gs) (k : q.Leads r v hs) : p.Leads r (u ++ v) (hs ++ gs) where
  before := by rw [k.before, h.before, List.length_append, Nat.add_assoc]
  rest := by rw [h.rest, k.rest, List.append_assoc]
  passed := by rw [k.passed, h.passed, List.append_assoc]

/-- What follows a place is known by how much lies before it. -/
theorem rest_eq {after : List Char} (h : p.Leads q u gs) (hr : p.rest = v ++ after)
    (hb : q.before = p.before + v.length) : q.rest = after := by
  have hlen : u.length = v.length := by
    have := h.before
    omega
  exact (List.append_inj (h.rest.symm.trans hr) hlen).2

end Leads

end Place

open Place (Leads)

/-- Rounds that take text each, one behind the other. -/
inductive Repeats (a : Regex) : (before : Nat) → (u after : List Char) → Prop
  | nil {before : Nat} {after : List Char} : Repeats a before [] after
  | cons {before : Nat} {u v after : List Char} {gs : List (String × List Char)} (hu : u ≠ [])
      (ha : Matches a before u (v ++ after) gs) (hb : Repeats a (before + u.length) v after) :
      Repeats a before (u ++ v) after

/-- Rounds without text can be left out, unless there is no other one. -/
theorem Matches.repeats {greedy : Bool} {a : Regex} {before : Nat} {u after : List Char}
    {gs : List (String × List Char)} (h : Matches (.plus greedy a) before u after gs) :
    Repeats a before u after ∧ (u = [] → ∃ gs, Matches a before [] after gs) := by
  generalize hr : Regex.plus greedy a = r at h
  induction h with
  | @once _ _ before u after gs h =>
    obtain ⟨rfl, rfl⟩ := Regex.plus.inj hr
    refine ⟨?_, fun he => ⟨_, he ▸ h⟩⟩
    by_cases hu : u = []
    · exact hu ▸ .nil
    · have hone : Repeats a before (u ++ []) after := .cons hu (by simpa using h) .nil
      rwa [List.append_nil] at hone
  | @more _ _ before u v after gs hs ha hb _ ihb =>
    obtain ⟨rfl, rfl⟩ := Regex.plus.inj hr
    obtain ⟨hrep, -⟩ := ihb rfl
    by_cases hu : u = []
    · subst hu
      refine ⟨by simpa using hrep, fun he => ⟨gs, ?_⟩⟩
      obtain rfl : v = [] := he
      exact ha
    · exact ⟨.cons hu ha hrep, fun he => absurd (List.append_eq_nil_iff.mp he).1 hu⟩
  | _ => cases hr

/-- What the search lists for an expression is what the expression matches. -/
def Sound (a : Regex) : Prop :=
  ∀ p q : Place, q ∈ ends a p → ∃ u gs, p.Leads q u gs ∧ Matches a p.before u q.rest gs

def Complete (a : Regex) : Prop :=
  ∀ (before : Nat) (u after : List Char) (gs : List (String × List Char)),
    Matches a before u after gs → ∀ p : Place, p.before = before → p.rest = u ++ after →
      ∃ q ∈ ends a p, q.before = before + u.length

theorem Complete.exists_end {a : Regex} (hc : Complete a) (hs : Sound a) {u after : List Char}
    {gs : List (String × List Char)} {p : Place} (h : Matches a p.before u after gs)
    (hr : p.rest = u ++ after) : ∃ q ∈ ends a p, q.before = p.before + u.length ∧ q.rest = after := by
  obtain ⟨q, hq, hb⟩ := hc _ _ _ _ h p rfl hr
  obtain ⟨u', gs', hl, -⟩ := hs p q hq
  exact ⟨q, hq, hb, hl.rest_eq hr hb⟩

namespace Place

variable {greedy : Bool} {a : Regex}

/-- Whether to stay at a place comes last or first, it is one of the choices. -/
theorem mem_choices {p q : Place} {ps : List Place} :
    (q ∈ if greedy = true then ps ++ [p] else p :: ps) ↔ q = p ∨ q ∈ ps := by
  split
  · rw [List.mem_append, List.mem_singleton, or_comm]
  · exact List.mem_cons

theorem leads_of_mem_run {set : CharSet} {before : Nat} {groups : List (String × Piece)}
    {text : List Char} {q : Place} (h : q ∈ run set before groups text) :
    ∃ u, Leads ⟨before, text, groups⟩ q u [] ∧
      Matches (.plus greedy (.chars set)) before u q.rest [] := by
  induction text generalizing before with
  | nil => cases h
  | cons c text ih =>
    rw [run] at h
    split at h
    next hc =>
      have hone : Leads ⟨before, c :: text, groups⟩ ⟨before + 1, text, groups⟩ [c] [] :=
        ⟨rfl, rfl, rfl⟩
      rcases List.mem_cons.mp h with rfl | h
      · exact ⟨[c], hone, .once (.chars hc)⟩
      · obtain ⟨u, hl, hm⟩ := ih h
        have hmore : Matches (.plus greedy (.chars set)) before ([c] ++ u) q.rest ([] ++ []) :=
          .more (.chars hc) hm
        exact ⟨c :: u, hone.trans hl, hmore⟩
    next => cases h

theorem mem_run {set : CharSet} {before : Nat} {groups : List (String × Piece)} {u after : List Char}
    (hu : u ≠ []) (h : ∀ c ∈ u, set.contains c = true) :
    ⟨before + u.length, after, groups⟩ ∈ run set before groups (u ++ after) := by
  induction u generalizing before with
  | nil => exact absurd rfl hu
  | cons c u ih =>
    rw [List.forall_mem_cons] at h
    rw [List.cons_append, run, if_pos h.1]
    cases u with
    | nil => exact List.mem_cons_self
    | cons c' u =>
      refine List.mem_cons_of_mem _ ?_
      have hlater : ⟨before + 1 + (c' :: u).length, after, groups⟩
          ∈ run set (before + 1) groups (c' :: u ++ after) := ih (by simp) h.2
      simpa [Nat.add_assoc, Nat.add_comm 1] using hlater

theorem leads_of_mem_rounds (hs : Sound a) {fuel : Nat} {p q : Place}
    (h : q ∈ rounds greedy (ends a) fuel p) :
    q = p ∨ ∃ u gs, p.Leads q u gs ∧ Matches (.plus greedy a) p.before u q.rest gs := by
  induction fuel generalizing p with
  | zero => exact .inl (List.mem_singleton.mp h)
  | succ fuel ih =>
    have hmem : q = p ∨ q ∈ ((ends a p).filter (p.before < ·.before)).flatMap
        (rounds greedy (ends a) fuel) := by
      rw [rounds] at h
      exact mem_choices.mp (mem_of_mem_distinct h)
    rcases hmem with rfl | hmem
    · exact .inl rfl
    · obtain ⟨r, hr, hq⟩ := List.mem_flatMap.mp hmem
      obtain ⟨u, gs, hl, hm⟩ := hs p r (List.mem_filter.mp hr).1
      rcases ih hq with rfl | ⟨v, hs', hl', hm'⟩
      · exact .inr ⟨u, gs, hl, .once hm⟩
      · exact .inr ⟨u ++ v, hs' ++ gs, hl.trans hl', .more (hl'.rest ▸ hm) (hl.before ▸ hm')⟩

theorem exists_mem_rounds (hs : Sound a) (hc : Complete a) {before : Nat} {v after : List Char}
    (h : Repeats a before v after) {fuel : Nat} (hf : v.length ≤ fuel) {p : Place}
    (hb : p.before = before) (hr : p.rest = v ++ after) :
    ∃ q ∈ rounds greedy (ends a) fuel p, q.before = before + v.length := by
  induction h generalizing fuel p with
  | nil =>
    cases fuel with
    | zero => exact ⟨p, List.mem_singleton_self p, hb⟩
    | succ fuel =>
      obtain ⟨q, hq, he⟩ := exists_mem_distinct (mem_choices.mpr (.inl rfl))
      exact ⟨q, hq, he.trans hb⟩
  | @cons before u v after gs hu ha _ ih =>
    subst hb
    have hlen : 0 < u.length := List.length_pos_iff.mpr hu
    cases fuel with
    | zero => simp only [List.length_append] at hf; omega
    | succ fuel =>
      obtain ⟨r, hmem, hrb, hrr⟩ := hc.exists_end hs ha (by simpa using hr)
      have hle : v.length ≤ fuel := by simp only [List.length_append] at hf; omega
      obtain ⟨q, hq, he⟩ := ih hle hrb hrr
      have hmore : q ∈ ((ends a p).filter (p.before < ·.before)).flatMap
          (rounds greedy (ends a) fuel) :=
        List.mem_flatMap.mpr ⟨r, List.mem_filter.mpr ⟨hmem, by simp [hrb, hlen]⟩, hq⟩
      obtain ⟨q', hq', he'⟩ := exists_mem_distinct (mem_choices.mpr (.inr hmore))
      exact ⟨q', hq', by rw [he', he, List.length_append, Nat.add_assoc]⟩

end Place

/-- The places behind a first round that leads from `p` to `q`. -/
def further (greedy : Bool) (a : Regex) (p q : Place) : List Place :=
  if p.before < q.before then Place.rounds greedy (ends a) q.rest.length q else [q]

/-- A repetition of something else than a set of characters. -/
theorem ends_plus {a : Regex} (h : ∀ set, a ≠ .chars set) (greedy : Bool) (p : Place) :
    ends (.plus greedy a) p = Place.distinct ((ends a p).flatMap (further greedy a p)) := by
  cases a with
  | chars set => exact absurd rfl (h set)
  | _ => rfl

theorem Sound.plus {a : Regex} (ha : Sound a) (greedy : Bool) : Sound (.plus greedy a) := by
  intro p q h
  by_cases hset : ∃ set, a = .chars set
  · obtain ⟨set, rfl⟩ := hset
    have hq : q ∈ Place.run set p.before p.groups p.rest := by
      rw [ends] at h
      split at h
      · exact List.mem_reverse.mp h
      · exact h
    obtain ⟨u, hl, hm⟩ : ∃ u, p.Leads q u [] ∧
        Matches (.plus greedy (.chars set)) p.before u q.rest [] := Place.leads_of_mem_run hq
    exact ⟨u, [], hl, hm⟩
  · rw [ends_plus fun set he => hset ⟨set, he⟩] at h
    obtain ⟨r, hr, hq⟩ := List.mem_flatMap.mp (Place.mem_of_mem_distinct h)
    obtain ⟨u, gs, hl, hm⟩ := ha p r hr
    have hq : q = r ∨ ∃ v hs, r.Leads q v hs ∧ Matches (.plus greedy a) r.before v q.rest hs := by
      rw [further] at hq
      split at hq
      · exact Place.leads_of_mem_rounds ha hq
      · exact .inl (List.mem_singleton.mp hq)
    rcases hq with rfl | ⟨v, hs, hl', hm'⟩
    · exact ⟨u, gs, hl, .once hm⟩
    · exact ⟨u ++ v, hs ++ gs, hl.trans hl', .more (hl'.rest ▸ hm) (hl.before ▸ hm')⟩

theorem Sound.group {a : Regex} (ha : Sound a) (name : String) : Sound (.group name a) := by
  intro p q h
  obtain ⟨r, hr, rfl⟩ := List.mem_map.mp h
  obtain ⟨u, gs, hl, hm⟩ := ha p r hr
  refine ⟨u, (name, u) :: gs, ⟨hl.before, hl.rest, ?_⟩, .group hm⟩
  have hlen : r.before - p.before = u.length := by have := hl.before; omega
  have ht : (Piece.mk p.rest (r.before - p.before)).text = u := by
    rw [Piece.text, hlen, hl.rest, List.take_left]
  rw [Place.passed, List.map_cons, ht]
  exact congrArg _ hl.passed

theorem sound (a : Regex) : Sound a := by
  induction a with
  | empty =>
    intro p q h
    obtain rfl := List.mem_singleton.mp h
    exact ⟨[], [], .refl q, .empty⟩
  | chars set =>
    intro p q h
    obtain ⟨before, rest, groups⟩ := p
    rw [ends] at h
    split at h
    next c rest' hr =>
      obtain rfl : rest = c :: rest' := hr
      split at h
      next hc =>
        obtain rfl := List.mem_singleton.mp h
        exact ⟨[c], [], ⟨rfl, rfl, rfl⟩, .chars hc⟩
      next => cases h
    next => cases h
  | atStart =>
    intro p q h
    rw [ends] at h
    split at h
    next hb =>
      obtain rfl := List.mem_singleton.mp h
      exact ⟨[], [], .refl q, hb ▸ .atStart⟩
    next => cases h
  | atEnd =>
    intro p q h
    rw [ends] at h
    split at h
    next hr =>
      obtain rfl := List.mem_singleton.mp h
      exact ⟨[], [], .refl q, by rw [List.isEmpty_iff.mp hr]; exact .atEnd⟩
    next => cases h
  | seq a b iha ihb =>
    intro p q h
    obtain ⟨r, hr, hq⟩ := List.mem_flatMap.mp (Place.mem_of_mem_distinct h)
    obtain ⟨u, gs, hl, hm⟩ := iha p r hr
    obtain ⟨v, hs, hl', hm'⟩ := ihb r q hq
    exact ⟨u ++ v, hs ++ gs, hl.trans hl', .seq (hl'.rest ▸ hm) (hl.before ▸ hm')⟩
  | alt a b iha ihb =>
    intro p q h
    rcases List.mem_append.mp (Place.mem_of_mem_distinct h) with h | h
    · obtain ⟨u, gs, hl, hm⟩ := iha p q h
      exact ⟨u, gs, hl, .left hm⟩
    · obtain ⟨u, gs, hl, hm⟩ := ihb p q h
      exact ⟨u, gs, hl, .right hm⟩
  | plus greedy a ih => exact ih.plus greedy
  | maybe greedy a ih =>
    intro p q h
    rcases Place.mem_choices.mp (Place.mem_of_mem_distinct h) with rfl | hq
    · exact ⟨[], [], .refl q, .skip⟩
    · obtain ⟨u, gs, hl, hm⟩ := ih p q hq
      exact ⟨u, gs, hl, .take hm⟩
  | group name a ih => exact ih.group name

theorem Repeats.forall_mem {set : CharSet} {before : Nat} {u after : List Char}
    (h : Repeats (.chars set) before u after) : ∀ c ∈ u, set.contains c = true := by
  induction h with
  | nil => exact fun c hc => absurd hc List.not_mem_nil
  | cons _ ha _ ih =>
    cases ha with
    | chars hc => exact fun c hm => (List.mem_cons.mp hm).elim (fun he => he ▸ hc) (ih c)

theorem complete_plus_chars (greedy : Bool) (set : CharSet) : Complete (.plus greedy (.chars set)) := by
  intro before u after gs h p hb hr
  obtain ⟨hrep, hempty⟩ := h.repeats
  have hu : u ≠ [] := fun he => by
    obtain ⟨_, h⟩ := hempty he
    cases h
  refine ⟨⟨p.before + u.length, after, p.groups⟩, ?_, by rw [hb]⟩
  have hrun : ⟨p.before + u.length, after, p.groups⟩
      ∈ Place.run set p.before p.groups (u ++ after) := Place.mem_run hu hrep.forall_mem
  rw [ends, hr]
  split
  · exact List.mem_reverse.mpr hrun
  · exact hrun

theorem Complete.plus {a : Regex} (hc : Complete a) (greedy : Bool) : Complete (.plus greedy a) := by
  by_cases hset : ∃ set, a = .chars set
  · obtain ⟨set, rfl⟩ := hset
    exact complete_plus_chars greedy set
  · intro before u after gs h p hb hr
    obtain ⟨hrep, hempty⟩ := h.repeats
    rw [ends_plus fun set he => hset ⟨set, he⟩]
    subst hb
    cases hrep with
    | nil =>
      -- no round takes text: the first one then ends the repetition, for no further one is tried
      obtain ⟨_, h⟩ := hempty rfl
      obtain ⟨r, hmem, hrb, hrr⟩ := hc.exists_end (sound a) h hr
      have hself : r ∈ further greedy a p r := by
        rw [further, if_neg (by simp [hrb])]
        exact List.mem_singleton_self r
      obtain ⟨q, hq, he⟩ := Place.exists_mem_distinct (List.mem_flatMap.mpr ⟨r, hmem, hself⟩)
      exact ⟨q, hq, he.trans hrb⟩
    | @cons _ u v _ gs hu ha hb' =>
      obtain ⟨r, hmem, hrb, hrr⟩ := hc.exists_end (sound a) ha (by simpa using hr)
      have hlen : 0 < u.length := List.length_pos_iff.mpr hu
      have hle : v.length ≤ r.rest.length := by simp [hrr]
      obtain ⟨q, hq, he⟩ : ∃ q ∈ Place.rounds greedy (ends a) r.rest.length r, _ :=
        Place.exists_mem_rounds (sound a) hc hb' hle hrb hrr
      have hmore : q ∈ further greedy a p r := by rwa [further, if_pos (by omega)]
      obtain ⟨q', hq', he'⟩ := Place.exists_mem_distinct (List.mem_flatMap.mpr ⟨r, hmem, hmore⟩)
      exact ⟨q', hq', by rw [he', he, List.length_append, Nat.add_assoc]⟩

theorem complete (a : Regex) : Complete a := by
  induction a with
  | empty =>
    intro before u after gs h p hb hr
    cases h
    exact ⟨p, List.mem_singleton_self p, hb⟩
  | chars set =>
    intro before u after gs h p hb hr
    cases h with
    | chars hc => exact ⟨⟨p.before + 1, after, p.groups⟩, by simp [ends, hr, hc], by simp [hb]⟩
  | atStart =>
    intro before u after gs h p hb hr
    cases h
    exact ⟨p, by simp [ends, hb], hb⟩
  | atEnd =>
    intro before u after gs h p hb hr
    cases h
    exact ⟨p, by simp [ends, hr], hb⟩
  | seq a b iha ihb =>
    intro before u after gs h p hb hr
    cases h with
    | @seq _ _ _ u v _ gs hs ha hb' =>
      subst hb
      obtain ⟨r, hmem, hrb, hrr⟩ := iha.exists_end (sound a) ha (by simpa using hr)
      obtain ⟨q, hq, he⟩ := ihb _ _ _ _ hb' r hrb hrr
      obtain ⟨q', hq', he'⟩ := Place.exists_mem_distinct (List.mem_flatMap.mpr ⟨r, hmem, hq⟩)
      exact ⟨q', hq', by rw [he', he, List.length_append, Nat.add_assoc]⟩
  | alt a b iha ihb =>
    intro before u after gs h p hb hr
    have hq : ∃ q ∈ ends a p ++ ends b p, q.before = before + u.length := by
      cases h with
      | left h =>
        obtain ⟨q, hq, he⟩ := iha _ _ _ _ h p hb hr
        exact ⟨q, List.mem_append_left _ hq, he⟩
      | right h =>
        obtain ⟨q, hq, he⟩ := ihb _ _ _ _ h p hb hr
        exact ⟨q, List.mem_append_right _ hq, he⟩
    obtain ⟨q, hq, he⟩ := hq
    obtain ⟨q', hq', he'⟩ := Place.exists_mem_distinct hq
    exact ⟨q', hq', he'.trans he⟩
  | plus greedy a ih => exact ih.plus greedy
  | maybe greedy a ih =>
    intro before u after gs h p hb hr
    have hq : ∃ q, (q = p ∨ q ∈ ends a p) ∧ q.before = before + u.length := by
      cases h with
      | skip => exact ⟨p, .inl rfl, hb⟩
      | take h =>
        obtain ⟨q, hq, he⟩ := ih _ _ _ _ h p hb hr
        exact ⟨q, .inr hq, he⟩
    obtain ⟨q, hq, he⟩ := hq
    obtain ⟨q', hq', he'⟩ := Place.exists_mem_distinct (Place.mem_choices.mpr hq)
    exact ⟨q', hq', he'.trans he⟩
  | group name a ih =>
    intro before u after gs h p hb hr
    cases h with
    | group h =>
      obtain ⟨q, hq, he⟩ := ih _ _ _ _ h p hb hr
      exact ⟨_, List.mem_map_of_mem hq, he⟩

end TreeListing.Regex
