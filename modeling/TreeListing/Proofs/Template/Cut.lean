import TreeListing.Proofs.Regex.Language
import TreeListing.Proofs.Template.Tokens

/-!
What a line expression recognises. A line that it matches can be cut into the characters of the
pattern and a text for every field, and the texts are found again in its groups.
-/
namespace TreeListing

namespace Template

open Regex (Matches MatchesAll Place)
open Regex.Place (Leads)

/-- The line is cut into the tokens, with a text of its language for every field. -/
inductive Cut (language : String → List Char → Prop) :
    List Token → List Char → List (String × List Char) → Prop
  | nil : Cut language [] [] []
  | char {c : Char} {ts : List Token} {line : List Char} {values : List (String × List Char)}
      (h : Cut language ts line values) : Cut language (.char c :: ts) (c :: line) values
  | field {name : String} {u : List Char} {ts : List Token} {line : List Char}
      {values : List (String × List Char)} (hu : language name u) (h : Cut language ts line values) :
      Cut language (.field name :: ts) (u ++ line) ((name, u) :: values)

/-- The groups in which the texts of the fields are found. -/
def groupsOf (index : Nat) : List (String × List Char) → List (String × List Char)
  | [] => []
  | value :: values => groupsOf (index + 1) values ++ [(groupName index, value.2)]

theorem groupName_ne {i j : Nat} (h : i ≠ j) : groupName i ≠ groupName j :=
  fun he => h (groupName_inj.mp he)

theorem lookup_groupsOf_of_lt {index i : Nat} {values : List (String × List Char)} (hi : i < index) :
    (groupsOf index values).lookup (groupName i) = none := by
  induction values generalizing index with
  | nil => rfl
  | cons value values ih =>
    rw [groupsOf, List.lookup_append, ih (Nat.lt_succ_of_lt hi), Named.lookup_cons,
      if_neg (groupName_ne (Nat.ne_of_lt hi))]
    rfl

theorem lookup_groupsOf {index i : Nat} {values : List (String × List Char)} (hi : index ≤ i) :
    (groupsOf index values).lookup (groupName i) = values[i - index]?.map Prod.snd := by
  induction values generalizing index with
  | nil => rfl
  | cons value values ih =>
    rw [groupsOf, List.lookup_append, Named.lookup_cons]
    obtain rfl | hlt := Nat.eq_or_lt_of_le hi
    · rw [lookup_groupsOf_of_lt (Nat.lt_succ_self index), if_pos rfl, Nat.sub_self]
      rfl
    · have hk : i - index = i - (index + 1) + 1 := by omega
      rw [ih hlt, if_neg (groupName_ne (Nat.ne_of_gt hlt)), hk, List.getElem?_cons_succ]
      exact Option.or_none

theorem Cut.names {language : String → List Char → Prop} {ts : List Token} {line : List Char}
    {values : List (String × List Char)} (h : Cut language ts line values) :
    values.map Prod.fst = ts.filterMap Token.field? := by
  induction h with
  | nil => rfl
  | char _ ih => exact ih
  | field _ _ ih => exact congrArg _ ih

theorem Cut.names_eq_fields {language : String → List Char → Prop} {segments : List Segment} {line : List Char}
    {values : List (String × List Char)} (h : Cut language (tokens segments) line values) :
    values.map Prod.fst = fields segments := h.names.trans (fields_eq segments).symm

variable {body : String → Regex} {language : String → List Char → Prop}

theorem matchesAll_items {ts : List Token}
    (hb : ∀ name, .field name ∈ ts → (body name).Recognises (language name)) {index before : Nat}
    {u after : List Char} {gs : List (String × List Char)} :
    MatchesAll (items body index ts) before u after gs ↔
      ∃ values, Cut language ts u values ∧ gs = groupsOf index values := by
  induction ts generalizing index before u gs with
  | nil =>
    constructor
    · intro h
      cases h
      exact ⟨[], .nil, rfl⟩
    · rintro ⟨values, hc, rfl⟩
      cases hc
      exact .nil
  | cons token ts ih =>
    have ih := @ih (fun name hm => hb name (List.mem_cons_of_mem _ hm))
    cases token with
    | char c =>
      constructor
      · intro h
        cases h with
        | cons ha hr =>
          obtain ⟨rfl, rfl⟩ := Regex.matches_one.mp ha
          obtain ⟨values, hc, rfl⟩ := ih.mp hr
          exact ⟨values, .char hc, List.append_nil _⟩
      · rintro ⟨values, hc, rfl⟩
        cases hc with
        | char hc =>
          rw [← List.append_nil (groupsOf index values)]
          exact .cons (Regex.matches_one.mpr ⟨rfl, rfl⟩) (ih.mpr ⟨values, hc, rfl⟩)
    | field name =>
      have hrec := hb name List.mem_cons_self
      constructor
      · intro h
        cases h with
        | cons ha hr =>
          cases ha with
          | group ha =>
            obtain ⟨hu, rfl⟩ := (hrec _ _ _ _).mp ha
            obtain ⟨values, hc, rfl⟩ := ih.mp hr
            exact ⟨_, .field hu hc, rfl⟩
      · rintro ⟨values, hc, rfl⟩
        cases hc with
        | field hu hc =>
          exact .cons (.group ((hrec _ _ _ _).mpr ⟨hu, rfl⟩)) (ih.mpr ⟨_, hc, rfl⟩)

theorem matchesAll_atEnd {before : Nat} {u after : List Char} {gs : List (String × List Char)}
    (h : MatchesAll [.atEnd] before u after gs) : u = [] ∧ after = [] ∧ gs = [] := by
  cases h with
  | cons ha hr =>
    cases hr
    generalize hx : [] ++ after = x at ha
    cases ha
    exact ⟨rfl, hx, rfl⟩

theorem matchesAll_items_atEnd {ts : List Token}
    (hb : ∀ name, .field name ∈ ts → (body name).Recognises (language name)) {index before : Nat}
    {u after : List Char} {gs : List (String × List Char)} :
    MatchesAll (items body index ts ++ [.atEnd]) before u after gs ↔
      after = [] ∧ ∃ values, Cut language ts u values ∧ gs = groupsOf index values := by
  rw [Regex.matchesAll_append]
  constructor
  · rintro ⟨u, v, gs, hs, rfl, rfl, hi, he⟩
    obtain ⟨rfl, rfl, rfl⟩ := matchesAll_atEnd he
    obtain ⟨values, hc, rfl⟩ := (matchesAll_items hb).mp hi
    exact ⟨rfl, values, by simpa using hc, rfl⟩
  · rintro ⟨rfl, hc⟩
    exact ⟨u, [], gs, [], by simp, rfl, (matchesAll_items hb).mpr hc, .single .atEnd⟩

theorem search_lineRegex (ts : List Token) (text : List Char) :
    (lineRegex body ts).search text = ((lineRegex body ts).ends ⟨0, text, []⟩).head? :=
  Regex.search_atStart _ text

/-- A line that is found can be cut, and the groups have the texts of the cut. -/
theorem exists_cut_of_search {ts : List Token}
    (hb : ∀ name, .field name ∈ ts → (body name).Recognises (language name)) {text : List Char}
    {q : Place} (h : (lineRegex body ts).search text = some q) :
    ∃ values, Cut language ts text values ∧ q.passed = groupsOf 0 values := by
  rw [search_lineRegex] at h
  obtain ⟨u, gs, hl, hm⟩ := Regex.sound _ _ q (List.mem_of_head? h)
  cases Regex.matches_concat.mp hm with
  | cons ha hr =>
    cases ha
    obtain ⟨hafter, values, hc, rfl⟩ := (matchesAll_items_atEnd hb).mp hr
    refine ⟨values, ?_, by simpa [Place.passed] using hl.passed⟩
    have hrest := hl.rest
    simp only [hafter, List.append_nil] at hrest
    simpa [hrest] using hc

theorem exists_search_of_cut {ts : List Token}
    (hb : ∀ name, .field name ∈ ts → (body name).Recognises (language name)) {text : List Char}
    {values : List (String × List Char)} (h : Cut language ts text values) :
    ∃ q, (lineRegex body ts).search text = some q := by
  have hm : Matches (lineRegex body ts) 0 ([] ++ text) [] (groupsOf 0 values ++ []) :=
    Regex.matches_concat.mpr (.cons .atStart ((matchesAll_items_atEnd hb).mpr ⟨rfl, values, h, rfl⟩))
  obtain ⟨q, hq, -⟩ := Regex.complete _ _ _ _ _ hm ⟨0, text, []⟩ rfl (by simp)
  rw [search_lineRegex]
  obtain ⟨q', places, hp⟩ := List.exists_cons_of_ne_nil (List.ne_nil_of_mem hq)
  exact ⟨q', by rw [hp]; rfl⟩

/-- Where the preferred text of a field at the start leaves a line that can be cut, that is the cut
that is found. -/
theorem exists_search_of_first {name : String} {ts : List Token}
    (hb : ∀ name, .field name ∈ ts → (body name).Recognises (language name)) {u line : List Char}
    {p : Place} (hf : Regex.First (body name) ⟨0, u ++ line, []⟩ p)
    (hl : Leads ⟨0, u ++ line, []⟩ p u []) {values : List (String × List Char)}
    (h : Cut language ts line values) :
    ∃ q values', (lineRegex body (.field name :: ts)).search (u ++ line) = some q ∧
      Cut language ts line values' ∧ q.passed = groupsOf 0 ((name, u) :: values') := by
  have hrest : p.rest = line := hl.rest_eq rfl hl.before
  obtain ⟨others, ho⟩ := hf
  let p' : Place := { p with groups := (groupName 0, ⟨u ++ line, p.before⟩) :: p.groups }
  obtain ⟨others', ho'⟩ : ∃ others',
      Regex.ends (.seq .atStart (.group (groupName 0) (body name))) ⟨0, u ++ line, []⟩ = p' :: others' := by
    obtain ⟨others', ho'⟩ := Regex.distinct_cons p' (others.map fun q =>
      { q with groups := (groupName 0, ⟨u ++ line, q.before⟩) :: q.groups })
    exact ⟨others', by simpa [Regex.ends, ho, p'] using ho'⟩
  have hitems : MatchesAll (items body 1 ts ++ [.atEnd]) p'.before line [] (groupsOf 1 values) :=
    (matchesAll_items_atEnd hb).mpr ⟨rfl, values, h, rfl⟩
  obtain ⟨q, v, gs, hq, hl', hm⟩ := Regex.head?_ends_concat ho' hitems
    (by rw [List.append_nil]; exact hrest)
  obtain ⟨hafter, values', hc, rfl⟩ := (matchesAll_items_atEnd hb).mp hm
  refine ⟨q, values', by rw [search_lineRegex]; exact hq, ?_, ?_⟩
  · have hv : line = v := by
      have := hl'.rest
      rw [hafter, List.append_nil] at this
      exact hrest.symm.trans this
    rwa [hv]
  · have htext : (Regex.Piece.mk (u ++ line) p.before).text = u := by
      rw [Regex.Piece.text, hl.before]
      simp
    have hp : p'.passed = [(groupName 0, u)] := by
      have := hl.passed
      simp only [Place.passed, List.map_nil, List.append_nil, List.map_eq_nil_iff] at this
      simp [Place.passed, p', this, htext]
    rw [hl'.passed, hp]
    rfl

/-- What is found at the places with these numbers, once `p` was found before them. -/
def foundFrom (place : Place) (index : Nat) (p : Props) (names : List String) : Props :=
  (names.zipIdx index).foldl (fun p (name, index) =>
    if p.contains name then p
    else p.insert name (String.ofList ((place.group? (groupName index)).getD []))) p

section
variable {values vs : List (String × List Char)} {v : String × List Char} {q : Place} {index : Nat}

/-- A field is found with the text of its group, unless its name was found before. -/
theorem foundFrom_cons (hq : q.passed = groupsOf 0 values) (hd : values.drop index = v :: vs) (p : Props)
    (names : List String) :
    foundFrom q index p (v.1 :: names)
      = foundFrom q (index + 1) (if v.1 ∈ p.names then p else p.insert v.1 (String.ofList v.2)) names := by
  have hat : values[index]? = some v := by
    have h : (values.drop index)[0]? = values[index + 0]? := List.getElem?_drop
    rw [hd] at h
    exact h.symm
  have hgroup : q.group? (groupName index) = some v.2 := by
    rw [Place.group?_eq, hq, lookup_groupsOf (Nat.zero_le index), Nat.sub_zero, hat]
    rfl
  have hstep : (if p.contains v.1 then p
      else p.insert v.1 (String.ofList ((q.group? (groupName index)).getD [])))
        = if v.1 ∈ p.names then p else p.insert v.1 (String.ofList v.2) := by
    simp only [hgroup, Props.contains_iff, Option.getD_some]
  rw [← hstep]
  rfl

theorem drop_succ (hd : values.drop index = v :: vs) : values.drop (index + 1) = vs := by
  rw [← List.drop_drop, hd, List.drop_one, List.tail_cons]

theorem names_foundFrom (hq : q.passed = groupsOf 0 values) (hd : values.drop index = vs) (p : Props) :
    (foundFrom q index p (vs.map Prod.fst)).names
      = p.names ++ ((vs.map Prod.fst).filter (· ∉ p.names)).eraseDups := by
  induction vs generalizing index p with
  | nil => exact (List.append_nil _).symm
  | cons v vs ih =>
    rw [List.map_cons, foundFrom_cons hq hd, ih (drop_succ hd)]
    by_cases hm : v.1 ∈ p.names
    · rw [if_pos hm, List.filter_cons_of_neg (by simpa using hm)]
    · have hinsert : (p.insert v.1 (String.ofList v.2)).names = p.names ++ [v.1] := by
        rw [Props.names, Props.pairs_insert hm, List.map_append]
        rfl
      rw [if_neg hm, hinsert, List.filter_cons_of_pos (by simpa using hm), List.eraseDups_cons,
        List.filter_filter, List.append_assoc, List.singleton_append]
      congr 4
      funext name
      by_cases hv : name = v.1 <;> simp [hv]

theorem get?_foundFrom (hq : q.passed = groupsOf 0 values) (hd : values.drop index = vs) (p : Props)
    (name : String) :
    (foundFrom q index p (vs.map Prod.fst)).get? name
      = (p.get? name).or ((vs.lookup name).map String.ofList) := by
  induction vs generalizing index p with
  | nil => exact Option.or_none.symm
  | cons v vs ih =>
    rw [List.map_cons, foundFrom_cons hq hd, ih (drop_succ hd), Named.lookup_cons]
    by_cases hm : v.1 ∈ p.names
    · rw [if_pos hm]
      split
      next he =>
        obtain ⟨value, hs⟩ := Option.isSome_iff_exists.mp (Props.contains_iff.mpr (he ▸ hm))
        rw [hs]
        rfl
      next => rfl
    · rw [if_neg hm, Props.get?_insert]
      split
      next he =>
        rw [Props.get?_eq_none (he ▸ hm)]
        rfl
      next => rfl

/-- The names are found in the order of their first places. -/
theorem names_found (hq : q.passed = groupsOf 0 values) :
    (found (values.map Prod.fst) q).names = (values.map Prod.fst).eraseDups := by
  refine (names_foundFrom hq List.drop_zero .empty).trans ?_
  simp [Props.names, Props.empty]

/-- Each name is found with the text at its first place. -/
theorem get?_found (hq : q.passed = groupsOf 0 values) (name : String) :
    (found (values.map Prod.fst) q).get? name = (values.lookup name).map String.ofList :=
  get?_foundFrom hq List.drop_zero .empty name

/-- The texts of the fields are found again, where no field has two places. -/
theorem pairs_found (hn : (values.map Prod.fst).Nodup) (hq : q.passed = groupsOf 0 values) :
    (found (values.map Prod.fst) q).pairs = values.map fun v => (v.1, String.ofList v.2) := by
  rw [Props.pairs_eq, names_found hq, eraseDups_eq_self hn, List.map_map]
  refine List.map_congr_left fun v hm => ?_
  rw [Function.comp_apply, get?_found hq, lookup_of_mem hn hm]
  rfl

end

end Template

end TreeListing
