import TreeListing.Proofs.Template.Cut

/-!
When a line can be cut in one way only. A field ends where a character comes that none of its texts
has; and where a character comes for the last time, the line falls apart into what is before it and
what is behind it.
-/
namespace TreeListing.Template

variable {language : String → List Char → Prop} {ts us : List Token}

/-- A line can be cut in one way at most. -/
def Unambiguous (language : String → List Char → Prop) (ts : List Token) : Prop :=
  ∀ line values values', Cut language ts line values → Cut language ts line values' → values = values'

/-- What comes behind a field begins with no character of the field's texts. -/
def Separated (language : String → List Char → Prop) (name : String) (ts : List Token) : Prop :=
  ∀ line values, Cut language ts line values → ∀ c ∈ line.head?, ∀ u, language name u → c ∉ u

/-- The character has no place in a line. -/
structure Avoids (language : String → List Char → Prop) (c : Char) (ts : List Token) : Prop where
  char : .char c ∉ ts
  field : ∀ name, .field name ∈ ts → ∀ u, language name u → c ∉ u

theorem Cut.exists_of_append {line : List Char} {values : List (String × List Char)}
    (h : Cut language (ts ++ us) line values) :
    ∃ u v x y, line = u ++ v ∧ values = x ++ y ∧ Cut language ts u x ∧ Cut language us v y := by
  induction ts generalizing line values with
  | nil => exact ⟨[], line, [], values, rfl, rfl, .nil, h⟩
  | cons token ts ih =>
    cases h with
    | char h =>
      obtain ⟨u, v, x, y, rfl, rfl, hx, hy⟩ := ih h
      exact ⟨_ :: u, v, x, y, rfl, rfl, .char hx, hy⟩
    | field hu h =>
      obtain ⟨u, v, x, y, rfl, rfl, hx, hy⟩ := ih h
      exact ⟨_ ++ u, v, _ :: x, y, (List.append_assoc ..).symm, rfl, .field hu hx, hy⟩

theorem Cut.exists_of_chars {w line : List Char} {values : List (String × List Char)}
    (h : Cut language (w.map .char ++ ts) line values) :
    ∃ rest, line = w ++ rest ∧ Cut language ts rest values := by
  induction w generalizing line with
  | nil => exact ⟨line, rfl, h⟩
  | cons c w ih =>
    cases h with
    | char h =>
      obtain ⟨rest, rfl, hr⟩ := ih h
      exact ⟨rest, rfl, hr⟩

theorem cut_chars (language : String → List Char → Prop) (w : List Char) :
    Cut language (w.map .char) w [] := by
  induction w with
  | nil => exact .nil
  | cons c w ih => exact .char ih

theorem Cut.eq_of_chars {w line : List Char} {values : List (String × List Char)}
    (h : Cut language (w.map .char) line values) : line = w := by
  induction w generalizing line with
  | nil =>
    cases h
    rfl
  | cons c w ih =>
    cases h with
    | char h => rw [ih h]

theorem Cut.notMem {c : Char} {line : List Char} {values : List (String × List Char)}
    (h : Cut language ts line values) (ha : Avoids language c ts) : c ∉ line := by
  induction h with
  | nil => exact List.not_mem_nil
  | char _ ih =>
    rw [List.mem_cons, not_or]
    exact ⟨fun he => ha.char (he ▸ List.mem_cons_self),
      ih ⟨fun hm => ha.char (List.mem_cons_of_mem _ hm), fun n hm => ha.field n (List.mem_cons_of_mem _ hm)⟩⟩
  | field hu _ ih =>
    rw [List.mem_append, not_or]
    exact ⟨ha.field _ List.mem_cons_self _ hu,
      ih ⟨fun hm => ha.char (List.mem_cons_of_mem _ hm), fun n hm => ha.field n (List.mem_cons_of_mem _ hm)⟩⟩

theorem separated_nil (name : String) : Separated language name [] := by
  intro line values h c hc
  cases h
  cases hc

theorem separated_char {name : String} {c : Char} (hc : ∀ u, language name u → c ∉ u) (ts : List Token) :
    Separated language name (.char c :: ts) := by
  intro line values h c' hc'
  cases h
  obtain rfl := Option.some.inj hc'
  exact hc

theorem Separated.field {name other : String} (h : Separated language name ts)
    (hd : ∀ u v, language other u → language name v → ∀ c ∈ u, c ∉ v) :
    Separated language name (.field other :: ts) := by
  intro line values hc c hm
  cases hc with
  | @field _ u _ line _ hu hc =>
    cases u with
    | nil => exact h line _ hc c hm
    | cons c' u =>
      obtain rfl := Option.some.inj hm
      exact fun v hv => hd _ v hu hv _ List.mem_cons_self

theorem unambiguous_nil : Unambiguous language [] := by
  intro line values values' h h'
  cases h
  cases h'
  rfl

theorem Unambiguous.char (h : Unambiguous language ts) (c : Char) :
    Unambiguous language (.char c :: ts) := by
  intro line values values' hc hc'
  cases hc with
  | char hc =>
    cases hc' with
    | char hc' => exact h _ _ _ hc hc'

theorem Unambiguous.chars (h : Unambiguous language ts) (w : List Char) :
    Unambiguous language (w.map .char ++ ts) := by
  induction w with
  | nil => exact h
  | cons c w ih => exact ih.char c

/-- Two texts that are followed by characters which the other one does not have are the same. -/
theorem append_inj_of_head? {u u' v v' : List Char} (he : u ++ v = u' ++ v') (h : ∀ c ∈ v.head?, c ∉ u')
    (h' : ∀ c ∈ v'.head?, c ∉ u) : u = u' ∧ v = v' := by
  rcases List.append_eq_append_iff.mp he with ⟨w, rfl, rfl⟩ | ⟨w, rfl, rfl⟩
  · cases w with
    | nil => simp
    | cons c w => exact absurd (by simp) (h c rfl)
  · cases w with
    | nil => simp
    | cons c w => exact absurd (by simp) (h' c rfl)

theorem Unambiguous.field {name : String} (h : Unambiguous language ts)
    (hs : Separated language name ts) : Unambiguous language (.field name :: ts) := by
  intro line values values' hc hc'
  cases hc with
  | @field _ u _ rest _ hu hc =>
    generalize he : u ++ rest = line at hc'
    cases hc' with
    | @field _ u' _ rest' _ hu' hc' =>
      obtain ⟨rfl, rfl⟩ := append_inj_of_head? he (fun c hm => hs _ _ hc c hm _ hu')
        fun c hm => hs _ _ hc' c hm _ hu
      exact congrArg _ (h _ _ _ hc hc')

/-- A character that only comes before a part of the line shows where the part begins. -/
theorem Unambiguous.last {c : Char} (h : Unambiguous language ts) (k : Unambiguous language us)
    (hc : Avoids language c us) : Unambiguous language (ts ++ .char c :: us) := by
  intro line values values' hl hl'
  obtain ⟨u, v, x, y, rfl, rfl, hx, hy⟩ := hl.exists_of_append
  obtain ⟨u', v', x', y', he, rfl, hx', hy'⟩ := hl'.exists_of_append
  cases hy with
  | char hy =>
    cases hy' with
    | char hy' =>
      have hr := congrArg List.reverse he
      simp only [List.reverse_append, List.reverse_cons, List.append_assoc, List.singleton_append] at hr
      obtain ⟨hv, hu⟩ := append_inj_of_head? hr
        (fun _ hm => Option.some.inj hm ▸ fun hm => hy'.notMem hc (List.mem_reverse.mp hm))
        (fun _ hm => Option.some.inj hm ▸ fun hm => hy.notMem hc (List.mem_reverse.mp hm))
      obtain rfl := List.reverse_injective hv
      obtain rfl := List.reverse_injective (List.cons.inj hu).2
      rw [h _ _ _ hx hx', k _ _ _ hy hy']

theorem Unambiguous.concat (h : Unambiguous language ts) (c : Char) :
    Unambiguous language (ts ++ [.char c]) :=
  h.last unambiguous_nil ⟨List.not_mem_nil, fun _ hm => absurd hm List.not_mem_nil⟩

end TreeListing.Template
