import Mathlib.Data.List.Basic
import TreeListing.Proofs.Regex.Sequence
import TreeListing.Regex.Parser

/-!
How regular expressions are read that are put together from pieces: a piece adds its items to the
group that is being read, wherever it stands.
-/
namespace TreeListing.Regex.Parser

/-- The state behind further items of the group that is being read. -/
def State.extend (s : State) (items : List Regex) : State :=
  { s with mode := .plain, frame := { s.frame with items := items.reverse ++ s.frame.items } }

/-- The state once a repetition that may still become lazy counts as greedy. -/
def State.settled? (s : State) : Option State :=
  match s.mode with
  | .plain => some s
  | .repeated rounds => s.repeat? rounds true
  | _ => none

/-- The text adds the items and leaves nothing open. -/
def Reads (text : List Char) (items : List Regex) : Prop :=
  ∀ s : State, s.mode = .plain → text.foldlM step s = some (s.extend items)

/-- The text adds the items, but a question mark behind it would still change the last one. -/
def Leaves (text : List Char) (items : List Regex) : Prop :=
  ∀ s : State, s.mode = .plain →
    ∃ s', text.foldlM step s = some s' ∧ s'.settled? = some (s.extend items)

theorem State.extend_nil {s : State} (h : s.mode = .plain) : s.extend [] = s := by
  cases s
  simp_all [extend]

theorem State.extend_extend (s : State) (as bs : List Regex) :
    (s.extend as).extend bs = s.extend (as ++ bs) := by
  simp [extend, List.append_assoc]

theorem Reads.leaves {text : List Char} {items : List Regex} (h : Reads text items) :
    Leaves text items := fun s hs => ⟨_, h s hs, rfl⟩

theorem Reads.nil : Reads [] [] := fun s hs => by rw [State.extend_nil hs]; rfl

theorem Reads.append {text more : List Char} {as bs : List Regex} (h : Reads text as)
    (k : Reads more bs) : Reads (text ++ more) (as ++ bs) := by
  intro s hs
  rw [List.foldlM_append, h s hs]
  exact (k _ rfl).trans (congrArg some (State.extend_extend s as bs))

/-- Behind a repetition everything but a question mark is read as usual. -/
theorem step_of_settled {s s' : State} (h : s'.settled? = some s) (hs : s.mode = .plain) {c : Char}
    (hc : c ≠ '?') : step s' c = step s c := by
  have hplain : step s c = stepPlain s c := by rw [step, hs]
  rw [State.settled?] at h
  split at h
  next => rw [Option.some.inj h]
  next rounds hm =>
    rw [hplain, step, hm]
    simp only [if_neg hc, h, Option.bind_some]
  next => cases h

/-- The group that is being read is closed behind the text. -/
theorem Leaves.close {text : List Char} {items : List Regex} (h : Leaves text items) {s t : State}
    (hs : s.mode = .plain) (ht : (s.extend items).close? = some t) :
    (text ++ [')']).foldlM step s = some t := by
  obtain ⟨s', hs', hset⟩ := h s hs
  rw [List.foldlM_append, hs']
  have hstep : step s' ')' = some t :=
    (step_of_settled hset rfl (by decide)).trans ht
  simp [hstep]

/-- A text by itself is read as its items, one after the other. -/
theorem Leaves.parse? {text : List Char} {items : List Regex} (h : Leaves text items) :
    Regex.parse? text = some (concat items) := by
  obtain ⟨s, hs, hset⟩ := h {} rfl
  have hfinish : finish s = finish (State.extend {} items) := by
    rw [State.settled?] at hset
    split at hset
    next => rw [Option.some.inj hset]
    next rounds hm =>
      rw [finish, hm]
      simp only [hset]
      rfl
    next => cases hset
  rw [Regex.parse?, hs, Option.bind_some, hfinish]
  simp [finish, State.extend, Frame.close, choice]

theorem reads_one {c : Char} (h : ∀ s, s.mode = .plain → step s c = some (s.push (.chars (.one c)))) :
    Reads [c] [.chars (.one c)] := by
  intro s hs
  simp only [List.foldlM_cons, List.foldlM_nil, h s hs, Option.bind_eq_bind, Option.bind_some]
  rfl

theorem reads_escape_one (c : Char) : Reads (escape [c]) [.chars (.one c)] := by
  by_cases hc : metaChars.contains c = true
  · have he : escape [c] = ['\\', c] := by simp [escape, List.contains_iff_mem.mp hc]
    rw [he]
    intro s hs
    have hopen : step s '\\' = some { s with mode := .escaped } := by rw [step, hs]; rfl
    simp only [List.foldlM_cons, List.foldlM_nil, hopen, Option.bind_eq_bind, Option.bind_some]
    have hmem := List.contains_iff_mem.mp hc
    simp only [metaChars, List.mem_cons, List.not_mem_nil, or_false] at hmem
    rcases hmem with rfl | rfl | rfl | rfl | rfl | rfl | rfl | rfl | rfl | rfl | rfl | rfl | rfl | rfl |
      rfl | rfl | rfl | rfl <;> rfl
  · have he : escape [c] = [c] := by simpa [escape] using fun h => hc (List.contains_iff_mem.mpr h)
    rw [he]
    refine reads_one fun s hs => ?_
    rw [step, hs]
    simp only
    unfold stepPlain
    split <;> first | exact absurd (by decide) hc | rfl

/-- A text is read as itself once it is escaped. -/
theorem reads_escape (w : List Char) : Reads (escape w) (w.map fun c => .chars (.one c)) := by
  induction w with
  | nil => exact .nil
  | cons c w ih =>
    have hcons : escape (c :: w) = escape [c] ++ escape w := by simp [escape]
    rw [hcons]
    exact (reads_escape_one c).append ih

theorem reads_unnamed {text : List Char} {items : List Regex} (h : Leaves text items) :
    Reads ("(?:".toList ++ text ++ [')']) [concat items] := by
  intro s hs
  have hopen : "(?:".toList.foldlM step s = some s.enter := by
    rw [show "(?:".toList = ['(', '?', ':'] from rfl]
    simp only [List.foldlM_cons, List.foldlM_nil, step, hs, Option.bind_eq_bind]
    rfl
  rw [List.append_assoc, List.foldlM_append, hopen]
  refine h.close rfl ?_
  simp [State.extend, State.enter, State.close?, Frame.close, choice]

theorem Reads.repeated {text : List Char} {items : List Regex} {a : Regex} {sign : Char}
    {rounds : Rounds} (h : Reads text (items ++ [a]))
    (hs : ∀ s, s.mode = .plain → step s sign = s.sign? (.repeated rounds)) :
    Leaves (text ++ [sign]) (items ++ [rounds.apply true a]) := by
  intro s hplain
  refine ⟨{ s.extend (items ++ [a]) with mode := .repeated rounds }, ?_, ?_⟩
  · have hstep : step (s.extend (items ++ [a])) sign
        = some { s.extend (items ++ [a]) with mode := .repeated rounds } := by
      rw [hs _ rfl]
      simp [State.sign?, State.extend]
    rw [List.foldlM_append, h s hplain]
    simp [hstep]
  · simp [State.settled?, State.repeat?, State.extend]

theorem step_star {s : State} (h : s.mode = .plain) : step s '*' = s.sign? (.repeated ⟨0, none⟩) := by
  rw [step, h]
  rfl

theorem step_plus {s : State} (h : s.mode = .plain) : step s '+' = s.sign? (.repeated ⟨1, none⟩) := by
  rw [step, h]
  rfl

theorem step_maybe {s : State} (h : s.mode = .plain) :
    step s '?' = s.sign? (.repeated ⟨0, some 1⟩) := by
  rw [step, h]
  rfl

/-- A question mark behind a sign of repetition makes it lazy. -/
theorem reads_lazy {text : List Char} {a : Regex} (h : Reads text [a]) :
    Reads (text ++ ['+', '?']) [.plus false a] := by
  intro s hs
  rw [List.foldlM_append, h s hs]
  have hplus : step (s.extend [a]) '+' = some { s.extend [a] with mode := .repeated ⟨1, none⟩ } := by
    rw [step_plus rfl]
    rfl
  simp only [List.foldlM_cons, List.foldlM_nil, Option.bind_eq_bind, Option.bind_some, hplus]
  rfl

theorem foldlM_step_naming {s : State} {name more : List Char} (hs : s.mode = .naming name)
    (hm : ∀ c ∈ more, c ≠ '>' ∧ isNameChar false c = true)
    (hn : name ≠ [] ∨ ∀ c ∈ more.head?, isNameChar true c = true) :
    more.foldlM step s = some { s with mode := .naming (name ++ more) } := by
  induction more generalizing s name with
  | nil => simp [← hs]
  | cons c more ih =>
    rw [List.forall_mem_cons] at hm
    have hc : isNameChar name.isEmpty c = true := by
      cases name with
      | nil => exact hn.resolve_left (by simp) c rfl
      | cons _ _ => exact hm.1.2
    have hstep : step s c = some { s with mode := .naming (name ++ [c]) } := by
      simp [step, hs, hm.1.1, hc]
    rw [List.foldlM_cons, hstep]
    refine (ih (s := { s with mode := .naming (name ++ [c]) }) rfl hm.2 (.inl (by simp))).trans ?_
    simp

theorem reads_named {name text : List Char} {items : List Regex} (h : Leaves text items)
    (hne : name ≠ []) (hm : ∀ c ∈ name, c ≠ '>' ∧ isNameChar false c = true)
    (hn : ∀ c ∈ name.head?, isNameChar true c = true) {s : State} (hs : s.mode = .plain)
    (hfree : String.ofList name ∉ s.names) :
    ("(?P<".toList ++ name ++ ['>'] ++ text ++ [')']).foldlM step s
      = some { s.extend [.group (String.ofList name) (concat items)] with
          names := String.ofList name :: s.names } := by
  have hopen : "(?P<".toList.foldlM step s = some { s with mode := .naming [] } := by
    rw [show "(?P<".toList = ['(', '?', 'P', '<'] from rfl]
    simp only [List.foldlM_cons, List.foldlM_nil, step, hs, Option.bind_eq_bind]
    rfl
  have hname : name.foldlM step { s with mode := .naming [] } = some { s with mode := .naming name } :=
    foldlM_step_naming (s := { s with mode := .naming [] }) rfl hm (.inr hn)
  let inner : State := { s with
    mode := .plain
    frame := { name := some (String.ofList name) }
    outer := s.frame :: s.outer
    names := String.ofList name :: s.names }
  have hnamed : ['>'].foldlM step { s with mode := .naming name } = some inner := by
    have he : State.enterNamed? { s with mode := .naming name } (String.ofList name) = some inner := by
      rw [State.enterNamed?, if_neg]
      · rfl
      · simpa [hne] using hfree
    simp [step, he]
  rw [List.append_assoc, List.append_assoc, List.append_assoc, List.foldlM_append, hopen]
  simp only [Option.bind_eq_bind, Option.bind_some]
  rw [List.foldlM_append, hname]
  simp only [Option.bind_eq_bind, Option.bind_some]
  rw [List.foldlM_append, hnamed]
  refine h.close rfl ?_
  simp [inner, State.extend, State.close?, Frame.close, choice]

end TreeListing.Regex.Parser
