import Mathlib.Data.List.Basic
import Mathlib.Data.List.Induction
import TreeListing.Item

/-!
Paths that are put together from names. The components of a path with a name behind it are those of
the path and the name, so the way through a folder tree can be read off the path of an entry.
-/
namespace TreeListing

namespace Path

/-- What an entry of a folder can be called. -/
structure IsName (n : String) : Prop where
  nonempty : n ≠ ""
  noSlash : '/' ∉ n.toList
  notHere : n ≠ "."
  notUp : n ≠ ".."

instance (n : String) : Decidable (IsName n) :=
  decidable_of_iff (n ≠ "" ∧ '/' ∉ n.toList ∧ n ≠ "." ∧ n ≠ "..")
    ⟨fun h => ⟨h.1, h.2.1, h.2.2.1, h.2.2.2⟩, fun h => ⟨h.nonempty, h.noSlash, h.notHere, h.notUp⟩⟩

theorem parts_of_noSlash {cs : List Char} (h : '/' ∉ cs) : parts cs = [cs] := by
  induction cs with
  | nil => rfl
  | cons c cs ih =>
    rw [List.mem_cons, not_or] at h
    rw [parts, if_neg (Ne.symm h.1), ih h.2]

theorem parts_ne_nil (cs : List Char) : parts cs ≠ [] := by
  cases cs with
  | nil => simp [parts]
  | cons c cs =>
    rw [parts]
    split
    · simp
    · split <;> simp

theorem parts_append_slash (a b : List Char) : parts (a ++ '/' :: b) = parts a ++ parts b := by
  induction a with
  | nil => simp [parts]
  | cons c a ih =>
    rw [List.cons_append, parts, parts, ih]
    split
    · rfl
    · cases h : parts a with
      | nil => exact absurd h (parts_ne_nil a)
      | cons part others => rfl

/-- What stands in front of the names: the root, or a leading dot. -/
def lead (cs : List Char) : List Component :=
  if cs.head? = some '/' then [.root]
  else if (parts cs).head? = some ['.'] then [.here]
  else []

theorem components_eq (p : Path) :
    p.components = lead p.text.toList ++ (parts p.text.toList).filterMap componentOf := by
  simp [components, lead, isAbsolute]

theorem lead_append_slash {a : List Char} (ha : a ≠ []) (b : List Char) :
    lead (a ++ '/' :: b) = lead a := by
  obtain ⟨c, a, rfl⟩ := List.exists_cons_of_ne_nil ha
  obtain ⟨part, others, hp⟩ := List.exists_cons_of_ne_nil (parts_ne_nil (c :: a))
  rw [lead, lead, parts_append_slash, hp]
  rfl

theorem componentOf_name {n : String} (h : IsName n) : componentOf n.toList = some (.name n) := by
  have hn : ∀ s : String, n ≠ s → n.toList ≠ s.toList := fun s hs he => hs (String.toList_inj.mp he)
  rw [componentOf, if_neg, if_neg (by simpa using hn ".." h.notUp), String.ofList_toList]
  rintro (he | he)
  · exact hn "" h.nonempty he
  · exact hn "." h.notHere he

theorem filterMap_parts_name {n : String} (h : IsName n) :
    (parts n.toList).filterMap componentOf = [.name n] := by
  rw [parts_of_noSlash h.noSlash, List.filterMap_cons, componentOf_name h, List.filterMap_nil]

theorem lead_name {n : String} (h : IsName n) : lead n.toList = [] := by
  have hs : n.toList.head? ≠ some '/' := fun he => h.noSlash (List.mem_of_head? he)
  have hd : n.toList ≠ ['.'] := fun he => h.notHere (String.toList_inj.mp he)
  rw [lead, if_neg hs, parts_of_noSlash h.noSlash, List.head?_cons, if_neg (by simpa using hd)]

theorem not_isAbsolute_name {n : String} (h : IsName n) : (Path.mk n).isAbsolute = false := by
  have hs : n.toList.head? ≠ some '/' := fun he => h.noSlash (List.mem_of_head? he)
  simpa [isAbsolute] using hs

/-- What stands between a path and a name behind it. -/
def gap (p : Path) : String := if p.text = "" ∨ p.text.toList.getLast? = some '/' then "" else "/"

theorem join_of_relative (p : Path) {q : Path} (h : q.isAbsolute = false) :
    p.join q = ⟨p.text ++ p.gap ++ q.text⟩ := by
  rw [join, h, gap]
  simp only [Bool.false_eq_true, if_false]
  split <;> simp

theorem join_name (p : Path) {n : String} (h : IsName n) : p.join ⟨n⟩ = ⟨p.text ++ p.gap ++ n⟩ :=
  join_of_relative p (not_isAbsolute_name h)

theorem components_join_name (p : Path) {n : String} (h : IsName n) :
    (p.join ⟨n⟩).components = p.components ++ [.name n] := by
  rw [components_eq, components_eq p, join_name p h, String.toList_append, String.toList_append, gap]
  split
  next hp =>
    rw [String.toList_empty, List.append_nil]
    rcases hp with he | hl
    · rw [he, String.toList_empty, List.nil_append, lead_name h, filterMap_parts_name h]
      rfl
    · obtain ⟨a, ha⟩ := List.getLast?_eq_some_iff.mp hl
      have hlead : lead (a ++ '/' :: n.toList) = lead (a ++ ['/']) := by
        cases a with
        | nil => rfl
        | cons c a => rw [lead_append_slash (by simp), lead_append_slash (by simp)]
      have hend : (parts []).filterMap componentOf = [] := rfl
      rw [ha, List.append_assoc, List.singleton_append, hlead, parts_append_slash, parts_append_slash,
        List.filterMap_append, List.filterMap_append, filterMap_parts_name h, hend, List.append_nil,
        List.append_assoc]
  next hp =>
    have hne : p.text.toList ≠ [] := fun he => hp (.inl (String.toList_eq_nil_iff.mp he))
    have hs : p.text.toList ++ "/".toList ++ n.toList = p.text.toList ++ '/' :: n.toList := by simp
    rw [hs, lead_append_slash hne, parts_append_slash, List.filterMap_append, filterMap_parts_name h,
      List.append_assoc]

theorem names_join_name (p : Path) {n : String} (h : IsName n) : (p.join ⟨n⟩).names = p.names ++ [n] := by
  rw [names, components_join_name p h, List.filterMap_append]
  rfl

theorem fileName?_join_name (p : Path) {n : String} (h : IsName n) :
    (p.join ⟨n⟩).fileName? = some n := by
  rw [fileName?, components_join_name p h, List.getLast?_concat]

theorem ofSegments_concat (names : List String) (n : String) :
    ofSegments (names ++ [n]) = (ofSegments names).join ⟨n⟩ := by
  rw [ofSegments, List.foldl_append]
  rfl

theorem components_ofSegments {names : List String} (h : ∀ n ∈ names, IsName n) :
    (ofSegments names).components = names.map .name := by
  induction names using List.reverseRecOn with
  | nil => decide
  | append_singleton names n ih =>
    rw [ofSegments_concat, components_join_name _ (h n (by simp)), ih fun m hm => h m (by simp [hm]),
      List.map_append, List.map_singleton]

theorem names_ofSegments {names : List String} (h : ∀ n ∈ names, IsName n) :
    (ofSegments names).names = names := by
  rw [Path.names, components_ofSegments h, List.filterMap_map]
  exact (List.filterMap_congr fun _ _ => rfl).trans List.filterMap_some

theorem ofSegments_inj {names others : List String} (h : ∀ n ∈ names, IsName n)
    (k : ∀ n ∈ others, IsName n) : ofSegments names = ofSegments others ↔ names = others := by
  refine ⟨fun he => ?_, fun he => he ▸ rfl⟩
  rw [← names_ofSegments h, he, names_ofSegments k]

theorem same_ofSegments {names others : List String} (h : ∀ n ∈ names, IsName n)
    (k : ∀ n ∈ others, IsName n) : (ofSegments names).same (ofSegments others) = true ↔ names = others := by
  have hinj : Function.Injective Component.name := fun _ _ => Component.name.inj
  rw [same, components_ofSegments h, components_ofSegments k, decide_eq_true_eq,
    (List.map_injective_iff.mpr hinj).eq_iff]

/-- A path through names lies on the way of another one just if its names begin the other's. -/
theorem prefix_ofSegments {names others : List String} (h : ∀ n ∈ names, IsName n)
    (k : ∀ n ∈ others, IsName n) :
    (ofSegments names).components <+: (ofSegments others).components ↔ names <+: others := by
  rw [components_ofSegments h, components_ofSegments k,
    List.prefix_map_iff_of_injective fun _ _ => Component.name.inj]

theorem fileName?_ofSegments_concat (names : List String) {n : String} (h : IsName n) :
    (ofSegments (names ++ [n])).fileName? = some n := by
  rw [ofSegments_concat, fileName?_join_name _ h]

theorem fileName?_of_same {p q : Path} (h : p.same q = true) : p.fileName? = q.fileName? := by
  rw [fileName?, fileName?, of_decide_eq_true h]

theorem fileName?_empty : empty.fileName? = none := by decide

theorem text_ne_of_fileName? {p : Path} (h : p.fileName?.isSome = true) : p.text ≠ "" := by
  intro he
  rw [show p = empty from congrArg mk he, fileName?_empty] at h
  cases h

theorem text_join_name_ne (p : Path) {n : String} (h : IsName n) : (p.join ⟨n⟩).text ≠ "" := by
  rw [join_name p h]
  simp [h.nonempty]

theorem not_isAbsolute_join_name {p : Path} (hp : p.isAbsolute = false) {n : String}
    (h : IsName n) : (p.join ⟨n⟩).isAbsolute = false := by
  have hn := not_isAbsolute_name h
  rw [join_name p h]
  simp only [isAbsolute, String.toList_append, gap, decide_eq_false_iff_not] at hp hn ⊢
  cases hc : p.text.toList with
  | nil => simpa [String.toList_eq_nil_iff.mp hc] using hn
  | cons c cs => simpa [hc] using hp

theorem not_isAbsolute_ofSegments {names : List String} (h : ∀ n ∈ names, IsName n) :
    (ofSegments names).isAbsolute = false := by
  induction names using List.reverseRecOn with
  | nil => decide
  | append_singleton names n ih =>
    rw [ofSegments_concat]
    exact not_isAbsolute_join_name (ih fun m hm => h m (by simp [hm])) (h n (by simp))

theorem text_ofSegments_eq_empty {names : List String} (h : ∀ n ∈ names, IsName n) :
    (ofSegments names).text = "" ↔ names = [] := by
  refine ⟨fun he => ?_, fun he => he ▸ rfl⟩
  cases names using List.reverseRecOn with
  | nil => rfl
  | append_singleton names n =>
    rw [ofSegments_concat] at he
    exact absurd he (text_join_name_ne _ (h n (by simp)))

theorem gap_join {base p : Path} (hp : p.isAbsolute = false) (hne : p.text ≠ "") :
    (base.join p).gap = p.gap := by
  have hl : p.text.toList ≠ [] := by simpa using hne
  rw [join_of_relative base hp, gap, gap.eq_1 p]
  simp only [String.toList_append, List.getLast?_append_of_ne_nil _ hl]
  simp [hne]

/-- A name behind a path that is itself seen from another one. -/
theorem join_join_name (base : Path) {p : Path} (hp : p.isAbsolute = false) (hne : p.text ≠ "")
    {n : String} (h : IsName n) : base.join (p.join ⟨n⟩) = (base.join p).join ⟨n⟩ := by
  rw [join_of_relative base (not_isAbsolute_join_name hp h), join_name (base.join p) h,
    gap_join hp hne, join_of_relative base hp, join_name p h]
  simp [String.append_assoc]

/-- What a path is written with, beside slashes, is in its parts. -/
theorem exists_mem_parts {cs : List Char} {c : Char} (h : c ∈ cs) :
    c = '/' ∨ ∃ part ∈ parts cs, c ∈ part := by
  induction cs with
  | nil => cases h
  | cons c' cs ih =>
    obtain ⟨first, others, hp⟩ := List.exists_cons_of_ne_nil (parts_ne_nil cs)
    rw [parts, hp]
    rw [hp] at ih
    split
    next hs =>
      rcases List.mem_cons.mp h with rfl | h
      · exact .inl hs
      · obtain hc | ⟨part, hm, hc⟩ := ih h
        · exact .inl hc
        · exact .inr ⟨part, List.mem_cons_of_mem _ hm, hc⟩
    next =>
      rcases List.mem_cons.mp h with rfl | h
      · exact .inr ⟨c :: first, List.mem_cons_self, List.mem_cons_self⟩
      · obtain hc | ⟨part, hm, hc⟩ := ih h
        · exact .inl hc
        · rcases List.mem_cons.mp hm with rfl | hm
          · exact .inr ⟨c' :: part, List.mem_cons_self, List.mem_cons_of_mem _ hc⟩
          · exact .inr ⟨part, List.mem_cons_of_mem _ hm, hc⟩

theorem mem_names {p : Path} {n : String} : n ∈ p.names ↔ .name n ∈ p.components := by
  rw [names, List.mem_filterMap]
  constructor
  · rintro ⟨component, hm, he⟩
    cases component <;> cases he
    exact hm
  · exact fun hm => ⟨_, hm, rfl⟩

theorem mem_names_of_mem_parts {p : Path} {part : List Char} (h : part ∈ parts p.text.toList)
    (hn : componentOf part = some (.name (String.ofList part))) : String.ofList part ∈ p.names := by
  rw [mem_names, components_eq]
  exact List.mem_append_right _ (List.mem_filterMap.mpr ⟨part, h, hn⟩)

theorem componentOf_cases (part : List Char) : (∀ c ∈ part, c = '.') ∨
    componentOf part = some (.name (String.ofList part)) := by
  rw [componentOf]
  split
  next h => exact .inl (by rcases h with rfl | rfl <;> simp)
  next =>
    split
    next h => exact .inl (by simp [h])
    next => exact .inr rfl

/-- A path is written with slashes, dots and its names. -/
theorem forall_text {Q : Char → Prop} (hs : Q '/') (hd : Q '.') {p : Path}
    (h : ∀ n ∈ p.names, ∀ c ∈ n.toList, Q c) : ∀ c ∈ p.text.toList, Q c := by
  intro c hc
  obtain rfl | ⟨part, hm, hc⟩ := exists_mem_parts hc
  · exact hs
  · rcases componentOf_cases part with hdots | hname
    · exact hdots c hc ▸ hd
    · exact h _ (mem_names_of_mem_parts hm hname) c (by rwa [String.toList_ofList])

theorem forall_join {Q : Char → Prop} (hs : Q '/') {p q : Path} (hp : ∀ c ∈ p.text.toList, Q c)
    (hq : ∀ c ∈ q.text.toList, Q c) : ∀ c ∈ (p.join q).text.toList, Q c := by
  rw [join]
  split
  next => exact hq
  next =>
    split
    next => simpa using fun c hc => hc.elim (hp c) (hq c)
    next => simpa using fun c hc => hc.elim (hp c) fun hc => hc.elim (fun he => he ▸ hs) (hq c)

theorem forall_ofSegments {Q : Char → Prop} (hs : Q '/') {names : List String}
    (h : ∀ n ∈ names, ∀ c ∈ n.toList, Q c) : ∀ c ∈ (ofSegments names).text.toList, Q c := by
  induction names using List.reverseRecOn with
  | nil => simp [ofSegments, empty]
  | append_singleton names n ih =>
    rw [ofSegments_concat]
    exact forall_join hs (ih fun m hm => h m (by simp [hm])) (h n (by simp))

/-- A path begins with a slash, with a dot or as one of its names does. -/
theorem head?_text {p : Path} {c : Char} (h : c ∈ p.text.toList.head?) :
    c = '/' ∨ c = '.' ∨ ∃ n ∈ p.names, c ∈ n.toList.head? := by
  obtain ⟨cs, hp⟩ : ∃ cs, p.text.toList = c :: cs := ⟨_, (List.cons_head?_tail h).symm⟩
  by_cases hs : c = '/'
  · exact .inl hs
  · obtain ⟨first, hfirst⟩ : ∃ first, c :: first ∈ parts p.text.toList := by
      obtain ⟨part, others, ho⟩ := List.exists_cons_of_ne_nil (parts_ne_nil cs)
      exact ⟨part, by simp [hp, parts, hs, ho]⟩
    refine .inr ((componentOf_cases (c :: first)).imp (fun h => h c List.mem_cons_self) fun hn => ?_)
    exact ⟨_, mem_names_of_mem_parts hfirst hn, by simp⟩

theorem head?_join {p q : Path} (hp : p.text ≠ "") (hq : q.isAbsolute = false) :
    (p.join q).text.toList.head? = p.text.toList.head? := by
  have hne : p.text.toList ≠ [] := by simpa using hp
  rw [join_of_relative p hq, String.toList_append, String.toList_append, List.append_assoc,
    List.head?_append_of_ne_nil _ hne]

theorem isAbsolute_join {p : Path} (h : p.isAbsolute = true) (q : Path) : (p.join q).isAbsolute = true := by
  by_cases hq : q.isAbsolute = true
  · rwa [join, if_pos hq]
  · have hne : p.text ≠ "" := by
      intro he
      simp [isAbsolute, he] at h
    rw [isAbsolute, head?_join hne (by simpa using hq)]
    exact h

theorem isAbsolute_foldl_join {p : Path} (h : p.isAbsolute = true) (steps : List Component) :
    (steps.foldl (fun q c => q.join c.path) p).isAbsolute = true := by
  induction steps generalizing p with
  | nil => exact h
  | cons c steps ih => exact ih (isAbsolute_join h c.path)

/-- Seen from an absolute path, every path is absolute. -/
theorem isAbsolute_of_absolute? {p cwd base : Path} (hc : cwd.isAbsolute = true) (h : p.absolute? cwd = some base) :
    base.isAbsolute = true := by
  -- what is joined begins with two slashes, with the root, or with the working folder
  have hjoined : ∀ (start : Path) (steps : List Component), start.isAbsolute = true →
      (if p.text.toList.getLast? = some '/' then
          (steps.foldl (fun q c => q.join c.path) start).join empty
        else steps.foldl (fun q c => q.join c.path) start).isAbsolute = true := by
    intro start steps hs
    split
    · exact isAbsolute_join (isAbsolute_foldl_join hs steps) empty
    · exact isAbsolute_foldl_join hs steps
  unfold absolute? at h
  split at h
  next => cases h
  next =>
    by_cases hdoubled : p.text.toList.take 2 = ['/', '/'] ∧ p.text.toList[2]? ≠ some '/'
    · simp only [if_pos hdoubled, Option.some.injEq] at h
      exact h ▸ hjoined ⟨"//"⟩ _ rfl
    · by_cases ha : p.isAbsolute = true
      · have hroot : p.components = .root :: (parts p.text.toList).filterMap componentOf := by
          rw [components_eq, lead, if_pos (by simpa [isAbsolute] using ha)]
          rfl
        simp only [if_neg hdoubled, if_pos ha, hroot, Option.some.injEq] at h
        exact h ▸ hjoined ⟨"/"⟩ _ rfl
      · simp only [if_neg hdoubled, if_neg ha, Option.some.injEq] at h
        exact h ▸ hjoined cwd _ hc

/-- A path through names begins as one of them does. -/
theorem head?_ofSegments {names : List String} (h : ∀ n ∈ names, IsName n) {c : Char}
    (hc : c ∈ (ofSegments names).text.toList.head?) : ∃ n ∈ names, c ∈ n.toList.head? := by
  induction names using List.reverseRecOn with
  | nil => simp [ofSegments, empty] at hc
  | append_singleton names n ih =>
    have hn := h n (by simp)
    rw [ofSegments_concat] at hc
    by_cases he : (ofSegments names).text = ""
    · rw [join_name _ hn, gap, if_pos (.inl he), he] at hc
      exact ⟨n, by simp, by simpa using hc⟩
    · rw [head?_join he (not_isAbsolute_name hn)] at hc
      obtain ⟨m, hm, hc⟩ := ih (fun m hm => h m (by simp [hm])) hc
      exact ⟨m, by simp [hm], hc⟩

theorem mem_names_of_fileName? {p : Path} {n : String} (h : p.fileName? = some n) : n ∈ p.names := by
  rw [fileName?] at h
  split at h
  next text hl => exact Option.some.inj h ▸ mem_names.mpr (List.mem_of_getLast? hl)
  next => cases h

theorem nonempty_of_mem_names {p : Path} {n : String} (h : n ∈ p.names) : n ≠ "" := by
  rw [mem_names, components_eq, List.mem_append] at h
  rcases h with h | h
  · rw [lead] at h
    split at h
    · simp at h
    · split at h <;> simp at h
  · obtain ⟨part, -, hn⟩ := List.mem_filterMap.mp h
    rw [componentOf] at hn
    split at hn
    next => cases hn
    next hne =>
      split at hn
      next => cases hn
      next =>
        obtain rfl := Component.name.inj (Option.some.inj hn)
        rw [not_or] at hne
        simpa [String.ext_iff] using hne.1

end Path

namespace Item

/-- The item that is reached from the base through the given names. -/
def below (base : Path) (names : List String) (isFolder : Bool) : Item :=
  ⟨base, .ofSegments names, names.length, isFolder⟩

theorem abspath_below_concat (base : Path) {names : List String} (h : ∀ n ∈ names, Path.IsName n)
    {n : String} (hn : Path.IsName n) (a b : Bool) :
    (below base (names ++ [n]) a).abspath = (below base names b).abspath.join ⟨n⟩ := by
  have hc : (Path.ofSegments (names ++ [n])).text ≠ "" :=
    Path.ofSegments_concat names n ▸ Path.text_join_name_ne _ hn
  rw [abspath, abspath, below, below, if_neg hc]
  split
  next he =>
    rw [(Path.text_ofSegments_eq_empty h).mp he]
    exact congrArg base.join (by simp [Path.ofSegments, Path.join_name _ hn, Path.empty, Path.gap])
  next he =>
    rw [Path.ofSegments_concat, Path.join_join_name base (Path.not_isAbsolute_ofSegments h) he hn]

/-- The names on the way to an entry are those of the base and those below it. -/
theorem names_abspath_below (base : Path) {names : List String} (h : ∀ n ∈ names, Path.IsName n) (b : Bool) :
    (below base names b).abspath.names = base.names ++ names := by
  induction names using List.reverseRecOn with
  | nil => exact (List.append_nil _).symm
  | append_singleton names n ih =>
    have h' : ∀ m ∈ names, Path.IsName m := fun m hm => h m (List.mem_append_left _ hm)
    have hn : Path.IsName n := h n (List.mem_append_right _ (List.mem_singleton_self n))
    rw [abspath_below_concat base h' hn b b, Path.names_join_name _ hn, ih h', List.append_assoc]

/-- An entry of a folder lies one name deeper. -/
theorem child_below (d : Disk) (base : Path) {names : List String} (h : ∀ n ∈ names, Path.IsName n)
    {n : String} (hn : Path.IsName n) :
    (below base names true).child d n
      = below base (names ++ [n]) (d.isFolder (below base (names ++ [n]) true).abspath) := by
  rw [abspath_below_concat base h hn true true, child, below, below, Path.ofSegments_concat,
    List.length_append, List.length_singleton]

theorem name_below_concat (base : Path) (names : List String) {n : String} (hn : Path.IsName n)
    (b : Bool) : (below base (names ++ [n]) b).name = n := by
  simp [name, below, Path.fileName?_ofSegments_concat names hn]

theorem fileName?_abspath_below_concat (base : Path) {names : List String}
    (h : ∀ n ∈ names, Path.IsName n) {n : String} (hn : Path.IsName n) (b : Bool) :
    (below base (names ++ [n]) b).abspath.fileName? = some n := by
  rw [abspath_below_concat base h hn b b, Path.fileName?_join_name _ hn]

theorem isAbsolute_abspath {i : Item} (h : i.base.isAbsolute = true) : i.abspath.isAbsolute = true := by
  rw [abspath]
  split
  · exact h
  · exact Path.isAbsolute_join h i.path

end Item

end TreeListing
