import TreeListing.Proofs.Comparison.Exactness

/-!
What belongs to a folder in a walk. The lines of a folder and of all that is in it stand together,
directly behind its first line, so a merge that leaves them out takes up again where the folder ends.
The main statement is `nested_marks`.
-/
namespace TreeListing

/-- What is on a line belongs to a folder: it lies below it, or the line is one of the folder itself
behind its first. -/
def Belongs (kind : Kind) (path folder : Path) : Prop :=
  (folder.components <+: path.components ∧ folder.components ≠ path.components) ∨
    (kind = .folderEnd ∨ kind = .ellipsis) ∧ path.same folder = true

instance (kind : Kind) (path folder : Path) : Decidable (Belongs kind path folder) :=
  inferInstanceAs (Decidable (_ ∨ _))

namespace Mark

/-- The mark is one of a folder that the other mark belongs to. -/
structure Holds (folder m : Mark) : Prop where
  isFolder : folder.kind = .folder
  belongs : (folder.names <+: m.names ∧ folder.names.length < m.names.length) ∨
    (m.kind = .folderEnd ∨ m.kind = .ellipsis) ∧ m.names = folder.names

variable {folder inner m : Mark}

theorem Holds.isPrefix (h : folder.Holds m) : folder.names <+: m.names := by
  rcases h.belongs with hbelow | hline
  · exact hbelow.1
  · exact hline.2 ▸ List.prefix_rfl

theorem Holds.length_le (h : folder.Holds m) : folder.names.length ≤ m.names.length :=
  h.isPrefix.length_le

/-- Of the folders only deeper ones belong to a folder. -/
theorem Holds.length_lt (h : folder.Holds m) (hm : m.kind = .folder) :
    folder.names.length < m.names.length := by
  rcases h.belongs with hbelow | ⟨hk, -⟩
  · exact hbelow.2
  · simp [hm] at hk

theorem Holds.trans (h : folder.Holds inner) (h' : inner.Holds m) : folder.Holds m := by
  refine ⟨h.isFolder, .inl ⟨h.isPrefix.trans h'.isPrefix, ?_⟩⟩
  exact Nat.lt_of_lt_of_le (h.length_lt h'.isFolder) h'.length_le

/-- Entries of different names in one folder have nothing to do with each other. -/
theorem not_holds_of_ne {names more more' : List String} {n n' : String} (hn : n ≠ n')
    (hf : folder.names = names ++ n :: more) (hm : m.names = names ++ n' :: more') :
    ¬ folder.Holds m := by
  intro h
  have hp := h.isPrefix
  rw [hf, hm, List.prefix_append_right_inj, List.cons_prefix_cons] at hp
  exact hn hp.1

/-- What belongs to a folder stands behind its mark, and then comes nothing that is deeper. -/
structure Block (folder : Mark) (inner rest : List Mark) : Prop where
  held : ∀ m ∈ inner, folder.Holds m
  apart : ∀ m ∈ rest, ¬ folder.Holds m
  shallow : ∀ m ∈ rest.head?, m.names.length ≤ folder.names.length

/-- Behind each mark stands no folder that it belongs to, and behind each folder directly all that
belongs to it. -/
def Nested (ms : List Mark) : Prop :=
  ∀ m after, m :: after <:+ ms → (∀ folder ∈ after, ¬ folder.Holds m) ∧
    (m.kind = .folder → ∃ inner rest, after = inner ++ rest ∧ Block m inner rest)

namespace Nested

variable {ms ns : List Mark}

theorem nil : Nested [] := by
  intro m after h
  cases List.suffix_nil.mp h

theorem of_suffix (h : Nested ns) (hs : ms <:+ ns) : Nested ms :=
  fun m after hm => h m after (hm.trans hs)

theorem cons (h : Nested ms) (hf : ∀ folder ∈ ms, ¬ folder.Holds m)
    (hb : m.kind = .folder → ∃ inner rest, ms = inner ++ rest ∧ Block m inner rest) :
    Nested (m :: ms) := by
  intro m' after hs
  rcases List.suffix_cons_iff.mp hs with he | hs
  · obtain ⟨rfl, rfl⟩ := List.cons.inj he
    exact ⟨hf, hb⟩
  · exact h m' after hs

/-- Marks that have nothing to do with those in front of them, and do not begin deeper. -/
theorem append (h : Nested ms) (h' : Nested ns)
    (hapart : ∀ m ∈ ms, ∀ n ∈ ns, ¬ m.Holds n ∧ ¬ n.Holds m)
    (hs : ∀ n ∈ ns.head?, ∀ m ∈ ms, n.names.length ≤ m.names.length) : Nested (ms ++ ns) := by
  induction ms with
  | nil => exact h'
  | cons m ms ih =>
    rw [List.forall_mem_cons] at hapart
    obtain ⟨hafter, hblock⟩ := h m ms (List.suffix_refl _)
    apply (ih (h.of_suffix (List.suffix_cons m ms)) hapart.2 fun n hn m' hm =>
      hs n hn m' (List.mem_cons_of_mem _ hm)).cons
    · intro folder hm
      rcases List.mem_append.mp hm with hm | hm
      · exact hafter folder hm
      · exact (hapart.1 folder hm).2
    · intro hk
      obtain ⟨inner, rest, rfl, hb⟩ := hblock hk
      refine ⟨inner, rest ++ ns, List.append_assoc _ _ _, hb.held, ?_, ?_⟩
      · intro n hn
        rcases List.mem_append.mp hn with hn | hn
        · exact hb.apart n hn
        · exact (hapart.1 n hn).1
      · intro n hn
        cases rest with
        | nil => exact hs n hn m List.mem_cons_self
        | cons first rest => exact hb.shallow n hn

end Nested

end Mark

namespace Comparison

open Mark (Nested)

variable {l : Lister} {key : String → String} {names : List String}

theorem nested_own (l : Lister) (kind : Kind) (names : List String) : Nested (l.marks kind names) := by
  rw [Lister.marks]
  split
  · refine Nested.nil.cons (by simp) fun _ => ⟨[], [], rfl, by simp, by simp, by simp⟩
  · exact .nil

/-- The marks of a folder are nested if those of its entries are. -/
theorem nested_folderMarks (kind : Kind) {ms : List Mark} (h : Nested ms)
    (hms : ∀ m ∈ ms, names <+: m.names ∧ names.length < m.names.length) :
    Nested (l.folderMarks kind names ms) := by
  have hbody : ∀ m ∈ innerMarks l names ms ++ l.marks .folderEnd names,
      (names <+: m.names ∧ names.length < m.names.length) ∨
        (m.kind = .folderEnd ∨ m.kind = .ellipsis) ∧ m.names = names := by
    intro m hm
    rcases List.mem_append.mp hm with hm | hm
    · rw [innerMarks] at hm
      split at hm
      · exact .inr ⟨.inr (Lister.kind_of_mem_marks hm), Lister.names_of_mem_marks hm⟩
      · exact .inl (hms m hm)
    · exact .inr ⟨.inl (Lister.kind_of_mem_marks hm), Lister.names_of_mem_marks hm⟩
  have hown : ∀ m ∈ innerMarks l names ms ++ l.marks .folderEnd names, ∀ m' : Mark,
      m'.names = names → ¬ m.Holds m' := by
    intro m hm m' hn hh
    rcases hbody m hm with hdeep | ⟨hk, -⟩
    · exact Nat.not_lt.mpr (hn ▸ hh.length_le) hdeep.2
    · rcases hk with hk | hk
      · exact absurd (hk.symm.trans hh.isFolder) (by decide)
      · exact absurd (hk.symm.trans hh.isFolder) (by decide)
  have hinner : Nested (innerMarks l names ms) := by
    rw [innerMarks]
    split
    · exact nested_own l .ellipsis names
    · exact h
  have hafter : Nested (innerMarks l names ms ++ l.marks .folderEnd names) := by
    apply hinner.append (nested_own l .folderEnd names)
    · intro m hm n hn
      refine ⟨hown m (List.mem_append_left _ hm) n (Lister.names_of_mem_marks hn), fun hh => ?_⟩
      exact absurd ((Lister.kind_of_mem_marks hn).symm.trans hh.isFolder) (by decide)
    · intro n hn m hm
      rw [Lister.names_of_mem_marks (List.mem_of_mem_head? hn)]
      rcases hbody m (List.mem_append_left _ hm) with hdeep | ⟨-, hn⟩
      · exact Nat.le_of_lt hdeep.2
      · exact Nat.le_of_eq (congrArg List.length hn.symm)
  rw [folderMarks_eq, Lister.marks]
  split
  · apply hafter.cons
    · exact fun m hm => hown m hm _ rfl
    · intro hk
      refine ⟨_, [], (List.append_nil _).symm, ?_, by simp, by simp⟩
      exact fun m hm => ⟨hk, hbody m hm⟩
  · exact hafter

theorem prefix_of_mem_marks {f : Forest} {m : Mark} (h : m ∈ f.marks l names) :
    names <+: m.names ∧ names.length < m.names.length := by
  obtain ⟨head, -, more, hn, -⟩ := Forest.mem_marks h
  exact ⟨hn ▸ List.prefix_append _ _, Forest.deeper_of_mem_marks m h⟩

/-- The marks of an entry are nested in front of those of the entries behind it. -/
theorem nested_append_of_cut {f one rest : Forest} (hf : l.shows .folder = true) (hcut : Cut f one rest)
    (ho : f.Each (fun _ => Ordered l key) names) (hone : Nested (one.marks l names))
    (hrest : Nested (rest.marks l names)) : Nested (f.marks l names) := by
  obtain ⟨head, hheads, hall⟩ := hcut.heads
  have hsorted := ho.1.sorted
  rw [hall] at hsorted
  have hother : ∀ other ∈ rest.heads, head.2 ≠ other.2 :=
    fun other hm => ((List.pairwise_cons.mp hsorted).1 other hm).2
  rw [hcut.marks]
  apply hone.append hrest
  · intro m hm n hn
    obtain ⟨head', hm', more, hmn, -⟩ := Forest.mem_marks hm
    obtain rfl : head' = head := by simpa [hheads] using hm'
    obtain ⟨other, hn', more', hnn, -⟩ := Forest.mem_marks hn
    have hne := hother other hn'
    exact ⟨Mark.not_holds_of_ne hne hmn hnn, Mark.not_holds_of_ne hne.symm hnn hmn⟩
  · intro n hn m hm
    rcases head_marks names hf (hcut.each ho).2.1 with ⟨-, hnil⟩ | ⟨kind, n', ms, hms, -⟩
    · rw [hnil] at hn
      cases hn
    · rw [hms] at hn
      obtain rfl := Option.some.inj hn
      rw [List.length_append, List.length_singleton]
      exact (prefix_of_mem_marks hm).2

theorem nested_marks (hf : l.shows .folder = true) {f : Forest}
    (h : f.Each (fun _ => Ordered l key) names) : Nested (f.marks l names) := by
  induction f generalizing names with
  | nil => exact .nil
  | file n rest ih =>
    have hcut := Cut.file n rest
    apply nested_append_of_cut hf hcut h
    · simpa [Forest.marks] using nested_own l .file (names ++ [n])
    · exact ih (hcut.each h).2
  | folder n inner rest ihi ihr =>
    have hcut := Cut.folder n inner rest
    apply nested_append_of_cut hf hcut h
    · have hinner := nested_folderMarks (l := l) .folder (ihi h.2.1) fun m => prefix_of_mem_marks
      simpa [Forest.marks] using hinner
    · exact ihr (hcut.each h).2

end Comparison

end TreeListing
