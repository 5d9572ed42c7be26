import Mathlib.Data.List.Nodup
import TreeListing.Proofs.Forest

/-!
The lines of a listing as marks: the kind of a line and the names that lead to its entry. The marks
of a folder are its own, those of its entries, and the one of its end.
-/
namespace TreeListing

/-- A line of a listing, told by its kind and by the names that lead to the entry. -/
structure Mark where
  kind : Kind
  names : List String
deriving DecidableEq

def Mark.item (base : Path) (m : Mark) : Item := .below base m.names (m.kind ≠ .file)

namespace Lister

/-- The mark of an entry, if lines of the kind are written. -/
def marks (l : Lister) (kind : Kind) (names : List String) : List Mark :=
  if l.shows kind then [⟨kind, names⟩] else []

/-- The marks of a folder, with `inner` for its entries. -/
def folderMarks (l : Lister) (kind : Kind) (names : List String) (inner : List Mark) : List Mark :=
  l.marks kind names ++ (if l.options.limits names.length then l.marks .ellipsis names else inner)
    ++ l.marks .folderEnd names

theorem mem_marks {l : Lister} {kind : Kind} {names : List String} {m : Mark} :
    m ∈ l.marks kind names ↔ l.shows kind = true ∧ m = ⟨kind, names⟩ := by
  rw [marks]
  split
  next h => simp [h]
  next h => simp [h]

theorem kind_of_mem_marks {l : Lister} {kind : Kind} {names : List String} {m : Mark}
    (h : m ∈ l.marks kind names) : m.kind = kind := by rw [(mem_marks.mp h).2]

theorem names_of_mem_marks {l : Lister} {kind : Kind} {names : List String} {m : Mark}
    (h : m ∈ l.marks kind names) : m.names = names := by rw [(mem_marks.mp h).2]

/-- The marks of a folder itself are not among those of what is in it. -/
theorem not_mem_of_mem_marks {l : Lister} {kind : Kind} {names : List String} {inner : List Mark}
    (hdeep : ∀ m ∈ inner, names.length < m.names.length) {m : Mark} (h : m ∈ l.marks kind names) :
    m ∉ inner := fun hm =>
  Nat.lt_irrefl names.length (names_of_mem_marks h ▸ hdeep m hm)

theorem mem_folderMarks {l : Lister} {kind : Kind} {names : List String} {inner : List Mark} {m : Mark}
    (h : m ∈ l.folderMarks kind names inner) :
    m.names = names ∧ (m.kind = kind ∨ m.kind = .ellipsis ∨ m.kind = .folderEnd) ∨ m ∈ inner := by
  rw [folderMarks, List.mem_append, List.mem_append] at h
  rcases h with (h | h) | h
  · exact .inl ⟨names_of_mem_marks h, .inl (kind_of_mem_marks h)⟩
  · split at h
    · exact .inl ⟨names_of_mem_marks h, .inr (.inl (kind_of_mem_marks h))⟩
    · exact .inr h
  · exact .inl ⟨names_of_mem_marks h, .inr (.inr (kind_of_mem_marks h))⟩

theorem mem_folderMarks_of_mem {l : Lister} {kind : Kind} {names : List String} {inner : List Mark}
    {m : Mark} (hl : l.options.limits names.length = false) (hm : m ∈ inner) :
    m ∈ l.folderMarks kind names inner := by
  rw [folderMarks, hl]
  exact List.mem_append_left _ (List.mem_append_right _ hm)

/-- The mark is of a kind that is written. Only the folder that is listed is a root, and only a folder
that is too deep has an ellipsis. -/
structure Writes (l : Lister) (m : Mark) : Prop where
  shown : l.shows m.kind = true
  root : m.kind = .root → m.names = []
  limited : m.kind = .ellipsis → l.options.limits m.names.length = true

theorem writes_folderMarks {l : Lister} {kind : Kind} {names : List String} {inner : List Mark}
    (hk : kind ≠ .ellipsis) (hr : kind = .root → names = []) (hi : ∀ m ∈ inner, l.Writes m) :
    ∀ m ∈ l.folderMarks kind names inner, l.Writes m := by
  intro m hm
  rw [folderMarks, List.mem_append, List.mem_append] at hm
  rcases hm with (hm | hm) | hm
  · obtain ⟨hs, rfl⟩ := mem_marks.mp hm
    exact ⟨hs, hr, fun he => absurd he hk⟩
  · split at hm
    next hl =>
      obtain ⟨hs, rfl⟩ := mem_marks.mp hm
      exact ⟨hs, (fun he => by cases he), fun _ => hl⟩
    next => exact hi m hm
  · obtain ⟨hs, rfl⟩ := mem_marks.mp hm
    exact ⟨hs, (fun he => by cases he), fun he => by cases he⟩

theorem nodup_marks {l : Lister} (kind : Kind) (names : List String) : (l.marks kind names).Nodup := by
  rw [marks]
  split
  · exact List.nodup_singleton _
  · exact .nil

theorem nodup_folderMarks {l : Lister} {kind : Kind} {names : List String} {inner : List Mark}
    (hk : kind ≠ .ellipsis) (hk' : kind ≠ .folderEnd) (hi : inner.Nodup)
    (hdeep : ∀ m ∈ inner, names.length < m.names.length) : (l.folderMarks kind names inner).Nodup := by
  have hown : ∀ {k k' : Kind} {m : Mark}, k ≠ k' → m ∈ l.marks k names → m ∉ l.marks k' names :=
    fun hne hm hm' => hne ((kind_of_mem_marks hm).symm.trans (kind_of_mem_marks hm'))
  rw [folderMarks, List.append_assoc]
  cases l.options.limits names.length with
  | true =>
    refine List.nodup_append.mpr ⟨nodup_marks _ _, List.nodup_append.mpr ⟨nodup_marks _ _,
      nodup_marks _ _, ?_⟩, ?_⟩
    · rintro m hm _ hm' rfl
      exact hown (by decide) hm hm'
    · rintro m hm _ hm' rfl
      exact (List.mem_append.mp hm').elim (hown hk hm) (hown hk' hm)
  | false =>
    refine List.nodup_append.mpr ⟨nodup_marks _ _, List.nodup_append.mpr ⟨hi, nodup_marks _ _, ?_⟩, ?_⟩
    · rintro m hm _ hm' rfl
      exact not_mem_of_mem_marks hdeep hm' hm
    · rintro m hm _ hm' rfl
      exact (List.mem_append.mp hm').elim (not_mem_of_mem_marks hdeep hm) (hown hk' hm)

end Lister

namespace Forest

/-- The marks of the forest behind the given names. -/
def marks (l : Lister) (names : List String) : Forest → List Mark
  | nil => []
  | file n rest => l.marks .file (names ++ [n]) ++ rest.marks l names
  | folder n inner rest =>
    l.folderMarks .folder (names ++ [n]) (inner.marks l (names ++ [n])) ++ rest.marks l names

theorem writes_marks {l : Lister} {names : List String} {f : Forest} :
    ∀ m ∈ f.marks l names, l.Writes m := by
  induction f generalizing names with
  | nil => exact List.forall_mem_nil _
  | file n rest ih =>
    apply List.forall_mem_append.mpr ⟨fun m hm => ?_, ih⟩
    obtain ⟨hs, rfl⟩ := Lister.mem_marks.mp hm
    exact ⟨hs, (fun he => by cases he), fun he => by cases he⟩
  | folder n inner rest ihi ihr =>
    exact List.forall_mem_append.mpr
      ⟨Lister.writes_folderMarks (by decide) (fun he => by cases he) ihi, ihr⟩

/-- A mark lies at an entry of the forest or in it. -/
theorem mem_marks {l : Lister} {names : List String} {f : Forest} {m : Mark}
    (h : m ∈ f.marks l names) : ∃ head ∈ f.heads, ∃ more, m.names = names ++ head.2 :: more ∧
      (head.1 = false ↔ m.kind = .file ∧ more = []) := by
  induction f generalizing names with
  | nil => cases h
  | file n rest ih =>
    rcases List.mem_append.mp h with h | h
    · obtain ⟨-, rfl⟩ := Lister.mem_marks.mp h
      exact ⟨_, List.mem_cons_self, [], rfl, by simp⟩
    · obtain ⟨head, hm, hh⟩ := ih h
      exact ⟨head, List.mem_cons_of_mem _ hm, hh⟩
  | folder n inner rest ihi ihr =>
    rcases List.mem_append.mp h with h | h
    · refine ⟨_, List.mem_cons_self, ?_⟩
      rcases Lister.mem_folderMarks h with ⟨hn, hk⟩ | h
      · refine ⟨[], hn, by simp, fun hf => ?_⟩
        rcases hk with hk | hk | hk <;> simp [hk] at hf
      · obtain ⟨head, -, more, hn, -⟩ := ihi h
        exact ⟨head.2 :: more, by simp [hn], by simp⟩
    · obtain ⟨head, hm, hh⟩ := ihr h
      exact ⟨head, List.mem_cons_of_mem _ hm, hh⟩

theorem deeper_of_mem_marks {l : Lister} {names : List String} {f : Forest} (m : Mark)
    (h : m ∈ f.marks l names) : names.length < m.names.length := by
  obtain ⟨_, -, more, hn, -⟩ := mem_marks h
  rw [hn, List.length_append, List.length_cons]
  omega

/-- Forests without a common entry have no common mark. -/
theorem not_mem_marks {l : Lister} {names : List String} {f g : Forest}
    (h : ∀ head ∈ f.heads, head ∉ g.heads) {m : Mark} (hm : m ∈ f.marks l names) :
    m ∉ g.marks l names := by
  intro hm'
  obtain ⟨⟨isFolder, n⟩, hf, more, hn, hk⟩ := mem_marks hm
  obtain ⟨⟨isFolder', n'⟩, hg, more', hn', hk'⟩ := mem_marks hm'
  obtain ⟨rfl, rfl⟩ := List.cons.inj (List.append_cancel_left (hn.symm.trans hn'))
  have hs : isFolder = isFolder' := by
    cases isFolder <;> cases isFolder' <;> simp_all
  exact h _ hf (hs ▸ hg)

/-- What is known of the names of all entries is known of the names in a mark. -/
theorem forall_names {Q : String → Prop} {l : Lister} {names : List String} {f : Forest}
    (hn : ∀ n ∈ names, Q n) (h : f.Each (fun _ heads => ∀ head ∈ heads, Q head.2) names) {m : Mark}
    (hm : m ∈ f.marks l names) : ∀ n ∈ m.names, Q n := by
  have hbehind : ∀ {names : List String} {n : String}, (∀ m ∈ names, Q m) → Q n →
      ∀ m ∈ names ++ [n], Q m := fun hn hq m hm => by
    rcases List.mem_append.mp hm with hm | hm
    · exact hn m hm
    · exact List.mem_singleton.mp hm ▸ hq
  induction f generalizing names with
  | nil => cases hm
  | file n rest ih =>
    obtain ⟨hheads, hin⟩ := h
    rw [heads, List.forall_mem_cons] at hheads
    rcases List.mem_append.mp hm with hm | hm
    · rw [(Lister.mem_marks.mp hm).2]
      exact hbehind hn hheads.1
    · exact ih hn ⟨hheads.2, hin⟩ hm
  | folder n inner rest ihi ihr =>
    obtain ⟨hheads, hin, hrest⟩ := h
    rw [heads, List.forall_mem_cons] at hheads
    rcases List.mem_append.mp hm with hm | hm
    · rcases Lister.mem_folderMarks hm with ⟨hm, -⟩ | hm
      · rw [hm]
        exact hbehind hn hheads.1
      · exact ihi (hbehind hn hheads.1) hin hm
    · exact ihr hn ⟨hheads.2, hrest⟩ hm

/-- What is known of all entries is known of the one that a mark lies at. -/
theorem exists_of_mem_marks {R : List String → Bool × String → Prop} {l : Lister} {names : List String}
    {f : Forest} (h : f.Each (fun names heads => ∀ head ∈ heads, R names head) names) {m : Mark}
    (hm : m ∈ f.marks l names) :
    ∃ before n, m.names = before ++ [n] ∧ R before (decide (m.kind ≠ .file), n) := by
  induction f generalizing names with
  | nil => cases hm
  | file n rest ih =>
    obtain ⟨hheads, hin⟩ := h
    rw [heads, List.forall_mem_cons] at hheads
    rcases List.mem_append.mp hm with hm | hm
    · obtain rfl := (Lister.mem_marks.mp hm).2
      exact ⟨names, n, rfl, hheads.1⟩
    · exact ih ⟨hheads.2, hin⟩ hm
  | folder n inner rest ihi ihr =>
    obtain ⟨hheads, hin, hrest⟩ := h
    rw [heads, List.forall_mem_cons] at hheads
    rcases List.mem_append.mp hm with hm | hm
    · rcases Lister.mem_folderMarks hm with ⟨hn, hk⟩ | hm
      · have hkind : m.kind ≠ .file := by rcases hk with hk | hk | hk <;> simp [hk]
        exact ⟨names, n, hn, by simpa [hkind] using hheads.1⟩
      · exact ihi hin hm
    · exact ihr ⟨hheads.2, hrest⟩ hm

theorem nodup_marks {l : Lister} {names : List String} {f : Forest}
    (h : f.Each (fun _ heads => (heads.map Prod.snd).Nodup) names) : (f.marks l names).Nodup := by
  induction f generalizing names with
  | nil => exact .nil
  | file n rest ih =>
    obtain ⟨hheads, hin⟩ := h
    rw [heads, List.map_cons, List.nodup_cons] at hheads
    have hother : ∀ head ∈ (file n nil).heads, head ∉ rest.heads := fun head hh hm => by
      obtain rfl := List.mem_singleton.mp hh
      exact hheads.1 (List.mem_map_of_mem hm)
    refine List.nodup_append.mpr ⟨Lister.nodup_marks _ _, ih ⟨hheads.2, hin⟩, ?_⟩
    rintro m hm _ hm' rfl
    exact not_mem_marks hother (by simpa [marks] using hm) hm'
  | folder n inner rest ihi ihr =>
    obtain ⟨hheads, hin, hrest⟩ := h
    rw [heads, List.map_cons, List.nodup_cons] at hheads
    have hother : ∀ head ∈ (folder n inner nil).heads, head ∉ rest.heads := fun head hh hm => by
      obtain rfl := List.mem_singleton.mp hh
      exact hheads.1 (List.mem_map_of_mem hm)
    refine List.nodup_append.mpr ⟨Lister.nodup_folderMarks (by decide) (by decide) (ihi hin)
      deeper_of_mem_marks, ihr ⟨hheads.2, hrest⟩, ?_⟩
    rintro m hm _ hm' rfl
    exact not_mem_marks hother (by simpa [marks] using hm) hm'

end Forest

end TreeListing
