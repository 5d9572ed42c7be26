import Mathlib.Data.List.Chain
import TreeListing.Proofs.Mark
import TreeListing.Proofs.SiblingOrder

/-!
Which lines of a listing can stand next to each other. An ellipsis stands just behind the start of its
folder. Where files come first, a file that is the next line behind a folder lies in it.
-/
namespace TreeListing

/-- What a line is about: its kind and the depth of its entry. -/
structure Outline where
  kind : Kind
  depth? : Option Nat

def Mark.outline (m : Mark) : Outline := ⟨m.kind, some m.names.length⟩

def Record.outline (r : Record) : Outline := ⟨r.kind, r.depth?⟩

/-- A line about `m` can be the next one behind a line about `b`. -/
structure Outline.Follows (grouping : Grouping) (b m : Outline) : Prop where
  ellipsis : m.kind = .ellipsis → b.kind = .folder ∧ b.depth? = m.depth?
  file : m.kind = .file → b.kind = .folder → grouping = .filesFirst → b.depth? ≠ m.depth?

theorem Outline.follows_of_kind {grouping : Grouping} {b m : Outline} (he : m.kind ≠ .ellipsis)
    (hf : m.kind = .file → b.kind ≠ .folder) : b.Follows grouping m :=
  ⟨fun h => absurd h he, fun h h' => absurd h' (hf h)⟩

abbrev Mark.Follows (grouping : Grouping) (b m : Mark) : Prop := b.outline.Follows grouping m.outline

def FilesAhead (heads : List (Bool × String)) : Prop := heads.Pairwise fun a b => a.1 = true → b.1 = true

variable {l : Lister} {d : Disk} {base : Path} {grouping : Grouping} {kind : Kind} {names : List String}
  {inner : List Mark} {f : Forest}

theorem filesAhead_of_entries {i : Item} {heads : List (Bool × String)}
    (hg : l.options.grouping = .filesFirst)
    (h : l.entries d i = heads.map fun head => .below base (names ++ [head.2]) head.1) :
    FilesAhead heads := by
  have hsorted := (l.options.order.pairwise_sort (i.children d)).sublist (l.entries_sublist d i)
  rw [h, List.pairwise_map] at hsorted
  exact hsorted.imp fun hle hfolder => SiblingOrder.isFolder_of_isLE hg hle hfolder

namespace Lister

theorem isChain_marks (R : Mark → Mark → Prop) (kind : Kind) (names : List String) :
    (l.marks kind names).IsChain R := by
  rw [marks]
  split
  · exact .singleton _
  · exact .nil

/-- Behind the start of a folder come the marks of its entries, or its ellipsis. -/
theorem isChain_folderMarks (hk : kind = .folder ∨ l.options.limits names.length = false)
    (hi : inner.IsChain (Mark.Follows grouping)) (hdeep : ∀ m ∈ inner, names.length < m.names.length)
    (hhead : ∀ m ∈ inner.head?, m.kind ≠ .ellipsis) :
    (l.folderMarks kind names inner).IsChain (Mark.Follows grouping) := by
  have hstart : ∀ b ∈ (l.marks kind names).getLast?, b = ⟨kind, names⟩ := fun b hb =>
    (mem_marks.mp (List.mem_of_mem_getLast? hb)).2
  refine .append (.append (isChain_marks _ _ _) ?_ ?_) (isChain_marks _ _ _) ?_
  · split
    · exact isChain_marks _ _ _
    · exact hi
  · intro b hb m hm
    obtain rfl := hstart b hb
    split at hm
    next hl =>
      obtain ⟨-, rfl⟩ := mem_marks.mp (List.mem_of_mem_head? hm)
      exact ⟨fun _ => ⟨hk.resolve_right (by simp [hl]), rfl⟩, nofun⟩
    next =>
      have hlt := hdeep m (List.mem_of_mem_head? hm)
      exact ⟨fun he => absurd he (hhead m hm), fun _ _ _ he => Nat.ne_of_lt hlt (Option.some.inj he)⟩
  · intro b _ m hm
    obtain ⟨-, rfl⟩ := mem_marks.mp (List.mem_of_mem_head? hm)
    exact ⟨nofun, nofun⟩

end Lister

namespace Forest

theorem head?_marks (hs : l.shows .folder = true) {m : Mark} (hm : m ∈ (f.marks l names).head?) :
    m.kind = .folder ∨ m.kind = .file ∧ ∃ n, (false, n) ∈ f.heads := by
  induction f generalizing names with
  | nil => cases hm
  | file n rest ih =>
    rw [marks, List.head?_append, Option.mem_def, Option.or_eq_some_iff] at hm
    rcases hm with hm | ⟨-, hm⟩
    · exact .inr ⟨Lister.kind_of_mem_marks (List.mem_of_mem_head? hm), n, List.mem_cons_self⟩
    · rcases ih hm with hk | ⟨hk, n', hn⟩
      · exact .inl hk
      · exact .inr ⟨hk, n', List.mem_cons_of_mem _ hn⟩
  | folder n inner rest ihi ihr =>
    have hfirst : l.marks .folder (names ++ [n]) = [⟨.folder, names ++ [n]⟩] := if_pos hs
    rw [marks, Lister.folderMarks, hfirst] at hm
    exact .inl (Option.some.inj hm ▸ rfl)

theorem ne_ellipsis_of_head? (hs : l.shows .folder = true) :
    ∀ m ∈ (f.marks l names).head?, m.kind ≠ .ellipsis := by
  intro m hm
  rcases head?_marks hs hm with hk | ⟨hk, -⟩ <;> simp [hk]

/-- By induction on the forest: where one piece ends and the next one begins is where one entry of a
folder ends and the next one begins. -/
theorem isChain_marks (hs : l.shows .folder = true)
    (hf : f.Each (fun _ heads => grouping = .filesFirst → FilesAhead heads) names) :
    (f.marks l names).IsChain (Mark.Follows grouping) := by
  induction f generalizing names with
  | nil => exact .nil
  | file n rest ih =>
    obtain ⟨hheads, hin⟩ := hf
    refine .append (Lister.isChain_marks _ _ _) (ih ⟨fun hg => (hheads hg).of_cons, hin⟩) ?_
    intro b hb m hm
    have hb : b.kind = .file := Lister.kind_of_mem_marks (List.mem_of_mem_getLast? hb)
    exact Outline.follows_of_kind (ne_ellipsis_of_head? hs m hm) fun _ he => by cases hb.symm.trans he
  | folder n inner rest ihi ihr =>
    obtain ⟨hheads, hinner, hrest⟩ := hf
    refine .append (Lister.isChain_folderMarks (.inl rfl) (ihi hinner) deeper_of_mem_marks
      (ne_ellipsis_of_head? hs)) (ihr ⟨fun hg => (hheads hg).of_cons, hrest⟩) ?_
    intro b _ m hm
    rcases head?_marks hs hm with hk | ⟨hk, n', hn'⟩
    · exact Outline.follows_of_kind (ne_ellipsis_of_head? hs m hm) fun he => by cases hk.symm.trans he
    · refine ⟨fun he => absurd he (ne_ellipsis_of_head? hs m hm), fun _ _ hg => ?_⟩
      exact absurd (List.rel_of_pairwise_cons (hheads hg) hn' rfl) Bool.false_ne_true

/-- The marks of a listing begin with the root, and each can follow the one before. -/
theorem isChain_root (hr : l.shows .root = true) (hs : l.shows .folder = true)
    (hf : f.Shows d l base [] (l.entries d (.root base))) :
    (l.folderMarks .root [] (f.marks l [])).head? = some ⟨.root, []⟩ ∧
      (l.folderMarks .root [] (f.marks l [])).IsChain (Mark.Follows l.options.grouping) := by
  have hfirst : l.marks .root [] = [⟨.root, []⟩] := if_pos hr
  have hlimits : l.options.limits ([] : List String).length = false := by
    simp only [Options.limits, List.length_nil]
    cases l.options.maxDepth <;> rfl
  have hentries : f.Each (fun names heads => l.entries d (.below base names true)
      = heads.map fun head => .below base (names ++ [head.2]) head.1) [] := ⟨hf.items_eq, hf.inside⟩
  have heach : f.Each (fun _ heads => l.options.grouping = .filesFirst → FilesAhead heads) [] :=
    hentries.imp fun _ _ h hg => filesAhead_of_entries hg h
  refine ⟨?_, Lister.isChain_folderMarks (.inr hlimits) (isChain_marks hs heach) deeper_of_mem_marks
    (ne_ellipsis_of_head? hs)⟩
  rw [Lister.folderMarks, hfirst]
  rfl

end Forest

end TreeListing
