import Mathlib.Data.List.Lex
import Mathlib.Data.String.Basic
import Mathlib.Order.WithBot
import TreeListing.Proofs.Comparison.Nesting

/-!
Where a line stands in a walk that does not group. Its place is the way to the entry, and the end of a
folder stands behind all names in it; so a walk is in the lexicographic order of its places. With the
lines of all folders around it left behind, a line comes first in a merge if its place is first. The main
statements are `pairwise_place` and `compareRecords_of_place_lt`.
-/
namespace TreeListing

/-- What is behind the names: nothing for an entry, for the end of a folder all names that are in it, and
for an ellipsis none of them. -/
def Kind.suffix : Kind → List (WithTop String)
  | .folderEnd => [⊤]
  | .ellipsis => [WithTop.some ""]
  | .file | .folder | .root => []

namespace Mark

def place (m : Mark) : List (WithTop String) := m.names.map WithTop.some ++ m.kind.suffix

/-- The first line of the folder that the names lead to. -/
def opening (names : List String) : Mark := ⟨if names = [] then .root else .folder, names⟩

end Mark

section
variable {α : Type} [LinearOrder α]

theorem append_cons_lt {x y : α} (h : x < y) (p s t : List α) : p ++ x :: s < p ++ y :: t :=
  List.append_left_lt (List.cons_lt_cons_iff.mpr (.inl h))

theorem lt_append_cons (p : List α) (x : α) (s : List α) : p < p ++ x :: s := by
  have h : p ++ [] < p ++ x :: s := List.append_left_lt (List.nil_lt_cons x s)
  rwa [List.append_nil] at h

/-- A list in front of another one is a beginning of it, or less where they part. -/
theorem exists_of_lt {as bs : List α} (h : as < bs) : (∃ x s, bs = as ++ x :: s) ∨
    ∃ p x s y t, as = p ++ x :: s ∧ bs = p ++ y :: t ∧ x < y := by
  induction as generalizing bs with
  | nil =>
    cases bs with
    | nil => exact absurd h (lt_irrefl _)
    | cons b bs => exact .inl ⟨b, bs, rfl⟩
  | cons a as ih =>
    cases bs with
    | nil => exact absurd h (List.not_lt_nil _)
    | cons b bs =>
      rcases List.cons_lt_cons_iff.mp h with hlt | ⟨rfl, hrest⟩
      · exact .inr ⟨[], a, as, b, bs, rfl, rfl, hlt⟩
      · rcases ih hrest with ⟨x, s, rfl⟩ | ⟨p, x, s, y, t, rfl, rfl, hlt⟩
        · exact .inl ⟨x, s, rfl⟩
        · exact .inr ⟨a :: p, x, s, y, t, rfl, rfl, hlt⟩

end

namespace Mark

variable {m m' : Mark} {names more more' : List String} {n n' : String}

theorem place_below (h : m.names = names ++ n :: more) : ∃ s, m.place
    = names.map WithTop.some ++ (n : WithTop String) :: s := by
  refine ⟨more.map WithTop.some ++ m.kind.suffix, ?_⟩
  rw [place, h, List.map_append, List.map_cons, List.append_assoc, List.cons_append]

/-- What lies in one entry of a folder is in front of what lies in an entry of a later name. -/
theorem place_lt_of_name_lt (h : m.names = names ++ n :: more) (h' : m'.names = names ++ n' :: more')
    (hlt : n < n') : m.place < m'.place := by
  obtain ⟨s, hs⟩ := place_below h
  obtain ⟨s', hs'⟩ := place_below h'
  rw [hs, hs']
  exact append_cons_lt (WithTop.coe_lt_coe.mpr hlt) _ s s'

/-- The first line of a folder is in front of all that is in it, and of its other lines. -/
theorem place_lt_of_suffix (hk : m.kind.suffix = []) (h : m'.names = m.names ++ more)
    (hne : more ≠ [] ∨ m'.kind.suffix ≠ []) : m.place < m'.place := by
  rw [place, place, hk, List.append_nil, h, List.map_append, List.append_assoc]
  obtain ⟨x, s, hs⟩ : ∃ x s, more.map WithTop.some ++ m'.kind.suffix = x :: s := by
    apply List.exists_cons_of_ne_nil
    rcases hne with hne | hne <;> simp [hne]
  rw [hs]
  exact lt_append_cons _ x s

theorem place_lt_folderEnd (h : m.names = names ++ n :: more) : m.place < (Mark.mk .folderEnd names).place := by
  obtain ⟨s, hs⟩ := place_below h
  rw [hs]
  exact append_cons_lt (WithTop.coe_lt_top n) _ s []

theorem suffix_cases (hk : m.kind ≠ .ellipsis) :
    m.kind = .folderEnd ∧ m.kind.suffix = [⊤] ∨ m.kind ≠ .folderEnd ∧ m.kind.suffix = [] := by
  cases h : m.kind with
  | folderEnd => exact .inl ⟨rfl, rfl⟩
  | ellipsis => exact absurd h hk
  | file | folder | root => exact .inr ⟨by decide, rfl⟩

theorem suffix_opening (names : List String) : (opening names).kind.suffix = [] := by
  rw [opening]
  dsimp only
  split <;> rfl

theorem place_opening (names : List String) : (opening names).place = names.map WithTop.some := by
  rw [place, suffix_opening, List.append_nil]
  rfl

/-- A name in a place is one of those that lead there. -/
theorem exists_of_place_eq (hk : m.kind ≠ .ellipsis) {p s : List (WithTop String)}
    (h : m.place = p ++ WithTop.some n :: s) :
    ∃ before more, m.names = before ++ n :: more ∧ before.map WithTop.some = p := by
  have hnot : WithTop.some n ∉ m.kind.suffix := by
    rcases suffix_cases hk with ⟨-, hs⟩ | ⟨-, hs⟩
    · rw [hs, List.mem_singleton]
      exact WithTop.coe_ne_top
    · rw [hs]
      exact List.not_mem_nil
  rw [place] at h
  rcases List.append_eq_append_iff.mp h with ⟨as, -, hs⟩ | ⟨bs, hn, hs⟩
  · rw [hs] at hnot
    exact absurd (List.mem_append_right as List.mem_cons_self) hnot
  · cases bs with
    | nil =>
      rw [List.nil_append] at hs
      exact absurd (hs ▸ List.mem_cons_self) hnot
    | cons b bs =>
      obtain ⟨rfl, -⟩ := List.cons.inj hs
      obtain ⟨before, rest, hnames, hbefore, hrest⟩ := List.map_eq_append_iff.mp hn
      obtain ⟨n', more, rfl, hn', -⟩ := List.map_eq_cons_iff.mp hrest
      obtain rfl := WithTop.coe_injective hn'
      exact ⟨before, more, hnames, hbefore⟩

/-- Only the end of a folder stands behind all names. -/
theorem folderEnd_of_place_eq (hk : m.kind ≠ .ellipsis) {p : List (WithTop String)}
    (h : m.place = p ++ [⊤]) : m.kind = .folderEnd ∧ m.names.map WithTop.some = p := by
  rw [place] at h
  rcases suffix_cases hk with ⟨hend, hs⟩ | ⟨-, hs⟩
  · rw [hs] at h
    exact ⟨hend, List.append_cancel_right h⟩
  · rw [hs, List.append_nil] at h
    have htop : ⊤ ∈ m.names.map WithTop.some := h ▸ List.mem_append_right p List.mem_cons_self
    obtain ⟨n, -, hn⟩ := List.mem_map.mp htop
    exact absurd hn WithTop.coe_ne_top

/-- One place is one way, and the end of a folder only shares its place with such an end. -/
theorem names_eq_of_place_eq (hk : m.kind ≠ .ellipsis) (hk' : m'.kind ≠ .ellipsis)
    (h : m.place = m'.place) : m.names = m'.names ∧ (m.kind = .folderEnd ↔ m'.kind = .folderEnd) := by
  have hmap : Function.Injective (List.map (@WithTop.some String)) :=
    List.map_injective_iff.mpr WithTop.coe_injective
  rcases suffix_cases hk with ⟨hend, hs⟩ | ⟨hend, hs⟩
  · obtain ⟨hend', hn⟩ := folderEnd_of_place_eq hk' (h.symm.trans (by rw [place, hs]))
    exact ⟨hmap hn.symm, iff_of_true hend hend'⟩
  · rcases suffix_cases hk' with ⟨hend', hs'⟩ | ⟨hend', hs'⟩
    · exact absurd (folderEnd_of_place_eq hk (h.trans (by rw [place, hs']))).1 hend
    · rw [place, place, hs, hs', List.append_nil, List.append_nil] at h
      exact ⟨hmap h, iff_of_false hend hend'⟩

/-- A true beginning of a place is that of a folder on the way. -/
theorem exists_opening_of_place_eq {p s : List (WithTop String)} {z : WithTop String}
    (h : m.place = p ++ z :: s) : ∃ names, names <+: m.names ∧
      (names.length < m.names.length ∨ m.kind.suffix ≠ []) ∧ (opening names).place = p := by
  rw [place] at h
  rcases List.append_eq_append_iff.mp h with ⟨as, hp, hs⟩ | ⟨bs, hn, hs⟩
  · have has : as = [] := by
      have hlen : m.kind.suffix.length ≤ 1 := by cases m.kind <;> decide
      rw [hs, List.length_append, List.length_cons] at hlen
      exact List.length_eq_zero_iff.mp (by omega)
    rw [has, List.append_nil] at hp
    refine ⟨m.names, List.prefix_rfl, .inr (by simp [hs]), ?_⟩
    rw [place_opening, hp]
  · obtain ⟨names, rest, hnames, hp, hrest⟩ := List.map_eq_append_iff.mp hn
    refine ⟨names, hnames ▸ List.prefix_append _ _, ?_, (place_opening names).trans hp⟩
    cases rest with
    | nil =>
      rw [List.map_nil] at hrest
      rw [← hrest, List.nil_append] at hs
      exact .inr (hs ▸ List.cons_ne_nil _ _)
    | cons n rest =>
      rw [hnames, List.length_append, List.length_cons]
      exact .inl (by omega)

end Mark

namespace Comparison

variable {l : Lister} {names : List String}

theorem pairwise_marks (kind : Kind) : (l.marks kind names).Pairwise fun m m' => m.place < m'.place := by
  rw [Lister.marks]
  split
  · exact List.pairwise_singleton _ _
  · exact .nil

theorem pairwise_folderMarks {kind : Kind} (hk : kind.suffix = []) {inner : List Mark}
    (hi : inner.Pairwise fun m m' => m.place < m'.place)
    (hin : ∀ m ∈ inner, ∃ n more, m.names = names ++ n :: more) :
    (l.folderMarks kind names inner).Pairwise fun m m' => m.place < m'.place := by
  have hbody : ∀ m ∈ innerMarks l names inner, m = ⟨.ellipsis, names⟩ ∨
      ∃ n more, m.names = names ++ n :: more := by
    intro m hm
    rw [innerMarks] at hm
    split at hm
    · exact .inl (Lister.mem_marks.mp hm).2
    · exact .inr (hin m hm)
  have hsorted : (innerMarks l names inner).Pairwise fun m m' => m.place < m'.place := by
    rw [innerMarks]
    split
    · exact pairwise_marks .ellipsis
    · exact hi
  rw [folderMarks_eq]
  refine List.pairwise_append.mpr ⟨pairwise_marks kind,
    List.pairwise_append.mpr ⟨hsorted, pairwise_marks .folderEnd, ?_⟩, ?_⟩
  · intro m hm m' hm'
    obtain ⟨-, rfl⟩ := Lister.mem_marks.mp hm'
    rcases hbody m hm with rfl | ⟨n, more, hn⟩
    · exact append_cons_lt (WithTop.coe_lt_top "") _ [] []
    · exact Mark.place_lt_folderEnd hn
  · intro m hm m' hm'
    obtain ⟨-, rfl⟩ := Lister.mem_marks.mp hm
    rcases List.mem_append.mp hm' with hm' | hm'
    · rcases hbody m' hm' with rfl | ⟨n, more, hn⟩
      · exact Mark.place_lt_of_suffix hk (List.append_nil names).symm (.inr (List.cons_ne_nil _ _))
      · exact Mark.place_lt_of_suffix hk hn (.inl (List.cons_ne_nil _ _))
    · obtain ⟨-, rfl⟩ := Lister.mem_marks.mp hm'
      exact Mark.place_lt_of_suffix hk (List.append_nil names).symm (.inr (List.cons_ne_nil _ _))

/-- Marks in front of those of the entries behind them, which have later names. -/
theorem pairwise_append_of_cut {f one rest : Forest} (hcut : Cut f one rest)
    (h : f.heads.Pairwise fun a b => a.2 < b.2)
    (hone : (one.marks l names).Pairwise fun m m' => m.place < m'.place)
    (hrest : (rest.marks l names).Pairwise fun m m' => m.place < m'.place) :
    (f.marks l names).Pairwise fun m m' => m.place < m'.place := by
  obtain ⟨head, hheads, hall⟩ := hcut.heads
  rw [hall] at h
  rw [hcut.marks]
  refine List.pairwise_append.mpr ⟨hone, hrest, fun m hm m' hm' => ?_⟩
  obtain ⟨head', hmem, more, hn, -⟩ := Forest.mem_marks hm
  obtain rfl : head' = head := by simpa [hheads] using hmem
  obtain ⟨other, hmem', more', hn', -⟩ := Forest.mem_marks hm'
  exact Mark.place_lt_of_name_lt hn hn' ((List.pairwise_cons.mp h).1 other hmem')

theorem pairwise_place {f : Forest}
    (h : f.Each (fun _ heads => heads.Pairwise fun a b => a.2 < b.2) names) :
    (f.marks l names).Pairwise fun m m' => m.place < m'.place := by
  induction f generalizing names with
  | nil => exact .nil
  | file n rest ih =>
    obtain ⟨hheads, hin⟩ := h
    apply pairwise_append_of_cut (.file n rest) hheads
    · simpa [Forest.marks] using pairwise_marks .file
    · exact ih ⟨(List.pairwise_cons.mp hheads).2, hin⟩
  | folder n inner rest ihi ihr =>
    obtain ⟨hheads, hinner, hrest⟩ := h
    apply pairwise_append_of_cut (.folder n inner rest) hheads
    · have hfolder : (l.folderMarks .folder (names ++ [n]) (inner.marks l (names ++ [n]))).Pairwise
          fun m m' => m.place < m'.place := by
        apply pairwise_folderMarks rfl (ihi hinner)
        intro m hm
        obtain ⟨head, -, more, hn, -⟩ := Forest.mem_marks hm
        exact ⟨head.2, more, hn⟩
      simpa [Forest.marks] using hfolder
    · exact ihr ⟨(List.pairwise_cons.mp hheads).2, hrest⟩

/-- All folders that lead to a mark, from the given depth on, have their first lines among the marks. -/
def Opens (depth : Nat) (ms : List Mark) : Prop :=
  ∀ m ∈ ms, ∀ names, names <+: m.names → depth ≤ names.length →
    (names.length < m.names.length ∨ m.kind.suffix ≠ []) → Mark.opening names ∈ ms

theorem opens_append {depth : Nat} {ms ns : List Mark} (h : Opens depth ms) (h' : Opens depth ns) :
    Opens depth (ms ++ ns) := by
  intro m hm names hp hd hne
  rcases List.mem_append.mp hm with hm | hm
  · exact List.mem_append_left _ (h m hm names hp hd hne)
  · exact List.mem_append_right _ (h' m hm names hp hd hne)

theorem opens_folderMarks {kind : Kind} (hs : l.shows kind = true) (hk : Mark.opening names = ⟨kind, names⟩)
    {inner : List Mark} (hi : Opens (names.length + 1) inner) (hin : ∀ m ∈ inner, names <+: m.names) :
    Opens names.length (l.folderMarks kind names inner) := by
  intro m hm others hp hd hne
  rw [folderMarks_eq] at hm ⊢
  have hown : m.names = names ∨ m ∈ inner ∧ innerMarks l names inner = inner := by
    rcases List.mem_append.mp hm with hm | hm
    · exact .inl (Lister.names_of_mem_marks hm)
    · rcases List.mem_append.mp hm with hm | hm
      · rw [innerMarks] at hm ⊢
        cases hl : l.options.limits names.length with
        | true =>
          rw [hl, if_pos rfl] at hm
          exact .inl (Lister.names_of_mem_marks hm)
        | false =>
          rw [hl, if_neg Bool.false_ne_true] at hm
          exact .inr ⟨hm, if_neg Bool.false_ne_true⟩
      · exact .inl (Lister.names_of_mem_marks hm)
  rcases Nat.eq_or_lt_of_le hd with hlen | hlen
  · have hprefix : names <+: m.names := by
      rcases hown with hn | ⟨hm, -⟩
      · exact hn ▸ List.prefix_rfl
      · exact hin m hm
    have hsame : others = names := (List.prefix_of_prefix_length_le hp hprefix hlen.ge).eq_of_length hlen.symm
    rw [hsame, hk]
    exact List.mem_append_left _ (Lister.mem_marks.mpr ⟨hs, rfl⟩)
  · rcases hown with hn | ⟨hm, hinner⟩
    · have hle := hp.length_le
      rw [hn] at hle
      exact absurd hlen (Nat.not_lt.mpr hle)
    · have hopening := hi m hm others hp hlen hne
      rw [hinner]
      exact List.mem_append_right _ (List.mem_append_left _ hopening)

theorem opens_marks (hf : l.shows .folder = true) {f : Forest} : Opens (names.length + 1) (f.marks l names) := by
  induction f generalizing names with
  | nil => exact fun m hm => by cases hm
  | file n rest ih =>
    apply opens_append _ ih
    intro m hm others hp hd hne
    obtain ⟨-, rfl⟩ := Lister.mem_marks.mp hm
    rcases hne with hlt | hne
    · rw [List.length_append, List.length_singleton] at hlt
      exact absurd hlt (Nat.not_lt.mpr hd)
    · exact absurd rfl hne
  | folder n inner rest ihi ihr =>
    apply opens_append _ ihr
    have hfolder : Opens (names ++ [n]).length
        (l.folderMarks .folder (names ++ [n]) (inner.marks l (names ++ [n]))) :=
      opens_folderMarks hf (by simp [Mark.opening]) ihi fun m hm => (prefix_of_mem_marks hm).1
    rwa [List.length_append, List.length_singleton] at hfolder

section
variable {o : SiblingOrder} {m m' : Mark} {r r' : Record}

theorem compareRecords_of_names (ho : o.ByName id) (hg : o.grouping = .mixed) (h : m.Made r) (h' : m'.Made r')
    {before before' : List String} {n n' : String} (hm : m.names = before ++ [n])
    (hm' : m'.names = before' ++ [n']) (hn : Path.IsName n) (hn' : Path.IsName n')
    (hd : before.length = before'.length) : compareRecords o r r' = Ord.compare n n' := by
  rw [compareRecords_siblings ho h h' hm hm' hn hn' hd, SiblingOrder.compareHeads, hg]
  rfl

/-- In mixed grouping a line is in front of a line of a later place if it is behind all folders that lead
there. -/
theorem compareRecords_of_place_lt (ho : o.ByName id) (hg : o.grouping = .mixed)
    (h : m.Made r) (h' : m'.Made r') (hn : ∀ n ∈ m.names, Path.IsName n)
    (hn' : ∀ n ∈ m'.names, Path.IsName n) (hk : m.kind ≠ .ellipsis) (hk' : m'.kind ≠ .ellipsis)
    (hlt : m.place < m'.place) (hopen : ∀ p z s, m'.place = p ++ z :: s → p < m.place) :
    compareRecords o r r' = .lt := by
  rcases exists_of_lt hlt with ⟨z, s, he⟩ | ⟨p, a, s, b, t, hm, hm', hab⟩
  · exact absurd (hopen _ z s he) (lt_irrefl _)
  · -- the later line is not in a folder beside the way to the first one, for that is not open
    have ht : t = [] := by
      cases t with
      | nil => rfl
      | cons z t =>
        have hbefore : p ++ [b] < m.place := hopen (p ++ [b]) z t (hm'.trans (List.append_cons p b (z :: t)))
        rw [hm] at hbefore
        exact absurd (append_cons_lt hab p s []) (lt_asymm hbefore)
    subst ht
    obtain ⟨n, rfl⟩ : ∃ n, WithTop.some n = a := WithTop.ne_top_iff_exists.mp (ne_top_of_lt hab)
    obtain ⟨before, more, hnames, hbefore⟩ := Mark.exists_of_place_eq hk hm
    cases b using WithTop.recTopCoe with
    | top =>
      obtain ⟨-, hend⟩ := Mark.folderEnd_of_place_eq hk' hm'
      have hlen : m'.names.length = before.length := by
        rw [← List.length_map (f := WithTop.some), hend, ← hbefore, List.length_map]
      apply compareRecords_of_deeper h h'
      rw [hlen, hnames, List.length_append, List.length_cons]
      omega
    | coe n' =>
      obtain ⟨before', more', hnames', hbefore'⟩ := Mark.exists_of_place_eq hk' hm'
      have hlen : before.length = before'.length := by
        rw [← List.length_map (f := WithTop.some), hbefore, ← hbefore', List.length_map]
      have hmore : more' = [] := by
        rw [Mark.place, hnames', List.map_append, hbefore', List.map_cons, List.append_assoc,
          List.cons_append] at hm'
        have hnil := (List.cons.inj (List.append_cancel_left hm')).2
        exact List.map_eq_nil_iff.mp (List.append_eq_nil_iff.mp hnil).1
      subst hmore
      cases more with
      | nil =>
        rw [compareRecords_of_names ho hg h h' hnames hnames' (hn n (by simp [hnames]))
          (hn' n' (by simp [hnames'])) hlen]
        exact compare_lt_iff_lt.mpr (WithTop.coe_lt_coe.mp hab)
      | cons n'' more =>
        apply compareRecords_of_deeper h h'
        rw [hnames', hnames, List.length_append, List.length_append, List.length_cons, List.length_cons,
          List.length_cons, List.length_nil, hlen]
        omega

/-- In mixed grouping lines of one place stand for each other, whatever they are. -/
theorem compareRecords_of_place_eq (ho : o.ByName id) (hg : o.grouping = .mixed)
    (h : m.Made r) (h' : m'.Made r') (hn : ∀ n ∈ m.names, Path.IsName n)
    (hk : m.kind ≠ .ellipsis) (hk' : m'.kind ≠ .ellipsis)
    (hroot : m.names = [] → m.kind.isFolderLike = true) (hroot' : m'.names = [] → m'.kind.isFolderLike = true)
    (he : m.place = m'.place) : compareRecords o r r' = .eq := by
  obtain ⟨hnames, -⟩ := Mark.names_eq_of_place_eq hk hk' he
  rcases List.eq_nil_or_concat' m.names with hnil | ⟨before, n, hm⟩
  · have hnil' : m'.names = [] := hnames.symm.trans hnil
    exact compareRecords_root h h' hnil hnil' (hroot hnil) (hroot' hnil')
  · have hname : Path.IsName n := hn n (by simp [hm])
    rw [compareRecords_of_names ho hg h h' hm (hnames.symm.trans hm) hname hname rfl]
    exact compare_eq_iff_eq.mpr rfl

end

end Comparison

end TreeListing
