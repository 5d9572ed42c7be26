import TreeListing.Proofs.Path
import TreeListing.Walk

/-!
What there is to list in a folder. A forest holds the entries of a folder in the order of the
listing, each folder with its own entries; a finite tree of folders on a disk always shows one.
-/
namespace TreeListing

/-- The entries of a folder in order, each folder with its own entries. -/
inductive Forest where
  | nil
  | file (name : String) (rest : Forest)
  | folder (name : String) (inner rest : Forest)
deriving DecidableEq

namespace Disk

def entryNames (d : Disk) (i : Item) : List String := ((d.names i.abspath).toOption).getD []

/-- A finite tree begins at the folder, and the names in each of its folders are as `good` says. -/
inductive Tree (d : Disk) (good : Item → List String → Prop) : Item → Prop
  | intro {i : Item} (names : good i (d.entryNames i))
      (inner : ∀ j ∈ i.children d, j.isFolder = true → Tree d good j) : Tree d good i

theorem Tree.imp {d : Disk} {good good' : Item → List String → Prop}
    (h : ∀ i names, good i names → good' i names) {i : Item} (ht : d.Tree good i) : d.Tree good' i := by
  induction ht with
  | intro hg _ ih => exact .intro (h _ _ hg) ih

end Disk

theorem Item.children_eq (i : Item) (d : Disk) :
    i.children d = if d.isFolder i.abspath then (d.entryNames i).map (i.child d) else [] := by
  rw [children, Disk.entryNames]
  split
  · cases d.names i.abspath <;> rfl
  · rfl

theorem Item.exists_of_mem_children {d : Disk} {i j : Item} (h : j ∈ i.children d) :
    ∃ n ∈ d.entryNames i, j = i.child d n := by
  rw [children_eq] at h
  split at h
  · obtain ⟨n, hn, rfl⟩ := List.mem_map.mp h
    exact ⟨n, hn, rfl⟩
  · cases h

namespace Lister

def shows (l : Lister) (kind : Kind) : Bool := (l.template? kind).isSome

/-- The entry has a place in a listing. -/
def lists (l : Lister) (i : Item) : Bool := !l.options.leavesOut i && (i.isFolder || l.shows .file)

def entries (l : Lister) (d : Disk) (i : Item) : List Item :=
  if l.options.limits i.depth then []
  else (l.options.order.sort (i.children d)).filter l.lists

theorem entries_sublist (l : Lister) (d : Disk) (i : Item) :
    (l.entries d i).Sublist (l.options.order.sort (i.children d)) := by
  rw [entries]
  split
  · exact List.nil_sublist _
  · exact List.filter_sublist

theorem mem_children_of_mem_entries {l : Lister} {d : Disk} {i j : Item} (h : j ∈ l.entries d i) :
    j ∈ i.children d := List.mem_mergeSort.mp ((l.entries_sublist d i).subset h)

theorem lists_of_mem_entries {l : Lister} {d : Disk} {i j : Item} (h : j ∈ l.entries d i) :
    l.lists j = true := by
  rw [entries] at h
  split at h
  · cases h
  · exact (List.mem_filter.mp h).2

end Lister

namespace Forest

def heads : Forest → List (Bool × String)
  | nil => []
  | file n rest => (false, n) :: rest.heads
  | folder n _ rest => (true, n) :: rest.heads

/-- The entries of every folder are as `P` says, for the folders in a forest behind the given
names. -/
def Inside (P : List String → List (Bool × String) → Prop) (names : List String) : Forest → Prop
  | nil => True
  | file _ rest => Inside P names rest
  | folder n inner rest =>
    (P (names ++ [n]) inner.heads ∧ Inside P (names ++ [n]) inner) ∧ Inside P names rest

/-- The entries behind the given names, and those of every folder among them, are as `P` says. -/
def Each (P : List String → List (Bool × String) → Prop) (names : List String) (f : Forest) : Prop :=
  P names f.heads ∧ f.Inside P names

theorem Inside.imp {P Q : List String → List (Bool × String) → Prop}
    (h : ∀ names heads, P names heads → Q names heads) {names : List String} {f : Forest}
    (hf : f.Inside P names) : f.Inside Q names := by
  induction f generalizing names with
  | nil => trivial
  | file n rest ih => exact ih hf
  | folder n inner rest ihi ihr => exact ⟨⟨h _ _ hf.1.1, ihi hf.1.2⟩, ihr hf.2⟩

theorem Each.imp {P Q : List String → List (Bool × String) → Prop}
    (h : ∀ names heads, P names heads → Q names heads) {names : List String} {f : Forest}
    (hf : f.Each P names) : f.Each Q names := ⟨h _ _ hf.1, hf.2.imp h⟩

/-- The items are those of the forest behind the given names, and the entries of every folder among
them are those of its forest. -/
inductive Shows (d : Disk) (l : Lister) (base : Path) : List String → List Item → Forest → Prop
  | nil {names : List String} : Shows d l base names [] .nil
  | file {names : List String} {n : String} {items : List Item} {rest : Forest}
      (hr : Shows d l base names items rest) :
      Shows d l base names (.below base (names ++ [n]) false :: items) (.file n rest)
  | folder {names : List String} {n : String} {items : List Item} {inner rest : Forest}
      (hi : Shows d l base (names ++ [n]) (l.entries d (.below base (names ++ [n]) true)) inner)
      (hr : Shows d l base names items rest) :
      Shows d l base names (.below base (names ++ [n]) true :: items) (.folder n inner rest)

theorem Shows.items_eq {d : Disk} {l : Lister} {base : Path} {names : List String}
    {items : List Item} {f : Forest} (h : f.Shows d l base names items) :
    items = f.heads.map fun head => .below base (names ++ [head.2]) head.1 := by
  induction h with
  | nil => rfl
  | file hr ih => rw [heads, List.map_cons, ← ih]
  | folder hi hr ihi ihr => rw [heads, List.map_cons, ← ihr]

/-- The entries of every folder in the forest are those of its forest. -/
theorem Shows.inside {d : Disk} {l : Lister} {base : Path} {names : List String} {items : List Item}
    {f : Forest} (h : f.Shows d l base names items) :
    f.Inside (fun names heads => l.entries d (.below base names true)
      = heads.map fun head => .below base (names ++ [head.2]) head.1) names := by
  induction h with
  | nil => trivial
  | file hr ih => exact ih
  | folder hi hr ihi ihr => exact ⟨⟨hi.items_eq, ihi⟩, ihr⟩

end Forest

/-- The entry is what the disk has by its name in the folder. -/
structure Disk.Has (d : Disk) (base : Path) (names : List String) (head : Bool × String) : Prop where
  named : head.2 ∈ d.entryNames (.below base names true)
  isFolder : head.1 = d.isFolder (Item.below base (names ++ [head.2]) true).abspath

theorem Lister.exists_of_mem_entries {d : Disk} {l : Lister} {base : Path} {names : List String}
    {j : Item} (hn : ∀ n ∈ names, Path.IsName n)
    (hnames : ∀ n ∈ d.entryNames (.below base names true), Path.IsName n)
    (hj : j ∈ l.entries d (.below base names true)) :
    ∃ head, j = .below base (names ++ [head.2]) head.1 ∧ d.Has base names head := by
  obtain ⟨n, hmem, rfl⟩ := Item.exists_of_mem_children (Lister.mem_children_of_mem_entries hj)
  exact ⟨(_, n), Item.child_below d base hn (hnames n hmem), hmem, rfl⟩

/-- The entries of a folder show a forest if each folder among them does. -/
theorem Lister.exists_shows {d : Disk} {l : Lister} {base : Path}
    {P : List String → List (Bool × String) → Prop} {names : List String} (hn : ∀ n ∈ names, Path.IsName n)
    (hnames : ∀ n ∈ d.entryNames (.below base names true), Path.IsName n)
    (hinner : ∀ n, Path.IsName n →
      .below base (names ++ [n]) true ∈ l.entries d (.below base names true) → ∃ f : Forest,
        f.Shows d l base (names ++ [n]) (l.entries d (.below base (names ++ [n]) true)) ∧
          f.Each P (names ++ [n])) :
    ∃ f : Forest, f.Shows d l base names (l.entries d (.below base names true)) ∧ f.Inside P names ∧
      ∀ head ∈ f.heads, d.Has base names head := by
  have hall : ∀ items : List Item, (∀ j ∈ items, j ∈ l.entries d (.below base names true)) →
      ∃ f : Forest, f.Shows d l base names items ∧ f.Inside P names ∧
        ∀ head ∈ f.heads, d.Has base names head := by
    intro items
    induction items with
    | nil => exact fun _ => ⟨.nil, .nil, trivial, by simp [Forest.heads]⟩
    | cons j items ih =>
      intro hsub
      obtain ⟨rest, hs, he, hh⟩ := ih fun k hk => hsub k (List.mem_cons_of_mem _ hk)
      have hj := hsub j List.mem_cons_self
      obtain ⟨⟨isFolder, n⟩, rfl, hhas⟩ := Lister.exists_of_mem_entries hn hnames hj
      cases isFolder with
      | false => exact ⟨.file n rest, .file hs, he, List.forall_mem_cons.mpr ⟨hhas, hh⟩⟩
      | true =>
        obtain ⟨f, hfs, hfe⟩ := hinner n (hnames n hhas.named) hj
        exact ⟨.folder n f rest, .folder hfs hs, ⟨hfe, he⟩, List.forall_mem_cons.mpr ⟨hhas, hh⟩⟩
  exact hall _ fun j hj => hj

/-- What is known of the names in the folders of a tree, and of the order of the entries, is known
of the forest. -/
theorem Disk.Tree.exists_shows {d : Disk} {l : Lister} {base : Path}
    {good : Item → List String → Prop} {P : List String → List (Bool × String) → Prop}
    (hg : ∀ i names, good i names → ∀ n ∈ names, Path.IsName n)
    (hP : ∀ names heads, (∀ n ∈ names, Path.IsName n) →
      good (.below base names true) (d.entryNames (.below base names true)) →
      l.entries d (.below base names true)
        = heads.map (fun head => .below base (names ++ [head.2]) head.1) →
      (∀ head ∈ heads, d.Has base names head) → P names heads)
    {names : List String} (hn : ∀ n ∈ names, Path.IsName n)
    (ht : d.Tree good (.below base names true)) :
    ∃ f : Forest, f.Shows d l base names (l.entries d (.below base names true)) ∧ f.Each P names := by
  generalize hi : Item.below base names true = i at ht
  induction ht generalizing names with
  | @intro i hgood inner ih =>
    subst hi
    obtain ⟨f, hs, he, hh⟩ := Lister.exists_shows (P := P) hn (hg _ _ hgood) fun n hname hj =>
      ih _ (Lister.mem_children_of_mem_entries hj) rfl
        (List.forall_mem_append.mpr ⟨hn, List.forall_mem_singleton.mpr hname⟩) rfl
    exact ⟨f, hs, hP names f.heads hn hgood hs.items_eq hh, he⟩

end TreeListing
