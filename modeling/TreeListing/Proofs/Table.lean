import TreeListing.Proofs.Walk

/-!
Disks given by a table, and walks over them by evaluation. Where a disk names the entries of its folders
in the order of the listing there is nothing to sort, and a forest can be checked against the disk entry
by entry; the walk is then that of the forest (`walk_of_shown`).
-/
namespace TreeListing

namespace Disk

/-- A disk with these folders, each with the names in it, and these files, which are empty. -/
def ofTable (folders : List (String × List String)) (files : List String) : Disk where
  cwd := ⟨"/"⟩
  stat p :=
    if (folders.lookup p.text).isSome then .ok ⟨.folder, 0, ⟨0, 0⟩, ⟨0, 0⟩⟩
    else if p.text ∈ files then .ok ⟨.file, 0, ⟨0, 0⟩, ⟨0, 0⟩⟩
    else .error .notFound
  names p := ((folders.lookup p.text).map .ok).getD (.error .notADirectory)
  content p := if p.text ∈ files then .ok [] else .error .isADirectory
  canonical? p := some p

variable (d : Disk) (good : Item → List String → Prop) [∀ i names, Decidable (good i names)]

/-- The folder and those in it are at most so many levels, and the names in each are good. -/
def isTree : Nat → Item → Bool
  | 0, _ => false
  | levels + 1, i =>
    decide (good i (d.entryNames i)) && (i.children d).all fun j => !j.isFolder || isTree levels j

variable {d good} in
theorem tree_of_isTree (levels : Nat) {i : Item} (h : d.isTree good levels i = true) : d.Tree good i := by
  induction levels generalizing i with
  | zero => cases h
  | succ levels ih =>
    rw [isTree, Bool.and_eq_true, decide_eq_true_eq, List.all_eq_true] at h
    refine .intro h.1 fun j hj hfolder => ih ?_
    have hinner := h.2 j hj
    rwa [hfolder] at hinner

end Disk

namespace Forest

/-- The disk names the entries of a folder in order, and those with a place in the listing are the
forest's. -/
def isContent (l : Lister) (d : Disk) (base : Path) (names : List String) (f : Forest) : Bool :=
  let children := (Item.below base names true).children d
  decide (children.Pairwise fun a b => (l.options.order.compare a b).isLE = true) &&
    decide ((if l.options.limits names.length then [] else children.filter l.lists)
      = f.heads.map fun head => .below base (names ++ [head.2]) head.1)

/-- The folders behind the given names are as they are in the forest. -/
def isShown (l : Lister) (d : Disk) (base : Path) (names : List String) : Forest → Bool
  | nil => true
  | file _ rest => rest.isShown l d base names
  | folder n inner rest =>
    inner.isContent l d base (names ++ [n]) && inner.isShown l d base (names ++ [n])
      && rest.isShown l d base names

variable {l : Lister} {d : Disk} {base : Path} {names : List String} {f : Forest}

theorem entries_of_isContent (h : f.isContent l d base names = true) :
    l.entries d (.below base names true)
      = f.heads.map fun head => .below base (names ++ [head.2]) head.1 := by
  rw [isContent, Bool.and_eq_true, decide_eq_true_eq, decide_eq_true_eq] at h
  rw [Lister.entries, SiblingOrder.sort, List.mergeSort_of_pairwise h.1]
  exact h.2

theorem shows_of_isShown (h : f.isShown l d base names = true) :
    f.Shows d l base names (f.heads.map fun head => .below base (names ++ [head.2]) head.1) := by
  induction f generalizing names with
  | nil => exact .nil
  | file n rest ih => exact .file (ih h)
  | folder n inner rest ihi ihr =>
    rw [isShown, Bool.and_eq_true, Bool.and_eq_true] at h
    obtain ⟨⟨hfolder, hinner⟩, hrest⟩ := h
    exact .folder (entries_of_isContent hfolder ▸ ihi hinner) (ihr hrest)

end Forest

/-- The walk over a forest that the disk shows. -/
theorem walk_of_shown {o : Options} {r : Registry} {l : Lister} (hl : Lister.compile o r = .ok l)
    {d : Disk} {folder base : Path} (hb : folder.absolute? d.cwd = some base) (f : Forest)
    {records : List Record}
    (hc : ((Lister.compile o r).toOption.any fun l =>
      d.isFolder folder && f.isContent l d base [] && f.isShown l d base [] &&
        decide (l.folderOutcomes d .root (.root base) (f.outcomes l d base []) = records.map .ok)) = true) :
    l.walk d folder = .ok (records.map .ok) := by
  rw [hl] at hc
  simp only [Except.toOption, Option.any_some, Bool.and_eq_true, decide_eq_true_eq] at hc
  obtain ⟨⟨⟨hfolder, hroot⟩, hshown⟩, houtcomes⟩ := hc
  have hs : f.Shows d l base [] (l.entries d (.root base)) :=
    Forest.entries_of_isContent hroot ▸ Forest.shows_of_isShown hshown
  rw [walk_eq hfolder hb hs, houtcomes]

/-- A folder with a file and with a folder, in which are a file and a folder with a file again. -/
def Disk.nested : Disk :=
  .ofTable [("/t", ["x", "d"]), ("/t/d", ["y", "e"]), ("/t/d/e", ["z"])] ["/t/x", "/t/d/y", "/t/d/e/z"]

def Forest.nested : Forest := .file "x" (.folder "d" (.file "y" (.folder "e" (.file "z" .nil) .nil)) .nil)

/-- The record of an entry that is written with its name alone. -/
def Record.called (kind : Kind) (names : List String) : Record :=
  ⟨kind, .ofSegments names, some names.length, .ofList (names.getLast?.toList.map ("name", ·))⟩

def Record.nested : List Record :=
  [called .root [], called .file ["x"], called .folder ["d"], called .file ["d", "y"],
    called .folder ["d", "e"], called .file ["d", "e", "z"]]

end TreeListing
