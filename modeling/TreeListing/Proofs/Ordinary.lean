import TreeListing.Proofs.Usual
import TreeListing.Proofs.Walk

/-!
Folders whose entries can stand in a listing: names have no character that a listing needs for itself,
and what is no folder is a regular file. All that is listed of such a folder is common.
-/
namespace TreeListing

/-- The characters that names in a listing may not have. -/
def reservedChars : List Char := ['\\', '/', ':', '*', '?', '"', '<', '>', '|', '\n']

/-- The name can stand in a listing. -/
def IsListable (n : String) : Prop := ∀ c ∈ n.toList, c ∉ reservedChars

instance (n : String) : Decidable (IsListable n) := List.decidableBAll _ n.toList

theorem contains_of_not_reserved {c : Char} (h : c ∉ reservedChars) :
    CharSet.path.contains c = true ∧ CharSet.name.contains c = true := by
  simp only [reservedChars, List.mem_cons, List.not_mem_nil, or_false, not_or] at h
  rw [CharSet.path_contains, CharSet.name_contains]
  simp [h]

theorem IsListable.filled_name {n : String} (h : IsListable n) (hne : n ≠ "") : Regex.Filled .name n.toList :=
  ⟨by simpa using hne, fun c hc => (contains_of_not_reserved (h c hc)).2⟩

namespace Item

variable {d : Disk} {o : Options} {i : Item}

/-- A regular file with a date that can be written. -/
structure IsRegular (d : Disk) (o : Options) (i : Item) : Prop where
  file : d.isFile i.abspath = true
  date : o.showDate = true → ∀ t, i.date d o.dateType = .ok t → DateFormat.InRange t

/-- What the item is called is written with characters of one sort. -/
structure Spelled (Q : Char → Prop) (i : Item) : Prop where
  name : ∀ c ∈ i.name.toList, Q c
  path : ∀ c ∈ i.path.text.toList, Q c
  abspath : ∀ c ∈ i.abspath.text.toList, Q c

/-- The text by which the item is called; a dot stands for any. -/
def calledBy (i : Item) : NameType → String
  | .dot => ""
  | .name => i.name
  | .relpath => i.path.text
  | .abspath => i.abspath.text

theorem Spelled.calledBy {Q : Char → Prop} (h : i.Spelled Q) (nameType : NameType) :
    ∀ c ∈ (i.calledBy nameType).toList, Q c := by
  cases nameType with
  | dot => exact List.forall_mem_nil _
  | name => exact h.name
  | relpath => exact h.path
  | abspath => exact h.abspath

theorem name_mem {base : Path} (hb : base.fileName?.isSome = true) {names : List String}
    (hn : ∀ n ∈ names, Path.IsName n) (isFolder : Bool) :
    (below base names isFolder).name ∈ names ∨ (below base names isFolder).name ∈ base.names := by
  cases names using List.reverseRecOn with
  | nil =>
    obtain ⟨n, hf⟩ := Option.isSome_iff_exists.mp hb
    have hname : (below base [] isFolder).name = n := by
      rw [name, below, hf]
      rfl
    exact .inr (hname ▸ Path.mem_names_of_fileName? hf)
  | append_singleton names n =>
    rw [name_below_concat base names (hn n (by simp))]
    exact .inl (by simp)

theorem spelled_below {Q : Char → Prop} (hs : Q '/') (hd : Q '.') {base : Path}
    (hbase : ∀ n ∈ base.names, ∀ c ∈ n.toList, Q c) {names : List String}
    (hn : ∀ n ∈ names, Path.IsName n) (hnames : ∀ n ∈ names, ∀ c ∈ n.toList, Q c) (isFolder : Bool) :
    (below base names isFolder).Spelled Q := by
  have htext : ∀ c ∈ base.text.toList, Q c := Path.forall_text hs hd hbase
  have hpath : ∀ c ∈ (below base names isFolder).path.text.toList, Q c := Path.forall_ofSegments hs hnames
  refine ⟨?_, hpath, ?_⟩
  · cases hb : base.fileName?.isSome with
    | true =>
      rcases name_mem hb hn isFolder with hm | hm
      · exact hnames _ hm
      · exact hbase _ hm
    | false =>
      rw [Option.isSome_eq_false_iff, Option.isNone_iff_eq_none] at hb
      cases names using List.reverseRecOn with
      | nil =>
        have hname : (below base [] isFolder).name = "" := by
          rw [name, below, hb]
          rfl
        exact hname ▸ List.forall_mem_nil _
      | append_singleton names n =>
        rw [name_below_concat base names (hn n (by simp))]
        exact hnames n (by simp)
  · rw [abspath]
    split
    · exact htext
    · exact Path.forall_join hs htext hpath

theorem abspath_ne {base : Path} (hb : base.text ≠ "") {names : List String}
    (hn : ∀ n ∈ names, Path.IsName n) (isFolder : Bool) : (below base names isFolder).abspath.text ≠ "" := by
  cases names using List.reverseRecOn with
  | nil => exact hb
  | append_singleton names n =>
    rw [abspath_below_concat base (fun m hm => hn m (by simp [hm])) (hn n (by simp)) isFolder isFolder]
    exact Path.text_join_name_ne _ (hn n (by simp))

theorem isCommon_below {base : Path} (hb : base.fileName?.isSome = true)
    (hbase : ∀ n ∈ base.names, IsListable n) {names : List String} (hn : ∀ n ∈ names, Path.IsName n)
    (hnames : ∀ n ∈ names, IsListable n) {isFolder : Bool}
    (hf : isFolder = false → (below base names isFolder).IsRegular d o) :
    (below base names isFolder).IsCommon d o := by
  have hpath : (below base names isFolder).Spelled (CharSet.path.contains · = true) :=
    spelled_below (by decide) (by decide) (fun n hm c hc => (contains_of_not_reserved (hbase n hm c hc)).1) hn
      (fun n hm c hc => (contains_of_not_reserved (hnames n hm c hc)).1) isFolder
  have hname : Regex.Filled .name (below base names isFolder).name.toList := by
    rcases name_mem hb hn isFolder with hm | hm
    · exact (hnames _ hm).filled_name (hn _ hm).nonempty
    · exact (hbase _ hm).filled_name (Path.nonempty_of_mem_names hm)
  have habspath : Regex.Filled .path (below base names isFolder).abspath.text.toList :=
    ⟨by simpa using abspath_ne (Path.text_ne_of_fileName? hb) hn isFolder, hpath.abspath⟩
  exact ⟨hname, fun hne => ⟨by simpa using hne, hpath.path⟩, habspath, fun h => (hf h).file,
    fun h => (hf h).date⟩

end Item

/-- The names in the folder are good ones, and what is no folder is a regular file. -/
structure Disk.Ordinary (d : Disk) (o : Options) (Good : String → Prop) (i : Item) (names : List String) :
    Prop where
  isName : ∀ n ∈ names, Path.IsName n
  good : ∀ n ∈ names, Good n
  regular : ∀ n ∈ names, (i.child d n).isFolder = false → (i.child d n).IsRegular d o

/-- Without dates there is no more to a regular file than being one. -/
theorem Disk.ordinary_iff {d : Disk} {o : Options} (hd : o.showDate = false) {Good : String → Prop}
    {i : Item} {names : List String} :
    (∀ n ∈ names, Path.IsName n ∧ Good n ∧
      ((i.child d n).isFolder = false → d.isFile (i.child d n).abspath = true)) ↔
        d.Ordinary o Good i names := by
  constructor
  · intro h
    refine ⟨fun n hn => (h n hn).1, fun n hn => (h n hn).2.1, fun n hn hf => ⟨(h n hn).2.2 hf, ?_⟩⟩
    simp [hd]
  · exact fun h n hn => ⟨h.isName n hn, h.good n hn, fun hf => (h.regular n hn hf).file⟩

/-- The folder has a name, and it is the start of a finite tree of ordinary folders. -/
structure Disk.Presents (d : Disk) (o : Options) (Good : String → Prop) (folder base : Path) : Prop where
  absolute : folder.absolute? d.cwd = some base
  named : base.fileName?.isSome = true
  good : ∀ n ∈ base.names, Good n
  tree : d.Tree (d.Ordinary o Good) (.root base)

/-- The mark lies in an ordinary folder. -/
structure Mark.IsOrdinary (d : Disk) (o : Options) (Good : String → Prop) (base : Path) (m : Mark) :
    Prop where
  named : base.fileName?.isSome = true
  above : ∀ n ∈ base.names, Good n
  isName : ∀ n ∈ m.names, Path.IsName n
  good : ∀ n ∈ m.names, Good n
  entry : m.kind = .file ∨ m.kind = .folder → m.names ≠ []
  regular : m.kind = .file → (m.item base).IsRegular d o

variable {d : Disk} {o : Options} {Good : String → Prop} {l : Lister} {folder base : Path}

/-- The mark lies at the start of a tree of ordinary folders, or at an entry in it. -/
structure Mark.IsListed (d : Disk) (o : Options) (Good : String → Prop) (base : Path) (m : Mark) : Prop where
  isName : ∀ n ∈ m.names, Path.IsName n
  good : ∀ n ∈ m.names, Good n
  entry : m.kind = .file ∨ m.kind = .folder → m.names ≠ []
  regular : m.kind = .file → (m.item base).IsRegular d o

theorem Mark.name_mem {m : Mark} (h : ∀ n ∈ m.names, Path.IsName n) (hne : m.names ≠ []) (base : Path) :
    (m.item base).name ∈ m.names := by
  obtain ⟨before, n, hnames⟩ : ∃ before n, m.names = before ++ [n] :=
    ⟨_, _, (List.dropLast_append_getLast hne).symm⟩
  have hn : n ∈ m.names := hnames ▸ by simp
  rwa [item, hnames, Item.name_below_concat base before (h n hn), ← hnames]

theorem Mark.IsListed.name_mem {m : Mark} (h : m.IsListed d o Good base)
    (hk : m.kind = .file ∨ m.kind = .folder) : (m.item base).name ∈ m.names :=
  Mark.name_mem h.isName (h.entry hk) base

/-- A finite tree of ordinary folders shows a forest, and all marks of its listing lie in the tree. -/
theorem Disk.Tree.exists_listed (h : d.Tree (d.Ordinary o Good) (.root base)) (l : Lister) :
    ∃ f : Forest, f.Shows d l base [] (l.entries d (.root base)) ∧
      ∀ m ∈ l.folderMarks .root [] (f.marks l []), m.IsListed d o Good base := by
  have hP : ∀ (names : List String) (heads : List (Bool × String)), (∀ n ∈ names, Path.IsName n) →
      d.Ordinary o Good (.below base names true) (d.entryNames (.below base names true)) →
      l.entries d (.below base names true)
        = heads.map (fun head => .below base (names ++ [head.2]) head.1) →
      (∀ head ∈ heads, d.Has base names head) →
      ∀ head ∈ heads, (Path.IsName head.2 ∧ Good head.2) ∧
        (head.1 = false → (Item.below base (names ++ [head.2]) false).IsRegular d o) := by
    intro names heads hn hgood _ hhas head hm
    have hhead := hhas head hm
    have hname := hgood.isName _ hhead.named
    refine ⟨⟨hname, hgood.good _ hhead.named⟩, fun hf => ?_⟩
    have hregular := hgood.regular _ hhead.named
    rw [Item.child_below d base hn hname, ← hhead.isFolder, hf] at hregular
    exact hregular rfl
  obtain ⟨f, hs, he⟩ := Disk.Tree.exists_shows (l := l) (fun _ _ hg => hg.isName) hP
    (List.forall_mem_nil _) h
  refine ⟨f, hs, fun m hm => ?_⟩
  rcases Lister.mem_folderMarks hm with ⟨hn, hk⟩ | hm
  · have hkind : m.kind ≠ .file ∧ m.kind ≠ .folder := by rcases hk with hk | hk | hk <;> simp [hk]
    exact ⟨by simp [hn], by simp [hn], fun hk => by simp [hkind] at hk, fun hk => absurd hk hkind.1⟩
  · have hnames := Forest.forall_names (Q := fun n => Path.IsName n ∧ Good n) (by simp)
      (he.imp fun _ _ h head hm => (h head hm).1) hm
    obtain ⟨before, n, hb, -, hregular⟩ := Forest.exists_of_mem_marks he hm
    refine ⟨fun n hn => (hnames n hn).1, fun n hn => (hnames n hn).2, fun _ => by simp [hb], fun hk => ?_⟩
    have hitem : m.item base = .below base (before ++ [n]) false := by simp [Mark.item, hk, hb]
    exact hitem ▸ hregular (by simp [hk])

/-- An ordinary folder shows a forest, and all marks of its listing are ordinary. -/
theorem Disk.Presents.exists_shows (h : d.Presents o Good folder base) (l : Lister) :
    ∃ f : Forest, f.Shows d l base [] (l.entries d (.root base)) ∧
      ∀ m ∈ l.folderMarks .root [] (f.marks l []), m.IsOrdinary d o Good base := by
  obtain ⟨f, hs, hlisted⟩ := h.tree.exists_listed l
  refine ⟨f, hs, fun m hm => ?_⟩
  have h' := hlisted m hm
  exact ⟨h.named, h.good, h'.isName, h'.good, h'.entry, h'.regular⟩

namespace Mark.IsOrdinary

variable {m : Mark}

theorem isCommon (h : m.IsOrdinary d o Good base) (hg : ∀ n, Good n → IsListable n) :
    (m.item base).IsCommon d o :=
  Item.isCommon_below h.named (fun n hn => hg n (h.above n hn)) h.isName (fun n hn => hg n (h.good n hn))
    fun hf => h.regular (by simpa using hf)

theorem spelled (h : m.IsOrdinary d o Good base) (hg : ∀ n, Good n → IsListable n) :
    (m.item base).Spelled (· ≠ '\n') := by
  have hline : ∀ n, Good n → ∀ c ∈ n.toList, c ≠ '\n' := fun n hn c hc he =>
    hg n hn c hc (he ▸ by decide)
  exact Item.spelled_below (by decide) (by decide) (fun n hn => hline n (h.above n hn)) h.isName
    (fun n hn => hline n (h.good n hn)) _

theorem path_ne (h : m.IsOrdinary d o Good base) (hk : m.kind = .file ∨ m.kind = .folder) :
    (m.item base).path.text ≠ "" := by
  have hne := h.entry hk
  intro he
  exact hne ((Path.text_ofSegments_eq_empty h.isName).mp he)

theorem isFolder (m : Mark) (base : Path) (hk : m.kind = .file) : (m.item base).isFolder = false := by
  simp [item, Item.below, hk]

end Mark.IsOrdinary

end TreeListing
