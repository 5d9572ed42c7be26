import TreeListing.Proofs.Mark
import TreeListing.Proofs.Replay.Path

/-!
The paths of a whole listing. Its lines come in the order of the tree: a folder, what is in it, and
then perhaps its end. Behind every line the folders that hold the next one are open, so each line gets
the path of its entry.
-/
namespace TreeListing

/-- The folders that are open in front of the mark: for what stands for a folder that is open, those
down to it, and else those around it. -/
def Mark.openBefore (m : Mark) : List String :=
  if m.kind.isFolderMarker then m.names else m.names.dropLast

/-- The mark can stand where its names lead. -/
structure Mark.IsPlaced (m : Mark) : Prop where
  names : ∀ n ∈ m.names, Path.IsName n
  root : m.kind = .root → m.names = []
  entry : m.kind.isFolderMarker = false → m.names ≠ []

theorem Mark.isPlaced_concat {kind : Kind} (hk : kind ≠ .root) {names : List String} {n : String}
    (hn : ∀ m ∈ names ++ [n], Path.IsName m) : Mark.IsPlaced ⟨kind, names ++ [n]⟩ :=
  ⟨hn, fun h => absurd h hk, fun _ => by simp⟩

theorem Mark.isPlaced_marker {kind : Kind} (hk : kind.isFolderMarker = true) {names : List String}
    (hn : ∀ n ∈ names, Path.IsName n) (hroot : kind = .root → names = []) : Mark.IsPlaced ⟨kind, names⟩ :=
  ⟨hn, hroot, fun h => absurd (hk.symm.trans h) (by decide)⟩

namespace Props

/-- The properties say which entry they belong to. A name is the last one of those that lead to the
entry; the root has a name that none of them is. -/
inductive TellsEntry (p : Props) (names : List String) : Prop
  | relpath (h : p.get? "relpath" = some (Path.ofSegments names).text)
  | name {n : String} (hr : p.get? "relpath" = none) (h : p.get? "name" = some n)
      (hn : ∀ m ∈ names.getLast?, n = m)
  | abspath {text : String} (hr : p.get? "relpath" = none) (hn : p.get? "name" = none)
      (h : p.get? "abspath" = some text) (ht : ∀ m ∈ names.getLast?, (Path.mk text).fileName? = some m)

structure TellsNoEntry (p : Props) : Prop where
  relpath : p.get? "relpath" = none
  name : p.get? "name" = none
  abspath : p.get? "abspath" = none

theorem TellsNoEntry.name? {p : Props} (h : p.TellsNoEntry) : p.name? = none := by
  rw [Props.name?, h.relpath, h.name, h.abspath]
  rfl

end Props

namespace Replay

/-- A line as it counts for paths: its kind, its properties, and the depth that follows from its
position, if one does. -/
structure Line where
  kind : Kind
  props : Props
  position? : Option Nat

/-- The paths of the lines, one after the other, with the open folders handed on. A line without a
path leaves them as they are. -/
def paths (startLevel : Nat) (indent : String) (parents : List String) : List Line → List (Option Path)
  | [] => []
  | x :: rest =>
    match x.props.path? x.kind parents x.position? startLevel indent with
    | some (path, parents) => some path :: paths startLevel indent parents rest
    | none => none :: paths startLevel indent parents rest

/-- The line tells the depth of the mark and, unless it can do without, the entry. -/
structure Line.Tells (startLevel : Nat) (indent : String) (x : Line) (m : Mark) : Prop where
  kind : x.kind = m.kind
  depth : x.props.TellsDepth startLevel indent x.position? m.names.length
  isWord : m.names.length + startLevel ≤ Text.maxWord
  entry : x.props.TellsEntry m.names ∨ m.kind.isFolderMarker = true ∧ x.props.TellsNoEntry

variable {startLevel : Nat} {indent : String} {parents : List String}

/-- One line gets the path of its mark, and behind it those folders are open that its kind leaves
open. -/
theorem Line.Tells.path? {m : Mark} {x : Line} (h : x.Tells startLevel indent m) (hm : m.IsPlaced)
    (hp : m.openBefore <+: parents) :
    x.props.path? x.kind parents x.position? startLevel indent
      = some (.ofSegments m.names, Props.openAfter m.kind m.names) := by
  have hdepth := h.depth.or_eq h.isWord
  have hdropLast : m.names.dropLast <+: parents := by
    rw [Mark.openBefore] at hp
    split at hp
    next => exact (List.dropLast_prefix _).trans hp
    next => exact hp
  have hnamed : ∀ n, x.props.get? "relpath" = none → x.props.name? = some n →
      (∀ last ∈ m.names.getLast?, n = last) → x.props.path? m.kind parents x.position? startLevel indent
        = some (.ofSegments m.names, Props.openAfter m.kind m.names) :=
    fun n hr hname hlast => Props.path?_of_name hdepth hr hname hlast hdropLast
  have hnameless : m.kind.isFolderMarker = true → x.props.get? "relpath" = none → x.props.name? = none →
      x.props.path? m.kind parents x.position? startLevel indent
        = some (.ofSegments m.names, Props.openAfter m.kind m.names) := by
    intro hk hr hname
    rw [Mark.openBefore, if_pos hk] at hp
    exact Props.path?_of_nameless hdepth hk hm.root hr hname hp
  rw [h.kind]
  rcases h.entry with he | ⟨hk, he⟩
  · cases he with
    | relpath hr => exact Props.path?_of_relpath hdepth hm.names hr
    | @name n hr hname hlast =>
      apply hnamed n hr _ hlast
      rw [Props.name?, hname, Option.some_or]
    | @abspath text hr hname habs hlast =>
      have hfile : x.props.name? = (Path.mk text).fileName? := by
        rw [Props.name?, hname, hr, habs]
        rfl
      cases hn : (Path.mk text).fileName? with
      | some n =>
        apply hnamed n hr (hfile.trans hn)
        intro last hl
        exact Option.some.inj (hn.symm.trans (hlast last hl))
      | none =>
        have hroot : m.names = [] := by
          rw [← List.getLast?_eq_none_iff, Option.eq_none_iff_forall_not_mem]
          intro last hl
          exact absurd (hn.symm.trans (hlast last hl)) (by simp)
        apply hnameless _ hr (hfile.trans hn)
        by_contra hk
        exact hm.entry (by simpa using hk) hroot
  · exact hnameless hk he.relpath he.name?

/-- The marks are those of lines at the front. The rest of the lines is replayed with the folders with
the names open. -/
def Passes (startLevel : Nat) (indent : String) (parents : List String) (lines : List Line)
    (ms more : List Mark) (names : List String) : Prop :=
  ∃ rest parents', names <+: parents' ∧ List.Forall₂ (Line.Tells startLevel indent) rest more ∧
    paths startLevel indent parents lines
      = ms.map (fun m => some (.ofSegments m.names)) ++ paths startLevel indent parents' rest

variable {lines : List Line} {m : Mark} {ms ns more : List Mark} {names names' : List String}

theorem passes_nil (hl : List.Forall₂ (Line.Tells startLevel indent) lines more)
    (hp : names <+: parents) : Passes startLevel indent parents lines [] more names :=
  ⟨lines, parents, hp, hl, rfl⟩

theorem passes_cons (hm : m.IsPlaced) (hp : m.openBefore <+: parents)
    (hl : List.Forall₂ (Line.Tells startLevel indent) lines (m :: more))
    (ho : names <+: Props.openAfter m.kind m.names) :
    Passes startLevel indent parents lines [m] more names := by
  cases hl with
  | cons hx hrest =>
    refine ⟨_, _, ho, hrest, ?_⟩
    rw [paths, hx.path? hm hp]
    rfl

theorem Passes.append (h : Passes startLevel indent parents lines ms (ns ++ more) names)
    (k : ∀ {rest : List Line} {parents' : List String}, names <+: parents' →
      List.Forall₂ (Line.Tells startLevel indent) rest (ns ++ more) →
      Passes startLevel indent parents' rest ns more names') :
    Passes startLevel indent parents lines (ms ++ ns) more names' := by
  obtain ⟨rest, parents', hp, hrest, he⟩ := h
  obtain ⟨rest', parents'', hp', hrest', he'⟩ := k hp hrest
  refine ⟨rest', parents'', hp', hrest', ?_⟩
  rw [he, he', List.map_append, List.append_assoc]

end Replay

def Mark.Perhaps (m : Mark) (ms : List Mark) : Prop := ms = [] ∨ ms = [m]

namespace Forest

/-- The marks of a forest behind the names, each folder in front of what is in it. Just behind the
folder there may be an ellipsis, and behind all that is in it there may be its end. -/
inductive Preorder : List String → Forest → List Mark → Prop
  | nil {names : List String} : Preorder names .nil []
  | file {names : List String} {n : String} {rest : Forest} {behind : List Mark}
      (hr : Preorder names rest behind) :
      Preorder names (.file n rest) (⟨.file, names ++ [n]⟩ :: behind)
  | folder {names : List String} {n : String} {inner rest : Forest} {dots within ends behind : List Mark}
      (hd : Mark.Perhaps ⟨.ellipsis, names ++ [n]⟩ dots) (hi : Preorder (names ++ [n]) inner within)
      (he : Mark.Perhaps ⟨.folderEnd, names ++ [n]⟩ ends) (hr : Preorder names rest behind) :
      Preorder names (.folder n inner rest)
        (⟨.folder, names ++ [n]⟩ :: (dots ++ (within ++ ends) ++ behind))

/-- The marks of a whole tree: in front of them the root. -/
inductive RootPreorder (f : Forest) : List Mark → Prop
  | intro {dots within ends : List Mark} (hd : Mark.Perhaps ⟨.ellipsis, []⟩ dots)
      (hi : f.Preorder [] within) (he : Mark.Perhaps ⟨.folderEnd, []⟩ ends) :
      RootPreorder f (⟨.root, []⟩ :: (dots ++ (within ++ ends)))

end Forest

namespace Replay

variable {startLevel : Nat} {indent : String} {parents : List String} {lines : List Line}
  {m : Mark} {ms more : List Mark} {names : List String} {f : Forest}

theorem passes_perhaps (h : m.Perhaps ms) (hm : m.IsPlaced) (hp : m.openBefore <+: parents)
    (hl : List.Forall₂ (Line.Tells startLevel indent) lines (ms ++ more)) (hn : names <+: parents)
    (ho : names <+: Props.openAfter m.kind m.names) :
    Passes startLevel indent parents lines ms more names := by
  rcases h with rfl | rfl
  · exact passes_nil hl hn
  · exact passes_cons hm hp hl ho

/-- What stands behind a folder or the root, up to its end. -/
theorem passes_within {dots within ends : List Mark} (hd : Mark.Perhaps ⟨.ellipsis, names⟩ dots)
    (hi : ∀ {parents : List String} {lines : List Line}, names <+: parents →
      List.Forall₂ (Line.Tells startLevel indent) lines (within ++ (ends ++ more)) →
      Passes startLevel indent parents lines within (ends ++ more) names)
    (he : Mark.Perhaps ⟨.folderEnd, names⟩ ends) (hn : ∀ n ∈ names, Path.IsName n)
    (hp : names <+: parents)
    (hl : List.Forall₂ (Line.Tells startLevel indent) lines (dots ++ (within ++ ends) ++ more)) :
    Passes startLevel indent parents lines (dots ++ (within ++ ends)) more names.dropLast := by
  have hellipsis : Mark.IsPlaced ⟨.ellipsis, names⟩ := Mark.isPlaced_marker rfl hn (absurd · (by decide))
  have hend : Mark.IsPlaced ⟨.folderEnd, names⟩ := Mark.isPlaced_marker rfl hn (absurd · (by decide))
  rw [List.append_assoc, List.append_assoc] at hl
  have hdots : Passes startLevel indent parents lines dots (within ++ (ends ++ more)) names :=
    passes_perhaps hd hellipsis hp hl hp List.prefix_rfl
  rw [← List.append_assoc] at hdots
  apply hdots.append
  intro rest parents' hp hl
  rw [List.append_assoc] at hl
  apply (hi hp hl).append
  intro rest parents' hp hl
  exact passes_perhaps he hend hp hl ((List.dropLast_prefix _).trans hp) List.prefix_rfl

theorem passes_forest (h : f.Preorder names ms) (hn : ∀ n ∈ names, Path.IsName n)
    (hf : f.Each (fun _ heads => ∀ head ∈ heads, Path.IsName head.2) names) (hp : names <+: parents)
    (hl : List.Forall₂ (Line.Tells startLevel indent) lines (ms ++ more)) :
    Passes startLevel indent parents lines ms more names := by
  induction h generalizing parents lines more with
  | nil => exact passes_nil hl hp
  | @file names n rest behind hr ih =>
    obtain ⟨hheads, hin⟩ := hf
    rw [Forest.heads, List.forall_mem_cons] at hheads
    have hnames : ∀ m ∈ names ++ [n], Path.IsName m :=
      List.forall_mem_append.mpr ⟨hn, List.forall_mem_singleton.mpr hheads.1⟩
    have hopen : Mark.openBefore ⟨.file, names ++ [n]⟩ <+: parents := by
      simpa [Mark.openBefore, Kind.isFolderMarker] using hp
    have hfile : Passes startLevel indent parents lines [⟨.file, names ++ [n]⟩] (behind ++ more) names :=
      passes_cons (Mark.isPlaced_concat (by decide) hnames) hopen hl (by simp [Props.openAfter, Kind.leavesFolder])
    exact hfile.append fun hp hl => ih hn ⟨hheads.2, hin⟩ hp hl
  | @folder names n inner rest dots within ends behind hd hi he hr ihi ihr =>
    obtain ⟨hheads, hin, hrest⟩ := hf
    rw [Forest.heads, List.forall_mem_cons] at hheads
    have hnames : ∀ m ∈ names ++ [n], Path.IsName m :=
      List.forall_mem_append.mpr ⟨hn, List.forall_mem_singleton.mpr hheads.1⟩
    have hopen : Mark.openBefore ⟨.folder, names ++ [n]⟩ <+: parents := by
      simpa [Mark.openBefore, Kind.isFolderMarker] using hp
    have hfolder : Passes startLevel indent parents lines [⟨.folder, names ++ [n]⟩]
        (dots ++ (within ++ ends) ++ behind ++ more) (names ++ [n]) :=
      passes_cons (Mark.isPlaced_concat (by decide) hnames) hopen hl List.prefix_rfl
    apply hfolder.append
    intro lines parents hp hl
    rw [List.append_assoc] at hl
    have hwithin := passes_within hd (fun hp hl => ihi hnames hin hp hl) he hnames hp hl
    rw [List.dropLast_concat] at hwithin
    exact hwithin.append fun hp hl => ihr hn ⟨hheads.2, hrest⟩ hp hl

theorem passes_root (h : f.RootPreorder ms)
    (hf : f.Each (fun _ heads => ∀ head ∈ heads, Path.IsName head.2) [])
    (hl : List.Forall₂ (Line.Tells startLevel indent) lines (ms ++ more)) :
    Passes startLevel indent parents lines ms more [] := by
  have hn : ∀ n ∈ ([] : List String), Path.IsName n := List.forall_mem_nil _
  cases h with
  | @intro dots within ends hd hi he =>
    have hroot : Passes startLevel indent parents lines [⟨.root, []⟩] (dots ++ (within ++ ends) ++ more) [] :=
      passes_cons (Mark.isPlaced_marker rfl hn fun _ => rfl) List.nil_prefix hl List.nil_prefix
    apply hroot.append
    intro lines parents hp hl
    exact passes_within hd (fun hp hl => passes_forest hi hn hf hp hl) he hn hp hl

/-- Listings of trees, one behind the other, are replayed exactly: every line gets the path of its
entry, whatever folders were open before. -/
theorem paths_of_preorder {forests : List Forest} {blocks : List (List Mark)}
    (hb : List.Forall₂ Forest.RootPreorder forests blocks)
    (hf : ∀ f ∈ forests, f.Each (fun _ heads => ∀ head ∈ heads, Path.IsName head.2) [])
    (hl : List.Forall₂ (Line.Tells startLevel indent) lines blocks.flatten) :
    paths startLevel indent parents lines
      = blocks.flatten.map fun m => some (.ofSegments m.names) := by
  induction hb generalizing parents lines with
  | nil =>
    cases hl
    rfl
  | @cons f block forests blocks hblock hbs ih =>
    rw [List.forall_mem_cons] at hf
    rw [List.flatten_cons] at hl ⊢
    obtain ⟨rest, parents', -, hrest, he⟩ := passes_root hblock hf.1 hl
    rw [he, ih hf.2 hrest, List.map_append]

/-- For instance two trees, with lines that tell their depth and their entry in different ways. -/
theorem paths_of_two_trees :
    paths 1 "  " [] [
        ⟨.root, .empty, some 0⟩,
        ⟨.folder, .ofList [("level", "2"), ("name", "a")], none⟩,
        ⟨.file, .ofList [("indent", "      "), ("abspath", "/x/a/b")], none⟩,
        ⟨.folderEnd, .ofList [("depth", "1")], none⟩,
        ⟨.file, .ofList [("relpath", "c")], some 1⟩,
        ⟨.root, .ofList [("name", "y")], some 0⟩,
        ⟨.ellipsis, .ofList [("indent", "  ")], none⟩]
      = [some ⟨""⟩, some ⟨"a"⟩, some ⟨"a/b"⟩, some ⟨"a"⟩, some ⟨"c"⟩, some ⟨""⟩, some ⟨""⟩] := by
  have hfirst : (Forest.folder "a" (.file "b" .nil) (.file "c" .nil)).RootPreorder
      [⟨.root, []⟩, ⟨.folder, ["a"]⟩, ⟨.file, ["a", "b"]⟩, ⟨.folderEnd, ["a"]⟩, ⟨.file, ["c"]⟩] :=
    .intro (.inl rfl) (.folder (.inl rfl) (.file .nil) (.inr rfl) (.file .nil)) (.inl rfl)
  have hsecond : Forest.nil.RootPreorder [⟨.root, []⟩, ⟨.ellipsis, []⟩] :=
    .intro (.inr rfl) .nil (.inl rfl)
  have hname : ∀ n ∈ ["a", "b", "c"], Path.IsName n := by
    intro n hn
    simp only [List.mem_cons, List.not_mem_nil, or_false] at hn
    rcases hn with rfl | rfl | rfl <;> exact ⟨by decide, by decide, by decide, by decide⟩
  refine Eq.trans (paths_of_preorder (.cons hfirst (.cons hsecond .nil)) ?_ ?_) (by decide)
  · simp [Forest.Each, Forest.Inside, Forest.heads, hname]
  · refine .cons ?root <| .cons ?folder <| .cons ?file <| .cons ?folderEnd <| .cons ?other <|
      .cons ?secondRoot <| .cons ?ellipsis .nil
    case root => exact ⟨rfl, .position rfl rfl (.inl rfl) rfl, by decide, .inr ⟨rfl, rfl, rfl, rfl⟩⟩
    case folder => exact ⟨rfl, .level rfl (by decide), by decide, .inl (.name rfl rfl (by decide))⟩
    case file =>
      exact ⟨rfl, .indent rfl rfl (by decide) (by decide), by decide,
        .inl (.abspath rfl rfl rfl (by decide))⟩
    case folderEnd => exact ⟨rfl, .depth (by decide), by decide, .inr ⟨rfl, rfl, rfl, rfl⟩⟩
    case other => exact ⟨rfl, .position rfl rfl (.inl rfl) rfl, by decide, .inl (.relpath (by decide))⟩
    case secondRoot =>
      exact ⟨rfl, .position rfl rfl (.inl rfl) rfl, by decide, .inl (.name rfl rfl (by decide))⟩
    case ellipsis =>
      exact ⟨rfl, .indent rfl rfl (by decide) (by decide), by decide, .inr ⟨rfl, rfl, rfl, rfl⟩⟩

end Replay

end TreeListing
