import Mathlib.Algebra.GroupWithZero.Nat
import TreeListing.Proofs.Recursion
import TreeListing.Proofs.Table

/-!
Walks with a limit of the depth. Every step of such a walk leaves less to be done, for a folder has finitely
many entries and only those above the limit are listed; so the walk ends on every disk, even where links lead
back to the folders that hold them. The main statement is `limited_walk_ends`.
-/
namespace TreeListing

namespace Walk

def Task.item : Task → Item
  | .enter i | .visit i | .ellipsis i | .leave i => i

/-- What so many steps give, and what is left to be done behind them. -/
def after (d : Disk) (l : Lister) : Nat → List Task → List Signal.Outcome × List Task
  | _, [] => ([], [])
  | 0, tasks => ([], tasks)
  | n + 1, task :: rest =>
    let next := perform d l task rest
    let later := after d l n next.2
    (next.1.toList ++ later.1, later.2)

/-- A call for the next outcome: steps are done until one gives something, and the answer is none when no
task is left. -/
inductive Answers (d : Disk) (l : Lister) : List Task → Option Signal.Outcome → List Task → Prop
  | none : Answers d l [] none []
  | given {task : Task} {rest : List Task} {o : Signal.Outcome} (h : (perform d l task rest).1 = some o) :
      Answers d l (task :: rest) (some o) (perform d l task rest).2
  | nothing {task : Task} {rest left : List Task} {o? : Option Signal.Outcome}
      (h : (perform d l task rest).1 = .none) (later : Answers d l (perform d l task rest).2 o? left) :
      Answers d l (task :: rest) o? left

/-- Calls for the next outcome, one after the other until the answer is none. -/
inductive Calls (d : Disk) (l : Lister) : List Task → List Signal.Outcome → Prop
  | last {tasks left : List Task} (h : Answers d l tasks none left) : Calls d l tasks []
  | next {tasks left : List Task} {o : Signal.Outcome} {os : List Signal.Outcome}
      (h : Answers d l tasks (some o) left) (later : Calls d l left os) : Calls d l tasks (o :: os)

variable {d : Disk} {l : Lister}

/-- A step that gives nothing is part of the next call. -/
theorem Calls.nothing {task : Task} {rest : List Task} {os : List Signal.Outcome}
    (h : (perform d l task rest).1 = none) (later : Calls d l (perform d l task rest).2 os) :
    Calls d l (task :: rest) os := by
  cases later with
  | last ha => exact .last (.nothing h ha)
  | next ha hlater => exact .next (.nothing h ha) hlater

theorem calls_of_after {n : Nat} {tasks : List Task} (h : (after d l n tasks).2 = []) :
    Calls d l tasks (after d l n tasks).1 := by
  induction n generalizing tasks with
  | zero =>
    cases tasks with
    | nil => exact .last .none
    | cons task rest => cases h
  | succ n ih =>
    cases tasks with
    | nil => exact .last .none
    | cons task rest =>
      have hlater := ih h
      rw [after]
      cases hp : (perform d l task rest).1 with
      | none => exact hlater.nothing hp
      | some o => exact .next (.given hp) hlater

theorem run_of_after {n : Nat} {tasks : List Task} (h : (after d l n tasks).2 = []) :
    l.run d tasks = some (after d l n tasks).1 := by
  induction n generalizing tasks with
  | zero =>
    cases tasks with
    | nil => rw [Lister.run]; rfl
    | cons task rest => cases h
  | succ n ih =>
    cases tasks with
    | nil => rw [Lister.run]; rfl
    | cons task rest =>
      rw [run_cons, ih h]
      rfl

/-- All that a step can do: it gives nothing or what its item gives as a line of some kind, and it leaves the
other tasks or puts what is within a folder in front of them. -/
theorem perform_cases (task : Task) (rest : List Task) :
    ((perform d l task rest).1 = none ∨
      ∃ kind, (perform d l task rest).1.toList = l.outcomes d kind task.item) ∧
    ((perform d l task rest).2 = rest ∨ (task = .enter task.item ∨ task = .visit task.item) ∧
      (perform d l task rest).2 = within d l.options task.item ++ rest) := by
  have henter : ∀ i, (∃ kind, (enter d l i rest).1.toList = l.outcomes d kind i) ∧
      ((enter d l i rest).2 = rest ∨ (enter d l i rest).2 = within d l.options i ++ rest) := by
    intro i
    by_cases h : (l.record? d i.ownKind i).isOk = true
    · exact ⟨⟨_, (enter_of_isOk h rest).1⟩, .inr (enter_of_isOk h rest).2⟩
    · exact ⟨⟨_, (enter_of_not_isOk h rest).1⟩, .inl (enter_of_not_isOk h rest).2⟩
  cases task with
  | enter i => exact ⟨.inr (henter i).1, (henter i).2.imp_right fun h => ⟨.inl rfl, h⟩⟩
  | visit i =>
    rw [perform]
    split
    next => exact ⟨.inl rfl, .inl rfl⟩
    next =>
      split
      next => exact ⟨.inr (henter i).1, (henter i).2.imp_right fun h => ⟨.inr rfl, h⟩⟩
      next => exact ⟨.inr ⟨.file, rfl⟩, .inl rfl⟩
  | ellipsis i => exact ⟨.inr ⟨.ellipsis, rfl⟩, .inl rfl⟩
  | leave i => exact ⟨.inr ⟨.folderEnd, rfl⟩, .inl rfl⟩

/-- So many steps are enough for an entry, if folders are listed so many levels down from it: three for a
folder itself, and those for its entries. -/
def itemWork (d : Disk) : Nat → Item → Nat
  | 0, _ => 3
  | levels + 1, i => 3 + ((i.children d).map (itemWork d levels)).sum

def Task.work (d : Disk) (o : Options) : Task → Nat
  | .enter i | .visit i => itemWork d (o.maxDepth - i.depth) i
  | .ellipsis _ | .leave _ => 1

def work (d : Disk) (o : Options) (tasks : List Task) : Nat := (tasks.map (Task.work d o)).sum

theorem work_cons (o : Options) (task : Task) (rest : List Task) :
    work d o (task :: rest) = task.work d o + work d o rest := List.sum_cons

theorem work_append (o : Options) (tasks rest : List Task) :
    work d o (tasks ++ rest) = work d o tasks + work d o rest := by
  rw [work, List.map_append, List.sum_append]
  rfl

theorem itemWork_pos (levels : Nat) (i : Item) : 0 < itemWork d levels i := by
  cases levels <;> rw [itemWork] <;> omega

theorem Task.work_pos (o : Options) (task : Task) : 0 < task.work d o := by
  cases task with
  | enter i => exact itemWork_pos _ i
  | visit i => exact itemWork_pos _ i
  | ellipsis i => exact Nat.one_pos
  | leave i => exact Nat.one_pos

/-- The entries of a folder above the limit take the steps that are left for them. -/
theorem work_visits {o : Options} {i : Item} {levels : Nat} (h : o.maxDepth - i.depth = levels + 1) :
    work d o ((o.order.sort (i.children d)).map .visit) = ((i.children d).map (itemWork d levels)).sum := by
  have hentry : ∀ j ∈ o.order.sort (i.children d), (Task.visit j).work d o = itemWork d levels j := by
    intro j hj
    obtain ⟨n, -, rfl⟩ := Item.exists_of_mem_children (List.mem_mergeSort.mp hj)
    have hlevels : o.maxDepth - (i.depth + 1) = levels := by omega
    have hdepth : (i.child d n).depth = i.depth + 1 := rfl
    rw [Task.work, hdepth, hlevels]
  rw [work, List.map_map, Function.comp_def, List.map_congr_left hentry]
  exact ((List.mergeSort_perm _ _).map _).sum_nat

/-- What is within a folder takes fewer steps than the folder. -/
theorem work_within {o : Options} (hm : 0 < o.maxDepth) (i : Item) :
    work d o (within d o i) < itemWork d (o.maxDepth - i.depth) i := by
  have hleave : work d o [.leave i] = 1 := rfl
  rw [within, work_append, hleave]
  cases hl : o.limits i.depth with
  | true =>
    have hdots : work d o [.ellipsis i] = 1 := rfl
    have hdeep : o.maxDepth ≤ i.depth := by
      by_contra hlt
      rw [(Options.limits_eq_false hm).mpr (Nat.lt_of_not_le hlt)] at hl
      cases hl
    rw [if_pos rfl, hdots, Nat.sub_eq_zero_of_le hdeep, itemWork]
    omega
  | false =>
    rw [Options.limits_eq_false hm] at hl
    obtain ⟨levels, hlevels⟩ : ∃ levels, o.maxDepth - i.depth = levels + 1 :=
      ⟨o.maxDepth - i.depth - 1, by omega⟩
    rw [if_neg Bool.false_ne_true, work_visits hlevels, hlevels, itemWork]
    omega

/-- Every step of a limited walk leaves less to be done. -/
theorem work_perform_lt (hm : 0 < l.options.maxDepth) (task : Task) (rest : List Task) :
    work d l.options (perform d l task rest).2 < work d l.options (task :: rest) := by
  rw [work_cons]
  rcases (perform_cases (d := d) (l := l) task rest).2 with h | ⟨hopens, h⟩
  · have := task.work_pos (d := d) l.options
    rw [h]
    omega
  · have hwork : task.work d l.options = itemWork d (l.options.maxDepth - task.item.depth) task.item := by
      rcases hopens with he | he <;> rw [he] <;> rfl
    have := work_within (d := d) hm task.item
    rw [h, work_append, hwork]
    omega

theorem after_work (hm : 0 < l.options.maxDepth) {n : Nat} {tasks : List Task}
    (h : work d l.options tasks ≤ n) : (after d l n tasks).2 = [] := by
  induction n generalizing tasks with
  | zero =>
    cases tasks with
    | nil => rfl
    | cons task rest =>
      have := task.work_pos (d := d) l.options
      rw [work_cons] at h
      omega
  | succ n ih =>
    cases tasks with
    | nil => rfl
    | cons task rest =>
      have := work_perform_lt (d := d) hm task rest
      exact ih (by omega)

/-- The tasks are about entries that so many names at most lead to from the base. -/
def Within (base : Path) (m : Nat) (tasks : List Task) : Prop :=
  ∀ task ∈ tasks, ∃ names isFolder, task.item = .below base names isFolder ∧ names.length ≤ m

theorem exists_child_below (d : Disk) (base : Path) (names : List String) (isFolder : Bool) (n : String) :
    ∃ isFolder', (Item.below base names isFolder).child d n = .below base (names ++ [n]) isFolder' :=
  ⟨_, by rw [Item.child, Item.below, Item.below, Path.ofSegments_concat, List.length_append,
    List.length_singleton]⟩

theorem within_within {base : Path} (hm : 0 < l.options.maxDepth) {i : Item}
    (h : ∃ names isFolder, i = .below base names isFolder ∧ names.length ≤ l.options.maxDepth) :
    Within base l.options.maxDepth (within d l.options i) := by
  obtain ⟨names, isFolder, rfl, hn⟩ := h
  intro task ht
  rcases mem_within ht with rfl | rfl | ⟨hl, j, hj, rfl⟩
  · exact ⟨names, isFolder, rfl, hn⟩
  · exact ⟨names, isFolder, rfl, hn⟩
  · obtain ⟨n, -, rfl⟩ := Item.exists_of_mem_children hj
    obtain ⟨isFolder', hchild⟩ := exists_child_below d base names isFolder n
    refine ⟨names ++ [n], isFolder', hchild, ?_⟩
    rw [List.length_append, List.length_singleton]
    exact (Options.limits_eq_false hm).mp hl

/-- A step of a limited walk leads to no entry that is deeper than the limit. -/
theorem within_perform {base : Path} (hm : 0 < l.options.maxDepth) {task : Task} {rest : List Task}
    (h : Within base l.options.maxDepth (task :: rest)) :
    Within base l.options.maxDepth (perform d l task rest).2 := by
  obtain ⟨htask, hrest⟩ := List.forall_mem_cons.mp h
  rcases (perform_cases (d := d) (l := l) task rest).2 with hp | ⟨-, hp⟩
  · rw [hp]
    exact hrest
  · rw [hp]
    exact List.forall_mem_append.mpr ⟨within_within hm htask, hrest⟩

theorem depth_of_mem_perform {task : Task} {rest : List Task} {r : Record}
    (h : .ok r ∈ (perform d l task rest).1.toList) : r.depth? = some task.item.depth := by
  rcases (perform_cases (d := d) (l := l) task rest).1 with hp | ⟨kind, hp⟩
  · rw [hp] at h
    cases h
  · rw [hp] at h
    exact (Lister.exists_of_mem_outcomes h).2.2.2

theorem depth_of_mem_after {base : Path} (hm : 0 < l.options.maxDepth) {n : Nat} {tasks : List Task}
    (h : Within base l.options.maxDepth tasks) {r : Record} (hr : .ok r ∈ (after d l n tasks).1) :
    ∃ depth ≤ l.options.maxDepth, r.depth? = some depth := by
  induction n generalizing tasks with
  | zero => cases tasks <;> cases hr
  | succ n ih =>
    cases tasks with
    | nil => cases hr
    | cons task rest =>
      rcases List.mem_append.mp hr with hr | hr
      · obtain ⟨names, isFolder, hi, hn⟩ := h task List.mem_cons_self
        exact ⟨names.length, hn, by rw [depth_of_mem_perform hr, hi]; rfl⟩
      · exact ih (within_perform hm h) hr

variable {names' : Path → Except SystemError (List String)}

theorem within_of_names {o : Options} {i : Item}
    (h : o.limits i.depth = false → names' i.abspath = d.names i.abspath) :
    within { d with names := names' } o i = within d o i := by
  rw [within, within]
  cases hl : o.limits i.depth with
  | true => rfl
  | false =>
    have hchildren : i.children { d with names := names' } = i.children d := by
      rw [Item.children, Item.children]
      simp only [h hl]
      rfl
    rw [hchildren]

theorem enter_of_names {i : Item} (h : l.options.limits i.depth = false → names' i.abspath = d.names i.abspath)
    (rest : List Task) : enter { d with names := names' } l i rest = enter d l i rest := by
  have hrecord : ∀ kind, l.record? { d with names := names' } kind i = l.record? d kind i := fun kind => rfl
  rw [enter, enter, hrecord, within_of_names h]

/-- A step reads no names but those in a folder above the limit. -/
theorem perform_of_names {task : Task}
    (h : l.options.limits task.item.depth = false → names' task.item.abspath = d.names task.item.abspath)
    (rest : List Task) : perform { d with names := names' } l task rest = perform d l task rest := by
  cases task with
  | enter i => exact enter_of_names h rest
  | visit i =>
    have henter := enter_of_names (i := i) h rest
    rw [perform, perform, henter]
    rfl
  | ellipsis i => rfl
  | leave i => rfl

/-- The names in folders that lie at the limit or deeper play no role. -/
theorem after_of_names {base : Path} (hm : 0 < l.options.maxDepth)
    (hnames : ∀ names, names.length < l.options.maxDepth →
      names' (Item.below base names true).abspath = d.names (Item.below base names true).abspath)
    {n : Nat} {tasks : List Task} (h : Within base l.options.maxDepth tasks) :
    after { d with names := names' } l n tasks = after d l n tasks := by
  induction n generalizing tasks with
  | zero => cases tasks <;> rfl
  | succ n ih =>
    cases tasks with
    | nil => rfl
    | cons task rest =>
      obtain ⟨names, isFolder, hi, -⟩ := h task List.mem_cons_self
      have hstep : perform { d with names := names' } l task rest = perform d l task rest := by
        refine perform_of_names (fun hl => ?_) rest
        rw [hi] at hl ⊢
        exact hnames names ((Options.limits_eq_false hm).mp hl)
      rw [after, after, hstep, ih (within_perform hm h)]

end Walk

/-- A walk with a limit of the depth ends on every disk: after finitely many calls for the next outcome the
answer is none, and all calls together do so many steps at most as are enough for the folder. No record is
deeper than the limit. The names in the folders that lie at the limit or deeper play no role, so no such folder
is listed. -/
theorem limited_walk_ends {l : Lister} (hm : 0 < l.options.maxDepth) (d : Disk) (base : Path) :
    ∃ os, Walk.Calls d l [.enter (.root base)] os ∧
      Walk.after d l (Walk.itemWork d l.options.maxDepth (.root base)) [.enter (.root base)] = (os, []) ∧
      (∀ folder, Walk.start d folder = .ok [.enter (.root base)] → l.walk d folder = .ok os) ∧
      (∀ r, .ok r ∈ os → ∃ depth ≤ l.options.maxDepth, r.depth? = some depth) ∧
      ∀ names' : Path → Except SystemError (List String),
        (∀ names, names.length < l.options.maxDepth →
          names' (Item.below base names true).abspath = d.names (Item.below base names true).abspath) →
        Walk.Calls { d with names := names' } l [.enter (.root base)] os := by
  have hwork : Walk.work d l.options [.enter (.root base)] ≤ Walk.itemWork d l.options.maxDepth (.root base) :=
    Nat.le_refl _
  have hwithin : Walk.Within base l.options.maxDepth [.enter (.root base)] :=
    List.forall_mem_singleton.mpr ⟨[], true, rfl, Nat.zero_le _⟩
  have hend := Walk.after_work hm hwork
  refine ⟨_, Walk.calls_of_after hend, Prod.ext rfl hend, fun folder hs => ?_, fun r hr => ?_,
    fun names' hnames => ?_⟩
  · rw [Lister.walk, hs, Except.map, Walk.run_of_after hend, Option.getD_some]
  · exact Walk.depth_of_mem_after hm hwithin hr
  · have hsame := Walk.after_of_names hm hnames hwithin
      (n := Walk.itemWork d l.options.maxDepth (.root base))
    have hcalls := Walk.calls_of_after (hsame ▸ hend)
    rwa [hsame] at hcalls

/-- A disk on which every folder is there again in itself. -/
def Disk.endless : Disk where
  cwd := ⟨"/"⟩
  stat _ := .ok ⟨.folder, 0, ⟨0, 0⟩, ⟨0, 0⟩⟩
  names _ := .ok ["again"]
  content _ := .error .isADirectory
  canonical? p := some p

theorem Disk.not_tree_endless {good : Item → List String → Prop} {i : Item} : ¬endless.Tree good i := by
  intro h
  induction h with
  | @intro i _ _ ih => exact ih (i.child endless "again") List.mem_cons_self rfl

theorem limited_walk_ends_endless : ∃ (l : Lister) (records : List Record),
    Lister.compile { maxDepth := 2, showEllipsis := true } .core = .ok l ∧ 0 < l.options.maxDepth ∧
      (∀ good, ¬Disk.endless.Tree good (.root ⟨"/t"⟩)) ∧
      Walk.Calls .endless l [.enter (.root ⟨"/t"⟩)] (records.map .ok) ∧
      records.map (fun r => (r.kind, r.path)) = [(.root, ⟨""⟩), (.folder, ⟨"again"⟩),
        (.folder, ⟨"again/again"⟩), (.ellipsis, ⟨"again/again"⟩)] ∧
      ∀ r ∈ records, ∃ depth ≤ l.options.maxDepth, r.depth? = some depth := by
  let records : List Record := [⟨.root, ⟨""⟩, some 0, .ofList [("indent", "")]⟩,
    ⟨.folder, ⟨"again"⟩, some 1, .ofList [("indent", " "), ("name", "again")]⟩,
    ⟨.folder, ⟨"again/again"⟩, some 2, .ofList [("indent", "  "), ("name", "again")]⟩,
    ⟨.ellipsis, ⟨"again/again"⟩, some 2, .ofList [("indent", "  ")]⟩]
  obtain ⟨l, hl⟩ : ∃ l, Lister.compile { maxDepth := 2, showEllipsis := true } .core = .ok l :=
    exists_eq_ok_of_isOk (by decide +kernel)
  have hm : 0 < l.options.maxDepth := by
    rw [Lister.options_eq hl]
    decide
  have hw : l.walk .endless ⟨"/t"⟩ = .ok (records.map .ok) :=
    walk_of_shown hl Path.absolute?_t (.folder "again" (.folder "again" .nil .nil) .nil) (by decide +kernel)
  obtain ⟨os, hcalls, -, hwalk, hdepth, -⟩ := limited_walk_ends hm .endless ⟨"/t"⟩
  have hstart : Walk.start .endless ⟨"/t"⟩ = .ok [.enter (.root ⟨"/t"⟩)] := by
    have hb : Path.absolute? ⟨"/t"⟩ Disk.endless.cwd = some ⟨"/t"⟩ := Path.absolute?_t
    rw [Walk.start, if_pos (isFolder_of_walk hw), hb]
  obtain rfl := Except.ok.inj (hw.symm.trans (hwalk ⟨"/t"⟩ hstart))
  exact ⟨l, records, hl, hm, fun _ => Disk.not_tree_endless, hcalls, by decide,
    fun r hr => hdepth r (List.mem_map_of_mem hr)⟩

end TreeListing
