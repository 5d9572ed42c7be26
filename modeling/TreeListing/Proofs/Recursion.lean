import TreeListing.Proofs.Lister
import TreeListing.Proofs.Table

/-!
A walk is a recursion on folders. The tasks of a walk give, one after the other, what the recursion
gives for each of them, on every disk and with every choice of templates; the main statement is
`walk_is_recursive`.
-/
namespace TreeListing

def Item.ownKind (i : Item) : Kind := if i.depth = 0 then .root else .folder

/-- What a folder has to list: its own record, what its entries have to list, in order and without
those that are left out, and its end; an ellipsis stands for the entries of a folder that is too
deep. If its own record fails, the failure is all. It gives `none` when this never ends. -/
def Lister.listing (l : Lister) (d : Disk) (i : Item) : Option (List Signal.Outcome) :=
  if (l.record? d i.ownKind i).isOk then
    (l.outcomes d i.ownKind i ++ · ++ l.outcomes d .folderEnd i) <$>
      if l.options.limits i.depth then some (l.outcomes d .ellipsis i)
      else List.flatten <$>
        ((l.options.order.sort (i.children d)).filter fun j => !l.options.leavesOut j).mapM fun j =>
          if j.isFolder then l |>.listing d j else some (l.outcomes d .file j)
  else some (l.outcomes d i.ownKind i)
partial_fixpoint

namespace Walk

variable {l : Lister} {d : Disk} {listing : Item → Option (List Signal.Outcome)}

/-- What a task gives, with `listing` for the folders. -/
def Task.given? (l : Lister) (d : Disk) (listing : Item → Option (List Signal.Outcome)) :
    Task → Option (List Signal.Outcome)
  | .enter i => listing i
  | .visit i =>
    if l.options.leavesOut i then some []
    else if i.isFolder then listing i
    else some (l.outcomes d .file i)
  | .ellipsis i => some (l.outcomes d .ellipsis i)
  | .leave i => some (l.outcomes d .folderEnd i)

def given? (l : Lister) (d : Disk) (listing : Item → Option (List Signal.Outcome))
    (tasks : List Task) : Option (List Signal.Outcome) :=
  (tasks.mapM (Task.given? l d listing)).map List.flatten

theorem given?_nil : given? l d listing [] = some [] := rfl

theorem given?_cons (task : Task) (rest : List Task) :
    given? l d listing (task :: rest)
      = (task.given? l d listing).bind fun os => (given? l d listing rest).map (os ++ ·) := by
  rw [given?, List.mapM_cons, given?]
  cases task.given? l d listing with
  | none => rfl
  | some os => cases rest.mapM (Task.given? l d listing) <;> rfl

theorem given?_append (tasks rest : List Task) :
    given? l d listing (tasks ++ rest)
      = (given? l d listing tasks).bind fun os => (given? l d listing rest).map (os ++ ·) := by
  rw [given?, List.mapM_append, given?, given?]
  cases tasks.mapM (Task.given? l d listing) with
  | none => rfl
  | some os => cases rest.mapM (Task.given? l d listing) <;> simp

/-- Entries that are left out give nothing. -/
theorem given?_visit (items : List Item) :
    given? l d listing (items.map .visit)
      = List.flatten <$> (items.filter fun j => !l.options.leavesOut j).mapM fun j : Item =>
          if j.isFolder then listing j else some (l.outcomes d .file j) := by
  induction items with
  | nil => rfl
  | cons i items ih =>
    rw [List.map_cons, given?_cons, ih, Task.given?]
    cases ho : l.options.leavesOut i with
    | true => simp [ho, Function.comp_def]
    | false =>
      rw [List.filter_cons_of_pos (by simp [ho]), List.mapM_cons]
      generalize List.mapM (m := Option) _ (items.filter fun j => !l.options.leavesOut j) = inner
      rw [if_neg (by simp)]
      cases (if i.isFolder then listing i else some (l.outcomes d .file i)) <;> cases inner <;> rfl

theorem given?_leave (i : Item) : given? l d listing [.leave i] = some (l.outcomes d .folderEnd i) := by
  rw [given?_cons, given?_nil]
  simp [Task.given?]

theorem given?_ellipsis (i : Item) : given? l d listing [.ellipsis i] = some (l.outcomes d .ellipsis i) := by
  rw [given?_cons, given?_nil]
  simp [Task.given?]

theorem given?_within (i : Item) (own : List Signal.Outcome) :
    (own ++ · ++ l.outcomes d .folderEnd i) <$>
        (if l.options.limits i.depth then some (l.outcomes d .ellipsis i)
        else List.flatten <$>
          ((l.options.order.sort (i.children d)).filter fun j => !l.options.leavesOut j).mapM fun j =>
            if j.isFolder then listing j else some (l.outcomes d .file j))
      = (given? l d listing (within d l.options i)).map (own ++ ·) := by
  rw [within, given?_append, given?_leave]
  cases l.options.limits i.depth with
  | true =>
    rw [if_pos rfl, if_pos rfl, given?_ellipsis]
    simp
  | false =>
    rw [if_neg Bool.false_ne_true, if_neg Bool.false_ne_true, given?_visit]
    generalize List.flatten <$> List.mapM (m := Option) _ _ = inner
    cases inner <;> simp

theorem exists_of_given?_within {i : Item} {os : List Signal.Outcome}
    (h : given? l d listing (within d l.options i) = some os) :
    ∃ inner, os = inner ++ l.outcomes d .folderEnd i ∧
      if l.options.limits i.depth then inner = l.outcomes d .ellipsis i
      else given? l d listing ((l.options.order.sort (i.children d)).map .visit) = some inner := by
  rw [within, given?_append, given?_leave] at h
  obtain ⟨inner, hi, h⟩ := Option.bind_eq_some_iff.mp h
  refine ⟨inner, (Option.some.inj h).symm, ?_⟩
  split at hi
  next hl =>
    rw [given?_ellipsis] at hi
    rw [if_pos hl]
    exact (Option.some.inj hi).symm
  next hl => rwa [if_neg hl]

theorem listing_eq (i : Item) :
    l.listing d i = if (l.record? d i.ownKind i).isOk
      then (given? l d (l.listing d) (within d l.options i)).map (l.outcomes d i.ownKind i ++ ·)
      else some (l.outcomes d i.ownKind i) := by
  rw [Lister.listing, given?_within]

theorem enter_of_isOk {i : Item} (h : (l.record? d i.ownKind i).isOk = true) (rest : List Task) :
    (enter d l i rest).1.toList = l.outcomes d i.ownKind i ∧
      (enter d l i rest).2 = within d l.options i ++ rest := by
  obtain ⟨record?, hr⟩ := exists_eq_ok_of_isOk h
  have hr' : l.record? d (if i.depth = 0 then .root else .folder) i = .ok record? := hr
  rw [enter, hr', Lister.outcomes, hr]
  cases record? <;> exact ⟨rfl, rfl⟩

theorem enter_of_not_isOk {i : Item} (h : (l.record? d i.ownKind i).isOk ≠ true) (rest : List Task) :
    (enter d l i rest).1.toList = l.outcomes d i.ownKind i ∧ (enter d l i rest).2 = rest := by
  cases hr : l.record? d i.ownKind i with
  | ok record? => exact absurd (by rw [hr]; rfl) h
  | error e =>
    have hr' : l.record? d (if i.depth = 0 then .root else .folder) i = .error e := hr
    rw [enter, hr', Lister.outcomes, hr]
    exact ⟨rfl, rfl⟩

/-- Entering a folder gives the first outcomes of the recursion, and leaves tasks for the rest. -/
theorem given?_enter (i : Item) (rest : List Task) :
    (l.listing d i).bind (fun os => (given? l d (l.listing d) rest).map (os ++ ·))
      = (given? l d (l.listing d) (enter d l i rest).2).map ((enter d l i rest).1.toList ++ ·) := by
  rw [listing_eq]
  split
  next h =>
    rw [(enter_of_isOk h rest).1, (enter_of_isOk h rest).2, given?_append]
    cases given? l d (l.listing d) (within d l.options i) with
    | none => rfl
    | some os => cases given? l d (l.listing d) rest <;> simp
  next h =>
    rw [(enter_of_not_isOk h rest).1, (enter_of_not_isOk h rest).2]
    rfl

theorem given?_perform (task : Task) (rest : List Task) :
    given? l d (l.listing d) (task :: rest)
      = (given? l d (l.listing d) (perform d l task rest).2).map
          ((perform d l task rest).1.toList ++ ·) := by
  rw [given?_cons]
  cases task with
  | enter i => exact given?_enter i rest
  | visit i =>
    rw [Task.given?, perform]
    cases l.options.leavesOut i with
    | true => simp
    | false =>
      cases i.isFolder with
      | true => exact given?_enter i rest
      | false => rfl
  | ellipsis i => rfl
  | leave i => rfl

/-- What a walk gives in the end is what the recursion gives. -/
theorem given?_of_run {tasks : List Task} {outcomes : List Signal.Outcome}
    (h : l.run d tasks = some outcomes) : given? l d (l.listing d) tasks = some outcomes := by
  refine Lister.run.partial_correctness l d
    (fun tasks outcomes => given? l d (l.listing d) tasks = some outcomes) ?_ tasks outcomes h
  rintro run ih (_ | ⟨task, rest⟩) outcomes hr
  · exact hr
  · rw [given?_perform]
    obtain ⟨⟨outcome?, next⟩, hp⟩ : ∃ p, perform d l task rest = p := ⟨_, rfl⟩
    simp only [hp] at hr ⊢
    cases outcome? with
    | none =>
      rw [ih next outcomes hr]
      rfl
    | some outcome =>
      obtain ⟨others, ho, he⟩ := Option.bind_eq_some_iff.mp hr
      rw [ih next others ho]
      exact he

/-- If the folders are walked as `listing` tells, so are all tasks. -/
theorem run_of_given?
    (hf : ∀ i os, listing i = some os → ∀ rest,
      l.run d (.enter i :: rest) = (l.run d rest).map (os ++ ·))
    {tasks : List Task} {os : List Signal.Outcome} (h : given? l d listing tasks = some os)
    (rest : List Task) : l.run d (tasks ++ rest) = (l.run d rest).map (os ++ ·) := by
  induction tasks generalizing os with
  | nil =>
    obtain rfl := Option.some.inj h
    simp
  | cons task tasks ih =>
    rw [given?_cons] at h
    obtain ⟨first, ht, h⟩ := Option.bind_eq_some_iff.mp h
    obtain ⟨others, hothers, rfl⟩ := Option.map_eq_some_iff.mp h
    have hfirst : l.run d (task :: (tasks ++ rest)) = (l.run d (tasks ++ rest)).map (first ++ ·) := by
      cases task with
      | enter i => exact hf i first ht _
      | visit i =>
        rw [Task.given?] at ht
        rw [run_cons, perform]
        cases ho : l.options.leavesOut i with
        | true =>
          obtain rfl : [] = first := by simpa [ho] using ht
          rfl
        | false =>
          cases hi : i.isFolder with
          | true =>
            rw [← hf i first (by simpa [ho, hi] using ht), run_cons, perform]
            rfl
          | false =>
            obtain rfl : l.outcomes d .file i = first := by simpa [ho, hi] using ht
            rfl
      | ellipsis i =>
        obtain rfl := Option.some.inj ht
        exact run_ellipsis i _
      | leave i =>
        obtain rfl := Option.some.inj ht
        exact run_leave i _
    rw [List.cons_append, hfirst, ih hothers, Option.map_map]
    simp [Function.comp_def]

theorem run_enter_of_listing {i : Item} {os : List Signal.Outcome} (h : l.listing d i = some os)
    (rest : List Task) : l.run d (.enter i :: rest) = (l.run d rest).map (os ++ ·) := by
  refine Lister.listing.partial_correctness l d
    (fun i os => ∀ rest, l.run d (.enter i :: rest) = (l.run d rest).map (os ++ ·)) ?_ i os h rest
  intro listing ih i os h rest
  rw [run_cons, perform]
  split at h
  next hok =>
    rw [given?_within] at h
    obtain ⟨inner, hi, rfl⟩ := Option.map_eq_some_iff.mp h
    rw [(enter_of_isOk hok rest).1, (enter_of_isOk hok rest).2, run_of_given? ih hi, Option.map_map]
    simp [Function.comp_def]
  next hfails =>
    obtain rfl := Option.some.inj h
    rw [(enter_of_not_isOk hfails rest).1, (enter_of_not_isOk hfails rest).2]

/-- Walking and recursion give the same, also where neither ends. -/
theorem run_eq_given? (tasks : List Task) : l.run d tasks = given? l d (l.listing d) tasks := by
  refine Option.ext fun outcomes => ⟨given?_of_run, fun h => ?_⟩
  have hr := run_of_given? (fun i os => run_enter_of_listing) h []
  rw [List.append_nil, Lister.run] at hr
  simpa using hr

theorem run_enter_eq_listing (i : Item) : l.run d [.enter i] = l.listing d i := by
  rw [run_eq_given?, given?_cons, given?_nil]
  simp [Task.given?]

theorem exists_given? {tasks : List Task} (h : ∀ task ∈ tasks, ∃ os, task.given? l d listing = some os) :
    ∃ os, given? l d listing tasks = some os := by
  induction tasks with
  | nil => exact ⟨[], rfl⟩
  | cons task tasks ih =>
    rw [List.forall_mem_cons] at h
    obtain ⟨⟨first, hf⟩, h⟩ := h
    obtain ⟨others, ho⟩ := ih h
    exact ⟨first ++ others, by rw [given?_cons, hf, ho]; rfl⟩

theorem mem_given? {tasks : List Task} {os : List Signal.Outcome} (h : given? l d listing tasks = some os)
    {o : Signal.Outcome} (ho : o ∈ os) :
    ∃ task ∈ tasks, ∃ own, task.given? l d listing = some own ∧ o ∈ own := by
  induction tasks generalizing os with
  | nil =>
    obtain rfl := Option.some.inj h
    cases ho
  | cons task tasks ih =>
    rw [given?_cons] at h
    obtain ⟨first, hf, h⟩ := Option.bind_eq_some_iff.mp h
    obtain ⟨others, hothers, rfl⟩ := Option.map_eq_some_iff.mp h
    rcases List.mem_append.mp ho with ho | ho
    · exact ⟨task, List.mem_cons_self, first, hf, ho⟩
    · obtain ⟨task', hm, own, hown⟩ := ih hothers ho
      exact ⟨task', List.mem_cons_of_mem _ hm, own, hown⟩

theorem of_mem_visit {P : Item → Signal.Outcome → Prop} (hown : ∀ kind i, ∀ o ∈ l.outcomes d kind i, P i o)
    (hl : ∀ i os, listing i = some os → ∀ o ∈ os, P i o) {j : Item} {os : List Signal.Outcome}
    (h : (Task.visit j).given? l d listing = some os) : ∀ o ∈ os, P j o := by
  rw [Task.given?] at h
  split at h
  next =>
    obtain rfl := Option.some.inj h
    exact List.forall_mem_nil _
  next =>
    split at h
    next => exact hl j os h
    next => exact fun o ho => hown _ j o (Option.some.inj h ▸ ho)

theorem mem_within {i : Item} {task : Task} (h : task ∈ within d l.options i) :
    task = .ellipsis i ∨ task = .leave i ∨
      l.options.limits i.depth = false ∧ ∃ j ∈ i.children d, task = .visit j := by
  rw [within, List.mem_append, List.mem_singleton] at h
  rcases h with h | rfl
  · cases hl : l.options.limits i.depth with
    | true =>
      rw [hl, if_pos rfl, List.mem_singleton] at h
      exact .inl h
    | false =>
      rw [hl, if_neg Bool.false_ne_true] at h
      obtain ⟨j, hj, rfl⟩ := List.mem_map.mp h
      exact .inr (.inr ⟨rfl, j, List.mem_mergeSort.mp hj, rfl⟩)
  · exact .inr (.inl rfl)

end Walk

section
variable {l : Lister} {d : Disk}

theorem Options.limits_eq_false {o : Options} (hm : 0 < o.maxDepth) {depth : Nat} :
    o.limits depth = false ↔ depth < o.maxDepth := by
  rw [limits, decide_eq_true hm, Bool.true_and, decide_eq_false_iff_not, Nat.not_le]

/-- The recursion ends if it ends for the folders in a folder, unless that is too deep. -/
theorem Lister.exists_listing {i : Item} (h : l.options.limits i.depth = false →
    ∀ j ∈ i.children d, j.isFolder = true → ∃ os, l.listing d j = some os) :
    ∃ os, l.listing d i = some os := by
  rw [Walk.listing_eq]
  split
  next =>
    obtain ⟨os, hos⟩ : ∃ os, Walk.given? l d (l.listing d) (Walk.within d l.options i) = some os := by
      refine Walk.exists_given? fun task ht => ?_
      rcases Walk.mem_within ht with rfl | rfl | ⟨hl, j, hj, rfl⟩
      · exact ⟨_, rfl⟩
      · exact ⟨_, rfl⟩
      · rw [Walk.Task.given?]
        split
        · exact ⟨_, rfl⟩
        · split
          next hf => exact h hl j hj hf
          next => exact ⟨_, rfl⟩
    rw [hos]
    exact ⟨_, rfl⟩
  next => exact ⟨_, rfl⟩

theorem Lister.exists_listing_of_tree {good : Item → List String → Prop} {i : Item}
    (h : d.Tree good i) : ∃ os, l.listing d i = some os := by
  induction h with
  | intro _ _ ih => exact exists_listing fun _ => ih

theorem Lister.exists_listing_of_maxDepth (h : 0 < l.options.maxDepth) (i : Item) :
    ∃ os, l.listing d i = some os := by
  obtain ⟨left, hleft⟩ : ∃ left, l.options.maxDepth ≤ i.depth + left := ⟨l.options.maxDepth, by omega⟩
  induction left generalizing i with
  | zero =>
    refine exists_listing fun hl => ?_
    rw [Options.limits_eq_false h] at hl
    omega
  | succ left ih =>
    refine exists_listing fun _ j hj _ => ih j ?_
    obtain ⟨n, -, rfl⟩ := Item.exists_of_mem_children hj
    simp only [Item.child]
    omega

/-- What a folder gives is what some item below it gives. -/
theorem Lister.of_mem_listing {P : Item → Signal.Outcome → Prop}
    (hown : ∀ kind i, ∀ o ∈ l.outcomes d kind i, P i o)
    (hinner : ∀ i, ∀ j ∈ i.children d, ∀ o, P j o → P i o)
    {i : Item} {os : List Signal.Outcome} (h : l.listing d i = some os) : ∀ o ∈ os, P i o := by
  refine listing.partial_correctness l d (fun i os => ∀ o ∈ os, P i o) ?_ _ os h
  rintro listing ih i os h o ho
  split at h
  next =>
    rw [Walk.given?_within] at h
    obtain ⟨inner, hi, rfl⟩ := Option.map_eq_some_iff.mp h
    rcases List.mem_append.mp ho with ho | ho
    · exact hown _ i o ho
    · obtain ⟨task, ht, own, htask, ho⟩ := Walk.mem_given? hi ho
      rcases Walk.mem_within ht with rfl | rfl | ⟨-, j, hj, rfl⟩
      · exact hown _ i o (Option.some.inj htask ▸ ho)
      · exact hown _ i o (Option.some.inj htask ▸ ho)
      · exact hinner i j hj o (Walk.of_mem_visit hown ih htask o ho)
  next => exact hown _ i o (Option.some.inj h ▸ ho)

end

/-- The names lead from the base to an entry: each is listed in the folder that those before it lead
to. -/
inductive Disk.Leads (d : Disk) (base : Path) : List String → Prop
  | base : Leads d base []
  | entry {names : List String} {n : String} (h : Leads d base names)
      (hn : n ∈ d.entryNames (.below base names true)) : Leads d base (names ++ [n])

def Disk.ListsNames (d : Disk) : Prop :=
  ∀ folder names, d.names folder = .ok names → ∀ n ∈ names, Path.IsName n

theorem Disk.ListsNames.isName {d : Disk} (h : d.ListsNames) {i : Item} {n : String}
    (hn : n ∈ d.entryNames i) : Path.IsName n := by
  rw [entryNames] at hn
  cases hd : d.names i.abspath with
  | error e => simp [hd, Except.toOption] at hn
  | ok names => exact h _ names hd n (by simpa [hd, Except.toOption] using hn)

theorem Disk.Leads.isName {d : Disk} (h : d.ListsNames) {base : Path} {names : List String}
    (hl : d.Leads base names) : ∀ n ∈ names, Path.IsName n := by
  induction hl with
  | base => exact List.forall_mem_nil _
  | entry _ hn ih => exact List.forall_mem_append.mpr ⟨ih, List.forall_mem_singleton.mpr (h.isName hn)⟩

def Record.At (names : List String) (r : Record) : Prop :=
  r.path = .ofSegments names ∧ r.depth? = some names.length

theorem Lister.exists_of_mem_outcomes {l : Lister} {d : Disk} {kind : Kind} {i : Item} {r : Record}
    (h : .ok r ∈ l.outcomes d kind i) :
    l.record? d kind i = .ok (some r) ∧ r.kind = kind ∧ r.path = i.path ∧ r.depth? = some i.depth := by
  rw [outcomes, Option.mem_toList] at h
  cases hr : l.record? d kind i with
  | error e => simp [hr, Walk.yieldOf] at h
  | ok record? =>
    cases record? with
    | none => simp [hr, Walk.yieldOf] at h
    | some record =>
      obtain rfl : record = r := by simpa [hr, Walk.yieldOf] using h
      obtain ⟨_, _, -, -, rfl⟩ := Lister.record?_eq_some hr
      exact ⟨rfl, rfl, rfl, rfl⟩

theorem Record.at_of_mem_outcomes {l : Lister} {d : Disk} {kind : Kind} {base : Path}
    {names : List String} {isFolder : Bool} {r : Record}
    (h : .ok r ∈ l.outcomes d kind (.below base names isFolder)) : r.At names :=
  (Lister.exists_of_mem_outcomes h).2.2

theorem Lister.leads_of_mem_listing {l : Lister} {d : Disk} (hd : d.ListsNames) {base : Path}
    {names : List String} (hn : d.Leads base names) {os : List Signal.Outcome}
    (h : l.listing d (.below base names true) = some os) {r : Record} (hr : .ok r ∈ os) :
    ∃ names, d.Leads base names ∧ r.At names := by
  refine Lister.of_mem_listing (P := fun i o => ∀ names isFolder, i = .below base names isFolder →
    d.Leads base names → ∀ r, o = .ok r → ∃ names, d.Leads base names ∧ r.At names) ?_ ?_ h _ hr names true
    rfl hn r rfl
  · rintro kind _ _ ho names isFolder rfl hn r rfl
    exact ⟨names, hn, Record.at_of_mem_outcomes ho⟩
  · rintro _ j hj o hj' names isFolder rfl hn
    obtain ⟨n, hmem, rfl⟩ := Item.exists_of_mem_children hj
    exact hj' (names ++ [n]) _ (Item.child_below d base (hn.isName hd) (hd.isName hmem)) (hn.entry hmem)

theorem Lister.walk_eq_listing (l : Lister) {d : Disk} {folder base : Path} (hd : d.isFolder folder = true)
    (hb : folder.absolute? d.cwd = some base) :
    l.walk d folder = .ok ((l.listing d (.root base)).getD []) := by
  rw [Lister.walk, Walk.start, if_pos hd, hb]
  simp only [Except.map, Walk.run_enter_eq_listing]

/-- Whatever a walk gives, some item gives as a line of some kind. -/
theorem Lister.exists_of_mem_walk {l : Lister} {d : Disk} {folder : Path} {os : List Signal.Outcome}
    (hw : l.walk d folder = .ok os) {o : Signal.Outcome} (ho : o ∈ os) :
    ∃ kind i, o ∈ l.outcomes d kind i := by
  obtain ⟨base, hb⟩ : ∃ base, folder.absolute? d.cwd = some base := by
    cases hb : folder.absolute? d.cwd with
    | some base => exact ⟨base, rfl⟩
    | none =>
      rw [walk, Walk.start, if_pos (isFolder_of_walk hw), hb] at hw
      cases hw
  rw [l.walk_eq_listing (isFolder_of_walk hw) hb] at hw
  obtain rfl := Except.ok.inj hw
  cases hl : l.listing d (.root base) with
  | none => simp [hl] at ho
  | some os =>
    rw [hl, Option.getD_some] at ho
    refine of_mem_listing (P := fun _ o => ∃ kind i, o ∈ l.outcomes d kind i) ?_ ?_ hl _ ho
    · exact fun kind i o ho => ⟨kind, i, ho⟩
    · exact fun _ _ _ _ h => h

/-- A walk gives what the recursion on folders gives, on every disk and whatever the templates, the
order, the depth limit and the filters are. The recursion ends on a finite tree, and on any disk if
the depth is limited. Every record is one of an entry that names lead to from the base, with a path
made of these names and their number as its depth. -/
theorem walk_is_recursive (l : Lister) {d : Disk} {folder base : Path}
    (hd : d.isFolder folder = true) (hb : folder.absolute? d.cwd = some base) :
    l.walk d folder = .ok ((l.listing d (.root base)).getD []) ∧
    (d.Tree (fun _ _ => True) (.root base) ∨ 0 < l.options.maxDepth →
      ∃ outcomes, l.listing d (.root base) = some outcomes) ∧
    (d.ListsNames → ∀ outcomes, l.listing d (.root base) = some outcomes → ∀ r, .ok r ∈ outcomes →
      r.depth? = some r.path.names.length ∧
        ∃ names, d.Leads base names ∧ r.path = .ofSegments names) := by
  refine ⟨?_, ?_, fun hn outcomes ho r hr => ?_⟩
  · rw [Lister.walk, Walk.start, if_pos hd, hb]
    simp only [Except.map, Walk.run_enter_eq_listing]
  · rintro (ht | hl)
    · exact Lister.exists_listing_of_tree ht
    · exact Lister.exists_listing_of_maxDepth hl _
  · obtain ⟨names, hleads, hp, hdepth⟩ := Lister.leads_of_mem_listing hn .base ho hr
    refine ⟨?_, names, hleads, hp⟩
    rw [hp, hdepth, Path.names_ofSegments (hleads.isName hn)]

theorem Disk.listsNames_ofTable {folders : List (String × List String)} {files : List String}
    (h : ∀ folder ∈ folders, ∀ n ∈ folder.2, Path.IsName n) : (ofTable folders files).ListsNames := by
  intro folder names hf n hn
  have hinside : ((folders.lookup folder.text).map Except.ok).getD (Except.error SystemError.notADirectory)
      = Except.ok names := hf
  cases hl : folders.lookup folder.text with
  | none =>
    rw [hl] at hinside
    cases hinside
  | some inside =>
    rw [hl] at hinside
    obtain rfl := Except.ok.inj hinside
    exact h _ (mem_of_lookup hl) n hn

theorem walk_is_recursive_nested :
    ∃ l : Lister, Lister.compile { showIndent := false } .core = .ok l ∧
      l.walk .nested ⟨"/t"⟩ = .ok (Record.nested.map .ok) ∧
      l.listing .nested (.root ⟨"/t"⟩) = some (Record.nested.map .ok) ∧
      ∀ r ∈ Record.nested, r.depth? = some r.path.names.length ∧
        ∃ names, Disk.nested.Leads ⟨"/t"⟩ names ∧ r.path = .ofSegments names := by
  obtain ⟨l, hl⟩ : ∃ l, Lister.compile { showIndent := false } .core = .ok l :=
    exists_eq_ok_of_isOk (by decide +kernel)
  have hw : l.walk .nested ⟨"/t"⟩ = .ok (Record.nested.map .ok) :=
    walk_of_shown hl Path.absolute?_t .nested (by decide +kernel)
  have hnames : Disk.nested.ListsNames := Disk.listsNames_ofTable (by decide +kernel)
  obtain ⟨hsame, hends, hrecords⟩ := walk_is_recursive l (isFolder_of_walk hw) Path.absolute?_t
  obtain ⟨outcomes, ho⟩ := hends (.inl (Disk.tree_of_isTree 3 (by decide +kernel)))
  obtain rfl : Record.nested.map .ok = outcomes := by
    rw [hw, ho] at hsame
    exact Except.ok.inj hsame
  exact ⟨l, hl, hw, ho, fun r hr => hrecords hnames _ ho r (List.mem_map_of_mem hr)⟩

end TreeListing
