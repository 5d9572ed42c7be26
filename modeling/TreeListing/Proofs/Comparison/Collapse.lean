import TreeListing.Proofs.Comparison.Ellipsis
import TreeListing.Proofs.Comparison.Mirror
import TreeListing.Proofs.Comparison.Nesting

/-!
To skip what is in a folder collapses the full report: it leaves out just what belongs to a folder that
is itself reported for one side alone. The main statement is `skipping_collapses_report`.
-/
namespace TreeListing.Comparison

open Mark (Nested Block)

/-- What nothing in the list hides. -/
def unhidden {α : Type} (Hides : α → α → Prop) [∀ a b, Decidable (Hides a b)] (xs : List α) : List α :=
  xs.filter fun x => ∀ y ∈ xs, ¬ Hides y x

section
variable {α β : Type} {Hides : α → α → Prop} [∀ a b, Decidable (Hides a b)]
  {Hides' : β → β → Prop} [∀ a b, Decidable (Hides' a b)]

theorem unhidden_map {f : α → β} (h : ∀ a b, Hides' (f a) (f b) ↔ Hides a b) (xs : List α) :
    unhidden Hides' (xs.map f) = (unhidden Hides xs).map f := by
  rw [unhidden, unhidden, List.filter_map]
  congr 1
  apply List.filter_congr
  intro x _
  simp [h]

/-- What stands behind an element and is hidden by it can be taken out, if neither hides anything
else. -/
theorem unhidden_block {x : α} {inner xs : List α} (hx : ∀ y ∈ x :: (inner ++ xs), ¬ Hides y x)
    (hinner : ∀ y ∈ inner, Hides x y) (hxs : ∀ y ∈ x :: inner, ∀ z ∈ xs, ¬ Hides y z) :
    unhidden Hides (x :: (inner ++ xs)) = x :: unhidden Hides xs := by
  have hgone : inner.filter (fun z => ∀ y ∈ x :: (inner ++ xs), ¬ Hides y z) = [] := by
    apply List.filter_eq_nil_iff.mpr
    intro y hy hall
    exact of_decide_eq_true hall x List.mem_cons_self (hinner y hy)
  have hkept : decide (∀ y ∈ x :: (inner ++ xs), ¬ Hides y x) = true := decide_eq_true hx
  rw [unhidden, List.filter_cons, if_pos hkept, List.filter_append, hgone, List.nil_append, unhidden]
  congr 1
  apply List.filter_congr
  intro z hz
  apply decide_eq_decide.mpr
  constructor
  · intro h y hy
    exact h y (List.mem_cons_of_mem _ (List.mem_append_right _ hy))
  · intro h y hy
    rw [← List.cons_append] at hy
    rcases List.mem_append.mp hy with hy | hy
    · exact hxs y hy z hz
    · exact h y hy

theorem unhidden_cons {x : α} {xs : List α} (hx : ∀ y ∈ x :: xs, ¬ Hides y x)
    (hxs : ∀ z ∈ xs, ¬ Hides x z) : unhidden Hides (x :: xs) = x :: unhidden Hides xs := by
  have h : unhidden Hides (x :: ([] ++ xs)) = x :: unhidden Hides xs :=
    unhidden_block hx (by simp) (by simpa using hxs)
  exact h

end

/-- Both entries are reported for the same side alone, the first is a folder, and the second belongs
to it. -/
def Entry.Hides (folder e : Entry) : Prop :=
  folder.kind = .folder ∧ (folder.diff = .deleted ∨ folder.diff = .added) ∧ e.diff = folder.diff ∧
    Belongs e.kind e.path folder.path

instance (folder e : Entry) : Decidable (folder.Hides e) := inferInstanceAs (Decidable (_ ∧ _))

/-- A report without what belongs to the folders that it reports for one side alone. -/
def collapsed (entries : List Entry) : List Entry := unhidden Entry.Hides entries

namespace Event

def Hides : Event → Event → Prop
  | deletion folder, deletion r => folder.kind = .folder ∧ Belongs r.kind r.path folder.path
  | addition folder, addition r => folder.kind = .folder ∧ Belongs r.kind r.path folder.path
  | _, _ => False

instance : (d e : Event) → Decidable (d.Hides e)
  | deletion _, deletion _ => inferInstanceAs (Decidable (_ ∧ _))
  | addition _, addition _ => inferInstanceAs (Decidable (_ ∧ _))
  | deletion _, addition _ | deletion _, pair _ _ | addition _, deletion _ | addition _, pair _ _
  | pair _ _, _ => inferInstanceAs (Decidable False)

theorem hides_mirror (d e : Event) : d.mirror.Hides e.mirror ↔ d.Hides e := by
  cases d <;> cases e <;> rfl

theorem hides_entry (c : Settings) (d e : Event) : (d.entry c).Hides (e.entry c) ↔ d.Hides e := by
  have haligned : ∀ x y : Record, (aligned c x y).diff ≠ .deleted ∧ (aligned c x y).diff ≠ .added := by
    intro x y
    rw [aligned]
    dsimp only
    split <;> decide
  cases d with
  | pair x y => simp [Entry.Hides, Hides, entry, haligned]
  | deletion r =>
    cases e with
    | pair x y => simp [Entry.Hides, Hides, entry, Comparison.deletion, haligned]
    | deletion r' => simp [Entry.Hides, Hides, entry, Comparison.deletion]
    | addition r' => simp [Entry.Hides, Hides, entry, Comparison.deletion, Comparison.addition]
  | addition r =>
    cases e with
    | pair x y => simp [Entry.Hides, Hides, entry, Comparison.addition, haligned]
    | deletion r' => simp [Entry.Hides, Hides, entry, Comparison.deletion, Comparison.addition]
    | addition r' => simp [Entry.Hides, Hides, entry, Comparison.addition]

end Event

theorem collapsed_entries (c : Settings) (events : List Event) :
    collapsed (events.map (·.entry c)) = (unhidden Event.Hides events).map (·.entry c) :=
  unhidden_map (Event.hides_entry c) events

/-- What is known of the marks that a stream of records is for. -/
structure Told (o : SiblingOrder) (known : List String → Prop) (a : Mark → Record) (ms : List Mark) :
    Prop where
  nested : Nested ms
  placed : ∀ m ∈ ms, Placed o known a m
  named : ∀ m ∈ ms, m.kind = .folder → m.names ≠ []

section
variable {o : SiblingOrder} {known : List String → Prop} {a : Mark → Record} {folder m : Mark}
  {ms : List Mark}

theorem Told.of_rest {rest : List Mark} (h : Told o known a (m :: ms)) (hs : rest <:+ ms) :
    Told o known a rest := by
  have hall : rest <:+ m :: ms := hs.trans (List.suffix_cons m ms)
  exact ⟨h.nested.of_suffix hall, fun m hm => h.placed m (hall.subset hm),
    fun m hm => h.named m (hall.subset hm)⟩

/-- What belongs to a folder is told by the names. -/
theorem belongs_iff_holds (hf : Placed o known a folder) (hm : Placed o known a m)
    (hk : folder.kind = .folder) :
    Belongs (a m).kind (a m).path (a folder).path ↔ folder.Holds m := by
  have hdiffer : (Path.ofSegments folder.names).components ≠ (Path.ofSegments m.names).components ↔
      folder.names ≠ m.names := by
    rw [ne_eq, ne_eq, ← Path.same_ofSegments hf.isName hm.isName, Path.same, decide_eq_true_eq]
  rw [hm.made.kind, hm.made.path, hf.made.path, Belongs, Path.prefix_ofSegments hf.isName hm.isName,
    hdiffer, Path.same_ofSegments hm.isName hf.isName]
  constructor
  · rintro (⟨hp, hne⟩ | hline)
    · refine ⟨hk, .inl ⟨hp, Nat.lt_of_le_of_ne hp.length_le fun he => ?_⟩⟩
      exact hne (hp.eq_of_length he)
    · exact ⟨hk, .inr hline⟩
  · rintro ⟨-, ⟨hp, hlt⟩ | hline⟩
    · refine .inl ⟨hp, fun he => ?_⟩
      rw [he] at hlt
      exact Nat.lt_irrefl _ hlt
    · exact .inr hline

theorem hides_deletion_iff (hf : Placed o known a folder) (hm : Placed o known a m) :
    (Event.deletion (a folder)).Hides (.deletion (a m)) ↔ folder.Holds m := by
  constructor
  · rintro ⟨hk, hb⟩
    exact (belongs_iff_holds hf hm (hf.made.kind.symm.trans hk)).mp hb
  · intro h
    exact ⟨hf.made.kind.trans h.isFolder, (belongs_iff_holds hf hm h.isFolder).mpr h⟩

/-- A skipped folder takes what is deeper with it, and its own lines. -/
theorem covers_iff (hf : Placed o known a folder) (hm : Placed o known a m) :
    (Skipped.mk (a folder).depth? (a folder).path).covers (a m) = true ↔
      folder.names.length < m.names.length ∨
        (m.kind = .folderEnd ∨ m.kind = .ellipsis) ∧ m.names = folder.names := by
  rw [Skipped.covers, hf.made.depth, hm.made.depth, hm.made.kind, hm.made.path, hf.made.path,
    Bool.or_eq_true, Bool.and_eq_true, decide_eq_true_eq, decide_eq_true_eq,
    Path.same_ofSegments hm.isName hf.isName]

variable {c : Settings}

theorem behind_block {inner rest : List Mark} (hc : c.skipChildren = true)
    (hms : ∀ x ∈ m :: (inner ++ rest), Placed o known a x) (hk : m.kind = .folder)
    (hb : Block m inner rest) : behind c (a m) ((inner ++ rest).map a) = rest.map a := by
  rw [List.forall_mem_cons, List.forall_mem_append] at hms
  obtain ⟨hm, hinner, hrest⟩ := hms
  have hcovered : ∀ r ∈ inner.map a, (Skipped.mk (a m).depth? (a m).path).covers r = true := by
    intro r hr
    obtain ⟨x, hx, rfl⟩ := List.mem_map.mp hr
    apply (covers_iff hm (hinner x hx)).mpr
    exact (hb.held x hx).belongs.imp_left And.right
  have hskipped : c.skipped? (a m) = some ⟨(a m).depth?, (a m).path⟩ := by
    rw [Settings.skipped?, if_pos ⟨hc, hm.made.kind.trans hk⟩]
  rw [behind, hskipped, uncovered, List.map_append, List.dropWhile_append_of_pos hcovered]
  cases rest with
  | nil => rfl
  | cons x rest =>
    have hx : ¬ (Skipped.mk (a m).depth? (a m).path).covers (a x) = true := by
      rw [covers_iff hm (hrest x List.mem_cons_self)]
      rintro (hlt | hline)
      · exact Nat.not_lt.mpr (hb.shallow x rfl) hlt
      · exact hb.apart x List.mem_cons_self ⟨hk, .inr hline⟩
    rw [List.map_cons, List.dropWhile_cons_of_neg hx]

/-- What is left of a stream behind a record that is reported for one side alone: what belongs to it
is gone if it is a folder. -/
theorem Told.exists_behind (h : Told o known a (m :: ms)) (hc : c.skipChildren = true) :
    ∃ inner rest, ms = inner ++ rest ∧ behind c (a m) (ms.map a) = rest.map a ∧
      (∀ x ∈ inner, m.Holds x) ∧ ∀ x ∈ rest, ¬ m.Holds x := by
  have hm := h.placed m List.mem_cons_self
  by_cases hk : m.kind = .folder
  · obtain ⟨inner, rest, rfl, hb⟩ := (h.nested m ms List.suffix_rfl).2 hk
    exact ⟨inner, rest, rfl, behind_block hc h.placed hk hb, hb.held, hb.apart⟩
  · refine ⟨[], ms, rfl, ?_, by simp, fun x _ hh => hk hh.isFolder⟩
    have hskipped : c.skipped? (a m) = none := by
      rw [Settings.skipped?, if_neg fun hh => hk (hm.made.kind.symm.trans hh.2)]
    rw [behind, hskipped, uncovered]

/-- What belongs to a folder is in front of a record if the folder is. -/
theorem compareRecords_of_holds {key : String → String} (ho : o.ByName key)
    (hf : Placed o known a folder) (hne : folder.names ≠ []) (hm : Placed o known a m)
    (h : folder.Holds m) {m' : Mark} {r : Record} (hr : m'.Made r) (hn : ∀ n ∈ m'.names, Path.IsName n)
    (hlt : compareRecords o (a folder) r = .lt) : compareRecords o (a m) r = .lt := by
  rcases Nat.lt_trichotomy m'.names.length folder.names.length with hd | hd | hd
  · exact compareRecords_of_deeper hm.made hr (Nat.lt_of_lt_of_le hd h.length_le)
  · rcases h.belongs with ⟨-, hdeep⟩ | ⟨hk, hnames⟩
    · exact compareRecords_of_deeper hm.made hr (hd ▸ hdeep)
    · obtain ⟨before, n, hfn⟩ := (List.eq_nil_or_concat' folder.names).resolve_left hne
      have hne' : m'.names ≠ [] := by
        rw [← List.length_pos_iff, hd]
        exact List.length_pos_iff.mpr hne
      obtain ⟨before', n', hmn⟩ := (List.eq_nil_or_concat' m'.names).resolve_left hne'
      have hlast : Path.IsName n := hf.isName n (by simp [hfn])
      have hlast' : Path.IsName n' := hn n' (by simp [hmn])
      have hlen : before.length = before'.length := by simpa [hfn, hmn] using hd.symm
      rw [compareRecords_siblings ho hf.made hr hfn hmn hlast hlast' hlen, h.isFolder] at hlt
      rw [compareRecords_siblings ho hm.made hr (hnames.trans hfn) hmn hlast hlast' hlen]
      have hfile : (true, n).1 = false ↔ m.kind = .file := by
        rcases hk with hk | hk <;> simp [hk]
      exact compareHeads_mark hm.dots hfile hlt
  · rw [compareRecords_of_shallower hf.made hr hd] at hlt
    cases hlt

end

def Settings.unskipped (c : Settings) : Settings := { c with skipChildren := false }

theorem mem_old_of_deletion {c : Settings} (hc : c.skipChildren = false) {old new : List Record}
    {r : Record} (h : .deletion r ∈ events c old new) : r ∈ old := by
  rw [← filterMap_old?_events hc old new]
  exact List.mem_filterMap.mpr ⟨_, h, rfl⟩

section
variable {c : Settings} {key : String → String} {known : List String → Prop} {a b : Mark → Record}
  {m : Mark} {ms ns : List Mark}

/-- The first record of a stream is in no folder behind it. -/
theorem Told.not_hides_first {o : SiblingOrder} (h : Told o known a (m :: ms)) {new : List Record} :
    ∀ d ∈ events c.unskipped ((m :: ms).map a) new, ¬ d.Hides (.deletion (a m)) := by
  intro d hd hh
  cases d with
  | deletion r =>
    obtain ⟨x, hx, rfl⟩ := List.mem_map.mp (mem_old_of_deletion rfl hd)
    have hholds := (hides_deletion_iff (h.placed x hx) (h.placed m List.mem_cons_self)).mp hh
    rcases List.mem_cons.mp hx with rfl | hx
    · exact Nat.lt_irrefl _ (hholds.length_lt hholds.isFolder)
    · exact (h.nested m ms List.suffix_rfl).1 x hx hholds
  | addition r => exact hh
  | pair x y => exact hh

/-- A folder that nothing in a stream belongs to hides nothing of it. -/
theorem not_hides_of_not_holds {o : SiblingOrder} (hm : Placed o known a m)
    (hms : ∀ x ∈ ms, Placed o known a x) (h : ∀ x ∈ ms, ¬ m.Holds x) {new : List Record} :
    ∀ e ∈ events c.unskipped (ms.map a) new, ¬ (Event.deletion (a m)).Hides e := by
  intro e he hh
  cases e with
  | deletion r =>
    obtain ⟨x, hx, rfl⟩ := List.mem_map.mp (mem_old_of_deletion rfl he)
    exact h x hx ((hides_deletion_iff hm (hms x hx)).mp hh)
  | addition r => exact hh
  | pair x y => exact hh

/-- A record that is reported for the old side alone hides just what is skipped behind it. -/
theorem unhidden_deletion (hc : c.skipChildren = true) (ho : c.order.ByName key)
    (h : Told c.order known a (m :: ms)) (h' : Told c.order known b ns)
    (hlt : ∀ y ∈ (ns.map b).head?, compareRecords c.order (a m) y = .lt) :
    ∃ rest, rest <:+ ms ∧ behind c (a m) (ms.map a) = rest.map a ∧
      unhidden Event.Hides (events c.unskipped ((m :: ms).map a) (ns.map b))
        = .deletion (a m) :: unhidden Event.Hides (events c.unskipped (rest.map a) (ns.map b)) := by
  obtain ⟨inner, rest, rfl, hbehind, hinner, hrest⟩ := h.exists_behind hc
  refine ⟨rest, List.suffix_append _ _, hbehind, ?_⟩
  have hm := h.placed m List.mem_cons_self
  have hplaced : ∀ x ∈ inner ++ rest, Placed c.order known a x :=
    fun x hx => h.placed x (List.mem_cons_of_mem _ hx)
  have hbefore : ∀ x ∈ (m :: inner).map a, ∀ y ∈ (ns.map b).head?,
      compareRecords c.order x y = .lt := by
    intro x hx y hy
    obtain ⟨m', hm', rfl⟩ := List.mem_map.mp (List.mem_of_mem_head? hy)
    have hy' := h'.placed m' hm'
    rcases List.mem_cons.mp hx with rfl | hx
    · exact hlt _ hy
    · obtain ⟨i, hi, rfl⟩ := List.mem_map.mp hx
      have hh := hinner i hi
      exact compareRecords_of_holds ho hm (h.named m List.mem_cons_self hh.isFolder)
        (hplaced i (List.mem_append_left _ hi)) hh hy'.made hy'.isName (hlt _ hy)
  have hevents : events c.unskipped ((m :: (inner ++ rest)).map a) (ns.map b) = .deletion (a m) ::
      ((inner.map a).map .deletion ++ events c.unskipped (rest.map a) (ns.map b)) := by
    rw [← List.cons_append, List.map_append]
    exact events_append_old rfl hbefore
  rw [hevents]
  apply unhidden_block (hevents ▸ h.not_hides_first)
  · intro d hd
    obtain ⟨r, hr, rfl⟩ := List.mem_map.mp hd
    obtain ⟨x, hx, rfl⟩ := List.mem_map.mp hr
    exact (hides_deletion_iff hm (hplaced x (List.mem_append_left _ hx))).mpr (hinner x hx)
  · rw [← List.map_cons, ← List.map_cons]
    intro d hd
    obtain ⟨r, hr, rfl⟩ := List.mem_map.mp hd
    obtain ⟨y, hy, rfl⟩ := List.mem_map.mp hr
    apply not_hides_of_not_holds (h.placed y (List.mem_append_left rest hy))
      fun x hx => hplaced x (List.mem_append_right _ hx)
    intro x hx hholds
    rcases List.mem_cons.mp hy with rfl | hy
    · exact hrest x hx hholds
    · exact hrest x hx ((hinner y hy).trans hholds)

theorem unhidden_mirror (events : List Event) : unhidden Event.Hides (events.map .mirror)
    = (unhidden Event.Hides events).map .mirror := unhidden_map Event.hides_mirror events

theorem unhidden_addition (hc : c.skipChildren = true) (ho : c.order.ByName key) {n : Mark}
    (h : Told c.order known a ms) (h' : Told c.order known b (n :: ns))
    (hgt : ∀ x ∈ (ms.map a).head?, compareRecords c.order x (b n) = .gt) :
    ∃ rest, rest <:+ ns ∧ behind c (b n) (ns.map b) = rest.map b ∧
      unhidden Event.Hides (events c.unskipped (ms.map a) ((n :: ns).map b))
        = .addition (b n) :: unhidden Event.Hides (events c.unskipped (ms.map a) (rest.map b)) := by
  obtain ⟨rest, hs, hbehind, he⟩ := unhidden_deletion hc ho h' h
    fun x hx => compareRecords_gt_iff_lt.mp (hgt x hx)
  refine ⟨rest, hs, hbehind, ?_⟩
  rw [events_mirror, unhidden_mirror, he, List.map_cons, ← unhidden_mirror, ← events_mirror]
  rfl

theorem unhidden_pair (x y : Record) (events : List Event) : unhidden Event.Hides (.pair x y :: events)
    = .pair x y :: unhidden Event.Hides events := by
  apply unhidden_cons
  · intro d _ hh
    cases d <;> exact hh
  · intro d _ hh
    exact hh

/-- The events of a merge that skips folders are those of a merge that does not, without what belongs
to folders on one side alone. -/
theorem events_eq_unhidden (hc : c.skipChildren = true) (ho : c.order.ByName key)
    {old new : List Record} (hold : old = ms.map a) (hnew : new = ns.map b)
    (h : Told c.order known a ms) (h' : Told c.order known b ns) :
    events c old new = unhidden Event.Hides (events c.unskipped old new) := by
  fun_induction events c old new generalizing ms ns with
  | case1 => rw [events]; rfl
  | case2 x old ih =>
    obtain ⟨m, ms, rfl, rfl, rfl⟩ := List.map_eq_cons_iff.mp hold.symm
    obtain ⟨rest, hs, hbehind, he⟩ := unhidden_deletion hc ho h h' (by simp [← hnew])
    rw [hnew, ← List.map_cons, he, ← hnew, ih hbehind hnew (h.of_rest hs) h', hbehind]
  | case3 y new ih =>
    obtain ⟨n, ns, rfl, rfl, rfl⟩ := List.map_eq_cons_iff.mp hnew.symm
    obtain ⟨rest, hs, hbehind, he⟩ := unhidden_addition hc ho h h' (by simp [← hold])
    rw [hold, ← List.map_cons, he, ← hold, ih hold hbehind h (h'.of_rest hs), hbehind]
  | case4 x old y new hcmp ih =>
    obtain ⟨m, ms, rfl, rfl, rfl⟩ := List.map_eq_cons_iff.mp hold.symm
    obtain ⟨rest, hs, hbehind, he⟩ := unhidden_deletion hc ho h h' (by simpa [← hnew] using hcmp)
    rw [hnew, ← List.map_cons, he, ← hnew, ih hbehind hnew (h.of_rest hs) h', hbehind]
  | case5 x old y new hcmp ih =>
    obtain ⟨n, ns, rfl, rfl, rfl⟩ := List.map_eq_cons_iff.mp hnew.symm
    obtain ⟨rest, hs, hbehind, he⟩ := unhidden_addition hc ho h h' (by simpa [← hold] using hcmp)
    rw [hold, ← List.map_cons, he, ← hold, ih hold hbehind h (h'.of_rest hs), hbehind]
  | case6 x old y new hcmp ih =>
    obtain ⟨m, ms, rfl, rfl, rfl⟩ := List.map_eq_cons_iff.mp hold.symm
    obtain ⟨n, ns, rfl, rfl, rfl⟩ := List.map_eq_cons_iff.mp hnew.symm
    have hpair : compareRecords c.unskipped.order (a m) (b n) = .eq := hcmp
    rw [events_pair hpair, unhidden_pair, ih rfl rfl (h.of_rest List.suffix_rfl)
      (h'.of_rest List.suffix_rfl)]

end

theorem told_of_walked {l : Lister} {key : String → String} (hf : l.shows .folder = true) {f : Forest}
    (ho : f.Each (fun _ => Ordered l key) []) {o : SiblingOrder} {known : List String → Prop} {a : Mark → Record}
    {records : List Record} (h : Walked o known a (l.folderMarks .root [] (f.marks l [])) records) :
    Told o known a (l.folderMarks .root [] (f.marks l [])) := by
  refine ⟨nested_folderMarks .root (nested_marks hf ho) fun m => prefix_of_mem_marks, h.placed, ?_⟩
  intro m hm hk
  rcases Lister.mem_folderMarks hm with ⟨-, hkind⟩ | hm
  · simp [hk] at hkind
  · exact List.length_pos_iff.mp (Forest.deeper_of_mem_marks m hm)

theorem exists_told {o : Options} {r : Registry} {l : Lister}
    (hd : ∀ kind, LinePattern.given? o kind = none) (hf : o.showFolders = true)
    (hr : r.TellsNames) (hl : Lister.compile o r = .ok l) {key : String → String}
    (hk : l.options.order.ByName key) {d : Disk} {folder base : Path}
    (hb : folder.absolute? d.cwd = some base) (ht : d.Tree DistinctNames (.root base))
    {records : List Record} (hw : l.walk d folder = .ok (records.map .ok))
    (hdots : ∀ r ∈ records, r.kind = .ellipsis → l.options.order.grouping ≠ .foldersFirst)
    {known : List String → Prop} (hknown : ∀ r ∈ records, known r.path.names) :
    ∃ a ms, records = ms.map a ∧ Told l.options.order known a ms := by
  obtain ⟨f, hordered, hwalked⟩ := exists_walked hl hr hk hb ht hw hdots hknown
  exact ⟨_, _, hwalked.records_eq, told_of_walked (shows_of_showFolders hl hd hf (.inl rfl)) hordered hwalked⟩

theorem filter_collapsed (entries : List Entry) :
    (collapsed entries).filter (fun e => e.diff = .kept ∨ e.diff = .changed)
      = entries.filter fun e => e.diff = .kept ∨ e.diff = .changed := by
  rw [collapsed, unhidden, List.filter_filter]
  apply List.filter_congr
  intro e _
  apply Bool.and_eq_left_iff_imp.mpr
  intro hboth
  apply decide_eq_true
  rintro folder - ⟨-, hone, hsame, -⟩
  rw [← hsame] at hone
  rcases of_decide_eq_true hboth with h | h <;> simp [h] at hone

/-- A comparison of two walks over finite trees that skips what is in folders is the full report
collapsed: a deletion goes just if it belongs to a deleted folder, an addition just if it belongs to an
added one, and what both sides have stays as it is. Ellipses may be among the records unless folders
come first. -/
theorem skipping_collapses_report {o : Options} {r : Registry} {l : Lister}
    (hd : ∀ kind, LinePattern.given? o kind = none) (hf : o.showFolders = true)
    (hr : r.TellsNames) (hl : Lister.compile o r = .ok l)
    {d d' : Disk} {folder folder' base base' : Path} (hb : folder.absolute? d.cwd = some base)
    (hb' : folder'.absolute? d'.cwd = some base') (ht : d.Tree DistinctNames (.root base))
    (ht' : d'.Tree DistinctNames (.root base')) {old new : List Record}
    (hw : l.walk d folder = .ok (old.map .ok)) (hw' : l.walk d' folder' = .ok (new.map .ok))
    (hk : o.sortKey? = none ∨ o.sortKey? = some SiblingOrder.ignoringCase)
    (hdots : ∀ r ∈ old ++ new, r.kind = .ellipsis → o.grouping ≠ .foldersFirst) (namesOnly : Bool) :
    ∃ entries : List Entry,
      results (run (settings l false namesOnly) (.ofSignals (old.map .record) (new.map .record)))
        = entries.map .ok ∧
      results (run (settings l true namesOnly) (.ofSignals (old.map .record) (new.map .record)))
        = (collapsed entries).map .ok ∧
      (collapsed entries).filter (fun e => e.diff = .kept ∨ e.diff = .changed)
        = entries.filter fun e => e.diff = .kept ∨ e.diff = .changed := by
  have hopt : l.options = o := Lister.options_eq hl
  obtain ⟨key, hkey⟩ : ∃ key, l.options.order.ByName key := by
    rcases hk with hk | hk
    · exact ⟨id, SiblingOrder.byName_id (by rw [hopt]; exact hk)⟩
    · exact ⟨Text.lower, SiblingOrder.byName_lower (by rw [hopt]; exact hk)⟩
  have hknown : ∀ r ∈ old ++ new, KnownIn (old ++ new) r.path.names := fun r hr => ⟨r, hr, rfl⟩
  obtain ⟨a, ms, hold, told⟩ := exists_told hd hf hr hl hkey hb ht hw
    (fun r hr => hopt ▸ hdots r (List.mem_append_left _ hr))
    fun r hr => hknown r (List.mem_append_left _ hr)
  obtain ⟨b, ns, hnew, told'⟩ := exists_told hd hf hr hl hkey hb' ht' hw'
    (fun r hr => hopt ▸ hdots r (List.mem_append_right _ hr))
    fun r hr => hknown r (List.mem_append_right _ hr)
  have hevents : events (settings l true namesOnly) old new
      = unhidden Event.Hides (events (settings l false namesOnly) old new) :=
    events_eq_unhidden rfl hkey hold hnew told told'
  have hentry : ∀ e : Event, e.answer (settings l true namesOnly)
      = .ok (e.entry (settings l false namesOnly)) := by
    intro e
    cases e <;> rfl
  refine ⟨(events (settings l false namesOnly) old new).map (·.entry (settings l false namesOnly)),
    ?_, ?_, filter_collapsed _⟩
  · rw [results_run_records, List.map_map]
    rfl
  · rw [results_run_records, hevents, collapsed_entries, List.map_map]
    exact List.map_congr_left fun e _ => hentry e

theorem skipping_collapses_report_emptyFolders :
    ∃ (l : Lister) (entries : List Entry),
      Lister.compile { maxDepth := 1, showEllipsis := true } .core = .ok l ∧
      l.walk (.emptyFolders ["a", "b"]) ⟨"/t"⟩ = .ok ((cutFolders ["a", "b"]).map .ok) ∧
      l.walk (.emptyFolders ["b"]) ⟨"/t"⟩ = .ok ((cutFolders ["b"]).map .ok) ∧
      results (run (settings l true true) (.ofSignals ((cutFolders ["a", "b"]).map .record)
        ((cutFolders ["b"]).map .record))) = (collapsed entries).map .ok ∧
      entries.map (fun e => (e.diff, e.kind, e.path.text)) = [(.kept, .root, ""), (.deleted, .folder, "a"),
        (.deleted, .ellipsis, "a"), (.kept, .folder, "b"), (.kept, .ellipsis, "b")] ∧
      (collapsed entries).map (fun e => (e.diff, e.kind, e.path.text)) = [(.kept, .root, ""),
        (.deleted, .folder, "a"), (.kept, .folder, "b"), (.kept, .ellipsis, "b")] := by
  obtain ⟨l, hl, hw, hw'⟩ := walks_cutFolders .filesFirst
  have hbase : Path.absolute? ⟨"/t"⟩ ⟨"/"⟩ = some ⟨"/t"⟩ := by decide +kernel
  obtain ⟨entries, hfull, hskip, -⟩ := skipping_collapses_report (fun kind => by cases kind <;> rfl)
    rfl Registry.tellsNames_core hl hbase hbase (tree_emptyFolders_a_b (by simp) (by decide))
    (tree_emptyFolders_a_b (by simp) (by decide)) hw hw' (.inl rfl) (by decide +kernel) true
  have ho : (settings l false true).order = ⟨.filesFirst, none⟩ := by
    rw [settings, Lister.options_eq hl]
    rfl
  let full : List Event := [.pair rootRecord rootRecord, .deletion (folderRecord "a"),
    .deletion (dotsRecord "a"), .pair (folderRecord "b") (folderRecord "b"),
    .pair (dotsRecord "b") (dotsRecord "b")]
  have hevents : events (settings l false true) (cutFolders ["a", "b"]) (cutFolders ["b"]) = full :=
    calc events (settings l false true) (cutFolders ["a", "b"]) (cutFolders ["b"])
      _ = .pair rootRecord rootRecord :: _ := events_pair (by rw [ho]; decide) _ _
      _ = .pair rootRecord rootRecord :: .deletion (folderRecord "a") :: _ :=
        congrArg _ (events_deletion rfl (by rw [ho]; decide) _)
      _ = .pair rootRecord rootRecord :: .deletion (folderRecord "a") :: .deletion (dotsRecord "a") :: _ :=
        congrArg (_ :: _ :: ·) (events_deletion rfl (by rw [ho]; decide) _)
      _ = .pair rootRecord rootRecord :: .deletion (folderRecord "a") :: .deletion (dotsRecord "a") ::
          .pair (folderRecord "b") (folderRecord "b") :: _ :=
        congrArg (_ :: _ :: _ :: ·) (events_pair (by rw [ho]; decide) _ _)
      _ = _ := congrArg (_ :: _ :: _ :: _ :: ·)
          ((events_pair (by rw [ho]; decide) _ _).trans (congrArg _ (events.eq_1 _)))
  obtain rfl : entries = full.map (·.entry (settings l false true)) := by
    rw [results_run_records, hevents] at hfull
    apply List.map_injective_iff.mpr fun _ _ => Except.ok.inj
    rw [← hfull, List.map_map]
    rfl
  have hhidden : unhidden Event.Hides full = [.pair rootRecord rootRecord,
      .deletion (folderRecord "a"), .pair (folderRecord "b") (folderRecord "b"),
      .pair (dotsRecord "b") (dotsRecord "b")] := by decide
  refine ⟨l, _, hl, hw, hw', hskip, rfl, ?_⟩
  rw [collapsed_entries, hhidden]
  rfl

end TreeListing.Comparison
