import TreeListing.Proofs.Recursion
import TreeListing.Proofs.Table

/-!
Limits of the depth. A walk with a limit gives the records of the walk without one down to the limit, and
an ellipsis behind each folder that stands there; the main statement is `depth_limit_only_cuts`.
-/
namespace TreeListing

def Signal.records (outcomes : List Signal.Outcome) : List Record := outcomes.filterMap Except.toOption

def Record.within (m : Nat) (r : Record) : Bool := r.depth?.any (· ≤ m)

/-- The record lies at this depth or below. -/
def Record.FromDepth (n : Nat) (r : Record) : Prop := ∃ depth, r.depth? = some depth ∧ n ≤ depth

theorem Record.FromDepth.mono {n m : Nat} {r : Record} (h : r.FromDepth n) (hm : m ≤ n) : r.FromDepth m := by
  obtain ⟨depth, hd, hn⟩ := h
  exact ⟨depth, hd, Nat.le_trans hm hn⟩

/-- A folder at the depth `m` with an ellipsis behind it, and any other record alone. The ellipsis has the
path and the depth of the folder and properties of its own. -/
def Record.marked (m : Nat) (dots : Record → Props) (r : Record) : List Record :=
  if r.kind = .folder ∧ r.depth? = some m then [r, { r with kind := .ellipsis, props := dots r }] else [r]

namespace Signal

theorem records_append (a b : List Outcome) : records (a ++ b) = records a ++ records b :=
  List.filterMap_append

theorem mem_records {r : Record} {outcomes : List Outcome} : r ∈ records outcomes ↔ .ok r ∈ outcomes := by
  rw [records, List.mem_filterMap]
  constructor
  · rintro ⟨o, ho, he⟩
    cases o with
    | error e => cases he
    | ok r' => exact Option.some.inj he ▸ ho
  · exact fun h => ⟨_, h, rfl⟩

theorem records_map_ok (rs : List Record) : records (rs.map .ok) = rs := by
  rw [records, List.filterMap_map]
  exact List.filterMap_some

end Signal

open Signal (records records_append mem_records)

namespace Lister

variable {l : Lister} {d : Disk}

/-- Where nothing fails, a kind that is shown has a record. -/
theorem exists_record_of_shows {kind : Kind} {i : Item} (hs : l.shows kind = true)
    (he : ∀ e, .error e ∉ l.outcomes d kind i) :
    ∃ r, l.record? d kind i = .ok (some r) ∧ l.outcomes d kind i = [.ok r] := by
  obtain ⟨t, ht⟩ := Option.isSome_iff_exists.mp hs
  cases hr : l.record? d kind i with
  | error e => exact absurd (by rw [outcomes, hr]; exact List.mem_cons_self) (he e)
  | ok found =>
    have hfound := hr
    rw [record?, ht] at hfound
    obtain ⟨p, -, rfl⟩ := map_eq_ok.mp (mapError_eq_ok.mp hfound)
    exact ⟨_, rfl, by rw [outcomes, hr]; rfl⟩

/-- Nothing that an item gives lies above it. -/
def NotAbove (i : Item) (o : Signal.Outcome) : Prop := ∀ r, o = .ok r → r.FromDepth i.depth

theorem notAbove_of_mem_outcomes (kind : Kind) (i : Item) : ∀ o ∈ l.outcomes d kind i, NotAbove i o := by
  rintro _ ho r rfl
  exact ⟨_, (exists_of_mem_outcomes ho).2.2.2, Nat.le_refl _⟩

theorem notAbove_of_mem_listing (i : Item) (os : List Signal.Outcome) (h : l.listing d i = some os) :
    ∀ o ∈ os, NotAbove i o := by
  refine of_mem_listing notAbove_of_mem_outcomes (fun i j hj o ho r hr => ?_) h
  obtain ⟨n, -, rfl⟩ := Item.exists_of_mem_children hj
  exact (ho r hr).mono (Nat.le_succ _)

/-- The two listers differ in nothing but that the first one has the limit `m` and the other one none. -/
structure Limits (l full : Lister) (m : Nat) : Prop where
  record : ∀ d kind i, l.record? d kind i = full.record? d kind i
  order : l.options.order = full.options.order
  leavesOut : ∀ i, l.options.leavesOut i = full.options.leavesOut i
  limits : ∀ depth, l.options.limits depth = decide (m ≤ depth)
  unlimited : ∀ depth, full.options.limits depth = false

end Lister

namespace Template

variable {t t' : Template} {o : Options} {r : Registry} {pattern : String}

/-- The limit of the depth is no matter of properties. -/
theorem Compiled.props_eq_of_maxDepth {m n : Nat} (h : t.Compiled pattern { o with maxDepth := m } r)
    (h' : t'.Compiled pattern { o with maxDepth := n } r) (d : Disk) (i : Item) :
    t.props d i = t'.props d i := by
  have hextract : ∀ p : Property,
      p.extract d { o with maxDepth := m } i = p.extract d { o with maxDepth := n } i := by
    intro p
    cases p <;> rfl
  have hsegments : t.segments = t'.segments := Except.ok.inj (h.segments.symm.trans h'.segments)
  have hproperties : t.properties = t'.properties :=
    Except.ok.inj (h.properties.symm.trans ((congrArg _ (by rw [hsegments])).trans h'.properties))
  rw [props, props, hproperties, h.options, h'.options]
  simp only [hextract]

end Template

namespace Lister

variable {l full : Lister} {o : Options} {r : Registry} {d : Disk} {m : Nat}

theorem record?_eq_of_maxDepth {n : Nat} (h : compile { o with maxDepth := m } r = .ok l)
    (h' : compile { o with maxDepth := n } r = .ok full) (d : Disk) (kind : Kind) (i : Item) :
    l.record? d kind i = full.record? d kind i := by
  have hk := template?_eq h kind
  have hk' := template?_eq h' kind
  have hpattern : Options.pattern? { o with maxDepth := m } kind
      = Options.pattern? { o with maxDepth := n } kind := by
    cases kind <;> rfl
  rw [hpattern] at hk
  cases hp : Options.pattern? { o with maxDepth := n } kind with
  | none =>
    simp only [hp] at hk hk'
    rw [record?, record?, hk, hk']
  | some pattern =>
    simp only [hp] at hk hk'
    obtain ⟨t, ht, hc⟩ := hk
    obtain ⟨t', ht', hc'⟩ := hk'
    simp only [record?, ht, ht', hc.props_eq_of_maxDepth hc' d i]

theorem limits_of_compile (hm : 0 < m) (h : compile { o with maxDepth := m } r = .ok l)
    (h' : compile { o with maxDepth := 0 } r = .ok full) : l.Limits full m := by
  have ho := options_eq h
  have ho' := options_eq h'
  refine ⟨record?_eq_of_maxDepth h h', ?_, fun i => ?_, fun depth => ?_, fun depth => ?_⟩
  · rw [ho, ho']
    rfl
  · rw [ho, ho']
    rfl
  · rw [ho]
    simp [Options.limits, hm]
  · rw [ho']
    rfl

/-- The properties of the ellipsis behind the folder with this record. -/
def dotsOf (l : Lister) (d : Disk) (base : Path) (r : Record) : Props :=
  (((l.record? d .ellipsis ⟨base, r.path, r.depth?.getD 0, true⟩).toOption.bind id).map (·.props)).getD .empty

/-- What a walk with the limit `m` gives, and what the walk without a limit gives in its place. -/
structure Cuts (l : Lister) (d : Disk) (base : Path) (m : Nat) (limited full : List Signal.Outcome) :
    Prop where
  kept : (records limited).filter (·.kind ≠ .ellipsis) = (records full).filter (·.within m)
  marked : l.shows .folder = true → l.shows .ellipsis = true → (∀ e, .error e ∉ limited) →
    records limited = ((records full).filter (·.within m)).flatMap (·.marked m (l.dotsOf d base))

namespace Cuts

variable {base : Path} {a b a' b' : List Signal.Outcome} {i : Item}

theorem append (h : l.Cuts d base m a b) (h' : l.Cuts d base m a' b') :
    l.Cuts d base m (a ++ a') (b ++ b') := by
  constructor
  · simp only [records_append, List.filter_append, h.kept, h'.kept]
  · intro hf he hok
    have ha := h.marked hf he fun e hm => hok e (List.mem_append_left _ hm)
    have ha' := h'.marked hf he fun e hm => hok e (List.mem_append_right _ hm)
    simp only [records_append, List.filter_append, List.flatMap_append, ha, ha']

/-- What is not cut: no ellipses, and no folders at the limit. -/
theorem refl (h : ∀ r ∈ records a,
      r.kind ≠ .ellipsis ∧ r.within m = true ∧ ¬ (r.kind = .folder ∧ r.depth? = some m)) :
    l.Cuts d base m a a := by
  have hkept : (records a).filter (·.within m) = records a :=
    List.filter_eq_self.mpr fun r hr => (h r hr).2.1
  constructor
  · rw [hkept]
    exact List.filter_eq_self.mpr fun r hr => decide_eq_true (h r hr).1
  · intro _ _ _
    have hsingle : (records a).flatMap (·.marked m (l.dotsOf d base)) = (records a).flatMap fun r => [r] :=
      List.flatMap_congr fun r hr => if_neg (h r hr).2.2
    rw [hkept, hsingle, List.flatMap_singleton']

theorem nil : l.Cuts d base m [] [] := refl (List.forall_mem_nil _)

/-- What is deeper than the limit is cut. -/
theorem deeper (h : ∀ r ∈ records b, r.within m = false) : l.Cuts d base m [] b := by
  have hnone : (records b).filter (·.within m) = [] := List.filter_eq_nil_iff.mpr fun r hr => by simp [h r hr]
  exact ⟨hnone.symm, fun _ _ _ => by rw [hnone]; rfl⟩

theorem outcomes {kind : Kind} (hk : kind ≠ .ellipsis) (hd : i.depth ≤ m)
    (hf : kind = .folder → i.depth ≠ m) :
    l.Cuts d base m (l.outcomes d kind i) (l.outcomes d kind i) := by
  refine refl fun r hr => ?_
  obtain ⟨-, hkind, -, hdepth⟩ := exists_of_mem_outcomes (mem_records.mp hr)
  refine ⟨hkind ▸ hk, by simp [Record.within, hdepth, hd], fun h => hf (hkind.symm.trans h.1) ?_⟩
  exact Option.some.inj (hdepth.symm.trans h.2)

/-- A folder at the limit is not cut itself, and there is an ellipsis behind it. -/
theorem dots (hf : i.isFolder = true) (hb : i.base = base) (hd : i.depth = m) :
    l.Cuts d base m (l.outcomes d .folder i ++ l.outcomes d .ellipsis i) (l.outcomes d .folder i) := by
  have hown : ∀ r ∈ records (l.outcomes d .folder i),
      r.kind = .folder ∧ r.path = i.path ∧ r.depth? = some m := fun r hr =>
    hd ▸ (exists_of_mem_outcomes (mem_records.mp hr)).2
  have hwithin : (records (l.outcomes d .folder i)).filter (·.within m) = records (l.outcomes d .folder i) :=
    List.filter_eq_self.mpr fun r hr => by simp [Record.within, (hown r hr).2.2]
  constructor
  · have hellipsis : (records (l.outcomes d .ellipsis i)).filter (·.kind ≠ .ellipsis) = [] :=
      List.filter_eq_nil_iff.mpr fun r hr => by simp [(exists_of_mem_outcomes (mem_records.mp hr)).2.1]
    have hfolder : (records (l.outcomes d .folder i)).filter (·.kind ≠ .ellipsis)
        = records (l.outcomes d .folder i) :=
      List.filter_eq_self.mpr fun r hr => by simp [(hown r hr).1]
    rw [records_append, List.filter_append, hellipsis, hfolder, hwithin, List.append_nil]
  · intro hsf hse hok
    obtain ⟨r, hr, hro⟩ := exists_record_of_shows hsf fun e hm => hok e (List.mem_append_left _ hm)
    obtain ⟨r', hr', hro'⟩ := exists_record_of_shows hse fun e hm => hok e (List.mem_append_right _ hm)
    obtain ⟨hkind, hpath, hdepth⟩ := hown r (mem_records.mpr (hro ▸ List.mem_cons_self))
    have hitem : (⟨base, r.path, r.depth?.getD 0, true⟩ : Item) = i := by
      rw [hpath, hdepth, Option.getD_some, ← hb, ← hd, ← hf]
    have hdots : { r with kind := .ellipsis, props := l.dotsOf d base r } = r' := by
      rw [dotsOf, hitem, hr']
      obtain ⟨_, _, -, -, rfl⟩ := record?_eq_some hr'
      rw [hpath, hdepth, hd]
      rfl
    have hmarked : r.marked m (l.dotsOf d base) = [r, r'] := by
      rw [Record.marked, if_pos ⟨hkind, hdepth⟩, hdots]
    rw [hwithin, records_append, hro, hro']
    exact ((List.flatMap_singleton _ _).trans hmarked).symm

end Cuts

namespace Limits

theorem outcomes_eq (h : l.Limits full m) (d : Disk) (kind : Kind) (i : Item) :
    full.outcomes d kind i = l.outcomes d kind i := by rw [Lister.outcomes, Lister.outcomes, h.record]

/-- If the folders among some entries are cut, so are the entries, as far as they are no deeper than the
limit. -/
theorem visits (h : l.Limits full m) {base : Path} {items : List Item} (hd : ∀ j ∈ items, j.depth ≤ m)
    (ih : ∀ j ∈ items, j.isFolder = true → ∀ os all, l.listing d j = some os → full.listing d j = some all →
      l.Cuts d base m os all) {os all : List Signal.Outcome}
    (hos : Walk.given? l d (l.listing d) (items.map .visit) = some os)
    (hall : Walk.given? full d (full.listing d) (items.map .visit) = some all) : l.Cuts d base m os all := by
  induction items generalizing os all with
  | nil =>
    obtain rfl := Option.some.inj hos
    obtain rfl := Option.some.inj hall
    exact .nil
  | cons j items ihl =>
    rw [List.forall_mem_cons] at hd ih
    rw [List.map_cons, Walk.given?_cons] at hos hall
    obtain ⟨first, hfirst, hos⟩ := Option.bind_eq_some_iff.mp hos
    obtain ⟨others, hothers, rfl⟩ := Option.map_eq_some_iff.mp hos
    obtain ⟨first', hfirst', hall⟩ := Option.bind_eq_some_iff.mp hall
    obtain ⟨others', hothers', rfl⟩ := Option.map_eq_some_iff.mp hall
    refine Cuts.append ?_ (ihl hd.2 ih.2 hothers hothers')
    rw [Walk.Task.given?] at hfirst hfirst'
    rw [← h.leavesOut] at hfirst'
    cases ho : l.options.leavesOut j with
    | true =>
      obtain rfl : [] = first := by simpa [ho] using hfirst
      obtain rfl : [] = first' := by simpa [ho] using hfirst'
      exact .nil
    | false =>
      cases hj : j.isFolder with
      | true => exact ih.1 hj _ _ (by simpa [ho, hj] using hfirst) (by simpa [ho, hj] using hfirst')
      | false =>
        obtain rfl : l.outcomes d .file j = first := by simpa [ho, hj] using hfirst
        obtain rfl : l.outcomes d .file j = first' := by simpa [ho, hj, h.outcomes_eq] using hfirst'
        exact .outcomes (by decide) hd.1 (by simp)

theorem deeper_visits {base : Path} {items : List Item} (hd : ∀ j ∈ items, m < j.depth)
    {all : List Signal.Outcome}
    (hall : Walk.given? full d (full.listing d) (items.map .visit) = some all) : l.Cuts d base m [] all := by
  refine .deeper fun r hr => ?_
  obtain ⟨task, htask, own, hown, hr⟩ := Walk.mem_given? hall (mem_records.mp hr)
  obtain ⟨j, hj, rfl⟩ := List.mem_map.mp htask
  obtain ⟨depth, hdepth, hle⟩ :=
    Walk.of_mem_visit notAbove_of_mem_outcomes notAbove_of_mem_listing hown _ hr r rfl
  have hlimit := hd j hj
  rw [Record.within, hdepth, Option.any_some, decide_eq_false_iff_not]
  omega

/-- The listing of a folder that is no deeper than the limit is cut. -/
theorem listing (h : l.Limits full m) (hm : 0 < m) {good : Item → List String → Prop} {i : Item}
    (ht : d.Tree good i) (hf : i.isFolder = true) (hd : i.depth ≤ m) {os all : List Signal.Outcome}
    (hos : l.listing d i = some os) (hall : full.listing d i = some all) : l.Cuts d i.base m os all := by
  induction ht generalizing os all with
  | @intro i _ _ ih =>
    rw [Walk.listing_eq] at hos hall
    rw [← h.record, h.outcomes_eq] at hall
    split at hos
    next hok =>
      rw [if_pos hok] at hall
      obtain ⟨within, hwithin, rfl⟩ := Option.map_eq_some_iff.mp hos
      obtain ⟨within', hwithin', rfl⟩ := Option.map_eq_some_iff.mp hall
      obtain ⟨inner, rfl, hinner⟩ := Walk.exists_of_given?_within hwithin
      obtain ⟨inner', rfl, hinner'⟩ := Walk.exists_of_given?_within hwithin'
      rw [h.limits] at hinner
      rw [h.unlimited, if_neg Bool.false_ne_true, ← h.order] at hinner'
      rw [h.outcomes_eq, ← List.append_assoc, ← List.append_assoc]
      refine Cuts.append ?_ (.outcomes (by decide) hd (by simp))
      have hentries : ∀ j ∈ l.options.order.sort (i.children d),
          j ∈ i.children d ∧ j.base = i.base ∧ j.depth = i.depth + 1 := by
        intro j hj
        have hmem := List.mem_mergeSort.mp hj
        obtain ⟨n, -, rfl⟩ := Item.exists_of_mem_children hmem
        exact ⟨hmem, rfl, rfl⟩
      by_cases hlim : i.depth = m
      · have hkind : i.ownKind = .folder := if_neg (by omega)
        have hdeeper : l.Cuts d i.base m [] inner' :=
          deeper_visits (fun j hj => by have := (hentries j hj).2.2; omega) hinner'
        rw [hlim, decide_eq_true (Nat.le_refl m), if_pos rfl] at hinner
        rw [hkind, hinner]
        have hfolder := (Cuts.dots (l := l) (d := d) hf rfl hlim).append hdeeper
        rwa [List.append_nil] at hfolder
      · rw [decide_eq_false (by omega), if_neg Bool.false_ne_true] at hinner
        have hown : l.Cuts d i.base m (l.outcomes d i.ownKind i) (l.outcomes d i.ownKind i) :=
          .outcomes (by rw [Item.ownKind]; split <;> decide) hd fun _ => hlim
        have hdepth : ∀ j ∈ l.options.order.sort (i.children d), j.depth ≤ m := by
          intro j hj
          have := (hentries j hj).2.2
          omega
        refine hown.append (h.visits hdepth (fun j hj hfolder os all hos hall => ?_) hinner hinner')
        obtain ⟨hmem, hbase, hdeep⟩ := hentries j hj
        exact hbase ▸ ih j hmem hfolder hfolder (by omega) hos hall
    next hfails =>
      rw [if_neg hfails] at hall
      obtain rfl := Option.some.inj hos
      obtain rfl := Option.some.inj hall
      refine .refl fun r hr => absurd ?_ hfails
      rw [(exists_of_mem_outcomes (mem_records.mp hr)).1]
      rfl

end Limits

end Lister

/-- A folder with the folder `a`, which holds the file `x`. -/
def Disk.nestedFile : Disk := .ofTable [("/t", ["a"]), ("/t/a", ["x"])] ["/t/a/x"]

/-- A limit of the depth only cuts. On every finite tree the walk with the limit `m` and the one without a
limit end, and without its ellipses the first one gives the records of the second one that are no deeper
than `m`. Where folders and ellipses have lines and nothing fails, there is an ellipsis right behind every
folder of the depth `m`, with its path and its depth, and no other. -/
theorem depth_limit_only_cuts {o : Options} {r : Registry} {m : Nat} (hm : 0 < m) {l full : Lister}
    (hl : Lister.compile { o with maxDepth := m } r = .ok l)
    (hfull : Lister.compile { o with maxDepth := 0 } r = .ok full) {d : Disk} {folder base : Path}
    (hd : d.isFolder folder = true) (hb : folder.absolute? d.cwd = some base)
    (ht : d.Tree (fun _ _ => True) (.root base)) :
    ∃ os all, l.walk d folder = .ok os ∧ full.walk d folder = .ok all ∧
      (records os).filter (·.kind ≠ .ellipsis) = (records all).filter (·.within m) ∧
      (l.shows .folder = true → l.shows .ellipsis = true → (∀ e, .error e ∉ os) → ∃ dots : Record → Props,
        records os = ((records all).filter (·.within m)).flatMap (·.marked m dots)) := by
  have hwalk : ∀ (l : Lister) os, l.listing d (.root base) = some os → l.walk d folder = .ok os := by
    intro l os hos
    rw [l.walk_eq_listing hd hb, hos, Option.getD_some]
  obtain ⟨os, hos⟩ := Lister.exists_listing_of_tree (l := l) ht
  obtain ⟨all, hall⟩ := Lister.exists_listing_of_tree (l := full) ht
  have hcuts := (Lister.limits_of_compile hm hl hfull).listing hm ht rfl (Nat.zero_le m) hos hall
  exact ⟨os, all, hwalk l os hos, hwalk full all hall, hcuts.kept,
    fun hf he hok => ⟨_, hcuts.marked hf he hok⟩⟩

theorem depth_limit_only_cuts_oneFolder : ∃ l full : Lister,
    Lister.compile { showEllipsis := true, maxDepth := 1 } .core = .ok l ∧
      Lister.compile { showEllipsis := true, maxDepth := 0 } .core = .ok full ∧
      ∃ limited all : List Record,
        l.walk .nestedFile ⟨"/t"⟩ = .ok (limited.map .ok) ∧ full.walk .nestedFile ⟨"/t"⟩ = .ok (all.map .ok) ∧
        limited.map (fun r => (r.kind, r.path)) = [(.root, ⟨""⟩), (.folder, ⟨"a"⟩), (.ellipsis, ⟨"a"⟩)] ∧
        all.map (fun r => (r.kind, r.path)) = [(.root, ⟨""⟩), (.folder, ⟨"a"⟩), (.file, ⟨"a/x"⟩)] ∧
        limited.filter (·.kind ≠ .ellipsis) = all.filter (·.within 1) ∧
        ∃ dots, limited = (all.filter (·.within 1)).flatMap (·.marked 1 dots) := by
  let front : List Record := [⟨.root, ⟨""⟩, some 0, .ofList [("indent", "")]⟩,
    ⟨.folder, ⟨"a"⟩, some 1, .ofList [("indent", " "), ("name", "a")]⟩]
  let limited : List Record := front ++ [⟨.ellipsis, ⟨"a"⟩, some 1, .ofList [("indent", " ")]⟩]
  let all : List Record := front ++ [⟨.file, ⟨"a/x"⟩, some 2, .ofList [("indent", "  "), ("name", "x")]⟩]
  obtain ⟨l, hl⟩ : ∃ l, Lister.compile { showEllipsis := true, maxDepth := 1 } .core = .ok l :=
    exists_eq_ok_of_isOk (by decide +kernel)
  obtain ⟨full, hfull⟩ : ∃ l, Lister.compile { showEllipsis := true, maxDepth := 0 } .core = .ok l :=
    exists_eq_ok_of_isOk (by decide +kernel)
  have hw : l.walk .nestedFile ⟨"/t"⟩ = .ok (limited.map .ok) :=
    walk_of_shown hl Path.absolute?_t (.folder "a" .nil .nil) (by decide +kernel)
  have hw' : full.walk .nestedFile ⟨"/t"⟩ = .ok (all.map .ok) :=
    walk_of_shown hfull Path.absolute?_t (.folder "a" (.file "x" .nil) .nil) (by decide +kernel)
  have hshows : ∀ kind ∈ [Kind.folder, .ellipsis], l.shows kind = true := by
    intro kind hk
    rw [Lister.shows, Lister.isSome_template? hl]
    simp only [List.mem_cons, List.not_mem_nil, or_false] at hk
    rcases hk with rfl | rfl <;> rfl
  obtain ⟨os, all', hos, hall, hkept, hmarked⟩ :=
    depth_limit_only_cuts (o := { showEllipsis := true }) (d := .nestedFile) Nat.one_pos hl hfull
      (by decide +kernel) Path.absolute?_t (Disk.tree_of_isTree 2 (by decide +kernel))
  obtain rfl := Except.ok.inj (hw.symm.trans hos)
  obtain rfl := Except.ok.inj (hw'.symm.trans hall)
  rw [Signal.records_map_ok, Signal.records_map_ok] at hkept hmarked
  exact ⟨l, full, hl, hfull, limited, all, hw, hw', by decide, by decide, hkept,
    hmarked (hshows _ (by decide)) (hshows _ (by decide)) (by simp)⟩

end TreeListing
