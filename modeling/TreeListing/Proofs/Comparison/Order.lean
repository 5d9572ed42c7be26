import TreeListing.Comparison.Entry
import TreeListing.Proofs.Lister
import TreeListing.Proofs.SiblingOrder
import TreeListing.Proofs.Walk

/-!
How the records of two walks compare. A record is told by its mark as far as a comparison goes: a
deeper one comes first, and of two that are equally deep the names and the groups decide.
-/
namespace TreeListing

/-- The registry tells names and paths as they are. -/
structure Registry.TellsNames (r : Registry) : Prop where
  name : r.get? "name" = some .name
  relpath : r.get? "relpath" = some .relpath
  abspath : r.get? "abspath" = some .abspath

theorem Registry.tellsNames_core : core.TellsNames := ⟨by decide, by decide, by decide⟩

/-- The record is one for the mark. -/
structure Mark.Made (m : Mark) (r : Record) : Prop where
  kind : r.kind = m.kind
  path : r.path = .ofSegments m.names
  depth : r.depth? = some m.names.length
  name : ∀ before n, m.names = before ++ [n] → r.name? = some n

/-- Properties that tell a name of an entry tell its last one. -/
theorem Template.Compiled.name?_eq {t : Template} {pattern : String} {o : Options} {r : Registry}
    (hc : t.Compiled pattern o r) (hr : r.TellsNames) {d : Disk} {base : Path} {before : List String}
    {n : String} (hb : ∀ m ∈ before, Path.IsName m) (hn : Path.IsName n) {isFolder : Bool} {p : Props}
    (hp : t.props d (.below base (before ++ [n]) isFolder) = .ok p) {m : String}
    (hm : p.name? = some m) : m = n := by
  rw [Props.name?, Option.or_eq_some_iff, Option.or_eq_some_iff] at hm
  rcases hm with hm | ⟨-, hm | ⟨-, hm⟩⟩
  · obtain ⟨property, hg, he⟩ := hc.exists_of_get? hp hm
    obtain rfl := Option.some.inj (hr.name.symm.trans hg)
    exact (Except.ok.inj he).symm.trans (Item.name_below_concat base before hn isFolder)
  · obtain ⟨value, hv, hm⟩ := Option.bind_eq_some_iff.mp hm
    obtain ⟨property, hg, he⟩ := hc.exists_of_get? hp hv
    obtain rfl := Option.some.inj (hr.relpath.symm.trans hg)
    obtain rfl := Except.ok.inj he
    exact Option.some.inj (hm.symm.trans (Path.fileName?_ofSegments_concat before hn))
  · obtain ⟨value, hv, hm⟩ := Option.bind_eq_some_iff.mp hm
    obtain ⟨property, hg, he⟩ := hc.exists_of_get? hp hv
    obtain rfl := Option.some.inj (hr.abspath.symm.trans hg)
    obtain rfl := Except.ok.inj he
    exact Option.some.inj
      (hm.symm.trans (Item.fileName?_abspath_below_concat base hb hn isFolder))

theorem Mark.made_of_record? {o : Options} {r : Registry} {l : Lister}
    (hl : Lister.compile o r = .ok l) (hr : r.TellsNames) {d : Disk} {base : Path} {m : Mark}
    (hn : ∀ n ∈ m.names, Path.IsName n) {record : Record}
    (h : l.record? d m.kind (m.item base) = .ok (some record)) : m.Made record := by
  obtain ⟨t, p, ht, hp, rfl⟩ := Lister.record?_eq_some h
  refine ⟨rfl, rfl, rfl, fun before n he => ?_⟩
  obtain ⟨pattern, -, hc⟩ := Lister.compiled_of_template? hl ht
  rw [he] at hn
  have hlast : Path.IsName n := hn n (by simp)
  rw [item, he] at hp
  rw [Record.name?, item, he]
  cases hname : p.name? with
  | none => exact Path.fileName?_ofSegments_concat before hlast
  | some m =>
    rw [hc.name?_eq hr (fun m hm => hn m (by simp [hm])) hlast hp hname]
    rfl

namespace Comparison

variable {o : SiblingOrder} {m m' : Mark} {r r' : Record}

theorem compareRecords_of_deeper (h : m.Made r) (h' : m'.Made r')
    (hd : m'.names.length < m.names.length) : compareRecords o r r' = .lt := by
  rw [compareRecords, h.depth, h'.depth]
  simp only [if_pos (Nat.ne_of_gt hd)]
  exact Nat.compare_eq_lt.mpr hd

theorem compareRecords_of_shallower (h : m.Made r) (h' : m'.Made r')
    (hd : m.names.length < m'.names.length) : compareRecords o r r' = .gt := by
  rw [compareRecords, h.depth, h'.depth]
  simp only [if_pos (Nat.ne_of_lt hd)]
  exact Nat.compare_eq_gt.mpr hd

theorem compareRecords_root (h : m.Made r) (h' : m'.Made r') (hm : m.names = [])
    (hm' : m'.names = []) (hk : m.kind.isFolderLike = true) (hk' : m'.kind.isFolderLike = true) :
    compareRecords o r r' = .eq := by
  rw [compareRecords, h.depth, h'.depth, h.kind, h'.kind, hm, hm']
  simp [hk, hk']

/-- Equally deep records compare as siblings do, whatever folders they are in. -/
theorem compareRecords_siblings {key : String → String} (ho : o.ByName key) (h : m.Made r)
    (h' : m'.Made r') {before before' : List String} {n n' : String} (hm : m.names = before ++ [n])
    (hm' : m'.names = before' ++ [n']) (hn : Path.IsName n) (hn' : Path.IsName n')
    (hd : before.length = before'.length) :
    compareRecords o r r' = o.compareHeads key (m.kind.isFolderLike, n) (m'.kind.isFolderLike, n') := by
  have hkey : ∀ (m : Mark) (r : Record), m.Made r → ∀ before n, m.names = before ++ [n] →
      Path.IsName n → keyOf o r = key n := fun m r h before n hm hn => by
    rw [keyOf, ho, Item.name, Item.detached, h.path, hm, Path.fileName?_ofSegments_concat before hn]
    rfl
  have hnone : o.key? = none → ∀ before n, Path.IsName n → key n = n := fun hk before n hn => by
    have hb := ho (.below .empty (before ++ [n]) false)
    rw [SiblingOrder.key, hk, Item.name_below_concat .empty before hn] at hb
    exact hb.symm
  have hdepth : r.depth? = some (before.length + 1) := by simp [h.depth, hm]
  have hdepth' : r'.depth? = some (before.length + 1) := by simp [h'.depth, hm', hd]
  rw [compareRecords, hdepth, hdepth']
  simp only [ne_eq, not_true_eq_false, if_false, Nat.add_one_ne_zero, false_and]
  rw [compareSiblings, SiblingOrder.compareHeads, h.kind, h'.kind, h.name before n hm,
    h'.name before' n' hm']
  simp only
  split
  · rw [hkey m r h before n hm hn, hkey m' r' h' before' n' hm' hn']
  next hk =>
    rw [hnone (by simpa using hk) before n hn, hnone (by simpa using hk) before n' hn']

end Comparison

end TreeListing
