import TreeListing.Proofs.Comparison.Order
import TreeListing.Proofs.SiblingSort

/-!
The entries of one folder are listed in the order in which their records are compared. The one order
looks at the entries themselves, the other at records in which a name may be told by itself, as the
end of a path, or not at all.
-/
namespace TreeListing

/-- The mark of an entry, given by what it is called and whether it is a folder. -/
def Mark.ofHead (names : List String) (head : Bool × String) : Mark :=
  ⟨if head.1 then .folder else .file, names ++ [head.2]⟩

theorem Mark.item_ofHead (base : Path) (names : List String) (head : Bool × String) :
    (ofHead names head).item base = .below base (names ++ [head.2]) head.1 := by
  obtain ⟨isFolder, n⟩ := head
  cases isFolder <;> rfl

theorem Mark.isFolderLike_ofHead (names : List String) (head : Bool × String) :
    (ofHead names head).kind.isFolderLike = head.1 := by
  obtain ⟨isFolder, n⟩ := head
  cases isFolder <;> rfl

theorem SiblingOrder.exists_byName {o : SiblingOrder}
    (h : o.key? = none ∨ o.key? = some ignoringCase) : ∃ key, o.ByName key := by
  rcases h with h | h
  · exact ⟨id, byName_id h⟩
  · exact ⟨Text.lower, byName_lower h⟩

/-- With names as keys, or names without their case, the records of two siblings compare as the
siblings do, whatever patterns the two listings have and so whatever their records tell of a name.
Comparing siblings is a total preorder. Sorting gives the entries again, none behind one that is
greater, and those that compare equal as they came; it is sorting by rank and key. -/
theorem records_compare_as_siblings {o : SiblingOrder}
    (ho : o.key? = none ∨ o.key? = some SiblingOrder.ignoringCase) {options options' : Options}
    {l l' : Lister} (hl : Lister.compile options .core = .ok l)
    (hl' : Lister.compile options' .core = .ok l') :
    (∀ (d d' : Disk) (base base' : Path) (names : List String) (a b : Bool × String) (r r' : Record),
      (∀ n ∈ names, Path.IsName n) → Path.IsName a.2 → Path.IsName b.2 →
      l.record? d (Mark.ofHead names a).kind ((Mark.ofHead names a).item base) = .ok (some r) →
      l'.record? d' (Mark.ofHead names b).kind ((Mark.ofHead names b).item base') = .ok (some r') →
      Comparison.compareRecords o r r'
        = o.compare ((Mark.ofHead names a).item base) ((Mark.ofHead names b).item base')) ∧
    ((∀ i, o.compare i i = .eq) ∧ (∀ i j, o.compare j i = (o.compare i j).swap) ∧
      ∀ i j k, (o.compare i j).isLE = true → (o.compare j k).isLE = true → (o.compare i k).isLE = true) ∧
    ∀ items, (o.sort items).Perm items ∧
      (o.sort items).Pairwise (fun i j => (o.compare i j).isLE = true) ∧
      (∀ i, (o.sort items).filter (fun j => o.compare i j = .eq)
        = items.filter fun j => o.compare i j = .eq) ∧
      o.sort items = items.mergeSort fun i j =>
        (SiblingOrder.compareKeys (o.rankedKey i) (o.rankedKey j)).isLE := by
  obtain ⟨key, hk⟩ := SiblingOrder.exists_byName ho
  refine ⟨?_, ⟨fun i => Std.ReflCmp.compare_self, fun i j => Std.OrientedCmp.eq_swap,
    fun i j k => Std.TransCmp.isLE_trans⟩, fun items => ⟨o.perm_sort items, o.pairwise_sort items,
    o.filter_sort items, o.sort_eq_mergeSort_keys items⟩⟩
  intro d d' base base' names a b r r' hn ha hb hr hr'
  have hconcat : ∀ {n}, Path.IsName n → ∀ m ∈ names ++ [n], Path.IsName m := fun hname =>
    List.forall_mem_append.mpr ⟨hn, List.forall_mem_singleton.mpr hname⟩
  have hmade := Mark.made_of_record? hl Registry.tellsNames_core (hconcat ha) hr
  have hmade' := Mark.made_of_record? hl' Registry.tellsNames_core (hconcat hb) hr'
  rw [Comparison.compareRecords_siblings hk hmade hmade' rfl rfl ha hb rfl, Mark.isFolderLike_ofHead,
    Mark.isFolderLike_ofHead, Mark.item_ofHead, Mark.item_ofHead,
    SiblingOrder.compare_below hk base base' names ha hb]

/-- One side tells the paths of files, the other nothing of folders. -/
theorem records_compare_as_siblings_caseless : ∃ (l l' : Lister) (r r' : Record),
    Lister.compile { filePattern? := some "\x7brelpath\x7d\n" } .core = .ok l ∧
      Lister.compile { folderPattern? := some "folder\n" } .core = .ok l' ∧
      l.record? (.oneFile "a") .file (.below ⟨"/t"⟩ ["top", "B"] false) = .ok (some r) ∧
      l'.record? (.oneFile "a") .folder (.below ⟨"/u"⟩ ["top", "a"] true) = .ok (some r') ∧
      r.props = .ofList [("relpath", "top/B")] ∧ r'.props = .empty ∧
      Comparison.compareRecords ⟨.mixed, some SiblingOrder.ignoringCase⟩ r r'
        = SiblingOrder.compare ⟨.mixed, some SiblingOrder.ignoringCase⟩
          (.below ⟨"/t"⟩ ["top", "B"] false) (.below ⟨"/u"⟩ ["top", "a"] true) ∧
      SiblingOrder.compare ⟨.mixed, some SiblingOrder.ignoringCase⟩
          (.below ⟨"/t"⟩ ["top", "B"] false) (.below ⟨"/u"⟩ ["top", "a"] true) = .gt := by
  obtain ⟨l, hl, hr⟩ := exists_eq_ok_of_any
    (x := Lister.compile { filePattern? := some "\x7brelpath\x7d\n" } .core)
    (f := fun l => l.record? (.oneFile "a") .file (.below ⟨"/t"⟩ ["top", "B"] false)
      = .ok (some ⟨.file, ⟨"top/B"⟩, some 2, .ofList [("relpath", "top/B")]⟩)) (by decide +kernel)
  obtain ⟨l', hl', hr'⟩ := exists_eq_ok_of_any
    (x := Lister.compile { folderPattern? := some "folder\n" } .core)
    (f := fun l => l.record? (.oneFile "a") .folder (.below ⟨"/u"⟩ ["top", "a"] true)
      = .ok (some ⟨.folder, ⟨"top/a"⟩, some 2, .empty⟩)) (by decide +kernel)
  have hr := of_decide_eq_true hr
  have hr' := of_decide_eq_true hr'
  obtain ⟨hsame, -⟩ := records_compare_as_siblings (o := ⟨.mixed, some SiblingOrder.ignoringCase⟩)
    (.inr rfl) hl hl'
  refine ⟨l, l', _, _, hl, hl', hr, hr', rfl, rfl, ?_, by decide +kernel⟩
  exact hsame _ _ ⟨"/t"⟩ ⟨"/u"⟩ ["top"] (false, "B") (true, "a") _ _ (by decide)
    (by decide) (by decide) hr hr'

end TreeListing
