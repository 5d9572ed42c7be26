import TreeListing.Proofs.Listing
import TreeListing.Proofs.Replay.Plain
import TreeListing.Proofs.Replay.Text
import TreeListing.Proofs.Replay.Xml
import TreeListing.Proofs.Table

/-!
Written listings are read back: what a listing of folders holds are the records of their walks.
-/
namespace TreeListing.Replay

variable {o : Options} {l : Lister} {d : Disk} {Good : String → Prop} {base : Path} {s : State}

/-- The lines of the records are read as the records, and another walk can follow. -/
def ReadsBack (l : Lister) (s : State) (records : List Record) : Prop :=
  ∃ s', readTexts l s (records.map l.line) = (records.map .record, s') ∧ Fresh l s'

theorem readsBack_flatten {walks : List (List Record)}
    (h : ∀ records ∈ walks, ∀ s, Fresh l s → ReadsBack l s records) (hs : Fresh l s) :
    ReadsBack l s walks.flatten := by
  induction walks generalizing s with
  | nil => exact ⟨s, rfl, hs⟩
  | cons records walks ih =>
    rw [List.forall_mem_cons] at h
    obtain ⟨s', hr, hs'⟩ := h.1 s hs
    obtain ⟨s'', hw, hs''⟩ := ih h.2 hs'
    refine ⟨s'', ?_, hs''⟩
    rw [List.flatten_cons, List.map_append, readTexts_append, hr]
    simp only [hw, List.map_append]

/-- What makes the lines of ordinary folders readable. -/
structure Readable (o : Options) (Good : String → Prop) : Prop where
  usual : o.IsUsual
  ellipsis : o.layout = .plain → o.ellipsis = "..."
  keepsLine : KeepsLine o
  listable : ∀ n, Good n → IsListable n
  depth : o.showIndent = true ∧ o.indent ≠ "" ∨ o.layout = .xml
  distinct : ∀ l, Lister.compile o .core = .ok l → ∀ d base m, Mark.IsOrdinary d o Good base m →
    ∀ r, l.record? d m.kind (m.item base) = .ok (some r) → Distinct l r (l.line r)

namespace Readable

theorem shows (h : Readable o Good) (hl : Lister.compile o .core = .ok l) {kind : Kind}
    (hu : (LinePattern.usual? o kind).isSome = true) : l.shows kind = true :=
  (Lister.isSome_template?_of_usual hl h.usual.given kind).trans hu

theorem inner (h : Readable o Good) : LinePattern.HasInnerEllipsis o :=
  LinePattern.hasInnerEllipsis_dots h.ellipsis

theorem closesFolders (h : Readable o Good) (hl : Lister.compile o .core = .ok l)
    (hx : o.layout = .xml) : l.closesFolders = true := by
  rw [closesFolders_eq, h.shows hl (by simp [LinePattern.usual?, h.usual.folders]),
    h.shows hl (by simp [LinePattern.usual?, h.usual.folders, hx])]
  rfl

theorem legible (h : Readable o Good) (hl : Lister.compile o .core = .ok l) {m : Mark}
    (hm : m.IsOrdinary d o Good base) (hw : m.names.length + o.startLevel ≤ Text.maxWord) {r : Record}
    (hr : l.record? d m.kind (m.item base) = .ok (some r)) : Legible l m r := by
  have hkind : r.kind = m.kind := by
    obtain ⟨t, p, -, -, rfl⟩ := Lister.record?_eq_some hr
    rfl
  exact ⟨hkind, h.distinct l hl d base m hm r hr, tells_of_record? hl h.usual h.inner hm.isName hm.entry
    hw (h.depth.imp_right (h.closesFolders hl)) hr, hm.isName⟩

theorem isLine (h : Readable o Good) (hl : Lister.compile o .core = .ok l) {m : Mark}
    (hm : m.IsOrdinary d o Good base) {r : Record}
    (hr : l.record? d m.kind (m.item base) = .ok (some r)) : IsLine (l.line r) := by
  obtain ⟨t, p, ht, hp, rfl⟩ := Lister.record?_eq_some hr
  have hline := isLine_render (Lister.usual_template hl h.usual h.inner ht) (isLine_newline h.usual) h.inner
    h.keepsLine (isReadable_dateFormat h.usual) (fun hk _ => hm.regular hk)
    (fun hn => (hm.spelled h.listable).calledBy _ _ hn rfl) hp
  rwa [Lister.line, ht]

/-- The walk of an ordinary folder comes to an end, and the lines of its records are read back. -/
theorem walk (h : Readable o Good) (hl : Lister.compile o .core = .ok l) {folder : Path}
    (hf : d.Presents o Good folder base) {records : List Record}
    (hw : l.walk d folder = .ok (records.map .ok))
    (hdeep : ∀ r ∈ records, ∀ depth, r.depth? = some depth → depth + o.startLevel ≤ Text.maxWord) :
    Listing.Walked l d folder records ∧ (∀ r ∈ records, IsLine (l.line r)) ∧
      ∀ s, Fresh l s → ReadsBack l s records := by
  obtain ⟨f, hs, hordinary⟩ := hf.exists_shows l
  have hwalked := Listing.walked_of_walk hf.absolute hs hw
  obtain ⟨rfl, hmade⟩ := walk_eq_marks hf.absolute hs hw
  have hlegible : ∀ m ∈ l.folderMarks .root [] (f.marks l []), Legible l m (l.recordAt d base m) := by
    intro m hm
    have hrecord := hmade m hm
    obtain ⟨t, p, ht, hp, he⟩ := Lister.record?_eq_some hrecord
    refine h.legible hl (hordinary m hm) (hdeep _ (List.mem_map_of_mem hm) _ ?_) hrecord
    rw [he]
    rfl
  refine ⟨hwalked, fun r hr => ?_, fun s hs => ?_⟩
  · obtain ⟨m, hm, rfl⟩ := List.mem_map.mp hr
    exact h.isLine hl (hordinary m hm) (hmade m hm)
  · have hreads := reads_walk (h.shows hl (by simp [LinePattern.usual?, h.usual.folders]))
      (h.shows hl (by simp [LinePattern.usual?, h.usual.folders])) hlegible hs
    obtain ⟨s', hr, hs'⟩ := hreads
    exact ⟨s', by rw [List.map_map, List.map_map]; exact hr, hs'⟩

/-- A listing of ordinary folders holds the records of their walks. -/
theorem replay_write (h : Readable o Good) (hh : o.header = "") (hf : o.footer = "")
    (hl : Lister.compile o .core = .ok l) {folders : List Path} {walks : List (List Record)}
    (hp : ∀ folder ∈ folders, ∃ base, d.Presents o Good folder base)
    (hw : List.Forall₂ (fun folder records => l.walk d folder = .ok (records.map .ok)) folders walks)
    (hdeep : ∀ records ∈ walks, ∀ r ∈ records, ∀ depth, r.depth? = some depth →
      depth + o.startLevel ≤ Text.maxWord) :
    ∃ s, Listing.write .memory l folders ⟨d, #[]⟩ = (.ok walks.flatten.length, s) ∧
      l.replay s.written.toList = walks.flatten.map .record := by
  have hopt := Lister.options_eq hl
  have hall : List.Forall₂ (Listing.Walked l d) folders walks ∧ ∀ records ∈ walks,
      (∀ r ∈ records, IsLine (l.line r)) ∧ ∀ s, Fresh l s → ReadsBack l s records := by
    induction hw with
    | nil => exact ⟨.nil, by simp⟩
    | cons hwalk _ ih =>
      rw [List.forall_mem_cons] at hp hdeep
      obtain ⟨base, hfolder⟩ := hp.1
      obtain ⟨hwalked, hback⟩ := h.walk hl hfolder hwalk hdeep.1
      obtain ⟨hwalks, hbacks⟩ := ih hp.2 hdeep.2
      exact ⟨.cons hwalked hwalks, List.forall_mem_cons.mpr ⟨hback, hbacks⟩⟩
  obtain ⟨s, hwrite, hbytes⟩ := Listing.write_memory hall.1
  refine ⟨s, hwrite, ?_⟩
  have hlines : ∀ text ∈ walks.flatten.map l.line, IsLine text := by
    intro text hm
    obtain ⟨r, hr, rfl⟩ := List.mem_map.mp hm
    obtain ⟨records, hrecords, hr⟩ := List.mem_flatten.mp hr
    exact (hall.2 records hrecords).1 r hr
  obtain ⟨s', hback, -⟩ := readsBack_flatten (fun records hm => (hall.2 records hm).2) (fresh_start l)
  rw [hopt, hh, hf, Text.encode_empty, List.nil_append, List.append_nil] at hbytes
  rw [hbytes, Lister.bytes, replay_flatMap (hopt ▸ h.usual.newline) hlines, hback]

end Readable

/-- A listing in the XML layout is read back as the walks that it was written from. -/
theorem xml_listing_replayed {o : Options} (ho : o.IsUsual) (hx : FitsXml o) (hk : KeepsLine o)
    (hh : o.header = "") (hf : o.footer = "") :
    ∃ l, Lister.compile o .core = .ok l ∧
      ∀ (d : Disk) (folders : List Path) (walks : List (List Record)),
        (∀ folder ∈ folders, ∃ base, d.Presents o IsListable folder base) →
        List.Forall₂ (fun folder records => l.walk d folder = .ok (records.map .ok)) folders walks →
        (∀ records ∈ walks, ∀ r ∈ records, ∀ depth, r.depth? = some depth →
          depth + o.startLevel ≤ Text.maxWord) →
        ∃ s, Listing.write .memory l folders ⟨d, #[]⟩ = (.ok walks.flatten.length, s) ∧
          l.replay s.written.toList = walks.flatten.map .record := by
  have he : o.layout = .plain → o.ellipsis = "..." := fun hp => by simp [hx.layout] at hp
  have hreadable : Readable o IsListable := {
    usual := ho
    ellipsis := he
    keepsLine := hk
    listable := fun _ hn => hn
    depth := .inr hx.layout
    distinct := fun l hl d base m hm r hr => distinct_xml hl ho hx (hm.isCommon fun _ hn => hn)
      (Mark.IsOrdinary.isFolder m base) hm.path_ne hr }
  obtain ⟨l, hl⟩ := Lister.exists_compile ho he
  exact ⟨l, hl, fun d folders walks hp hw hdeep => hreadable.replay_write hh hf hl hp hw hdeep⟩

theorem presents_nested {o : Options} {Good : String → Prop} (hd : o.showDate = false)
    (hg : ∀ n ∈ ["t", "x", "d", "y", "e", "z"], Good n) : Disk.nested.Presents o Good ⟨"/t"⟩ ⟨"/t"⟩ := by
  have hnames : Path.names ⟨"/t"⟩ = ["t"] := by decide
  have ht : Disk.nested.Tree (fun i names => ∀ n ∈ names, Path.IsName n ∧ n ∈ ["t", "x", "d", "y", "e", "z"] ∧
      ((i.child .nested n).isFolder = false → Disk.nested.isFile (i.child .nested n).abspath = true))
      (.root ⟨"/t"⟩) := Disk.tree_of_isTree 3 (by decide +kernel)
  refine ⟨Path.absolute?_t, by decide +kernel, ?_, ht.imp fun i names h => ?_⟩
  · rw [hnames]
    exact List.forall_mem_singleton.mpr (hg "t" List.mem_cons_self)
  · exact (Disk.ordinary_iff hd).mp fun n hn => ⟨(h n hn).1, hg n (h n hn).2.1, (h n hn).2.2⟩

/-- The records of the nested folders as they are written with sizes and marks for what is hidden, with or
without the ends of folders. -/
def nestedSizes (ends : Bool) : List Record :=
  let indent (names : List String) := ("indent", String.join (List.replicate names.length " "))
  let lineOf (kind : Kind) (names : List String) : Record :=
    ⟨kind, .ofSegments names, some names.length, .ofList (match kind with
      | .folderEnd => [indent names]
      | .file => [indent names, ("name", names.getLastD ""), ("hidden", ""), ("size", "0")]
      | _ => indent names :: (names.getLast?.toList.map ("name", ·) ++ [("hidden", "")]))⟩
  [lineOf .root [], lineOf .file ["x"], lineOf .folder ["d"], lineOf .file ["d", "y"], lineOf .folder ["d", "e"],
    lineOf .file ["d", "e", "z"]] ++
    if ends then [lineOf .folderEnd ["d", "e"], lineOf .folderEnd ["d"], lineOf .folderEnd []] else []

theorem xml_listing_replayed_nested :
    ∃ (l : Lister) (s : Medium.Memory), Lister.compile { layout := .xml, showSize := true, showHidden := true } .core = .ok l ∧
      l.walk .nested ⟨"/t"⟩ = .ok ((nestedSizes true).map .ok) ∧
      Listing.write .memory l [⟨"/t"⟩, ⟨"/t"⟩] ⟨.nested, #[]⟩ = (.ok 18, s) ∧
      l.replay s.written.toList = (nestedSizes true ++ nestedSizes true).map .record := by
  let o : Options := { layout := .xml, showSize := true, showHidden := true }
  have ho : o.IsUsual := ⟨fun kind => by cases kind <;> rfl, rfl, rfl, rfl, by decide, by decide, by decide⟩
  obtain ⟨l, hl, h⟩ := xml_listing_replayed ho ⟨rfl, by decide, by decide⟩ ⟨by decide, by decide⟩ rfl rfl
  have hw : l.walk .nested ⟨"/t"⟩ = .ok ((nestedSizes true).map .ok) :=
    walk_of_shown hl Path.absolute?_t .nested (by decide +kernel)
  have hp : Disk.nested.Presents o IsListable ⟨"/t"⟩ ⟨"/t"⟩ := presents_nested rfl (by decide)
  obtain ⟨s, hwrite, hreplay⟩ := h .nested [⟨"/t"⟩, ⟨"/t"⟩] [nestedSizes true, nestedSizes true]
    (by simpa using ⟨_, hp⟩) (.cons hw (.cons hw .nil)) (by decide +kernel)
  exact ⟨l, s, hl, hw, hwrite, by simpa using hreplay⟩

/-- A listing in the plain layout is read back as the walks that it was written from. -/
theorem plain_listing_replayed {o : Options} (ho : o.IsUsual) (hp : FitsPlain o) (hh : o.header = "")
    (hf : o.footer = "") :
    ∃ l, Lister.compile o .core = .ok l ∧
      ∀ (d : Disk) (folders : List Path) (walks : List (List Record)),
        (∀ folder ∈ folders, ∃ base, d.Presents o IsPlainName folder base) →
        List.Forall₂ (fun folder records => l.walk d folder = .ok (records.map .ok)) folders walks →
        (∀ records ∈ walks, ∀ r ∈ records, ∀ depth, r.depth? = some depth →
          depth + o.startLevel ≤ Text.maxWord) →
        ∃ s, Listing.write .memory l folders ⟨d, #[]⟩ = (.ok walks.flatten.length, s) ∧
          l.replay s.written.toList = walks.flatten.map .record := by
  have he : o.layout = .plain → o.ellipsis = "..." := fun _ => hp.ellipsis
  have hreadable : Readable o IsPlainName := {
    usual := ho
    ellipsis := he
    keepsLine := ⟨fun _ hm => absurd (hp.pads _ hm) (by decide), fun _ => by rw [hp.hidden]; decide⟩
    listable := fun _ hn => hn.listable
    depth := .inl ⟨hp.showIndent, hp.indent⟩
    distinct := fun l hl d base m hm r hr => distinct_plain hl ho hp hm hr }
  obtain ⟨l, hl⟩ := Lister.exists_compile ho he
  exact ⟨l, hl, fun d folders walks hp hw hdeep => hreadable.replay_write hh hf hl hp hw hdeep⟩

theorem plain_listing_replayed_nested :
    ∃ (l : Lister) (s : Medium.Memory), Lister.compile { showSize := true, showHidden := true } .core = .ok l ∧
      l.walk .nested ⟨"/t"⟩ = .ok ((nestedSizes false).map .ok) ∧
      Listing.write .memory l [⟨"/t"⟩, ⟨"/t"⟩] ⟨.nested, #[]⟩ = (.ok 12, s) ∧
      l.replay s.written.toList = (nestedSizes false ++ nestedSizes false).map .record := by
  let o : Options := { showSize := true, showHidden := true }
  have ho : o.IsUsual := ⟨fun kind => by cases kind <;> rfl, rfl, rfl, rfl, by decide, by decide, by decide⟩
  have hfits : FitsPlain o := ⟨rfl, rfl, by decide, by simp [o, IsPad], rfl, rfl⟩
  obtain ⟨l, hl, h⟩ := plain_listing_replayed ho hfits rfl rfl
  have hw : l.walk .nested ⟨"/t"⟩ = .ok ((nestedSizes false).map .ok) :=
    walk_of_shown hl Path.absolute?_t .nested (by decide +kernel)
  have hp : Disk.nested.Presents o IsPlainName ⟨"/t"⟩ ⟨"/t"⟩ :=
    presents_nested rfl (by simp only [List.forall_mem_cons]; decide)
  obtain ⟨s, hwrite, hreplay⟩ := h .nested [⟨"/t"⟩, ⟨"/t"⟩] [nestedSizes false, nestedSizes false]
    (by simpa using ⟨_, hp⟩) (.cons hw (.cons hw .nil)) (by decide +kernel)
  exact ⟨l, s, hl, hw, hwrite, by simpa using hreplay⟩

end TreeListing.Replay
