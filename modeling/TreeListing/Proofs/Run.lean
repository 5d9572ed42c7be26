import TreeListing.Proofs.OutputFile
import TreeListing.Proofs.ValidDates
import TreeListing.Run

/-!
Runs that list into a file: what they leave of the file and of the rest of the volume, whether they fail
before it is open, halfway, or not at all, and what is in the file after any number of them. The main
statement is `file_kept_by_listing`.
-/
namespace TreeListing

namespace Run

/-- Everything is ready for a listing, and the file is open: the options, the templates, and the path of the
file. -/
structure Opens (v : Volume) (i : Invocation) (folders : List Path) (requested? : Option Path) (l : Lister)
    (place : List String) (opened : Volume) : Prop where
  options : i.options v.disk = .ok l.options
  compiled : Lister.compile l.options .core = .ok l
  file : ∃ path, OutputFile.resolve v.disk l.options requested? (folders.headD ⟨"."⟩) = .ok path ∧
    v.openOutput path l.options.append = .ok (place, opened)

section
variable {v opened : Volume} {colors : Bool} {i : Invocation} {folders : List Path} {requested? : Option Path}
  {l : Lister} {place : List String}

/-- What is left to do is to write the listing. -/
theorem ofInvocation_of_opens (hi : i.action = .list folders (.file requested?))
    (h : Opens v i folders requested? l place opened) :
    (ofInvocation v colors i).volume = (OutputFile.write opened l place folders).2 ∧
      (∀ n, (OutputFile.write opened l place folders).1 = .ok n → (ofInvocation v colors i).failure? = none) ∧
      ∀ e, (OutputFile.write opened l place folders).1 = .error e →
        (ofInvocation v colors i).failure? = some (.list e) := by
  obtain ⟨path, hpath, hopen⟩ := h.file
  obtain ⟨⟨result, w⟩, hw⟩ : ∃ r, OutputFile.write opened l place folders = r := ⟨_, rfl⟩
  rw [ofInvocation, h.options, hi]
  simp only [list, h.compiled, listToFile, hpath, hopen, hw]
  cases result with
  | ok n => exact ⟨rfl, fun _ _ => rfl, nofun⟩
  | error e => exact ⟨rfl, nofun, fun _ he => by rw [Except.error.inj he]⟩

/-- A run that does not come to open the file says so, and leaves the volume as it is. -/
theorem ofInvocation_of_not_opens (hi : i.action = .list folders (.file requested?))
    (h : ¬∃ l place opened, Opens v i folders requested? l place opened) :
    (ofInvocation v colors i).failure? ≠ none ∧ (ofInvocation v colors i).volume = v := by
  rw [ofInvocation]
  split
  next => exact ⟨nofun, rfl⟩
  next o ho =>
    simp only [hi, list]
    split
    next => exact ⟨nofun, rfl⟩
    next l hl =>
      obtain rfl := Lister.options_eq hl
      rw [listToFile]
      split
      next => exact ⟨nofun, rfl⟩
      next path hpath =>
        split
        next => exact ⟨nofun, rfl⟩
        next place opened hopen => exact absurd ⟨l, place, opened, ho, hl, path, hpath, hopen⟩ h

end

structure Listed where
  appended : Bool
  text : List UInt8

/-- What the file holds when it has been listed into. -/
def Listed.onto (former : List UInt8) (x : Listed) : List UInt8 :=
  if x.appended then former ++ x.text else x.text

/-- The listings of runs on one file, none of which failed. In between the volume changes as it likes, but not
what is in the file. -/
inductive History (place : List String) (v : Volume) : List Listed → Volume → Prop
  | start : History place v [] v
  | change {past : List Listed} {w w' : Volume} (h : History place v past w)
      (hw : w'.contentAt? place = w.contentAt? place) : History place v past w'
  | run {past : List Listed} {w opened : Volume} {colors : Bool} {i : Invocation} {folders : List Path}
      {requested? : Option Path} {l : Lister} {walks : List (List Record)} (h : History place v past w)
      (hi : i.action = .list folders (.file requested?)) (ho : Opens w i folders requested? l place opened)
      (hout : ∀ folder ∈ folders, w.LiesOutside place folder)
      (hok : (ofInvocation w colors i).failure? = none) (hwalks : l.Walks w.disk folders walks) :
      History place v (past ++ [⟨l.options.append, l.listingOf walks⟩]) (ofInvocation w colors i).volume

section
variable {v w opened : Volume} {colors : Bool} {i : Invocation} {folders : List Path}
  {requested? : Option Path} {l : Lister} {place : List String}

/-- What a run that has opened the file leaves, whether it fails or not. -/
theorem kept_of_opens (hi : i.action = .list folders (.file requested?))
    (ho : Opens v i folders requested? l place opened) :
    v.SameApart place (ofInvocation v colors i).volume ∧
      ∃ more, (ofInvocation v colors i).volume.contentAt? place
        = some ((if l.options.append then (v.contentAt? place).getD [] else []) ++ more) := by
  obtain ⟨path, -, hopen⟩ := ho.file
  rw [(ofInvocation_of_opens hi ho).1]
  exact OutputFile.write_keeps (Volume.sameApart_of_openOutput hopen) (Volume.contentAt?_of_openOutput hopen)

/-- What a run leaves that does not fail. -/
theorem content_of_opens (hi : i.action = .list folders (.file requested?))
    (ho : Opens v i folders requested? l place opened) (hout : ∀ folder ∈ folders, v.LiesOutside place folder)
    (hok : (ofInvocation v colors i).failure? = none) :
    ∃ walks, l.Walks v.disk folders walks ∧
      (ofInvocation v colors i).volume.contentAt? place
        = some ((if l.options.append then (v.contentAt? place).getD [] else []) ++ l.listingOf walks) := by
  obtain ⟨path, -, hopen⟩ := ho.file
  obtain ⟨hvolume, -, hfailed⟩ : (ofInvocation v colors i).volume = _ ∧ _ := ofInvocation_of_opens hi ho
  obtain ⟨⟨result, w⟩, hw⟩ : ∃ r, OutputFile.write opened l place folders = r := ⟨_, rfl⟩
  rw [hvolume]
  cases result with
  | error e =>
    rw [hfailed e (by rw [hw])] at hok
    cases hok
  | ok n =>
    rw [hw]
    exact OutputFile.write_eq_ok (Volume.sameApart_of_openOutput hopen) (Volume.contentAt?_of_openOutput hopen)
      hout hw

/-- What a run leaves if the walks do not fail. -/
theorem content_of_walked (hi : i.action = .list folders (.file requested?))
    (ho : Opens v i folders requested? l place opened) (hout : ∀ folder ∈ folders, v.LiesOutside place folder)
    {walks : List (List Record)} (hwalks : List.Forall₂ (Listing.Walked l v.disk) folders walks) :
    ((ofInvocation v colors i).failure? = none ∨
      ¬v.TakesAll ∧ ∃ cause, (ofInvocation v colors i).failure? = some (.list (.writeFailed cause))) ∧
      ∃ written, written <+: l.listingOf walks ∧ (ofInvocation v colors i).volume.contentAt? place
        = some ((if l.options.append then (v.contentAt? place).getD [] else []) ++ written) := by
  obtain ⟨path, -, hopen⟩ := ho.file
  obtain ⟨hvolume, hdone, hfailed⟩ : (ofInvocation v colors i).volume = _ ∧ _ := ofInvocation_of_opens hi ho
  obtain ⟨hresult, hwritten⟩ := OutputFile.write_of_walked (Volume.sameApart_of_openOutput hopen)
    (Volume.contentAt?_of_openOutput hopen) hout hwalks
  rw [hvolume]
  refine ⟨?_, hwritten⟩
  rcases hresult with ⟨n, hn⟩ | ⟨hrefused, cause, hcause⟩
  · exact .inl (hdone n hn)
  · rw [Volume.TakesAll, Volume.replies_of_openOutput hopen] at hrefused
    exact .inr ⟨hrefused, cause, hfailed _ hcause⟩

/-- Each run of a history puts its listing behind what the runs before it left, or in its place. -/
theorem History.content {past : List Listed} (h : History place v past w) :
    past = [] ∧ w.contentAt? place = v.contentAt? place ∨
      w.contentAt? place = some (past.foldl Listed.onto ((v.contentAt? place).getD [])) := by
  induction h with
  | start => exact .inl ⟨rfl, rfl⟩
  | change _ hw ih =>
    rw [hw]
    exact ih
  | @run past w opened colors i folders requested? l walks _ hi ho hout hok hwalks ih =>
    obtain ⟨walks', hwalks', hcontent⟩ := content_of_opens hi ho hout hok
    obtain rfl := hwalks.unique hwalks'
    have hformer : (w.contentAt? place).getD [] = past.foldl Listed.onto ((v.contentAt? place).getD []) := by
      rcases ih with ⟨rfl, hw⟩ | hw
      · rw [hw]
        rfl
      · rw [hw]
        rfl
    refine .inr ?_
    rw [hcontent, hformer, List.foldl_concat, Listed.onto]
    split
    · rfl
    · rfl

theorem foldl_onto_of_appended {past : List Listed} (h : ∀ x ∈ past, x.appended = true)
    (former : List UInt8) : past.foldl Listed.onto former = former ++ (past.map Listed.text).flatten := by
  induction past generalizing former with
  | nil => exact (List.append_nil former).symm
  | cons x past ih =>
    obtain ⟨hx, hpast⟩ := List.forall_mem_cons.mp h
    rw [List.foldl_cons, ih hpast, Listed.onto, if_pos hx, List.map_cons, List.flatten_cons,
      List.append_assoc]

theorem History.content_of_appended {past : List Listed} (h : History place v past w) (hne : past ≠ [])
    (happended : ∀ x ∈ past, x.appended = true) :
    w.contentAt? place = some ((v.contentAt? place).getD [] ++ (past.map Listed.text).flatten) := by
  rcases h.content with ⟨hnil, -⟩ | hcontent
  · exact absurd hnil hne
  · rw [hcontent, foldl_onto_of_appended happended]

/-- The last run that does not append begins anew. -/
theorem History.content_since {before after : List Listed} {x : Listed}
    (h : History place v (before ++ x :: after) w) (hx : x.appended = false)
    (happended : ∀ y ∈ after, y.appended = true) :
    w.contentAt? place = some (((x :: after).map Listed.text).flatten) := by
  rcases h.content with ⟨hnil, -⟩ | hcontent
  · exact absurd hnil (by simp)
  · rw [hcontent, List.foldl_append, List.foldl_cons, Listed.onto, hx, if_neg Bool.false_ne_true,
      foldl_onto_of_appended happended]
    rfl

end

end Run

open Run (Opens History) in
/-- A run that lists into a file changes nothing before the file is open. From then on no other file is
touched, and with appending the former content stays in front whether the run fails or not. If the file lies
outside of all folders, a run that does not fail puts header, lines and footer there, behind the former
content or in place of it. Where the walks do not fail, the run can only fail because the system does not take
what is written, and a beginning of the listing is there in any case. So after any history of runs that did not
fail the file holds the listings from the last one on that did not append. -/
theorem file_kept_by_listing :
    (∀ v colors i folders requested? r, i.action = .list folders (.file requested?) →
      Run.ofInvocation v colors i = r →
        ((¬∃ l place opened, Opens v i folders requested? l place opened) →
          r.failure? ≠ none ∧ r.volume = v) ∧
        ∀ l place opened, Opens v i folders requested? l place opened →
          (∀ other ≠ place, r.volume.contentAt? other = v.contentAt? other) ∧
          (l.options.append = true → ∃ more,
            r.volume.contentAt? place = some ((v.contentAt? place).getD [] ++ more)) ∧
          ((∀ folder ∈ folders, v.LiesOutside place folder) →
            (∀ walks, List.Forall₂ (Listing.Walked l v.disk) folders walks →
              (r.failure? = none ∨
                ¬v.TakesAll ∧ ∃ cause, r.failure? = some (.list (.writeFailed cause))) ∧
              ∃ written, written <+: l.listingOf walks ∧ r.volume.contentAt? place = some
                ((if l.options.append then (v.contentAt? place).getD [] else []) ++ written)) ∧
            (r.failure? = none → ∃ walks, l.Walks v.disk folders walks ∧
              r.volume.contentAt? place = some
                ((if l.options.append then (v.contentAt? place).getD [] else []) ++ l.listingOf walks)))) ∧
    ∀ place v past w, History place v past w →
      (∀ before x after, past = before ++ x :: after → x.appended = false → (∀ y ∈ after, y.appended = true) →
        w.contentAt? place = some ((x :: after).map Run.Listed.text).flatten) ∧
      (past ≠ [] → (∀ x ∈ past, x.appended = true) →
        w.contentAt? place = some ((v.contentAt? place).getD [] ++ (past.map Run.Listed.text).flatten)) := by
  refine ⟨?_, ?_⟩
  · rintro v colors i folders requested? r hi rfl
    refine ⟨Run.ofInvocation_of_not_opens hi, ?_⟩
    intro l place opened ho
    obtain ⟨hapart, more, hmore⟩ : v.SameApart place (Run.ofInvocation v colors i).volume ∧ _ :=
      Run.kept_of_opens hi ho
    refine ⟨fun other hne => hapart.contentAt? hne, ?_, ?_⟩
    · intro happend
      rw [happend, if_pos rfl] at hmore
      exact ⟨more, hmore⟩
    · intro hout
      exact ⟨fun walks hwalks => Run.content_of_walked hi ho hout hwalks, Run.content_of_opens hi ho hout⟩
  · intro place v past w h
    refine ⟨?_, h.content_of_appended⟩
    rintro before x after rfl hx hafter
    exact h.content_since hx hafter

/-- An empty folder, and a file beside it. -/
def Volume.oneOutput (replies : List Volume.Reply) : Volume where
  cwd := []
  entries := [(["t"], .folder none), (["out"], .file (Text.encode "x\n") none)]
  now := ⟨0, 0⟩
  replies

namespace Volume

variable (replies : List Reply)

theorem resolve_t : (oneOutput replies).resolve true ⟨"/t"⟩ = .ok (.entry ["t"] (.folder none)) := by
  have hs : segments ⟨"/t"⟩ = ["t"] := by decide +kernel
  have he : Volume.entry? (oneOutput replies) ["t"] = some (.folder none) := rfl
  have hpath : ¬pathLimit ≤ "/t".utf8ByteSize := by decide
  have hname : ¬nameLimit < "t".utf8ByteSize := by decide
  simp [resolve, hs, Path.isAbsolute, follow, he, hname, hpath]

theorem resolve_out : (oneOutput replies).resolve true ⟨"/out"⟩
    = .ok (.entry ["out"] (.file (Text.encode "x\n") none)) := by
  have hs : segments ⟨"/out"⟩ = ["out"] := by decide +kernel
  have he : Volume.entry? (oneOutput replies) ["out"] = some (.file (Text.encode "x\n") none) := rfl
  have hpath : ¬pathLimit ≤ "/out".utf8ByteSize := by decide
  have hname : ¬nameLimit < "out".utf8ByteSize := by decide
  simp [resolve, hs, Path.isAbsolute, follow, he, hname, hpath]

theorem isFolder_t : (oneOutput replies).disk.isFolder ⟨"/t"⟩ = true := by
  simp only [Disk.isFolder, disk, find, resolve_t]
  rfl

theorem isFolder_out : (oneOutput replies).disk.isFolder ⟨"/out"⟩ = false := by
  simp only [Disk.isFolder, disk, find, resolve_out]
  rfl

def oneOpened (replies : List Reply) : Volume :=
  (oneOutput replies).put ["out"] (.file (Text.encode "x\n") none)

theorem openOutput_out : (oneOutput replies).openOutput ⟨"/out"⟩ true = .ok (["out"], oneOpened replies) := by
  have ht : "/out".toList.getLast? ≠ some '/' := by decide
  simp only [openOutput, if_neg ht, resolve_out]
  rfl

theorem children_t : (Item.root ⟨"/t"⟩).children (oneOutput replies).disk = [] := by
  have hnames : (oneOutput replies).disk.names ⟨"/t"⟩ = .ok [] := by
    have hinside : (oneOutput replies).namesAt ["t"] = [] := rfl
    simp only [disk, find, resolve_t]
    exact congrArg Except.ok hinside
  have ha : (Item.root ⟨"/t"⟩).abspath = ⟨"/t"⟩ := rfl
  rw [Item.children, ha, isFolder_t, hnames]
  rfl

theorem entries_t (l : Lister) : l.entries (oneOutput replies).disk (.root ⟨"/t"⟩) = [] := by
  simp [Lister.entries, children_t, SiblingOrder.sort]

theorem liesOutside_t : (oneOutput replies).LiesOutside ["out"] ⟨"/t"⟩ := by
  intro base hb i hi
  obtain rfl := Option.some.inj (Path.absolute?_t.symm.trans hb)
  have hroot : i = .root ⟨"/t"⟩ := by
    induction hi with
    | self => rfl
    | entry _ hk ih =>
      rw [ih, children_t] at hk
      cases hk
  rw [hroot]
  intro t ht
  obtain rfl := Except.ok.inj ((resolve_t replies).symm.trans ht)
  decide

theorem walk_t {l : Lister} {records : List Record}
    (h : l.folderOutcomes (oneOutput replies).disk .root (.root ⟨"/t"⟩) [] = records.map .ok) :
    l.walk (oneOutput replies).disk ⟨"/t"⟩ = .ok (records.map .ok) ∧
      Listing.Walked l (oneOutput replies).disk ⟨"/t"⟩ records := by
  have hshows : Forest.nil.Shows (oneOutput replies).disk l ⟨"/t"⟩ []
      (l.entries (oneOutput replies).disk (.root ⟨"/t"⟩)) := by
    rw [entries_t]
    exact .nil
  have hw : l.walk (oneOutput replies).disk ⟨"/t"⟩ = .ok (records.map .ok) := by
    rw [walk_eq (isFolder_t replies) Path.absolute?_t hshows]
    exact congrArg Except.ok h
  exact ⟨hw, Listing.walked_of_walk Path.absolute?_t hshows hw⟩

/-- A system that interrupts and cuts what is written, and one whose disk is full after a byte. -/
def cutting : List Reply := [.interrupted, .taken 2]
def full : List Reply := [.taken 1, .failed .storageFull, .failed .storageFull]

theorem takesAll_cutting : (oneOutput cutting).TakesAll := by
  rintro reply (_ | ⟨_, _ | ⟨_, hnil⟩⟩)
  · exact .inl rfl
  · exact .inr ⟨1, rfl⟩
  · cases hnil

end Volume

/-- Lists the folder behind what the file holds. -/
def Invocation.appending : Invocation :=
  ⟨.warn, none, .list [⟨"/t"⟩] (.file (some ⟨"/out"⟩)), { append := true }⟩

theorem Run.opens_appending {l : Lister} (ho : l.options = { append := true })
    (hl : Lister.compile l.options .core = .ok l) (replies : List Volume.Reply) :
    Opens (.oneOutput replies) .appending [⟨"/t"⟩] (some ⟨"/out"⟩) l ["out"] (.oneOpened replies) := by
  have hoptions : Invocation.appending.options (Volume.oneOutput replies).disk = .ok { append := true } :=
    ListingFlags.apply_of_isValid (f := { append := true }) (o := {}) (by decide +kernel)
  refine ⟨ho ▸ hoptions, hl, ⟨"/out"⟩, ?_, ?_⟩
  · have ha : (⟨"/out"⟩ : Path).isAbsolute = true := rfl
    simp only [OutputFile.resolve, Option.getD_some, ha, if_true, pure_bind, Volume.isFolder_out]
    rfl
  · rw [ho]
    exact Volume.openOutput_out replies

/-- The second writing of the line fails, and so does the last one. -/
theorem OutputFile.write_full {l : Lister} {root : Record} (ho : l.options = { append := true })
    (hw : Listing.Walked l (Volume.oneOutput Volume.full).disk ⟨"/t"⟩ [root]) (hline : l.line root = "<.>\n") :
    (write (.oneOpened Volume.full) l ["out"] [⟨"/t"⟩]).1 = .error (.writeFailed .storageFull) := by
  have hopen := Volume.openOutput_out Volume.full
  have hlines := Listing.writeFolders_eq (List.forall_mem_singleton.mpr (Volume.liesOutside_t Volume.full))
    (.cons hw .nil) (holds_opened (Volume.sameApart_of_openOutput hopen) (Volume.contentAt?_of_openOutput hopen)) 0
  have hbytes : Text.encode "<.>\n" = [60, 46, 62, 10] := by decide +kernel
  simp only [List.flatten_cons, List.flatten_nil, List.append_nil, Listing.writeLines, Listing.writeText,
    hline, hbytes] at hlines
  rw [write, Listing.write, ho]
  simp only [Listing.writeOptional, if_true, hlines]
  rfl

open Run (Opens History) in
theorem file_kept_by_listing_appended : ∃ (cut full : Volume) (i : Invocation) (text : List UInt8),
    cut = .oneOutput Volume.cutting ∧ full = .oneOutput Volume.full ∧ text = Text.encode "<.>\n" ∧
      i.action = .list [⟨"/t"⟩] (.file (some ⟨"/out"⟩)) ∧
      (∃ l opened, Opens cut i [⟨"/t"⟩] (some ⟨"/out"⟩) l ["out"] opened) ∧
      (Run.ofInvocation cut false i).failure? = none ∧
      History ["out"] cut [⟨true, text⟩] (Run.ofInvocation cut false i).volume ∧
      (Run.ofInvocation cut false i).volume.contentAt? ["out"] = some (Text.encode "x\n" ++ text) ∧
      (Run.ofInvocation full false i).failure? = some (.list (.writeFailed .storageFull)) ∧
      ∃ written, written <+: text ∧
        (Run.ofInvocation full false i).volume.contentAt? ["out"] = some (Text.encode "x\n" ++ written) := by
  let root : Record := ⟨.root, ⟨""⟩, some 0, .ofList [("indent", "")]⟩
  obtain ⟨l, hl⟩ : ∃ l, Lister.compile { append := true } .core = .ok l :=
    exists_eq_ok_of_isOk (by decide +kernel)
  have ho : l.options = { append := true } := Lister.options_eq hl
  have hc : ((Lister.compile { append := true } .core).toOption.any fun l =>
      [Volume.cutting, Volume.full].all (fun replies =>
        decide (l.folderOutcomes (Volume.oneOutput replies).disk .root (.root ⟨"/t"⟩) [] = [.ok root])) &&
        decide (l.listingOf [[root]] = Text.encode "<.>\n" ∧ l.line root = "<.>\n")) = true := by
    decide +kernel
  rw [hl] at hc
  simp only [Except.toOption, Option.any_some, Bool.and_eq_true, decide_eq_true_eq, List.all_eq_true] at hc
  obtain ⟨houtcomes, htext, hline⟩ := hc
  have hopens := Run.opens_appending ho (ho ▸ hl)
  have hout (replies : List Volume.Reply) :
      ∀ folder ∈ [(⟨"/t"⟩ : Path)], (Volume.oneOutput replies).LiesOutside ["out"] folder :=
    List.forall_mem_singleton.mpr (Volume.liesOutside_t replies)
  have houtcomes (replies : List Volume.Reply) (h : replies ∈ [Volume.cutting, Volume.full]) :
      l.folderOutcomes (Volume.oneOutput replies).disk .root (.root ⟨"/t"⟩) [] = [root].map .ok :=
    houtcomes replies h
  obtain ⟨hwalk, hwalked⟩ := Volume.walk_t _ (houtcomes Volume.cutting (by decide))
  obtain ⟨-, hwalked'⟩ := Volume.walk_t _ (houtcomes Volume.full (by decide))
  obtain ⟨-, hkept⟩ := file_kept_by_listing.1 (.oneOutput Volume.cutting) false .appending _ _ _ rfl rfl
  obtain ⟨-, -, hkept⟩ := hkept l _ _ (hopens _)
  have hok : (Run.ofInvocation (.oneOutput Volume.cutting) false .appending).failure? = none := by
    obtain ⟨hnone | ⟨hrefused, -⟩, -⟩ := (hkept (hout _)).1 [[root]] (.cons hwalked .nil)
    · exact hnone
    · exact absurd Volume.takesAll_cutting hrefused
  have hhistory := History.run .start rfl (hopens _) (hout _) hok (.cons hwalk .nil)
  rw [ho, htext] at hhistory
  obtain ⟨-, htorn⟩ := file_kept_by_listing.1 (.oneOutput Volume.full) false .appending _ _ _ rfl rfl
  obtain ⟨-, -, htorn⟩ := htorn l _ _ (hopens _)
  obtain ⟨-, written, hwritten, hcontent⟩ := (htorn (hout _)).1 [[root]] (.cons hwalked' .nil)
  refine ⟨_, _, .appending, _, rfl, rfl, rfl, rfl, ⟨l, _, hopens _⟩, hok, hhistory, ?_, ?_, written,
    htext ▸ hwritten, ?_⟩
  · rw [(file_kept_by_listing.2 _ _ _ _ hhistory).2 (List.cons_ne_nil _ _) (List.forall_mem_singleton.mpr rfl)]
    decide +kernel
  · exact (Run.ofInvocation_of_opens rfl (hopens _)).2.2 _ (OutputFile.write_full ho hwalked' hline)
  · rw [hcontent, ho]
    rfl

end TreeListing
