import TreeListing.Proofs.ValidDates

/-!
Options in three layers. Each option has the value of its flag, else the value at its key in the options
file, else its usual value; the order of the keys plays no role. Every setting of a file writes the field of
its own key, so a file is put over options field by field (`applyEntries_eq_overlay`), and flags are put over
that.
-/
namespace TreeListing

def Yaml.Node.text? : Yaml.Node → Option String
  | .scalar (.string text) => some text
  | _ => none

namespace OptionsFile

def valueAt (pairs : List (Yaml.Node × Yaml.Node)) (key : String) : Option Yaml.Node :=
  (pairs.find? fun pair => pair.1.text? = some key).map Prod.snd

/-- What a file says at a key. -/
def said {α : Type} (read : Yaml.Node → Reading α) (file : String → Option Yaml.Node) (key : String) :
    Option α :=
  (file key).bind fun value => (read value).toOption

end OptionsFile

open OptionsFile (said boolean natural string strings choice)

/-- The options of a file and of flags over the usual ones, each by itself. -/
def Options.layered (usual : Options) (file : String → Option Yaml.Node) (f : ListingFlags) : Options where
  relToCwd := f.relToCwd || (said boolean file "rel_to_cwd").getD usual.relToCwd
  append := f.append || (said boolean file "append").getD usual.append
  header := f.header?.getD ((said string file "header").getD usual.header)
  footer := f.footer?.getD ((said string file "footer").getD usual.footer)
  filePattern? := f.filePattern?.or ((said string file "file_format").or usual.filePattern?)
  folderPattern? := f.folderPattern?.or ((said string file "dir_format").or usual.folderPattern?)
  folderEndPattern? := f.folderEndPattern?.or ((said string file "dir_close_format").or usual.folderEndPattern?)
  rootPattern? := f.rootPattern?.or ((said string file "root_format").or usual.rootPattern?)
  ellipsisPattern? := f.ellipsisPattern?.or ((said string file "ellipsis_format").or usual.ellipsisPattern?)
  layout := f.layout?.getD ((said (choice Layout) file "format_type").getD usual.layout)
  startLevel := f.startLevel?.getD ((said natural file "start_level").getD usual.startLevel)
  maxDepth := f.maxDepth?.getD ((said natural file "max_depth").getD usual.maxDepth)
  showIndent := !f.noIndent && (said boolean file "show_indent").getD usual.showIndent
  indent := f.indent?.getD ((said string file "indent").getD usual.indent)
  newline := (said string file "newline").getD usual.newline
  properties := (said strings file "properties").getD usual.properties ++ f.properties
  showFolders := !f.noFolders && (said boolean file "show_folders").getD usual.showFolders
  showFiles := !f.noFiles && (said boolean file "show_files").getD usual.showFiles
  excludes? :=
    if f.exclude = [] then ((said strings file "exclude").map excludingNames).or usual.excludes?
    else some (excludingNames f.exclude)
  filterHidden := f.filterHidden || (said boolean file "filter_hidden").getD usual.filterHidden
  grouping := f.grouping?.getD ((said (choice Grouping) file "item_grouping").getD usual.grouping)
  sortKey? :=
    if f.ignoreCase then some SiblingOrder.ignoringCase
    else ((said boolean file "ignore_case").map fun ignore =>
      if ignore then some SiblingOrder.ignoringCase else none).getD usual.sortKey?
  nameType := f.nameType?.getD ((said (choice NameType) file "name_type").getD usual.nameType)
  rootNameType := f.rootNameType?.getD ((said (choice NameType) file "root_name_type").getD usual.rootNameType)
  showSize := f.showSize || (said boolean file "show_size").getD usual.showSize
  showDate := f.showDate || (said boolean file "show_date").getD usual.showDate
  dateType := f.dateType?.getD ((said (choice DateType) file "date_type").getD usual.dateType)
  dateFormat := f.dateFormat?.getD ((said string file "date_format").getD usual.dateFormat)
  showHash := f.showHash || (said boolean file "show_hash").getD usual.showHash
  showEllipsis := f.showEllipsis || (said boolean file "show_ellipsis").getD usual.showEllipsis
  ellipsis := f.ellipsis?.getD ((said string file "ellipsis").getD usual.ellipsis)
  showHidden := f.showHidden || (said boolean file "show_hidden").getD usual.showHidden
  hidden := f.hidden?.getD ((said string file "hidden").getD usual.hidden)

namespace OptionsFile

/-- The options with what a file says put over them: no flag is given. -/
def overlay (o : Options) (file : String → Option Yaml.Node) : Options := o.layered file {}

theorem overlay_none (o : Options) : overlay o (fun _ => none) = o := by
  simp [overlay, Options.layered, said]

/-- The setting writes what is put over options at its key. -/
def Setting.WritesAt (s : Setting) (key : String) : Prop :=
  ∀ value write, s value = .ok write → ∀ (file : String → Option Yaml.Node) (o : Options), file key = none →
    overlay (write o) file = overlay o fun other => if other = key then some value else file other

/-- Every setting writes the field of its key, and no other one. -/
theorem writesAt_settings : ∀ entry ∈ settings, entry.2.WritesAt entry.1 := by
  have hsetting : ∀ {α : Type} {read : Yaml.Node → Reading α} {write : α → Options → Options} {key : String},
      (∀ value a file o, (read value).toOption = some a → file key = none →
        overlay (write a o) file = overlay o fun other => if other = key then some value else file other) →
      (setting read write).WritesAt key := by
    intro α read write key h value write' hw file o hf
    obtain ⟨a, ha, rfl⟩ := map_eq_ok.mp hw
    exact h value a file o (by rw [ha]; rfl) hf
  simp only [settings, List.forall_mem_cons]
  and_intros
  all_goals first
    | exact List.forall_mem_nil _
    | refine hsetting fun value a file o ha hf => ?_
      simp [overlay, Options.layered, said, ha, hf]

section
variable {o o' : Options} {pairs others : List (Yaml.Node × Yaml.Node)}

def IsSetting (entry : Yaml.Node × Yaml.Node) : Prop :=
  ∃ name read write, entry.1 = .scalar (.string name) ∧ settings.lookup name = some read ∧
    read entry.2 = .ok write

theorem applyEntry_eq_ok {key value : Yaml.Node} (h : applyEntry o key value = .ok o') :
    ∃ name read write, key = .scalar (.string name) ∧ settings.lookup name = some read ∧
      read value = .ok write ∧ o' = write o := by
  unfold applyEntry at h
  split at h
  next name =>
    split at h
    next => cases h
    next read hr =>
      obtain ⟨write, hw, rfl⟩ := map_eq_ok.mp (mapError_eq_ok.mp h)
      exact ⟨name, read, write, rfl, hr, hw, rfl⟩
  next => cases h

theorem applyEntry_of_isSetting {entry : Yaml.Node × Yaml.Node} (h : IsSetting entry) (o : Options) :
    ∃ o', applyEntry o entry.1 entry.2 = .ok o' := by
  obtain ⟨name, read, write, hk, hr, hw⟩ := h
  refine ⟨write o, ?_⟩
  rw [hk, applyEntry, hr]
  exact mapError_eq_ok.mpr (map_eq_ok.mpr ⟨write, hw, rfl⟩)

/-- Whether entries can be applied depends on neither their order nor the options. -/
theorem applyEntries_ok_iff : (applyEntries o pairs).1 = .ok () ↔ ∀ entry ∈ pairs, IsSetting entry := by
  induction pairs generalizing o with
  | nil => simp [applyEntries]
  | cons entry rest ih =>
    rw [List.forall_mem_cons, applyEntries]
    split
    next o' h =>
      obtain ⟨name, read, write, hk, hr, hw, -⟩ := applyEntry_eq_ok h
      rw [ih]
      exact ⟨fun hrest => ⟨⟨name, read, write, hk, hr, hw⟩, hrest⟩, fun hall => hall.2⟩
    next e h =>
      refine ⟨fun he => (nomatch he), fun hall => ?_⟩
      obtain ⟨o', ho⟩ := applyEntry_of_isSetting hall.1 o
      rw [h] at ho
      cases ho

theorem text?_eq_some {n : Yaml.Node} {text : String} :
    n.text? = some text ↔ n = .scalar (.string text) := by
  constructor
  · intro h
    unfold Yaml.Node.text? at h
    split at h
    next => rw [Option.some.inj h]
    next => cases h
  · rintro rfl
    rfl

theorem valueAt_cons (name : String) (value : Yaml.Node) (rest : List (Yaml.Node × Yaml.Node)) :
    valueAt ((.scalar (.string name), value) :: rest)
      = fun other => if other = name then some value else valueAt rest other := by
  funext other
  rw [valueAt, List.find?_cons]
  by_cases h : other = name
  · simp [Yaml.Node.text?, h]
  · simp [Yaml.Node.text?, h, Ne.symm h, valueAt]

/-- A key that stands once has its value, wherever it stands. -/
theorem valueAt_eq_some_iff (hn : (pairs.map Prod.fst).Nodup) {key : String} {value : Yaml.Node} :
    valueAt pairs key = some value ↔ (.scalar (.string key), value) ∈ pairs := by
  constructor
  · intro h
    obtain ⟨⟨node, value⟩, hf, rfl⟩ := Option.map_eq_some_iff.mp h
    have hkey := List.find?_some hf
    obtain rfl := text?_eq_some.mp (by simpa using hkey)
    exact List.mem_of_find?_eq_some hf
  · intro h
    obtain ⟨pair, hf⟩ : ∃ pair, pairs.find? (fun pair => pair.1.text? = some key) = some pair := by
      rw [← Option.isSome_iff_exists, List.find?_isSome]
      exact ⟨_, h, by simp [Yaml.Node.text?]⟩
    have hkey := List.find?_some hf
    have hnode : pair.1 = .scalar (.string key) := text?_eq_some.mp (by simpa using hkey)
    have hpair : pair = (.scalar (.string key), value) :=
      List.inj_on_of_nodup_map hn (List.mem_of_find?_eq_some hf) h hnode
    rw [valueAt, hf, hpair]
    rfl

theorem valueAt_perm (hp : pairs.Perm others) (hn : (pairs.map Prod.fst).Nodup) :
    valueAt pairs = valueAt others := by
  funext key
  refine Option.ext fun value => ?_
  rw [valueAt_eq_some_iff hn, valueAt_eq_some_iff ((hp.map Prod.fst).nodup_iff.mp hn), hp.mem_iff]

/-- A file is put over options field by field. -/
theorem applyEntries_eq_overlay (hn : (pairs.map Prod.fst).Nodup) (h : applyEntries o pairs = (.ok (), o')) :
    o' = overlay o (valueAt pairs) := by
  induction pairs generalizing o with
  | nil =>
    obtain ⟨-, rfl⟩ := Prod.mk.inj h
    exact (overlay_none o).symm
  | cons entry rest ih =>
    obtain ⟨key, value⟩ := entry
    obtain ⟨hkey, hrest⟩ := List.nodup_cons.mp hn
    rw [applyEntries] at h
    split at h
    next o₁ he =>
      obtain ⟨name, read, write, rfl, hr, hw, rfl⟩ := applyEntry_eq_ok he
      have hnone : valueAt rest name = none := by
        rw [Option.eq_none_iff_forall_ne_some]
        intro other ho
        exact hkey (List.mem_map.mpr ⟨_, (valueAt_eq_some_iff hrest).mp ho, rfl⟩)
      rw [ih hrest h, valueAt_cons, writesAt_settings _ (mem_of_lookup hr) value write hw _ o hnone]
    next => cases h

/-- The first document of a text is applied entry by entry, and its format of dates checked. -/
theorem apply_map {text : String} {more : List Yaml.Node}
    (hload : Yaml.Node.load? text = some (.map pairs :: more)) :
    apply o text = (.ok (), o') ↔
      applyEntries o pairs = (.ok (), o') ∧ checkDateFormat o'.dateFormat = .ok () := by
  delta apply
  rw [hload]
  simp only
  split
  next o₁ he =>
    rw [he, Prod.mk.injEq, Prod.mk.injEq]
    constructor
    · rintro ⟨hcheck, rfl⟩
      exact ⟨⟨rfl, rfl⟩, hcheck⟩
    · rintro ⟨⟨-, rfl⟩, hcheck⟩
      exact ⟨hcheck, rfl⟩
  next e o₁ he => simp [he]

theorem exists_apply {text : String} (h : (apply o text).1 = .ok ()) : ∃ o', apply o text = (.ok (), o') :=
  ⟨(apply o text).2, Prod.ext h rfl⟩

theorem applyEntries_perm (hp : pairs.Perm others) (hn : (pairs.map Prod.fst).Nodup)
    (h : applyEntries o pairs = (.ok (), o')) : applyEntries o others = (.ok (), o') := by
  have hall := applyEntries_ok_iff.mp (congrArg Prod.fst h)
  have hok : (applyEntries o others).1 = .ok () :=
    applyEntries_ok_iff.mpr fun entry hm => hall entry (hp.mem_iff.mpr hm)
  have hothers : applyEntries o others = (.ok (), (applyEntries o others).2) := Prod.ext hok rfl
  rw [hothers, applyEntries_eq_overlay ((hp.map Prod.fst).nodup_iff.mp hn) hothers, ← valueAt_perm hp hn,
    ← applyEntries_eq_overlay hn h]

end

end OptionsFile

theorem ListingFlags.overlay_overlay (f : ListingFlags) (o : Options) (file : String → Option Yaml.Node) :
    f.overlay (OptionsFile.overlay o file) = o.layered file f := by
  simp [overlay, OptionsFile.overlay, Options.layered]

/-- With a file whose keys are distinct and flags that both pass their checks, every option is that of its
flag, else what the file says at its key, else the usual one; switches only move their option one way, the
names of properties are put behind those of the file, and names to leave out take the place of those in the
file. A file with the same keys in another order gives the same options. -/
theorem options_resolved_in_layers {text : String} {pairs : List (Yaml.Node × Yaml.Node)}
    {more : List Yaml.Node} {f : ListingFlags} {o' o : Options}
    (hload : Yaml.Node.load? text = some (.map pairs :: more)) (hkeys : (pairs.map Prod.fst).Nodup)
    (hfile : OptionsFile.apply {} text = (.ok (), o')) (hflags : f.apply o' = .ok o) :
    o = Options.layered {} (OptionsFile.valueAt pairs) f ∧
    (∀ text' others more', Yaml.Node.load? text' = some (.map others :: more') → pairs.Perm others →
      OptionsFile.apply {} text' = (.ok (), o')) ∧
    ∀ (d : Disk) (i : Invocation) (path : Path) (bytes : List UInt8), i.config? = some path → i.flags = f →
      d.content path = .ok bytes → Text.decode? bytes = some text → i.options d = .ok o := by
  obtain ⟨hentries, hcheck⟩ := (OptionsFile.apply_map hload).mp hfile
  refine ⟨?_, ?_, ?_⟩
  · obtain ⟨_, -, h⟩ := bind_eq_ok.mp hflags
    rw [← Except.ok.inj h, OptionsFile.applyEntries_eq_overlay hkeys hentries, f.overlay_overlay]
  · intro text' others more' hload' hp
    exact (OptionsFile.apply_map hload').mpr ⟨OptionsFile.applyEntries_perm hp hkeys hentries, hcheck⟩
  · intro d i path bytes hconfig hf hcontent htext
    have hread : OptionsFile.read d path = .ok o' := by
      simp only [OptionsFile.read, hcontent, htext, hfile]
    rw [Invocation.options, hconfig]
    simp only [hread, hf]
    exact hflags

theorem options_resolved_in_layers_keys_swapped : ∃ o' o,
    OptionsFile.apply {} "max_depth: 3\nproperties: [hash]\n" = (.ok (), o') ∧
      OptionsFile.apply {} "properties: [hash]\nmax_depth: 3\n" = (.ok (), o') ∧
      ListingFlags.apply { maxDepth? := some 1, properties := ["size"] } o' = .ok o ∧
      o.maxDepth = 1 ∧ o.properties = ["hash", "size"] ∧ o.newline = "\n" := by
  let f : ListingFlags := { maxDepth? := some 1, properties := ["size"] }
  let pairs : List (Yaml.Node × Yaml.Node) :=
    [(.scalar (.string "max_depth"), .scalar (.integer 3)),
      (.scalar (.string "properties"), .list [.scalar (.string "hash")])]
  have hload : Yaml.Node.load? "max_depth: 3\nproperties: [hash]\n" = some [.map pairs] := by decide +kernel
  have hload' : Yaml.Node.load? "properties: [hash]\nmax_depth: 3\n" = some [.map pairs.reverse] := by
    decide +kernel
  have hkeys : (pairs.map Prod.fst).Nodup := by decide +kernel
  obtain ⟨o', hfile⟩ : ∃ o', OptionsFile.apply {} "max_depth: 3\nproperties: [hash]\n" = (.ok (), o') :=
    OptionsFile.exists_apply (by decide +kernel)
  have husual : DateFormat.isValid ({} : Options).dateFormat = true := by decide
  have hdate : DateFormat.isValid o'.dateFormat = true := OptionsFile.isValid_of_apply husual hfile
  have hflags : f.apply o' = .ok (f.overlay o') := ListingFlags.apply_of_isValid hdate
  obtain ⟨hlayered, hswapped, -⟩ := options_resolved_in_layers hload hkeys hfile hflags
  refine ⟨o', _, hfile, hswapped _ _ _ hload' (List.reverse_perm pairs).symm, hflags, ?_⟩
  rw [hlayered]
  decide +kernel

end TreeListing
