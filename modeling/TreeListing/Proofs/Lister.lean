import Mathlib.Data.List.Nodup
import TreeListing.Lister

/-!
What a lister is made of: each of its templates comes from the pattern of its kind, and the
properties of a record are those that the template names, each with what it is for the item.
-/
namespace TreeListing

section
variable {ε δ α β : Type}

theorem bind_eq_ok {x : Except ε α} {f : α → Except ε β} {b : β} :
    (x >>= f) = .ok b ↔ ∃ a, x = .ok a ∧ f a = .ok b := by
  cases x with
  | error e => simp [bind, Except.bind]
  | ok a => simp [bind, Except.bind]

theorem map_eq_ok {x : Except ε α} {f : α → β} {b : β} :
    x.map f = .ok b ↔ ∃ a, x = .ok a ∧ f a = b := by
  cases x with
  | error e => simp [Except.map]
  | ok a => simp [Except.map]

theorem mapError_eq_ok {x : Except ε α} {f : ε → δ} {a : α} : x.mapError f = .ok a ↔ x = .ok a := by
  cases x with
  | error e => simp [Except.mapError]
  | ok a => simp [Except.mapError]

theorem bind_eq_error {x : Except ε α} {f : α → Except ε β} {e : ε} :
    (x >>= f) = .error e ↔ x = .error e ∨ ∃ a, x = .ok a ∧ f a = .error e := by
  cases x with
  | error e => simp [bind, Except.bind]
  | ok a => simp [bind, Except.bind]

theorem map_eq_error {x : Except ε α} {f : α → β} {e : ε} : x.map f = .error e ↔ x = .error e := by
  cases x with
  | error e => simp [Except.map]
  | ok a => simp [Except.map]

theorem mapError_eq_error {x : Except ε α} {f : ε → δ} {e : δ} :
    x.mapError f = .error e ↔ ∃ e', x = .error e' ∧ f e' = e := by
  cases x with
  | error e => simp [Except.mapError]
  | ok a => simp [Except.mapError]

theorem exists_eq_ok_of_isOk {x : Except ε α} (h : x.isOk = true) : ∃ a, x = .ok a := by
  cases x with
  | error e => cases h
  | ok a => exact ⟨a, rfl⟩

theorem exists_eq_ok_of_any {x : Except ε α} {f : α → Bool} (h : x.toOption.any f = true) :
    ∃ a, x = .ok a ∧ f a = true := by
  cases x with
  | error e => cases h
  | ok a => exact ⟨a, rfl, h⟩

theorem exists_mapM_eq_ok {f : α → Except ε β} {xs : List α} (h : ∀ x ∈ xs, ∃ y, f x = .ok y) :
    ∃ ys, xs.mapM f = .ok ys := by
  induction xs with
  | nil => exact ⟨[], rfl⟩
  | cons x xs ih =>
    rw [List.forall_mem_cons] at h
    obtain ⟨y, hy⟩ := h.1
    obtain ⟨ys, hys⟩ := ih h.2
    exact ⟨y :: ys, by rw [List.mapM_cons, hy, hys]; rfl⟩

theorem exists_of_mapM_eq_error {f : α → Except ε β} {xs : List α} {e : ε} (h : xs.mapM f = .error e) :
    ∃ x ∈ xs, f x = .error e := by
  induction xs with
  | nil => cases h
  | cons x xs ih =>
    rw [List.mapM_cons] at h
    rcases bind_eq_error.mp h with h | ⟨y, -, h⟩
    · exact ⟨x, List.mem_cons_self, h⟩
    · rcases bind_eq_error.mp h with h | ⟨ys, -, h⟩
      · obtain ⟨x', hm, he⟩ := ih h
        exact ⟨x', List.mem_cons_of_mem _ hm, he⟩
      · cases h

end

theorem nodup_eraseDups (names : List String) : names.eraseDups.Nodup := by
  match names with
  | [] => exact .nil
  | name :: rest =>
    rw [List.eraseDups_cons]
    refine List.nodup_cons.mpr ⟨fun h => ?_, nodup_eraseDups _⟩
    simpa using (List.mem_filter.mp (List.mem_eraseDups.mp h)).2
termination_by names.length
decreasing_by exact Nat.lt_succ_of_le (List.length_filter_le _ _)

theorem eraseDups_eq_self {names : List String} (h : names.Nodup) : names.eraseDups = names := by
  induction names with
  | nil => rfl
  | cons name rest ih =>
    obtain ⟨hn, hr⟩ := List.nodup_cons.mp h
    have hf : rest.filter (fun other => !other == name) = rest :=
      List.filter_eq_self.mpr fun other hm => by simpa using fun he : other = name => hn (he ▸ hm)
    rw [List.eraseDups_cons, hf, ih hr]

theorem mem_of_lookup {α : Type} {pairs : List (String × α)} {name : String} {value : α}
    (h : pairs.lookup name = some value) : (name, value) ∈ pairs := by
  induction pairs with
  | nil => cases h
  | cons pair rest ih =>
    rw [Named.lookup_cons] at h
    split at h
    next hn => exact Option.some.inj h ▸ hn ▸ List.mem_cons_self
    next => exact List.mem_cons_of_mem _ (ih h)

theorem lookup_of_mem {α : Type} {pairs : List (String × α)} (hn : (pairs.map Prod.fst).Nodup)
    {name : String} {value : α} (h : (name, value) ∈ pairs) : pairs.lookup name = some value := by
  cases hl : pairs.lookup name with
  | none => exact absurd (List.lookup_eq_none_iff.mp hl _ h) (by simp)
  | some other => rw [(Prod.mk.inj (List.inj_on_of_nodup_map hn h (mem_of_lookup hl) rfl)).2]

theorem exists_lookup_of_mem {α : Type} {pairs : List (String × α)} {name : String}
    (h : name ∈ pairs.map Prod.fst) : ∃ value, pairs.lookup name = some value := by
  obtain ⟨⟨name, value⟩, hm, rfl⟩ := List.mem_map.mp h
  refine Option.ne_none_iff_exists'.mp fun hn => ?_
  exact absurd (List.lookup_eq_none_iff.mp hn _ hm) (by simp)

namespace Props

theorem get?_of_mem (p : Props) {name value : String} (h : (name, value) ∈ p.pairs) :
    p.get? name = some value := lookup_of_mem p.distinct h

theorem get?_eq_none {p : Props} {name : String} (h : name ∉ p.names) : p.get? name = none := by
  refine List.lookup_eq_none_iff.mpr fun pair hm => ?_
  simpa using fun he : name = pair.1 => h (he ▸ List.mem_map_of_mem hm)

theorem mem_names_of_get? {p : Props} {name value : String} (h : p.get? name = some value) :
    name ∈ p.names := List.mem_map_of_mem (mem_of_lookup h)

theorem contains_iff {p : Props} {name : String} : p.contains name = true ↔ name ∈ p.names := by
  rw [contains, Option.isSome_iff_exists]
  constructor
  · rintro ⟨value, hv⟩
    exact mem_names_of_get? hv
  · intro h
    obtain ⟨⟨name, value⟩, hm, rfl⟩ := List.mem_map.mp h
    exact ⟨value, p.get?_of_mem hm⟩

theorem pairs_eq (p : Props) : p.pairs = p.names.map fun name => (name, (p.get? name).getD "") := by
  rw [names, List.map_map]
  refine (List.map_id _).symm.trans (List.map_congr_left fun pair hm => ?_)
  rw [id, Function.comp_apply, p.get?_of_mem hm]
  rfl

theorem ext {p q : Props} (h : p.pairs = q.pairs) : p = q := by
  cases p
  cases q
  cases h
  rfl

theorem pairs_insert {p : Props} {name : String} (h : name ∉ p.names) (value : String) :
    (p.insert name value).pairs = p.pairs ++ [(name, value)] := by
  have hf : p.pairs.filter (·.1 ≠ name) = p.pairs := by
    refine List.filter_eq_self.mpr fun pair hp => ?_
    simpa using fun he : pair.1 = name => h (he ▸ List.mem_map_of_mem hp)
  change p.pairs.filter (·.1 ≠ name) ++ _ = _
  rw [hf]

theorem pairs_foldl_insert {p : Props} {pairs : List (String × String)}
    (h : (p.names ++ pairs.map Prod.fst).Nodup) :
    (pairs.foldl (fun p pair => p.insert pair.1 pair.2) p).pairs = p.pairs ++ pairs := by
  induction pairs generalizing p with
  | nil => simp
  | cons pair rest ih =>
    have hp : pair.1 ∉ p.names := fun hm => by
      rw [List.map_cons] at h
      exact (List.nodup_append.mp h).2.2 _ hm _ List.mem_cons_self rfl
    have hn : (p.insert pair.1 pair.2).names = p.names ++ [pair.1] := by
      rw [names, pairs_insert hp, List.map_append]
      rfl
    rw [List.foldl_cons, ih (by simpa [hn] using h), pairs_insert hp, List.append_assoc]
    rfl

/-- Values with names of their own stay as they are. -/
theorem pairs_ofList {pairs : List (String × String)} (h : (pairs.map Prod.fst).Nodup) :
    (ofList pairs).pairs = pairs := pairs_foldl_insert (p := empty) (by simpa [names, empty] using h)

end Props

namespace Template

variable {t : Template} {o : Options} {r : Registry}

/-- What a template is made of. -/
structure Compiled (pattern : String) (o : Options) (r : Registry) (t : Template) : Prop where
  segments : Segment.ofPattern pattern.toList = .ok t.segments
  properties : resolve r (fields t.segments ++ o.properties).eraseDups = .ok t.properties
  matcher : Regex.parse? (lineText (fragment o t.properties) t.segments) = some t.matcher
  options : t.options = o

theorem compiled {pattern : String} (h : compile pattern o r = .ok t) : Compiled pattern o r t := by
  obtain ⟨segments, hs, h⟩ := bind_eq_ok.mp h
  obtain ⟨properties, hp, h⟩ := bind_eq_ok.mp h
  split at h
  next matcher hm =>
    obtain rfl := Except.ok.inj h
    exact ⟨mapError_eq_ok.mp hs, mapError_eq_ok.mp hp, hm, rfl⟩
  next => cases h

theorem resolve_ok {names : List String} {properties : List (String × Property)}
    (h : resolve r names = .ok properties) :
    properties.map Prod.fst = names ∧
      ∀ name property, (name, property) ∈ properties → r.get? name = some property := by
  induction names generalizing properties with
  | nil =>
    obtain rfl := Except.ok.inj h
    simp
  | cons name rest ih =>
    rw [resolve] at h
    cases hg : r.get? name with
    | none => simp [hg] at h
    | some property =>
      rw [hg] at h
      obtain ⟨others, hr, h⟩ := bind_eq_ok.mp h
      obtain rfl := Except.ok.inj h
      obtain ⟨hn, hm⟩ := ih hr
      refine ⟨by rw [List.map_cons, hn], fun other found hmem => ?_⟩
      rcases List.mem_cons.mp hmem with he | hmem
      · obtain ⟨rfl, rfl⟩ := Prod.mk.inj he
        exact hg
      · exact hm other found hmem

namespace Compiled

variable {pattern : String}

theorem names (h : Compiled pattern o r t) :
    t.properties.map Prod.fst = (fields t.segments ++ o.properties).eraseDups :=
  (resolve_ok h.properties).1

theorem nodup (h : Compiled pattern o r t) : (t.properties.map Prod.fst).Nodup :=
  h.names ▸ nodup_eraseDups _

theorem get?_of_mem (h : Compiled pattern o r t) {name : String} {property : Property}
    (hm : (name, property) ∈ t.properties) : r.get? name = some property :=
  (resolve_ok h.properties).2 name property hm

end Compiled

theorem extract_all {d : Disk} {i : Item} {properties : List (String × Property)}
    {values : List (String × String)}
    (h : properties.mapM (fun (name, property) => (property.extract d o i).map (name, ·)) = .ok values) :
    List.Forall₂ (fun x v => v.1 = x.1 ∧ x.2.extract d o i = .ok v.2) properties values := by
  induction properties generalizing values with
  | nil =>
    obtain rfl := Except.ok.inj h
    exact .nil
  | cons x rest ih =>
    rw [List.mapM_cons] at h
    obtain ⟨v, hx, h⟩ := bind_eq_ok.mp h
    obtain ⟨others, hr, h⟩ := bind_eq_ok.mp h
    obtain rfl := Except.ok.inj h
    obtain ⟨text, ht, rfl⟩ := map_eq_ok.mp hx
    exact .cons ⟨rfl, ht⟩ (ih hr)

theorem map_fst_values {d : Disk} {i : Item} {properties : List (String × Property)}
    {values : List (String × String)}
    (h : List.Forall₂ (fun x v => v.1 = x.1 ∧ x.2.extract d o i = .ok v.2) properties values) :
    values.map Prod.fst = properties.map Prod.fst := by
  induction h with
  | nil => rfl
  | cons hx _ ih => rw [List.map_cons, List.map_cons, hx.1, ih]

theorem exists_of_lookup {d : Disk} {i : Item} {properties : List (String × Property)}
    {values : List (String × String)}
    (h : List.Forall₂ (fun x v => v.1 = x.1 ∧ x.2.extract d o i = .ok v.2) properties values)
    {name value : String} (hv : values.lookup name = some value) :
    ∃ property, (name, property) ∈ properties ∧ property.extract d o i = .ok value := by
  induction h with
  | nil => cases hv
  | @cons x v properties values hx _ ih =>
    rw [Named.lookup_cons] at hv
    split at hv
    next hn => exact ⟨x.2, by simp [hn, hx.1], Option.some.inj hv ▸ hx.2⟩
    next =>
      obtain ⟨property, hm, he⟩ := ih hv
      exact ⟨property, List.mem_cons_of_mem _ hm, he⟩

theorem exists_props {d : Disk} {i : Item}
    (h : ∀ x ∈ t.properties, ∃ value, x.2.extract d t.options i = .ok value) : ∃ p, t.props d i = .ok p := by
  have hall : ∀ x ∈ t.properties, ∃ y, (x.2.extract d t.options i).map (x.1, ·) = .ok y := by
    intro x hx
    obtain ⟨value, hv⟩ := h x hx
    exact ⟨(x.1, value), by rw [hv]; rfl⟩
  obtain ⟨values, hv⟩ := exists_mapM_eq_ok hall
  exact ⟨Props.ofList values, (congrArg (·.map Props.ofList) hv :)⟩

/-- Where the properties of an item fail, one of them does. -/
theorem exists_of_props_eq_error {d : Disk} {i : Item} {e : ItemError} (h : t.props d i = .error e) :
    ∃ x ∈ t.properties, x.2.extract d t.options i = .error e := by
  rcases bind_eq_error.mp h with h | ⟨values, -, h⟩
  · obtain ⟨x, hm, he⟩ := exists_of_mapM_eq_error h
    exact ⟨x, hm, map_eq_error.mp he⟩
  · cases h

/-- The properties of an item are those of the template, each as it is for the item. -/
theorem forall₂_props {d : Disk} {i : Item} {p : Props}
    (hn : (t.properties.map Prod.fst).Nodup) (h : t.props d i = .ok p) :
    List.Forall₂ (fun x v => v.1 = x.1 ∧ x.2.extract d t.options i = .ok v.2) t.properties p.pairs := by
  obtain ⟨values, hv, h⟩ := bind_eq_ok.mp h
  obtain rfl := Except.ok.inj h
  have hf := extract_all hv
  rwa [Props.pairs_ofList (map_fst_values hf ▸ hn)]

/-- A property of an item is what the registry says of its name. -/
theorem Compiled.exists_of_get? {pattern : String} (hc : t.Compiled pattern o r) {d : Disk} {i : Item}
    {p : Props} (hp : t.props d i = .ok p) {name value : String} (hv : p.get? name = some value) :
    ∃ property, r.get? name = some property ∧ property.extract d o i = .ok value := by
  obtain ⟨property, hm, he⟩ := exists_of_lookup (forall₂_props hc.nodup hp) hv
  exact ⟨property, hc.get?_of_mem hm, hc.options ▸ he⟩

theorem Compiled.exists_of_mem_properties {pattern : String} (hc : t.Compiled pattern o r) {d : Disk} {i : Item}
    {p : Props} (hp : t.props d i = .ok p) {name : String} {property : Property}
    (hm : (name, property) ∈ t.properties) :
    ∃ value, p.get? name = some value ∧ property.extract d o i = .ok value := by
  have hname : name ∈ p.pairs.map Prod.fst :=
    map_fst_values (forall₂_props hc.nodup hp) ▸ List.mem_map_of_mem hm
  obtain ⟨value, hv⟩ := exists_lookup_of_mem hname
  obtain ⟨other, hg, he⟩ := hc.exists_of_get? hp hv
  obtain rfl := Option.some.inj (hg.symm.trans (hc.get?_of_mem hm))
  exact ⟨value, hv, he⟩

/-- Every name in the pattern is a property that is there. -/
theorem Compiled.exists_of_mem_fields {pattern : String} (hc : t.Compiled pattern o r) {d : Disk} {i : Item}
    {p : Props} (hp : t.props d i = .ok p) {name : String} (hm : name ∈ fields t.segments) :
    ∃ property value, r.get? name = some property ∧ p.get? name = some value ∧
      property.extract d o i = .ok value := by
  have hname : name ∈ t.properties.map Prod.fst := by
    rw [hc.names, List.mem_eraseDups]
    exact List.mem_append_left _ hm
  obtain ⟨⟨_, property⟩, hx, rfl⟩ := List.mem_map.mp hname
  obtain ⟨value, hv, he⟩ := hc.exists_of_mem_properties hp hx
  exact ⟨property, value, hc.get?_of_mem hx, hv, he⟩

end Template

namespace Lister

variable {o : Options} {r : Registry} {l : Lister}

theorem compile_ok (h : compile o r = .ok l) :
    l.options = o ∧ ∀ kind, compileKind o r kind = .ok (l.template? kind) := by
  obtain ⟨file, hfile, h⟩ := bind_eq_ok.mp h
  obtain ⟨folder, hfolder, h⟩ := bind_eq_ok.mp h
  obtain ⟨folderEnd, hfolderEnd, h⟩ := bind_eq_ok.mp h
  obtain ⟨root, hroot, h⟩ := bind_eq_ok.mp h
  obtain ⟨ellipsis, hellipsis, h⟩ := bind_eq_ok.mp h
  obtain rfl := Except.ok.inj h
  refine ⟨rfl, fun kind => ?_⟩
  cases kind <;> assumption

theorem options_eq (h : compile o r = .ok l) : l.options = o := (compile_ok h).1

/-- A kind has a template just if it has a pattern, and then it is that of the pattern. -/
theorem template?_eq (h : compile o r = .ok l) (kind : Kind) :
    match o.pattern? kind with
    | none => l.template? kind = none
    | some pattern => ∃ t, l.template? kind = some t ∧ t.Compiled pattern o r := by
  have hk := (compile_ok h).2 kind
  rw [compileKind] at hk
  cases hp : o.pattern? kind with
  | none =>
    rw [hp] at hk
    exact (Except.ok.inj hk).symm
  | some pattern =>
    simp only [hp] at hk
    obtain ⟨t, ht, he⟩ := map_eq_ok.mp (mapError_eq_ok.mp hk)
    exact ⟨t, he.symm, Template.compiled ht⟩

theorem isSome_template? (h : compile o r = .ok l) (kind : Kind) :
    (l.template? kind).isSome = (o.pattern? kind).isSome := by
  have ht := template?_eq h kind
  split at ht
  next hp => rw [ht, hp, Option.isSome_none, Option.isSome_none]
  next pattern hp =>
    obtain ⟨t, ht, -⟩ := ht
    rw [ht, hp, Option.isSome_some, Option.isSome_some]

theorem isSome_template?_of_usual (h : compile o r = .ok l) (hd : ∀ kind, LinePattern.given? o kind = none)
    (kind : Kind) : (l.template? kind).isSome = (LinePattern.usual? o kind).isSome := by
  rw [isSome_template? h, Options.pattern?, hd kind]

theorem compiled_of_template? (h : compile o r = .ok l) {kind : Kind} {t : Template}
    (ht : l.template? kind = some t) :
    ∃ pattern, o.pattern? kind = some pattern ∧ t.Compiled pattern o r := by
  have hk := template?_eq h kind
  split at hk
  next => simp [hk] at ht
  next pattern hp =>
    obtain ⟨t', ht', hc⟩ := hk
    exact ⟨pattern, hp, Option.some.inj (ht'.symm.trans ht) ▸ hc⟩

theorem record?_eq_some {d : Disk} {kind : Kind} {i : Item} {record : Record}
    (h : l.record? d kind i = .ok (some record)) :
    ∃ t p, l.template? kind = some t ∧ t.props d i = .ok p ∧
      record = ⟨kind, i.path, some i.depth, p⟩ := by
  rw [record?] at h
  split at h
  next => cases h
  next t ht =>
    obtain ⟨p, hp, he⟩ := map_eq_ok.mp (mapError_eq_ok.mp h)
    exact ⟨t, p, ht, hp, (Option.some.inj he).symm⟩

theorem exists_of_record?_eq_error {d : Disk} {kind : Kind} {i : Item} {e : ListError}
    (h : l.record? d kind i = .error e) :
    ∃ t cause, l.template? kind = some t ∧ t.props d i = .error cause ∧ e = .property cause := by
  rw [record?] at h
  split at h
  next => cases h
  next t ht =>
    obtain ⟨cause, hp, he⟩ := mapError_eq_error.mp h
    exact ⟨t, cause, ht, map_eq_error.mp hp, he.symm⟩

end Lister

end TreeListing
