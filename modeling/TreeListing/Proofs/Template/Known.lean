import TreeListing.Proofs.Template.Line

/-!
Which patterns can be made ready. The expression for a line is put together as a text from the literal text
of the pattern and from the texts and date formats of the options, and it can be read whatever these are. So
a pattern fails for its braces, or for a name that is not known, and for nothing else.
-/
namespace TreeListing

theorem Registry.mem_names_iff {r : Registry} {name : String} :
    name ∈ r.names ↔ ∃ property, r.get? name = some property := by
  constructor
  · intro h
    exact exists_lookup_of_mem h
  · rintro ⟨property, h⟩
    exact List.mem_map_of_mem (mem_of_lookup h)

namespace Template

variable {r : Registry} {pattern : String} {o : Options}

/-- Names are resolved up to the first one that is not known. -/
theorem resolve_eq_error {before : List String} {name : String} (hb : ∀ n ∈ before, n ∈ r.names)
    (hn : name ∉ r.names) (after : List String) : resolve r (before ++ name :: after) = .error name := by
  induction before with
  | nil =>
    have hnone : r.get? name = none := by
      rw [Option.eq_none_iff_forall_ne_some]
      intro property hp
      exact hn (Registry.mem_names_iff.mpr ⟨property, hp⟩)
    rw [List.nil_append, resolve, hnone]
  | cons n before ih =>
    rw [List.forall_mem_cons] at hb
    obtain ⟨property, hp⟩ := Registry.mem_names_iff.mp hb.1
    rw [List.cons_append, resolve, hp]
    simp only [ih hb.2]
    rfl

theorem eraseDups_append_cons {before : List String} {name : String} (h : name ∉ before)
    (after : List String) :
    ∃ rest, (before ++ name :: after).eraseDups = before.eraseDups ++ name :: rest := by
  have hcons : (name :: after).removeAll before = name :: after.removeAll before := by
    simp [List.removeAll, h]
  rw [List.eraseDups_append, hcons, List.eraseDups_cons]
  exact ⟨_, rfl⟩

theorem compile_of_fault {fault : BraceFault} (h : Segment.ofPattern pattern.toList = .error fault) :
    compile pattern o r = .error (fault.toError pattern) :=
  bind_eq_error.mpr (.inl (mapError_eq_error.mpr ⟨fault, h, rfl⟩))

/-- The first name that is not known is the one that is told. -/
theorem compile_of_unknown {segments : List Segment} {before after : List String} {name : String}
    (hs : Segment.ofPattern pattern.toList = .ok segments)
    (hn : fields segments ++ o.properties = before ++ name :: after) (hb : ∀ n ∈ before, n ∈ r.names)
    (hu : name ∉ r.names) : compile pattern o r = .error (.unknownProperty name pattern) := by
  obtain ⟨rest, hrest⟩ := eraseDups_append_cons (fun hm => hu (hb name hm)) after
  have hresolve : resolve r (fields segments ++ o.properties).eraseDups = .error name := by
    rw [hn, hrest]
    apply resolve_eq_error _ hu
    intro n hm
    exact hb n (List.mem_eraseDups.mp hm)
  refine bind_eq_error.mpr (.inr ⟨segments, mapError_eq_ok.mpr hs, bind_eq_error.mpr (.inl ?_)⟩)
  exact mapError_eq_error.mpr ⟨name, hresolve, rfl⟩

theorem exists_first_unknown {names : List String} (h : ¬ ∀ name ∈ names, name ∈ r.names) :
    ∃ before name after, names = before ++ name :: after ∧ (∀ n ∈ before, n ∈ r.names) ∧
      name ∉ r.names := by
  obtain ⟨name, hfind⟩ : ∃ name, names.find? (· ∉ r.names) = some name := by
    rw [← Option.isSome_iff_exists, List.find?_isSome]
    simpa using h
  obtain ⟨hu, before, after, rfl, hb⟩ := List.find?_eq_some_iff_append.mp hfind
  exact ⟨before, name, after, rfl, by simpa using hb, by simpa using hu⟩

/-- The expression for a line can always be read. A pattern is made ready just if it can be cut into
segments, and every name in it and every other name asked for is known. Else it fails for its braces, or
for the first name that is not known. -/
theorem compile_succeeds_iff_known (pattern : String) (o : Options) :
    (∀ text, compile pattern o .core ≠ .error (.invalidPattern text)) ∧
    ((∃ t, compile pattern o .core = .ok t) ↔
      ∃ segments, Segment.ofPattern pattern.toList = .ok segments ∧
        ∀ name ∈ fields segments ++ o.properties, name ∈ Registry.core.names) ∧
    (∀ fault, Segment.ofPattern pattern.toList = .error fault →
      compile pattern o .core = .error (fault.toError pattern)) ∧
    ∀ segments before name after, Segment.ofPattern pattern.toList = .ok segments →
      fields segments ++ o.properties = before ++ name :: after →
      (∀ n ∈ before, n ∈ Registry.core.names) → name ∉ Registry.core.names →
      compile pattern o .core = .error (.unknownProperty name pattern) := by
  have hknown : ∀ segments, Segment.ofPattern pattern.toList = .ok segments →
      (∀ name ∈ fields segments ++ o.properties, name ∈ Registry.core.names) →
      ∃ t, compile pattern o .core = .ok t := by
    intro segments hs hk
    exact exists_compile hs fun name hm => Registry.mem_names_iff.mp (hk name hm)
  refine ⟨?_, ⟨?_, ?_⟩, fun fault => compile_of_fault, fun segments before name after => compile_of_unknown⟩
  · intro text herror
    cases hs : Segment.ofPattern pattern.toList with
    | error fault =>
      rw [compile_of_fault hs] at herror
      cases fault <;> cases herror
    | ok segments =>
      by_cases hk : ∀ name ∈ fields segments ++ o.properties, name ∈ Registry.core.names
      · obtain ⟨t, ht⟩ := hknown segments hs hk
        rw [ht] at herror
        cases herror
      · obtain ⟨before, name, after, hn, hb, hu⟩ := exists_first_unknown hk
        rw [compile_of_unknown hs hn hb hu] at herror
        cases herror
  · rintro ⟨t, ht⟩
    have hc := compiled ht
    refine ⟨t.segments, hc.segments, fun name hm => ?_⟩
    obtain ⟨property, -, hg⟩ := lookup_of_resolve hc.properties (List.mem_eraseDups.mpr hm)
    exact Registry.mem_names_iff.mpr ⟨property, hg⟩
  · rintro ⟨segments, hs, hk⟩
    exact hknown segments hs hk

/-- Names of the pattern come before the other ones asked for. -/
example : (compile "\x7bname\x7d(\x7bsize\x7d" { properties := ["hash", "colour", "mode"] } .core).map (·.segments)
    = .error (.unknownProperty "colour" "\x7bname\x7d(\x7bsize\x7d") := by decide +kernel

end Template

end TreeListing
