import TreeListing.Proofs.Path
import TreeListing.Proofs.Template.Language
import TreeListing.Proofs.Walk

/-!
The lines that a template writes for entries. What a property says of an entry is a text that the
expression of the property accepts, so the line is one of the template; the main statement is
`own_lines_matched`.
-/
namespace TreeListing

theorem Registry.core_inj {name other : String} {property : Property} (h : core.get? name = some property)
    (h' : core.get? other = some property) : name = other := by
  have hinj : ∀ a ∈ core.entries, ∀ b ∈ core.entries, a.2 = b.2 → a.1 = b.1 := by decide
  exact hinj _ (mem_of_lookup h) _ (mem_of_lookup h') rfl

/-- An entry suits the properties with these names if no name on the way to it has one of the characters that
names and paths leave out. -/
theorem Item.suits_below {d : Disk} {base : Path} {names : List String} (hne : names ≠ [])
    (hn : ∀ n ∈ names, Path.IsName n) {isFolder : Bool}
    (hs : ∀ n ∈ (below base names isFolder).abspath.names, ∀ c ∈ n.toList,
      c ∉ ['\\', '/', ':', '*', '?', '"', '<', '>', '|'])
    {name : String} (hdate : name ∉ ["cdate", "mdate", "ndate"])
    (hh : name = "hash" → d.isFile (below base names isFolder).abspath = true) {property : Property}
    (hg : Registry.core.get? name = some property) : property.Suits d (below base names isFolder) := by
  obtain ⟨before, n, rfl⟩ : ∃ before n, names = before ++ [n] :=
    ⟨_, _, (List.dropLast_append_getLast hne).symm⟩
  have hname : Path.IsName n := hn n (List.mem_append_right _ (List.mem_singleton_self n))
  have hbefore : ∀ m ∈ before, Path.IsName m := fun m hm => hn m (List.mem_append_left _ hm)
  have hpath : ∀ m ∈ (below base (before ++ [n]) isFolder).abspath.names, ∀ c ∈ m.toList,
      CharSet.path.contains c = true := by
    intro m hm c hc
    have hc := hs m hm c hc
    simp only [List.mem_cons, List.not_mem_nil, or_false, not_or] at hc
    rw [CharSet.path_contains]
    simp [hc]
  have hbelow : ∀ m ∈ before ++ [n], m ∈ (below base (before ++ [n]) isFolder).abspath.names := fun m hm =>
    names_abspath_below base hn isFolder ▸ List.mem_append_right _ hm
  cases property with
  | name =>
    rw [Property.Suits, name_below_concat base before hname]
    exact ⟨by simpa using hname.nonempty,
      fun c hc => CharSet.name_contains.mpr (hs n (hbelow n (by simp)) c hc)⟩
  | relpath =>
    refine ⟨?_, Path.forall_ofSegments (by decide) fun m hm => hpath m (hbelow m hm)⟩
    exact String.toList_eq_nil_iff.not.mpr ((Path.text_ofSegments_eq_empty hn).not.mpr hne)
  | abspath =>
    refine ⟨?_, Path.forall_text (by decide) (by decide) hpath⟩
    rw [abspath_below_concat base hbefore hname isFolder isFolder]
    simpa using Path.text_join_name_ne _ hname
  | hash => exact hh (Registry.core_inj hg rfl)
  | cdate =>
    obtain rfl : name = "cdate" := Registry.core_inj hg rfl
    exact absurd (by decide) hdate
  | mdate =>
    obtain rfl : name = "mdate" := Registry.core_inj hg rfl
    exact absurd (by decide) hdate
  | ndate =>
    obtain rfl : name = "ndate" := Registry.core_inj hg rfl
    exact absurd (by decide) hdate
  | constant value pattern => exact absurd hg Registry.core_ne_constant
  | _ => trivial

namespace Template

variable {t : Template} {pattern : String} {o : Options}

/-- A template without dates recognises the lines that it writes for entries, if no name on the way to them
has a character that names and paths leave out, and a hash is only asked of regular files. The expression of
each property accepts the text at its places, and with these texts the line falls into the pattern. -/
theorem own_lines_matched (ht : compile pattern o .core = .ok t)
    (hdates : ∀ name ∈ ["cdate", "mdate", "ndate"], name ∉ t.placeholders) {d : Disk} {base : Path}
    {names : List String} (hne : names ≠ []) (hn : ∀ n ∈ names, Path.IsName n) {isFolder : Bool}
    (hs : ∀ n ∈ (Item.below base names isFolder).abspath.names, ∀ c ∈ n.toList,
      c ∉ ['\\', '/', ':', '*', '?', '"', '<', '>', '|'])
    (hh : "hash" ∈ t.placeholders → d.isFile (Item.below base names isFolder).abspath = true) {p : Props}
    (hp : t.props d (.below base names isFolder) = .ok p) :
    (∀ name ∈ t.placeholders, ∃ value, p.get? name = some value ∧ o.Accepts name value.toList) ∧
      Cut o.Accepts (tokens t.segments) (t.render p).toList (t.placed p) ∧
      (t.matchLine? (t.render p)).isSome = true := by
  have hc := compiled ht
  have haccepts : ∀ name ∈ t.placeholders,
      ∃ value, p.get? name = some value ∧ o.Accepts name value.toList := by
    intro name hm
    obtain ⟨property, value, hg, hv, he⟩ := hc.exists_of_mem_fields hp hm
    have hsuits := Item.suits_below hne hn hs (fun hd => hdates name hd hm) (fun he => hh (he ▸ hm)) hg
    exact ⟨value, hv, Options.accepts_extract hg hsuits he⟩
  have hcut : Cut o.Accepts (tokens t.segments) (t.render p).toList (t.placed p) := by
    refine cut_render t fun name hm => ?_
    obtain ⟨value, hv, ha⟩ := haccepts name hm
    rwa [hv]
  exact ⟨haccepts, hcut, (hc.isSome_matchLine?_iff _).mpr ⟨_, hcut⟩⟩

theorem own_lines_matched_oneFile : ∃ t p,
    compile "{indent}{name}{name}:{hash}\n" {} .core = .ok t ∧
      (Item.below ⟨"/t"⟩ ["a b"] false).abspath.names = ["t", "a b"] ∧
      t.props (.oneFile "a b") (.below ⟨"/t"⟩ ["a b"] false) = .ok p ∧
      t.render p = " a ba b:52d75620f40683cd315ccadd07335451\n" ∧
      (t.matchLine? (t.render p)).isSome = true := by
  have hline : ((compile "{indent}{name}{name}:{hash}\n" {} .core).toOption.any fun t =>
      (t.props (.oneFile "a b") (.below ⟨"/t"⟩ ["a b"] false)).toOption.any fun p =>
        decide (t.placeholders = ["indent", "name", "name", "hash"]) &&
          decide (t.render p = " a ba b:52d75620f40683cd315ccadd07335451\n")) = true := by decide +kernel
  obtain ⟨t, ht, hline⟩ := exists_eq_ok_of_any hline
  obtain ⟨p, hp, hline⟩ := exists_eq_ok_of_any hline
  simp only [Bool.and_eq_true, decide_eq_true_eq] at hline
  obtain ⟨hnames, hrender⟩ := hline
  have hway : (Item.below ⟨"/t"⟩ ["a b"] false).abspath.names = ["t", "a b"] := by decide +kernel
  obtain ⟨-, -, hmatched⟩ := own_lines_matched ht (by rw [hnames]; decide) (by decide) (by decide +kernel)
    (by rw [hway]; simp) (fun _ => by decide +kernel) hp
  exact ⟨t, p, ht, hway, hp, hrender, hmatched⟩

end Template

end TreeListing
