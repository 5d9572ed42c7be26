import TreeListing.Proofs.Template.Language
import TreeListing.Proofs.Walk

/-!
Lines that are written again from what was found in them. A name with several places is found with the text
at the first of them, so the line comes out again just if it can be cut with that text at each of its places;
the main statement is `rendered_again_iff`.
-/
namespace TreeListing

namespace Template

variable {t : Template} {pattern : String} {o : Options}

theorem Cut.accepted {language : String → List Char → Prop} {ts : List Token} {line : List Char}
    {values : List (String × List Char)} (h : Cut language ts line values) :
    ∀ v ∈ values, language v.1 v.2 := by
  induction h with
  | nil => exact List.forall_mem_nil _
  | char _ ih => exact ih
  | field hu _ ih => exact List.forall_mem_cons.mpr ⟨hu, ih⟩

theorem map_fst_placed (t : Template) (p : Props) : (t.placed p).map Prod.fst = t.placeholders := by
  rw [placed, List.map_map]
  exact List.map_id _

theorem lookup_placed {p : Props} {name : String} (hm : name ∈ t.placeholders) :
    (t.placed p).lookup name = some ((p.get? name).getD "").toList := by
  obtain ⟨u, hu⟩ := exists_lookup_of_mem ((map_fst_placed t p).symm ▸ hm)
  obtain ⟨other, -, he⟩ := List.mem_map.mp (mem_of_lookup hu)
  obtain ⟨rfl, rfl⟩ := Prod.mk.inj he
  exact hu

namespace Compiled

variable {line : String} {found : Props}

theorem exists_found (hc : t.Compiled pattern o .core) (hf : t.matchLine? line = some found) {name : String}
    (hm : name ∈ t.placeholders) : ∃ value, found.get? name = some value ∧ o.Accepts name value.toList := by
  obtain ⟨values, hv, -, hget⟩ := hc.exists_cut_of_matchLine? hf
  have hnames : values.map Prod.fst = t.placeholders := hv.names_eq_fields
  obtain ⟨u, hu⟩ := exists_lookup_of_mem (hnames.symm ▸ hm)
  refine ⟨String.ofList u, by rw [hget, hu]; rfl, ?_⟩
  rw [String.toList_ofList]
  exact hv.accepted _ (mem_of_lookup hu)

/-- What is written from what was found is a line of the template again. -/
theorem cut_found (hc : t.Compiled pattern o .core) (hf : t.matchLine? line = some found) :
    Cut o.Accepts (tokens t.segments) (t.render found).toList (t.placed found) := by
  refine cut_render t fun name hm => ?_
  obtain ⟨value, hv, ha⟩ := hc.exists_found hf hm
  rwa [hv]

/-- A line is written again just if it can be cut with what was found in it. -/
theorem render_found_iff (hc : t.Compiled pattern o .core) (hf : t.matchLine? line = some found) :
    t.render found = line ↔ Cut o.Accepts (tokens t.segments) line.toList (t.placed found) := by
  constructor
  · rintro rfl
    exact hc.cut_found hf
  · intro hcut
    have hplaced : ∀ v ∈ t.placed found, found.get? v.1 = some (String.ofList v.2) := by
      intro v hv
      obtain ⟨name, hm, rfl⟩ := List.mem_map.mp hv
      obtain ⟨value, hvalue, -⟩ := hc.exists_found hf hm
      rw [hvalue, Option.getD_some, String.ofList_toList]
    apply String.toList_inj.mp
    rw [render_eq]
    exact hcut.render_eq hplaced

/-- A name at the start of a line is found with its first character alone, if the rest can be cut. -/
theorem exists_matchLine?_of_name (hc : t.Compiled pattern o .core) {ts : List Token}
    (htokens : tokens t.segments = .field "name" :: ts) {c : Char} {rest : List Char}
    (hline : line.toList = c :: rest) (hname : CharSet.name.contains c = true)
    {values : List (String × List Char)} (h : Cut o.Accepts ts rest values) :
    ∃ found, t.matchLine? line = some found ∧ found.get? "name" = some (String.ofList [c]) := by
  have hfirst : Regex.First (Regex.concat (o.pieces "name")) ⟨0, [c] ++ rest, []⟩ ⟨1, rest, []⟩ := by
    have hends : Regex.ends (.plus false (.chars .name)) ⟨0, c :: rest, []⟩
        = ⟨1, rest, []⟩ :: Regex.Place.run .name 1 [] rest := by
      simp [Regex.ends, Regex.Place.run, hname]
    exact ⟨_, hends⟩
  obtain ⟨q, values', hq, hvalues, hpassed⟩ := exists_search_of_first
    (fun name hm => hc.recognises name (htokens ▸ List.mem_cons_of_mem _ hm)) hfirst ⟨rfl, rfl, rfl⟩ h
  have hcut : Cut o.Accepts (tokens t.segments) line.toList (("name", [c]) :: values') := by
    rw [htokens, hline]
    have hfilled : Regex.Filled .name [c] := ⟨List.cons_ne_nil _ _, List.forall_mem_singleton.mpr hname⟩
    exact .field (Options.accepts_name.mpr hfilled) hvalues
  have hnames : (("name", [c]) :: values').map Prod.fst = fields t.segments :=
    hcut.names_eq_fields
  rw [List.singleton_append, ← hline, ← htokens, ← hc.matcher_eq_pieces] at hq
  refine ⟨_, by rw [matchLine?, hq]; rfl, ?_⟩
  rw [placeholders, ← hnames, get?_found hpassed]
  rfl

end Compiled

/-- What is written from what was found in an item's line is a line of the template. It is the same line
just if that can be cut with the text found for a name at every place of the name. So it is where no name has
two places, and where there is no cut of the line but the one that it was written with; then the properties
are found as they are. -/
theorem rendered_again_iff (ht : compile pattern o .core = .ok t) {d : Disk} {i : Item} {p found : Props}
    (hp : t.props d i = .ok p) (hf : t.matchLine? (t.render p) = some found) :
    (t.matchLine? (t.render found)).isSome = true ∧
      (t.render found = t.render p ↔
        Cut o.Accepts (tokens t.segments) (t.render p).toList (t.placed found)) ∧
      (t.placeholders.Nodup → t.render found = t.render p) ∧
      ((∀ values, Cut o.Accepts (tokens t.segments) (t.render p).toList values → values = t.placed p) →
        t.render found = t.render p ∧ ∀ name ∈ t.placeholders, found.get? name = p.get? name) := by
  have hc := compiled ht
  have hiff := hc.render_found_iff hf
  obtain ⟨values, hv, -, hget⟩ := hc.exists_cut_of_matchLine? hf
  refine ⟨(hc.isSome_matchLine?_iff _).mpr ⟨_, hc.cut_found hf⟩, hiff, fun hn => render_of_cut t hn hv hget,
    fun hunique => ?_⟩
  obtain rfl := hunique values hv
  have hfound : ∀ name ∈ t.placeholders, found.get? name = p.get? name := by
    intro name hm
    obtain ⟨property, value, -, hvalue, -⟩ := hc.exists_of_mem_fields hp hm
    rw [hget, lookup_placed hm, hvalue, Option.map_some, Option.getD_some, String.ofList_toList]
  have hplaced : t.placed found = t.placed p := List.map_congr_left fun name hm => by rw [hfound name hm]
  exact ⟨hiff.mpr (hplaced ▸ hv), hfound⟩

theorem rendered_again_iff_oneFile : ∃ t p found,
    compile "{name} [{size}]\n" {} .core = .ok t ∧
      t.props (.oneFile "a [b]") (.below ⟨"/t"⟩ ["a [b]"] false) = .ok p ∧ t.render p = "a [b] [4]\n" ∧
      t.matchLine? (t.render p) = some found ∧ t.render found = t.render p := by
  have hline : ((compile "{name} [{size}]\n" {} .core).toOption.any fun t =>
      (t.props (.oneFile "a [b]") (.below ⟨"/t"⟩ ["a [b]"] false)).toOption.any fun p =>
        decide (t.placed p = [("name", "a [b]".toList), ("size", ['4'])]) &&
          decide (t.render p = "a [b] [4]\n")) = true := by decide +kernel
  obtain ⟨t, ht, hline⟩ := exists_eq_ok_of_any hline
  obtain ⟨p, hp, hline⟩ := exists_eq_ok_of_any hline
  simp only [Bool.and_eq_true, decide_eq_true_eq] at hline
  obtain ⟨hplaced, hrender⟩ := hline
  have haccepts : ∀ v ∈ t.placed p, Options.Accepts {} v.1 v.2 := by
    rw [hplaced, List.forall_mem_cons, List.forall_mem_singleton]
    exact ⟨Options.accepts_name.mpr (by decide), Options.accepts_size.mpr (by decide)⟩
  have hcut := cut_render t fun name hm => haccepts _ (List.mem_map_of_mem hm)
  obtain ⟨found, hf⟩ := Option.isSome_iff_exists.mp (((compiled ht).isSome_matchLine?_iff _).mpr ⟨_, hcut⟩)
  have hnodup : t.placeholders.Nodup := by
    rw [← map_fst_placed t p, hplaced]
    decide
  exact ⟨t, p, found, ht, hp, hrender, hf, (rendered_again_iff ht hp hf).2.2.1 hnodup⟩

/-- Where a name has two places side by side, the first one is found with one character and the second one
with all the rest. -/
theorem repeated_name_not_rendered_again : ∃ t p found,
    compile "{name}{name}\n" {} .core = .ok t ∧
      t.props (.oneFile "aab") (.below ⟨"/t"⟩ ["aab"] false) = .ok p ∧ t.render p = "aabaab\n" ∧
      t.matchLine? (t.render p) = some found ∧ t.render found = "aa\n" := by
  have hline : ((compile "{name}{name}\n" {} .core).toOption.any fun t =>
      (t.props (.oneFile "aab") (.below ⟨"/t"⟩ ["aab"] false)).toOption.any fun p =>
        decide (tokens t.segments = [.field "name", .field "name", .char '\n']) &&
          decide (t.render p = "aabaab\n")) = true := by decide +kernel
  obtain ⟨t, ht, hline⟩ := exists_eq_ok_of_any hline
  obtain ⟨p, hp, hline⟩ := exists_eq_ok_of_any hline
  simp only [Bool.and_eq_true, decide_eq_true_eq] at hline
  obtain ⟨htokens, hrender⟩ := hline
  have hrest : Options.Accepts {} "name" "abaab".toList := Options.accepts_name.mpr (by decide)
  have hstart : (t.render p).toList = 'a' :: "abaab\n".toList := by
    rw [hrender]
    rfl
  obtain ⟨found, hf, hname⟩ := (compiled ht).exists_matchLine?_of_name htokens hstart (by decide)
    (.field hrest (.char .nil))
  refine ⟨t, p, found, ht, hp, hrender, hf, ?_⟩
  rw [← String.toList_inj, render_eq, htokens]
  simp [Token.render, hname]

end Template

end TreeListing
