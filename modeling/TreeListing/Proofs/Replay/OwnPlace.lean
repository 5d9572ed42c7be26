import TreeListing.Proofs.Replay.Opened
import TreeListing.Proofs.Template.Grammar
import TreeListing.Proofs.Template.Repeated

/-!
Where an entry that is read stands. A file or a folder is put under its own name into the folders that
are open above its depth, whatever lines came before; only at the depth of the root there is no folder
for it, and it stands where the root does. The main statement is `entries_stand_below_root`.
-/
namespace TreeListing

namespace Path

/-- What stands between the slashes of a path and is not empty there. -/
structure IsPart (n : String) : Prop where
  nonempty : n ≠ ""
  noSlash : '/' ∉ n.toList

theorem notMem_of_mem_parts {cs part : List Char} (h : part ∈ parts cs) : '/' ∉ part := by
  induction cs generalizing part with
  | nil =>
    obtain rfl : part = [] := by simpa [parts] using h
    exact List.not_mem_nil
  | cons c cs ih =>
    obtain ⟨first, others, hp⟩ := List.exists_cons_of_ne_nil (parts_ne_nil cs)
    rw [hp] at ih
    rw [parts, hp] at h
    split at h
    next =>
      rcases List.mem_cons.mp h with rfl | h
      · exact List.not_mem_nil
      · exact ih h
    next hc =>
      rcases List.mem_cons.mp h with rfl | h
      · rw [List.mem_cons, not_or]
        exact ⟨Ne.symm hc, ih List.mem_cons_self⟩
      · exact ih (List.mem_cons_of_mem _ h)

theorem eq_of_componentOf {part : List Char} {n : String} (h : componentOf part = some (.name n)) :
    part = n.toList := by
  rw [componentOf] at h
  split at h
  · cases h
  · split at h
    · cases h
    · obtain rfl := Component.name.inj (Option.some.inj h)
      exact (String.toList_ofList).symm

theorem isPart_of_mem_names {p : Path} {n : String} (h : n ∈ p.names) : IsPart n := by
  refine ⟨nonempty_of_mem_names h, ?_⟩
  rw [mem_names, components_eq, List.mem_append] at h
  rcases h with h | h
  · rw [lead] at h
    split at h
    · simp at h
    · split at h <;> simp at h
  · obtain ⟨part, hm, hn⟩ := List.mem_filterMap.mp h
    exact eq_of_componentOf hn ▸ notMem_of_mem_parts hm

theorem IsPart.not_isAbsolute {n : String} (h : IsPart n) : (Path.mk n).isAbsolute = false := by
  have hs : n.toList.head? ≠ some '/' := fun he => h.noSlash (List.mem_of_head? he)
  simpa [isAbsolute] using hs

/-- A path that leads through parts has just these between its slashes. -/
theorem parts_ofSegments {names : List String} (hne : names ≠ []) (h : ∀ n ∈ names, IsPart n) :
    parts (ofSegments names).text.toList = names.map String.toList := by
  induction names using List.reverseRecOn with
  | nil => exact absurd rfl hne
  | append_singleton names n ih =>
    have hn := h n (by simp)
    have hown := parts_of_noSlash hn.noSlash
    rw [ofSegments_concat, join_of_relative _ hn.not_isAbsolute, String.toList_append, String.toList_append]
    by_cases he : names = []
    · subst he
      simpa [ofSegments, empty, gap] using hown
    · have ih := ih he fun m hm => h m (by simp [hm])
      have hpart : [] ∉ names.map String.toList := by
        intro hm
        obtain ⟨m, hm, hnil⟩ := List.mem_map.mp hm
        exact (h m (by simp [hm])).nonempty (String.toList_eq_nil_iff.mp hnil)
      have hgap : (ofSegments names).gap = "/" := by
        rw [gap, if_neg]
        rw [← ih] at hpart
        rintro (hempty | hlast)
        · rw [hempty] at hpart
          exact hpart (by simp [parts])
        · obtain ⟨a, ha⟩ := List.getLast?_eq_some_iff.mp hlast
          rw [ha, parts_append_slash] at hpart
          exact hpart (by simp [parts])
      have hslash : "/".toList = ['/'] := rfl
      rw [hgap, hslash, List.append_assoc, List.singleton_append, parts_append_slash, ih, hown,
        List.map_append]
      rfl

end Path

namespace Template

open Segment (cutFrom ofLiteral ofField)

theorem fields_ofLiteral_append (text : List Char) (segments : List Segment) :
    fields (ofLiteral text ++ segments) = fields segments := by
  cases text <;> rfl

/-- The names in a pattern do not depend on the text before it. -/
theorem fields_cutFrom (text text' : List Char) (name? : Option (List Char)) (p : List Char) :
    (cutFrom text name? p).map fields = (cutFrom text' name? p).map fields := by
  have hliteral : ∀ segments, fields (ofLiteral text ++ segments) = fields (ofLiteral text' ++ segments) :=
    fun segments => (fields_ofLiteral_append text segments).trans (fields_ofLiteral_append text' segments).symm
  fun_induction cutFrom text name? p generalizing text'
  case case1 => rfl
  case case2 text => exact congrArg Except.ok (by simpa using hliteral [])
  case case3 text rest name ih =>
    conv_rhs => rw [cutFrom]
    simp only [if_true]
    cases ofField name with
    | error e => rfl
    | ok field =>
      cases cutFrom [] none rest with
      | error e => rfl
      | ok others => exact congrArg Except.ok (hliteral _)
  case case4 hne =>
    conv_rhs => rw [cutFrom]
    simp [hne]
  case case5 hclose hopen ih =>
    conv_rhs => rw [cutFrom]
    rw [if_neg hclose, if_neg hopen]
    exact ih text' hliteral
  case case6 ih | case8 ih =>
    conv_rhs => unfold cutFrom
    exact ih _ fun _ => (fields_ofLiteral_append ..).trans (fields_ofLiteral_append ..).symm
  case case7 ih =>
    conv_rhs => unfold cutFrom
    simp only [if_true]
    exact ih _ hliteral
  case case9 hclose hopen =>
    conv_rhs => unfold cutFrom
    simp only [if_neg hopen, if_true]
  case case10 hopen hclose ih =>
    conv_rhs => unfold cutFrom
    simp only [if_neg hopen, if_neg hclose]
    exact ih _ fun _ => (fields_ofLiteral_append ..).trans (fields_ofLiteral_append ..).symm

/-- The names in a pattern that begins with a row of tokens are those of the row, and then those in
the rest. -/
theorem fields_of_cutFrom {ts : List Token} (h : ∀ token ∈ ts, token.IsReadable) {text rest : List Char}
    {segments : List Segment} (hs : cutFrom text none (written ts ++ rest) = .ok segments) :
    ∃ others, cutFrom [] none rest = .ok others ∧
      fields segments = ts.filterMap Token.field? ++ fields others := by
  induction ts generalizing text segments with
  | nil =>
    have he := fields_cutFrom text [] none rest
    rw [show cutFrom text none rest = .ok segments from hs] at he
    obtain ⟨others, ho, hf⟩ := map_eq_ok.mp he.symm
    exact ⟨others, ho, hf.symm⟩
  | cons token ts ih =>
    rw [List.forall_mem_cons] at h
    have hcons : written (token :: ts) ++ rest = token.written ++ (written ts ++ rest) := by
      simp [written]
    rw [hcons] at hs
    cases token with
    | char c => exact ih h.2 ((cutFrom_doubled c text _).symm.trans hs)
    | field name =>
      rw [Token.written, List.cons_append, List.append_assoc, List.singleton_append,
        cutFrom_field h.1] at hs
      obtain ⟨inner, hi, rfl⟩ := map_eq_ok.mp hs
      obtain ⟨others, ho, hf⟩ := ih h.2 hi
      exact ⟨others, ho, (fields_ofLiteral_append ..).trans (congrArg (name :: ·) hf)⟩

end Template

namespace LinePattern

/-- The names in a usual pattern are those that follow from the options, and then those in the newline. -/
theorem exists_fields_newline {o : Options} {kind : Kind} (hk : kind ≠ .ellipsis) {pattern : String}
    (hp : usual? o kind = some pattern) {segments : List Template.Segment}
    (hs : Template.Segment.ofPattern pattern.toList = .ok segments) :
    ∃ others, Template.Segment.ofPattern o.newline.toList = .ok others ∧
      Template.fields segments = names o kind ++ Template.fields others := by
  have hinner : ∀ token ∈ front o kind, IsInner token := List.forall_mem_append.mpr
    ⟨isInner_indent o, isInner_body kind fun _ he => absurd he hk⟩
  have hplain : ∀ token ∈ front o kind, token.IsPlain := fun token hm => (hinner token hm).isPlain
  have hpattern : pattern.toList = Template.written (front o kind) ++ o.newline.toList := by
    rw [spell_usual? hp, ← Template.spell_eq_written hplain, ← spell_charTokens o.newline,
      ← Template.spell_append]
    rfl
  have hnames : (front o kind).filterMap Template.Token.field? = names o kind := by
    rw [front, List.filterMap_append, fields_partTokens, fields_body, names]
  rw [hpattern] at hs
  rw [← hnames]
  exact Template.fields_of_cutFrom (fun token hm => (hplain token hm).isReadable) hs

end LinePattern

namespace Props

variable {p : Props} {kind : Kind} {parents kept : List String} {position? : Option Nat} {startLevel : Nat}
  {indent : String} {path : Path}

/-- Behind a line whose name is a part of a path, the open folders are called by such parts as before. -/
theorem isPart_of_path? (hname : ∀ n, p.get? "name" = some n → Path.IsPart n)
    (hparents : ∀ n ∈ parents, Path.IsPart n)
    (h : p.path? kind parents position? startLevel indent = some (path, kept)) : ∀ n ∈ kept, Path.IsPart n := by
  have htake : ∀ count, ∀ n ∈ parents.take count, Path.IsPart n :=
    fun count n hm => hparents n (List.mem_of_mem_take hm)
  rw [path?] at h
  cases hr : p.get? "relpath" with
  | some relpath =>
    simp only [hr, Option.some.injEq, Prod.mk.injEq] at h
    have hnames : ∀ n ∈ (Path.mk relpath).names, Path.IsPart n := fun n hm => Path.isPart_of_mem_names hm
    rw [← h.2]
    intro n hm
    have hkept : n ∈ (if (p.depth? startLevel indent).or position? = some 0 then []
        else (Path.mk relpath).names) := by
      split at hm
      · split at hm
        · exact List.mem_of_mem_take hm
        · exact hm
      · exact hm
    split at hkept
    · cases hkept
    · exact hnames n hkept
  | none =>
    simp only [hr] at h
    obtain ⟨depth, -, h⟩ := Option.bind_eq_some_iff.mp h
    have hcalled : ∀ n, p.name? = some n → Path.IsPart n := by
      intro n hn
      rw [name?, hr] at hn
      rcases Option.or_eq_some_iff.mp hn with hn | ⟨-, hn⟩
      · exact hname n hn
      · obtain ⟨abspath, -, hn⟩ := Option.bind_eq_some_iff.mp hn
        exact Path.isPart_of_mem_names (Path.mem_names_of_fileName? hn)
    split at h
    next =>
      obtain rfl := (Prod.mk.inj (Option.some.inj h)).2
      exact List.forall_mem_nil _
    next n above hn =>
      have hpath : ∀ m ∈ parents.take above ++ [n], Path.IsPart m :=
        List.forall_mem_append.mpr ⟨htake above, List.forall_mem_singleton.mpr (hcalled n hn)⟩
      obtain rfl := (Prod.mk.inj (Option.some.inj h)).2
      rw [openAfter]
      split
      · exact fun m hm => hpath m (List.dropLast_subset _ hm)
      · exact hpath
    next =>
      split at h
      · obtain rfl := (Prod.mk.inj (Option.some.inj h)).2
        cases kind with
        | folderEnd => exact htake _
        | root => exact List.forall_mem_nil _
        | _ => exact htake _
      · cases h

/-- A line with a name has a path where its depth is known: that of the root at depth zero, and else
the name behind the folders that are open above its depth. -/
theorem path?_of_named {n : String} (hr : p.get? "relpath" = none) (hn : p.name? = some n)
    (h : p.path? kind parents position? startLevel indent = some (path, kept)) :
    ∃ depth, (p.depth? startLevel indent).or position? = some depth ∧
      (depth = 0 → path = .empty) ∧
      ∀ above, depth = above + 1 → path = .ofSegments (parents.take above ++ [n]) := by
  rw [path?, hr] at h
  obtain ⟨depth, hd, h⟩ := Option.bind_eq_some_iff.mp h
  rw [hn] at h
  refine ⟨depth, hd, ?_⟩
  cases depth with
  | zero =>
    have hpath := (Prod.mk.inj (Option.some.inj h)).1
    exact ⟨fun _ => hpath.symm, fun _ ha => absurd ha (Nat.succ_ne_zero _).symm⟩
  | succ above =>
    have hpath := (Prod.mk.inj (Option.some.inj h)).1
    refine ⟨fun h0 => absurd h0 (Nat.succ_ne_zero _), fun above' ha => ?_⟩
    obtain rfl := Nat.succ.inj ha
    exact hpath.symm

end Props

namespace Replay

variable {o : Options} {l : Lister} {s : State} {text : String} {r : Record}

theorem isPart_of_match? (hl : Lister.compile o .core = .ok l) {kind : Kind} {p : Props}
    (h : match? l kind text = some p) {n : String} (hn : p.get? "name" = some n) : Path.IsPart n := by
  obtain ⟨t, ht, hmatch⟩ := Option.bind_eq_some_iff.mp h
  obtain ⟨pattern, -, hc⟩ := Lister.compiled_of_template? hl ht
  obtain ⟨values, hv, -, hget⟩ := hc.exists_cut_of_matchLine? hmatch
  rw [hget] at hn
  obtain ⟨u, hu, rfl⟩ := Option.map_eq_some_iff.mp hn
  obtain ⟨hne, hchars⟩ := Options.accepts_name.mp (hv.accepted _ (mem_of_lookup hu))
  refine ⟨by simpa [String.ext_iff] using hne, fun hm => ?_⟩
  rw [String.toList_ofList] at hm
  exact absurd (hchars _ hm) (by decide)

/-- A file or a folder is read with its name, and with a relative path only if the newline names one. -/
theorem named_of_match? (hl : Lister.compile o .core = .ok l)
    (hg : ∀ kind, LinePattern.given? o kind = none) (hn : o.nameType = .name) {kind : Kind}
    (hk : kind = .file ∨ kind = .folder) {p : Props} (h : match? l kind text = some p) :
    (∃ n, p.get? "name" = some n) ∧ ∀ relpath, p.get? "relpath" = some relpath →
      ∃ segments, Template.Segment.ofPattern o.newline.toList = .ok segments ∧
        "relpath" ∈ Template.fields segments := by
  obtain ⟨t, ht, hmatch⟩ := Option.bind_eq_some_iff.mp h
  obtain ⟨pattern, hpattern, hc⟩ := Lister.compiled_of_template? hl ht
  obtain ⟨values, -, hnames, -⟩ := hc.exists_cut_of_matchLine? hmatch
  rw [Options.pattern?, hg kind] at hpattern
  obtain ⟨others, ho, hfields⟩ :=
    LinePattern.exists_fields_newline (by rcases hk with rfl | rfl <;> decide) hpattern hc.segments
  have hmem : ∀ name, name ∈ p.names ↔ name ∈ LinePattern.names o kind ∨ name ∈ Template.fields others := by
    intro name
    rw [hnames, List.mem_eraseDups, Template.placeholders, hfields, List.mem_append]
  constructor
  · have hname : "name" ∈ p.names :=
      (hmem _).mpr (.inl (LinePattern.name_mem_names hk (by rw [hn]; rfl)))
    obtain ⟨⟨name, value⟩, hm, rfl⟩ := List.mem_map.mp hname
    exact ⟨value, p.get?_of_mem hm⟩
  · intro relpath hrel
    rcases (hmem _).mp (Props.mem_names_of_get? hrel) with hm | hm
    · rcases LinePattern.mem_names hm with ⟨-, hm⟩ | hm | ⟨hm, -⟩ | ⟨-, rfl⟩
      · exact absurd hm (by decide)
      · exact absurd hm (by decide)
      · rw [hn] at hm
        exact absurd (Option.some.inj hm) (by decide)
      · rcases hk with hk | hk <;> cases hk
    · exact ⟨others, ho, hm⟩

/-- The folders that are open are called by parts of paths. -/
def HasParts (s : State) : Prop := ∀ n ∈ s.parents, Path.IsPart n

/-- The path of a record is put together with folders that are called by parts of paths. -/
structure PlacedFrom (l : Lister) (text : String) (r : Record) : Prop extends ReadFrom l text r where
  path : ∃ parents kept, (∀ n ∈ parents, Path.IsPart n) ∧
    r.props.path? r.kind parents r.depth? l.options.startLevel l.options.indent = some (r.path, kept)

theorem hasParts_place (hl : Lister.compile o .core = .ok l) (hs : HasParts s) {kind : Kind} {p : Props}
    (h : match? l kind text = some p) : HasParts (place l s text kind p).2 ∧
      ∀ r, .record r ∈ (place l s text kind p).1 → PlacedFrom l text r := by
  have hread := fun r (hr : .record r ∈ (place l s text kind p).1) => readFrom_of_mem_place h hr
  rw [place] at hread ⊢
  dsimp only at hread ⊢
  split
  next => exact ⟨hs, fun r hr => by simp at hr⟩
  next path kept hp =>
    refine ⟨Props.isPart_of_path? (fun n hn => isPart_of_match? hl h hn) hs hp, fun r hr => ?_⟩
    rw [hp] at hread
    refine ⟨hread r hr, ?_⟩
    obtain rfl := Signal.record.inj (List.mem_singleton.mp hr)
    exact ⟨s.parents, kept, hs, hp⟩

theorem hasParts_step (hl : Lister.compile o .core = .ok l) (hs : HasParts s) (text : String) :
    HasParts (step l s text).2 ∧ ∀ r, .record r ∈ (step l s text).1 → PlacedFrom l text r := by
  rw [step]
  rcases classify_cases l { s with line := s.line + 1 } text with ⟨hc, -⟩ | ⟨kind, p, hp, hc⟩
  · rw [hc]
    exact ⟨hs, fun r hr => by simp at hr⟩
  · have hplace := hasParts_place (s := { s with line := s.line + 1 }) hl hs hp
    rcases hc with hc | ⟨others, hc⟩ <;> rw [hc] <;>
      exact ⟨hplace.1, fun r hr => hplace.2 r (by simpa using hr)⟩

theorem exists_placedFrom (hl : Lister.compile o .core = .ok l) (hs : HasParts s)
    {lines : List (List UInt8)} (hr : .record r ∈ readLines l s lines) : ∃ text, PlacedFrom l text r := by
  induction lines generalizing s with
  | nil => cases hr
  | cons bytes lines ih =>
    rw [readLines] at hr
    split at hr
    next => simp at hr
    next text _ =>
      have hstep := hasParts_step hl hs (terminated l.options.newline text)
      rcases List.mem_append.mp hr with hr | hr
      · exact ⟨_, hstep.2 r hr⟩
      · exact ih hstep.1 hr

theorem ReadFrom.depthOf_or (h : ReadFrom l text r) (hk : r.kind ≠ .root) :
    (r.props.depth? l.options.startLevel l.options.indent).or r.depth? = r.depth? := by
  cases hd : r.props.depth? l.options.startLevel l.options.indent with
  | none => rfl
  | some depth => rw [h.depth hk depth hd, Option.some_or]

/-- Whatever the bytes are that are read with the usual patterns, with names in them, every file and every
folder has its name. Below the depth of the root its path ends in that name, behind fewer parts than its depth;
at the depth of the root it has the empty path of the root. Only where the newline names a relative path, that
is the path. -/
theorem entries_stand_below_root (hl : Lister.compile o .core = .ok l)
    (hg : ∀ kind, LinePattern.given? o kind = none) (hn : o.nameType = .name) (bytes : List UInt8) :
    ∀ r ∈ (l.replay bytes).filterMap Signal.record?, r.kind = .file ∨ r.kind = .folder →
      (∀ relpath, r.props.get? "relpath" = some relpath → r.path.text = relpath ∧
        ∃ segments, Template.Segment.ofPattern o.newline.toList = .ok segments ∧
          "relpath" ∈ Template.fields segments) ∧
      (r.props.get? "relpath" = none → ∃ n depth, r.props.name? = some n ∧ r.depth? = some depth ∧
        (depth = 0 → r.path.text = "") ∧
        (0 < depth → r.path.text ≠ "" ∧
          (∃ above : List String, above.length < depth ∧
            Path.parts r.path.text.toList = (above ++ [n]).map String.toList) ∧
          (n ≠ "." → n ≠ ".." → r.path.fileName? = some n))) := by
  intro r hr hk
  obtain ⟨signal, hm, hsignal⟩ := List.mem_filterMap.mp hr
  obtain rfl : signal = .record r := by
    cases signal <;> cases hsignal
    rfl
  obtain ⟨text, hplaced⟩ :=
    exists_placedFrom (s := State.start l) hl (fun _ hn => absurd hn List.not_mem_nil) hm
  obtain ⟨⟨n, hname⟩, hnewline⟩ := named_of_match? hl hg hn hk hplaced.line
  have hpart : Path.IsPart n := isPart_of_match? hl hplaced.line hname
  have hcalled : r.props.name? = some n := by rw [Props.name?, hname, Option.some_or]
  obtain ⟨parents, kept, hparents, hpath⟩ := hplaced.path
  refine ⟨fun relpath hrel => ⟨?_, hnewline relpath hrel⟩, fun hrel => ?_⟩
  · rw [Props.path?, hrel] at hpath
    exact congrArg Path.text (Prod.mk.inj (Option.some.inj hpath)).1.symm
  obtain ⟨depth, hdepth, hroot, hbelow⟩ := Props.path?_of_named hrel hcalled hpath
  rw [hplaced.depthOf_or (by rcases hk with hk | hk <;> rw [hk] <;> decide)] at hdepth
  refine ⟨n, depth, hcalled, hdepth, fun h0 => by rw [hroot h0]; rfl, fun hpos => ?_⟩
  obtain ⟨above, rfl⟩ := Nat.exists_eq_succ_of_ne_zero (Nat.ne_of_gt hpos)
  have hsegments := hbelow above rfl
  have hall : ∀ m ∈ parents.take above ++ [n], Path.IsPart m := List.forall_mem_append.mpr
    ⟨fun m hm => hparents m (List.mem_of_mem_take hm), List.forall_mem_singleton.mpr hpart⟩
  have hparts := Path.parts_ofSegments (by simp) hall
  rw [← hsegments] at hparts
  refine ⟨fun he => ?_, ⟨parents.take above, ?_, hparts⟩, fun hhere hup => ?_⟩
  · have hmem : n.toList ∈ Path.parts r.path.text.toList := by simp [hparts]
    rw [he] at hmem
    exact hpart.nonempty (String.toList_eq_nil_iff.mp (List.mem_singleton.mp hmem))
  · exact Nat.lt_succ_of_le (List.length_take_le _ _)
  · rw [hsegments]
    exact Path.fileName?_ofSegments_concat _ ⟨hpart.nonempty, hpart.noSlash, hhere, hup⟩

/-- The folder was never closed, and there was no line for the root. -/
theorem entries_stand_below_root_open : ∃ l,
    Lister.compile { layout := .xml, showIndent := false } .core = .ok l ∧
      ∃ r ∈ (l.replay (Text.encode "<Folder name=\"a\">\n<File name=\"f\"/>\n")).filterMap Signal.record?,
        r.kind = .file ∧ r.depth? = some 2 ∧ r.path.text ≠ "" ∧ r.path.fileName? = some "f" := by
  have hchecked : ((Lister.compile { layout := .xml, showIndent := false } .core).toOption.any fun l =>
      ((l.replay (Text.encode "<Folder name=\"a\">\n<File name=\"f\"/>\n")).filterMap Signal.record?).any
        fun r => r.kind = .file ∧ r.depth? = some 2 ∧ r.props.name? = some "f" ∧
          r.props.get? "relpath" = none) = true := by
    decide +kernel
  obtain ⟨l, hl, hany⟩ := exists_eq_ok_of_any hchecked
  obtain ⟨r, hm, hr⟩ := List.any_eq_true.mp hany
  obtain ⟨hkind, hdepth, hname, hrel⟩ := of_decide_eq_true hr
  obtain ⟨n, depth, hn, hd, -, hbelow⟩ := (entries_stand_below_root hl
    (fun kind => by cases kind <;> rfl) rfl _ r hm (.inl hkind)).2 hrel
  obtain rfl : 2 = depth := Option.some.inj (hdepth.symm.trans hd)
  obtain rfl : "f" = n := Option.some.inj (hname.symm.trans hn)
  obtain ⟨hne, -, hfile⟩ := hbelow (by decide)
  exact ⟨l, hl, r, hm, hkind, hdepth, hne, hfile (by decide) (by decide)⟩

/-- A file that is not indented takes the path of the root. -/
theorem entry_in_place_of_root : ∃ l, Lister.compile { layout := .xml } .core = .ok l ∧
    ∃ r ∈ (l.replay (Text.encode "<File name=\"f\"/>\n")).filterMap Signal.record?,
      r.kind = .file ∧ r.props.name? = some "f" ∧ r.path.text = "" := by
  have hchecked : ((Lister.compile { layout := .xml } .core).toOption.any fun l =>
      ((l.replay (Text.encode "<File name=\"f\"/>\n")).filterMap Signal.record?).any fun r =>
        r.kind = .file ∧ r.props.name? = some "f" ∧ r.path.text = "") = true := by
    decide +kernel
  obtain ⟨l, hl, hany⟩ := exists_eq_ok_of_any hchecked
  obtain ⟨r, hm, hr⟩ := List.any_eq_true.mp hany
  exact ⟨l, hl, r, hm, of_decide_eq_true hr⟩

end Replay

end TreeListing
