import TreeListing.Proofs.LimitedWalk
import TreeListing.Proofs.Listing
import TreeListing.Proofs.Template.Line
import TreeListing.Replay

/-!
Properties that are asked for beside those of the patterns. They are recorded behind the properties of the
pattern, and nothing else is another: neither the lines that are written nor what is read from a text. The
main statement is `extra_properties_only_recorded`.
-/
namespace TreeListing

def Options.asking (o : Options) (extras : List String) : Options := { o with properties := extras }

/-- The first options ask for no properties, and the second ones differ from them at most in what they ask for
and in the texts around a listing. -/
def Options.SameLines (o o' : Options) : Prop :=
  o.properties = [] ∧ ∃ extras header footer, o' = { o with properties := extras, header, footer }

section
variable {o o' : Options}

theorem Options.sameLines_asking (o : Options) (extras : List String) :
    (o.asking []).SameLines (o.asking extras) :=
  ⟨rfl, extras, o.header, o.footer, rfl⟩

theorem Property.extract_sameLines (h : o.SameLines o') (d : Disk) (i : Item) (p : Property) :
    p.extract d o' i = p.extract d o i := by
  obtain ⟨-, extras, header, footer, rfl⟩ := h
  cases p <;> rfl

theorem Property.pattern_sameLines (h : o.SameLines o') (p : Property) : p.pattern o' = p.pattern o := by
  obtain ⟨-, extras, header, footer, rfl⟩ := h
  cases p <;> rfl

end

namespace Template

variable {r : Registry} {o o' : Options} {extras names : List String} {segments : List Segment}

theorem resolve_append (r : Registry) (names others : List String) :
    resolve r (names ++ others)
      = resolve r names >>= fun properties => (resolve r others).map (properties ++ ·) := by
  induction names with
  | nil =>
    cases h : resolve r others <;> simp [resolve, h] <;> rfl
  | cons name names ih =>
    rw [List.cons_append, resolve, resolve]
    cases r.get? name with
    | none => rfl
    | some property =>
      dsimp only
      rw [ih]
      cases resolve r names with
      | error e => rfl
      | ok properties => cases resolve r others <;> rfl

/-- The properties that the registry has for the names. -/
def known (r : Registry) (names : List String) : List (String × Property) :=
  names.filterMap fun name => (r.get? name).map (name, ·)

theorem resolve_eq_known (h : ∀ name ∈ names, (r.get? name).isSome = true) :
    resolve r names = .ok (known r names) ∧ (known r names).map Prod.fst = names := by
  induction names with
  | nil => exact ⟨rfl, rfl⟩
  | cons name names ih =>
    rw [List.forall_mem_cons] at h
    obtain ⟨property, hg⟩ := Option.isSome_iff_exists.mp h.1
    obtain ⟨hresolve, hnames⟩ := ih h.2
    have hknown : known r (name :: names) = (name, property) :: known r names := by simp [known, hg]
    rw [hknown]
    refine ⟨?_, congrArg (name :: ·) hnames⟩
    rw [resolve, hg]
    simp only [hresolve]
    rfl

/-- The names asked for that are not in the pattern, each once. -/
def added (extras : List String) (segments : List Segment) : List String :=
  (extras.filter (· ∉ fields segments)).eraseDups

theorem eraseDups_fields_append (extras : List String) (segments : List Segment) :
    (fields segments ++ extras).eraseDups = (fields segments).eraseDups ++ added extras segments := by
  rw [List.eraseDups_append, List.removeAll, added]
  congr 3
  funext name
  simp

theorem mem_of_mem_added {name : String} (h : name ∈ added extras segments) : name ∈ extras :=
  (List.mem_filter.mp (List.mem_eraseDups.mp h)).1

/-- The template that also has the properties asked for. -/
def asking (r : Registry) (o' : Options) (t : Template) : Template :=
  { t with
    properties := t.properties ++ known r (added o'.properties t.segments)
    options := o' }

theorem bodyText_congr {pattern pattern' : String → List Char}
    (h : ∀ name ∈ fields segments, pattern name = pattern' name) (index : Nat) :
    bodyText pattern index segments = bodyText pattern' index segments := by
  induction segments generalizing index with
  | nil => rfl
  | cons segment rest ih =>
    cases segment with
    | literal text => rw [bodyText_literal, bodyText_literal, ih h]
    | field name =>
      have hcons : fields (.field name :: rest) = name :: fields rest := rfl
      rw [hcons, List.forall_mem_cons] at h
      rw [bodyText_field, bodyText_field, h.1, ih h.2]

theorem lineText_asking (h : o.SameLines o') {properties : List (String × Property)}
    (hr : resolve r (fields segments).eraseDups = .ok properties) (more : List (String × Property)) :
    lineText (fragment o' (properties ++ more)) segments = lineText (fragment o properties) segments := by
  rw [lineText, lineText, bodyText_congr fun name hm => ?_]
  obtain ⟨property, hl, -⟩ := lookup_of_resolve hr (List.mem_eraseDups.mpr hm)
  rw [fragment, fragment, List.lookup_append, hl, Option.some_or, Option.map_some, Option.map_some,
    Property.pattern_sameLines h]

/-- A pattern with properties asked for is made ready just as it is without them. -/
theorem compile_asking (h : o.SameLines o') (hx : ∀ name ∈ o'.properties, (r.get? name).isSome = true)
    (pattern : String) : compile pattern o' r = (compile pattern o r).map (asking r o') := by
  rw [compile, compile]
  cases Segment.ofPattern pattern.toList with
  | error e => rfl
  | ok segments =>
    have hmore := (@resolve_eq_known r (added o'.properties segments)
      fun name hm => hx name (mem_of_mem_added hm)).1
    have hresolve : resolve r (fields segments ++ o'.properties).eraseDups
        = (resolve r (fields segments ++ o.properties).eraseDups).map
          (· ++ known r (added o'.properties segments)) := by
      rw [h.1, eraseDups_fields_append, resolve_append, hmore, List.append_nil]
      cases resolve r (fields segments).eraseDups <;> rfl
    simp only [Except.mapError, bind, Except.bind, hresolve]
    cases hr : resolve r (fields segments ++ o.properties).eraseDups with
    | error name => rfl
    | ok properties =>
      rw [h.1, List.append_nil] at hr
      simp only [Except.map, lineText_asking h hr]
      cases Regex.parse? (lineText (fragment o properties) segments) <;> rfl

variable {t : Template} {pattern : String} {d : Disk} {i : Item} {p p' : Props}

/-- The properties asked for stand behind those of the pattern. -/
theorem exists_of_props_asking (h : o.SameLines o') (hx : ∀ name ∈ o'.properties, (r.get? name).isSome = true)
    (hc : t.Compiled pattern o r) (hp : (t.asking r o').props d i = .ok p') :
    ∃ p values, t.props d i = .ok p ∧ p.names = (fields t.segments).eraseDups ∧
      p'.pairs = p.pairs ++ values ∧ values.map Prod.fst = added o'.properties t.segments := by
  have hknown := (@resolve_eq_known r (added o'.properties t.segments)
    fun name hm => hx name (mem_of_mem_added hm)).2
  have hnames : t.properties.map Prod.fst = (fields t.segments).eraseDups := by
    rw [hc.names, h.1, List.append_nil]
  obtain ⟨values, hv, hp⟩ := bind_eq_ok.mp hp
  obtain rfl := Except.ok.inj hp
  simp only [asking, List.mapM_append, Property.extract_sameLines h] at hv
  obtain ⟨own, hown, hv⟩ := bind_eq_ok.mp hv
  obtain ⟨more, hmore, hv⟩ := bind_eq_ok.mp hv
  obtain rfl := Except.ok.inj hv
  have hownNames := (map_fst_values (extract_all hown)).trans hnames
  have hmoreNames := (map_fst_values (extract_all hmore)).trans hknown
  have hnodup : ((own ++ more).map Prod.fst).Nodup := by
    rw [List.map_append, hownNames, hmoreNames, ← eraseDups_fields_append]
    exact nodup_eraseDups _
  have hpairs := Props.pairs_ofList (hownNames ▸ nodup_eraseDups _)
  refine ⟨Props.ofList own, more, ?_, ?_, ?_, hmoreNames⟩
  · rw [props, hc.options, hown]
    rfl
  · rw [Props.names, hpairs, hownNames]
  · rw [Props.pairs_ofList hnodup, hpairs]

/-- A line is written from the properties of the pattern alone. -/
theorem render_congr (t : Template) (h : ∀ name ∈ fields t.segments, p'.get? name = p.get? name) :
    t.render p' = t.render p := by
  rw [render, render]
  congr 1
  refine List.flatMap_congr fun segment hm => ?_
  cases segment with
  | literal text => rfl
  | field name =>
    rw [Segment.render, Segment.render, h name (List.mem_filterMap.mpr ⟨_, hm, rfl⟩)]

end Template

/-- The second record is the first one with further properties: those asked for that are not in the pattern of
its line, each once and in the order in which they are asked for. -/
structure Record.ExtendedBy (l : Lister) (extras : List String) (q q' : Record) : Prop where
  kind : q'.kind = q.kind
  path : q'.path = q.path
  depth : q'.depth? = q.depth?
  own : ∃ t, l.template? q.kind = some t ∧ q.props.names = t.placeholders.eraseDups
  more : ∃ values, q'.props.pairs = q.props.pairs ++ values ∧
    values.map Prod.fst = (extras.filter (· ∉ q.props.names)).eraseDups

namespace Lister

variable {r : Registry} {o o' : Options} {extras : List String} {l l' : Lister} {d : Disk}

/-- The lister whose templates also have the properties asked for. -/
def asking (r : Registry) (o' : Options) (l : Lister) : Lister where
  options := o'
  file? := l.file?.map (Template.asking r o')
  folder? := l.folder?.map (Template.asking r o')
  folderEnd? := l.folderEnd?.map (Template.asking r o')
  root? := l.root?.map (Template.asking r o')
  ellipsis? := l.ellipsis?.map (Template.asking r o')

theorem template?_asking (l : Lister) (kind : Kind) :
    (l.asking r o').template? kind = (l.template? kind).map (Template.asking r o') := by
  cases kind <;> rfl

theorem compileKind_asking (h : o.SameLines o') (hx : ∀ name ∈ o'.properties, (r.get? name).isSome = true)
    (kind : Kind) :
    compileKind o' r kind = (compileKind o r kind).map (Option.map (Template.asking r o')) := by
  have hpattern : o'.pattern? kind = o.pattern? kind := by
    obtain ⟨-, extras, header, footer, rfl⟩ := h
    cases kind <;> rfl
  rw [compileKind, compileKind, hpattern]
  cases o.pattern? kind with
  | none => rfl
  | some pattern =>
    dsimp only
    rw [Template.compile_asking h hx]
    cases Template.compile pattern o r <;> rfl

/-- With properties asked for the same templates are made ready, or the same one fails. -/
theorem compile_asking (h : o.SameLines o') (hx : ∀ name ∈ o'.properties, (r.get? name).isSome = true) :
    compile o' r = (compile o r).map (asking r o') := by
  rw [compile, compile]
  simp only [compileKind_asking h hx]
  cases compileKind o r .file with
  | error e => rfl
  | ok file =>
    cases compileKind o r .folder with
    | error e => rfl
    | ok folder =>
      cases compileKind o r .folderEnd with
      | error e => rfl
      | ok folderEnd =>
        cases compileKind o r .root with
        | error e => rfl
        | ok root => cases compileKind o r .ellipsis <;> rfl

/-- The second lister differs from the first one in nothing but that its records have further properties. -/
structure Asks (l l' : Lister) (extras : List String) : Prop where
  options : l.options.SameLines l'.options
  record : ∀ d kind i, (∃ e, l'.record? d kind i = .error (.property e)) ∨
    ∃ q? q'?, l.record? d kind i = .ok q? ∧ l'.record? d kind i = .ok q'? ∧
      Option.Rel (Record.ExtendedBy l extras) q? q'?
  line : ∀ q q', Record.ExtendedBy l extras q q' → l'.line q' = l.line q
  reads : ∀ kind text, Replay.match? l' kind text = Replay.match? l kind text
  closes : l'.closesFolders = l.closesFolders

theorem record?_asking (h : o.SameLines o') (hx : ∀ name ∈ o'.properties, (r.get? name).isSome = true)
    (hl : compile o r = .ok l) (d : Disk) (kind : Kind) (i : Item) :
    (∃ e, (l.asking r o').record? d kind i = .error (.property e)) ∨
      ∃ q? q'?, l.record? d kind i = .ok q? ∧ (l.asking r o').record? d kind i = .ok q'? ∧
        Option.Rel (Record.ExtendedBy l o'.properties) q? q'? := by
  rw [record?, record?, template?_asking]
  cases ht : l.template? kind with
  | none => exact .inr ⟨none, none, rfl, rfl, .none⟩
  | some t =>
    obtain ⟨pattern, -, hc⟩ := compiled_of_template? hl ht
    simp only [Option.map_some]
    cases hp : (t.asking r o').props d i with
    | error e => exact .inl ⟨e, rfl⟩
    | ok p' =>
      obtain ⟨p, values, hprops, hnames, hpairs, hvalues⟩ := Template.exists_of_props_asking h hx hc hp
      have hq : (t.props d i).map (fun props => some (Record.mk kind i.path (some i.depth) props))
          = .ok (some ⟨kind, i.path, some i.depth, p⟩) := by
        rw [hprops]
        rfl
      refine .inr ⟨_, _, mapError_eq_ok.mpr hq, rfl,
        .some ⟨rfl, rfl, rfl, ⟨t, ht, hnames⟩, values, hpairs, ?_⟩⟩
      dsimp only
      rw [hvalues, Template.added, hnames]
      simp only [List.mem_eraseDups]

theorem line_asking {q q' : Record} (h : Record.ExtendedBy l extras q q') :
    (l.asking r o').line q' = l.line q := by
  obtain ⟨t, ht, hnames⟩ := h.own
  obtain ⟨values, hpairs, -⟩ := h.more
  rw [line, line, template?_asking, h.kind, ht]
  refine Template.render_congr t fun name hm => ?_
  have hname : name ∈ q.props.names := hnames ▸ List.mem_eraseDups.mpr hm
  obtain ⟨value, hv⟩ := Option.isSome_iff_exists.mp (Props.contains_iff.mpr hname)
  rw [Props.get?, Props.get?, hpairs, List.lookup_append, ← Props.get?, hv, Option.some_or]

theorem asks_of_compile (h : o.SameLines o') (hx : ∀ name ∈ o'.properties, (r.get? name).isSome = true)
    (hl : compile o r = .ok l) (hl' : compile o' r = .ok l') : l.Asks l' o'.properties := by
  rw [compile_asking h hx, hl] at hl'
  obtain rfl := Except.ok.inj hl'
  refine ⟨options_eq hl ▸ h, record?_asking h hx hl, fun _ _ => line_asking, fun kind text => ?_, ?_⟩
  · rw [Replay.match?, Replay.match?, template?_asking]
    cases l.template? kind <;> rfl
  · simp [closesFolders, asking]

end Lister

namespace Walk

variable {extras : List String} {l l' : Lister} {d : Disk}

/-- Both give nothing, or the same record but for the properties asked for. -/
def YieldsMore (l : Lister) (extras : List String) (given given' : Yield) : Prop :=
  given = none ∧ given' = none ∨
    ∃ q q', given = some (.ok q) ∧ given' = some (.ok q') ∧ q.ExtendedBy l extras q'

theorem yieldsMore_of_rel {q? q'? : Option Record} (h : Option.Rel (Record.ExtendedBy l extras) q? q'?) :
    YieldsMore l extras (yieldOf (.ok q?)) (yieldOf (.ok q'?)) := by
  cases h with
  | none => exact .inl ⟨rfl, rfl⟩
  | some h => exact .inr ⟨_, _, rfl, rfl, h⟩

/-- With properties asked for a step fails for one of them, or it leaves the same tasks and gives the same but
for these properties. -/
theorem perform_asks (h : l.Asks l' extras) (task : Task) (rest : List Task) :
    (∃ e, perform d l' task rest = (some (.error (.property e)), rest)) ∨
      (perform d l' task rest).2 = (perform d l task rest).2 ∧
        YieldsMore l extras (perform d l task rest).1 (perform d l' task rest).1 := by
  have hone : ∀ kind i, (∃ e, (yieldOf (l'.record? d kind i), rest) = (some (.error (.property e)), rest)) ∨
      rest = rest ∧ YieldsMore l extras (yieldOf (l.record? d kind i)) (yieldOf (l'.record? d kind i)) := by
    intro kind i
    rcases h.record d kind i with ⟨e, he⟩ | ⟨q?, q'?, hq, hq', hrel⟩
    · exact .inl ⟨e, by rw [he]; rfl⟩
    · rw [hq, hq']
      exact .inr ⟨rfl, yieldsMore_of_rel hrel⟩
  have henter : ∀ i, (∃ e, enter d l' i rest = (some (.error (.property e)), rest)) ∨
      (enter d l' i rest).2 = (enter d l i rest).2 ∧
        YieldsMore l extras (enter d l i rest).1 (enter d l' i rest).1 := by
    intro i
    rw [enter, enter]
    rcases h.record d (if i.depth = 0 then .root else .folder) i with ⟨e, he⟩ | ⟨q?, q'?, hq, hq', hrel⟩
    · exact .inl ⟨e, by rw [he]⟩
    · rw [hq, hq']
      refine .inr ⟨?_, ?_⟩
      · obtain ⟨-, _, _, _, ho⟩ := h.options
        rw [ho]
        rfl
      · cases hrel with
        | none => exact .inl ⟨rfl, rfl⟩
        | some hrel => exact .inr ⟨_, _, rfl, rfl, hrel⟩
  cases task with
  | enter i => exact henter i
  | visit i =>
    have hleaves : l'.options.leavesOut i = l.options.leavesOut i := by
      obtain ⟨-, _, _, _, ho⟩ := h.options
      rw [ho]
      rfl
    rw [perform, perform, hleaves]
    split
    · exact .inr ⟨rfl, .inl ⟨rfl, rfl⟩⟩
    · split
      · exact henter i
      · exact hone .file i
  | ellipsis i => exact hone .ellipsis i
  | leave i => exact hone .folderEnd i

end Walk

section
variable {σ : Type} {m : Medium σ} {extras : List String} {l l' : Lister}

/-- The writing fails because a property of an entry cannot be had. -/
def FailsByProperty (x : Except ListError Nat × σ) : Prop := ∃ e, x.1 = .error (.property e)

/-- If no property fails, the tasks of a walk write the same with the properties asked for. -/
theorem Lister.writeTasks_asks (h : l.Asks l' extras) {count : Nat} {tasks : List Walk.Task} {s : σ}
    {x : Except ListError Nat × σ} (hx : l'.writeTasks m count tasks s = some x) (hf : ¬FailsByProperty x) :
    l.writeTasks m count tasks s = some x := by
  refine Lister.writeTasks.partial_correctness l' m
    (fun count tasks s x => ¬FailsByProperty x → l.writeTasks m count tasks s = some x) ?_ count tasks s x hx hf
  rintro writeTasks ih count (_ | ⟨task, rest⟩) s x hr hf
  · rw [Lister.writeTasks]
    exact hr
  · rw [Lister.writeTasks]
    rcases Walk.perform_asks (d := m.disk s) h task rest with
      ⟨e, hp⟩ | ⟨hnext, ⟨hq, hq'⟩ | ⟨q, q', hq, hq', hextended⟩⟩
    · simp only [hp] at hr
      exact absurd ⟨e, by rw [← Option.some.inj hr]⟩ hf
    · simp only [hq', hnext] at hr
      simp only [hq]
      exact ih _ _ _ _ hr hf
    · simp only [hq', hnext, h.line q q' hextended] at hr
      simp only [hq]
      split at hr
      next => exact hr
      next => exact ih _ _ _ _ hr hf

/-- Tasks that come to an end do so with the properties asked for. -/
theorem Lister.exists_writeTasks_asks (h : l.Asks l' extras) {count : Nat} {tasks : List Walk.Task} {s : σ}
    {x : Except ListError Nat × σ} (hx : l.writeTasks m count tasks s = some x) :
    ∃ x', l'.writeTasks m count tasks s = some x' := by
  refine Lister.writeTasks.partial_correctness l m
    (fun count tasks s _ => ∃ x', l'.writeTasks m count tasks s = some x') ?_ count tasks s x hx
  rintro writeTasks ih count (_ | ⟨task, rest⟩) s x hr
  · exact ⟨_, by rw [Lister.writeTasks]⟩
  · rw [Lister.writeTasks]
    rcases Walk.perform_asks (d := m.disk s) h task rest with
      ⟨e, hp⟩ | ⟨hnext, ⟨hq, hq'⟩ | ⟨q, q', hq, hq', hextended⟩⟩
    · simp only [hp]
      exact ⟨_, rfl⟩
    · simp only [hq, ← hnext] at hr
      simp only [hq']
      exact ih _ _ _ _ hr
    · simp only [hq, ← hnext] at hr
      simp only [hq', h.line q q' hextended]
      split at hr
      next => exact ⟨_, rfl⟩
      next => exact ih _ _ _ _ hr

namespace Listing

theorem writeFolders_asks (h : l.Asks l' extras) {count : Nat} {folders : List Path} {s : σ}
    (hf : ¬FailsByProperty (writeFolders m l' count folders s)) :
    writeFolders m l count folders s = writeFolders m l' count folders s := by
  induction folders generalizing count s with
  | nil => rfl
  | cons folder rest ih =>
    rw [writeFolders] at hf ⊢
    rw [writeFolders]
    cases hstart : Walk.start (m.disk s) folder with
    | error e => rfl
    | ok tasks =>
      rw [hstart] at hf
      dsimp only at hf ⊢
      have hwalk : (l.writeTasks m count tasks s).getD (.ok count, s)
          = (l'.writeTasks m count tasks s).getD (.ok count, s) := by
        cases hw : l'.writeTasks m count tasks s with
        | some x =>
          have hx : ¬FailsByProperty x := by
            obtain ⟨result, s'⟩ := x
            rintro ⟨e, rfl⟩
            rw [hw] at hf
            exact hf ⟨e, rfl⟩
          rw [Lister.writeTasks_asks h hw hx]
        | none =>
          cases hl : l.writeTasks m count tasks s with
          | none => rfl
          | some x =>
            obtain ⟨x', hx'⟩ := Lister.exists_writeTasks_asks h hl
            rw [hw] at hx'
            cases hx'
      rw [hwalk]
      split
      next => rfl
      next hx =>
        rw [hx] at hf
        exact ih hf

/-- If no property fails, a whole listing is written the same with the properties asked for. -/
theorem write_asks (h : l.Asks l' extras) (hheader : l'.options.header = l.options.header)
    (hfooter : l'.options.footer = l.options.footer) {folders : List Path} {s : σ}
    (hf : ¬FailsByProperty (write m l' folders s)) : write m l folders s = write m l' folders s := by
  rw [write] at hf ⊢
  rw [write]
  rw [hheader, hfooter] at hf ⊢
  split
  next => rfl
  next hw =>
    rw [hw] at hf
    dsimp only at hf
    rw [writeFolders_asks h]
    rintro ⟨e, he⟩
    rw [show writeFolders m l' 0 folders _ = (.error (.property e), _) from Prod.ext he rfl] at hf
    exact hf ⟨e, rfl⟩

end Listing

end

section
variable {extras : List String} {l l' : Lister} {d : Disk}

/-- If nothing fails, a walk gives the same records but for the properties asked for. -/
theorem Lister.run_asks (h : l.Asks l' extras) {tasks : List Walk.Task} {records' : List Record}
    (hr : l'.run d tasks = some (records'.map .ok)) :
    ∃ records, l.run d tasks = some (records.map .ok) ∧
      List.Forall₂ (Record.ExtendedBy l extras) records records' := by
  refine Lister.run.partial_correctness l' d (fun tasks outcomes => ∀ records' : List Record,
    outcomes = records'.map .ok → ∃ records, l.run d tasks = some (records.map .ok) ∧
      List.Forall₂ (Record.ExtendedBy l extras) records records') ?_ tasks _ hr records' rfl
  rintro run ih (_ | ⟨task, rest⟩) outcomes hr records' rfl
  · obtain rfl : records' = [] := by simpa using hr
    exact ⟨[], by rw [Lister.run]; rfl, .nil⟩
  · rw [Walk.run_cons]
    rcases Walk.perform_asks (d := d) h task rest with
      ⟨e, hp⟩ | ⟨hnext, ⟨hq, hq'⟩ | ⟨q, q', hq, hq', hextended⟩⟩
    · simp only [hp] at hr
      obtain ⟨others, -, he⟩ := Option.bind_eq_some_iff.mp hr
      cases records' <;> cases he
    · simp only [hq', hnext] at hr
      obtain ⟨records, hrun, hrel⟩ := ih _ _ hr records' rfl
      exact ⟨records, by rw [hrun, hq]; rfl, hrel⟩
    · simp only [hq', hnext] at hr
      obtain ⟨others, ho, he⟩ := Option.bind_eq_some_iff.mp hr
      cases records' with
      | nil => cases he
      | cons first records' =>
        obtain ⟨hfirst, rfl⟩ := List.cons.inj (Option.some.inj he)
        obtain rfl := Except.ok.inj hfirst
        obtain ⟨records, hrun, hrel⟩ := ih _ _ ho records' rfl
        exact ⟨q :: records, by rw [hrun, hq]; rfl, .cons hextended hrel⟩

/-- A step that is done in front of fewer tasks leaves fewer. -/
theorem Walk.perform_sublist (task : Task) {rest rest' : List Task} (h : rest'.Sublist rest) :
    (perform d l task rest').2.Sublist (perform d l task rest).2 := by
  have henter : ∀ i, (enter d l i rest').2.Sublist (enter d l i rest).2 := by
    intro i
    rw [enter, enter]
    split
    · exact h
    · exact h.append_left _
  cases task with
  | enter i => exact henter i
  | visit i =>
    rw [perform, perform]
    split
    · exact h
    · split
      · exact henter i
      · exact h
  | ellipsis i => exact h
  | leave i => exact h

/-- Tasks that come to an end do so with the properties asked for, where some of them may fail and leave out
others. -/
theorem Lister.exists_run_asks (h : l.Asks l' extras) {tasks tasks' : List Walk.Task}
    {outcomes : List Signal.Outcome} (hr : l.run d tasks = some outcomes) (hs : tasks'.Sublist tasks) :
    ∃ outcomes', l'.run d tasks' = some outcomes' := by
  refine Lister.run.partial_correctness l d
    (fun tasks _ => ∀ tasks' : List Walk.Task, tasks'.Sublist tasks →
      ∃ outcomes', l'.run d tasks' = some outcomes') ?_ tasks outcomes hr tasks' hs
  rintro run ih (_ | ⟨task, rest⟩) outcomes hr tasks' hs
  · rw [List.sublist_nil.mp hs, Lister.run]
    exact ⟨_, rfl⟩
  · obtain ⟨later, hlater⟩ : ∃ later, run (Walk.perform d l task rest).2 = some later := by
      simp only at hr
      split at hr
      next =>
        obtain ⟨later, hlater, -⟩ := Option.bind_eq_some_iff.mp hr
        exact ⟨later, hlater⟩
      next => exact ⟨outcomes, hr⟩
    have hrest : rest.Sublist (Walk.perform d l task rest).2 := by
      rcases (Walk.perform_cases (d := d) (l := l) task rest).2 with hnext | ⟨-, hnext⟩
      · rw [hnext]
      · rw [hnext]
        exact List.sublist_append_right _ _
    cases hs with
    | cons _ hs => exact ih _ _ hlater _ (hs.trans hrest)
    | @cons_cons rest' _ _ hs =>
      have hnext : (Walk.perform d l' task rest').2.Sublist (Walk.perform d l task rest).2 := by
        rcases Walk.perform_asks (d := d) h task rest' with ⟨e, hp⟩ | ⟨hnext, -⟩
        · rw [hp]
          exact hs.trans hrest
        · rw [hnext]
          exact Walk.perform_sublist task hs
      obtain ⟨outcomes', ho⟩ := ih _ _ hlater _ hnext
      exact ⟨_, by rw [Walk.run_cons, ho]; rfl⟩

theorem Lister.walk_asks (h : l.Asks l' extras) {folder : Path} {records' : List Record}
    (hw : l'.walk d folder = .ok (records'.map .ok)) :
    ∃ records, l.walk d folder = .ok (records.map .ok) ∧
      List.Forall₂ (Record.ExtendedBy l extras) records records' := by
  obtain ⟨tasks, hstart, hrecords⟩ := map_eq_ok.mp hw
  have hwalk : l.walk d folder = .ok ((l.run d tasks).getD []) := by
    rw [walk, hstart]
    rfl
  rw [hwalk]
  cases hr : l'.run d tasks with
  | some outcomes =>
    rw [hr, Option.getD_some] at hrecords
    obtain ⟨records, hrun, hrel⟩ := run_asks h (hrecords ▸ hr)
    exact ⟨records, by rw [hrun]; rfl, hrel⟩
  | none =>
    have hnone : l.run d tasks = none := by
      rw [Option.eq_none_iff_forall_ne_some]
      intro outcomes hrun
      obtain ⟨outcomes', ho⟩ := exists_run_asks h hrun (List.Sublist.refl tasks)
      rw [hr] at ho
      cases ho
    obtain rfl : records' = [] := by simpa [hr] using hrecords.symm
    exact ⟨[], by rw [hnone]; rfl, .nil⟩

theorem Listing.walked_asks (h : l.Asks l' extras) {folder : Path} {records' : List Record}
    (hw : Walked l' d folder records') :
    ∃ records, Walked l d folder records ∧ List.Forall₂ (Record.ExtendedBy l extras) records records' := by
  obtain ⟨tasks, hstart, hr⟩ := hw
  obtain ⟨records, hrun, hrel⟩ := Lister.run_asks h hr
  exact ⟨records, ⟨tasks, hstart, hrun⟩, hrel⟩

theorem Lister.map_line_asks (h : l.Asks l' extras) {records records' : List Record}
    (hr : List.Forall₂ (Record.ExtendedBy l extras) records records') :
    records'.map l'.line = records.map l.line := by
  induction hr with
  | nil => rfl
  | cons hq _ ih => rw [List.map_cons, List.map_cons, h.line _ _ hq, ih]

namespace Replay

theorem depthOf_asks (h : l.Asks l' extras) (p : Props) : depthOf l' p = depthOf l p := by
  obtain ⟨-, _, _, _, ho⟩ := h.options
  rw [depthOf, ho]
  rfl

theorem step_asks (h : l.Asks l' extras) (s : State) (text : String) : step l' s text = step l s text := by
  have hclassify : ∀ s, classify l' s text = classify l s text := by
    intro s
    simp only [classify, root?, ellipsis?, h.reads, depthOf_asks h]
  have hplace : ∀ s kind p, place l' s text kind p = place l s text kind p := by
    intro s kind p
    obtain ⟨-, _, _, _, ho⟩ := h.options
    simp only [place, depthOf_asks h, ho]
  simp only [step, hclassify, hplace]

theorem replay_asks (h : l.Asks l' extras) (bytes : List UInt8) : l'.replay bytes = l.replay bytes := by
  have hread : ∀ lines s, readLines l' s lines = readLines l s lines := by
    intro lines
    induction lines with
    | nil => exact fun _ => rfl
    | cons bytes lines ih =>
      intro s
      rw [readLines, readLines]
      split
      · rfl
      · obtain ⟨-, _, _, _, ho⟩ := h.options
        rw [ho]
        simp only [step_asks h, ih]
  rw [Lister.replay, Lister.replay, State.start, State.start, h.closes, hread]

end Replay

end

/-- Properties asked for that are known are only recorded. Templates are made ready, or fail, just as without
them. If they are ready, then every listing that does not fail by a property is written as without them, every
text is read as without them, and a walk that does not fail gives the records that it gives without them, each
with the properties asked for that its pattern does not have behind those that it has. -/
theorem extra_properties_only_recorded {o : Options} {r : Registry} {extras : List String}
    (hx : ∀ name ∈ extras, (r.get? name).isSome = true) :
    (∀ e, Lister.compile (o.asking extras) r = .error e ↔ Lister.compile (o.asking []) r = .error e) ∧
    ∀ l l', Lister.compile (o.asking []) r = .ok l → Lister.compile (o.asking extras) r = .ok l' →
      (∀ (σ : Type) (m : Medium σ) (folders : List Path) (s : σ),
        ¬FailsByProperty (Listing.write m l' folders s) →
        Listing.write m l' folders s = Listing.write m l folders s) ∧
      (∀ bytes, l'.replay bytes = l.replay bytes) ∧
      ∀ (d : Disk) (folder : Path) (records' : List Record), l'.walk d folder = .ok (records'.map .ok) →
        ∃ records, l.walk d folder = .ok (records.map .ok) ∧
          List.Forall₂ (Record.ExtendedBy l extras) records records' := by
  refine ⟨fun e => ?_, fun l l' hl hl' => ?_⟩
  · rw [Lister.compile_asking (o.sameLines_asking extras) hx, map_eq_error]
  · have hasks := Lister.asks_of_compile (o.sameLines_asking extras) hx hl hl'
    have hoptions : l'.options = l.options.asking extras := by
      rw [Lister.options_eq hl, Lister.options_eq hl']
      rfl
    have hheader : l'.options.header = l.options.header := by rw [hoptions]; rfl
    have hfooter : l'.options.footer = l.options.footer := by rw [hoptions]; rfl
    exact ⟨fun σ m folders s hf => (Listing.write_asks hasks hheader hfooter hf).symm, Replay.replay_asks hasks,
      fun d folder records' hw => Lister.walk_asks hasks hw⟩

/-- What a folder with one file has to list with its name and twice its depth asked for. -/
def namedRecords : List Record :=
  [⟨.root, ⟨""⟩, some 0, .ofList [("indent", ""), ("depth", "0"), ("name", "t")]⟩,
    ⟨.file, ⟨"f"⟩, some 1, .ofList [("indent", " "), ("name", "f"), ("depth", "1")]⟩]

theorem extra_properties_only_recorded_oneFile : ∃ l l',
    Lister.compile (Options.asking {} []) .core = .ok l ∧
    Lister.compile (Options.asking {} ["depth", "name", "depth"]) .core = .ok l' ∧
    Listing.write .memory l' [⟨"/t"⟩] ⟨.oneFile "f", #[]⟩ = Listing.write .memory l [⟨"/t"⟩] ⟨.oneFile "f", #[]⟩ ∧
    l'.walk (.oneFile "f") ⟨"/t"⟩ = .ok (namedRecords.map .ok) ∧
    ∃ records, l.walk (.oneFile "f") ⟨"/t"⟩ = .ok (records.map .ok) ∧
      List.Forall₂ (Record.ExtendedBy l ["depth", "name", "depth"]) records namedRecords := by
  have hx : ∀ name ∈ ["depth", "name", "depth"], (Registry.core.get? name).isSome = true := by decide
  obtain ⟨l, hl⟩ : ∃ l, Lister.compile (Options.asking {} []) .core = .ok l :=
    exists_eq_ok_of_isOk (by decide +kernel)
  obtain ⟨l', hl'⟩ : ∃ l', Lister.compile (Options.asking {} ["depth", "name", "depth"]) .core = .ok l' :=
    exists_eq_ok_of_isOk (by decide +kernel)
  have hw : l'.walk (.oneFile "f") ⟨"/t"⟩ = .ok (namedRecords.map .ok) :=
    walk_oneFile_of_compile hl' ⟨by decide, by decide, by decide, by decide⟩ (by decide +kernel)
  obtain ⟨hwrite, -, hwalk⟩ := (extra_properties_only_recorded hx).2 l l' hl hl'
  have hwalked : Listing.Walked l' (.oneFile "f") ⟨"/t"⟩ namedRecords := by
    obtain ⟨tasks, hstart, hrecords⟩ := map_eq_ok.mp hw
    refine ⟨tasks, hstart, ?_⟩
    cases hr : l'.run (.oneFile "f") tasks with
    | none =>
      rw [hr] at hrecords
      cases hrecords
    | some outcomes =>
      rw [hr, Option.getD_some] at hrecords
      rw [hrecords]
  obtain ⟨s, hs, -⟩ := Listing.write_memory (.cons hwalked .nil)
  refine ⟨l, l', hl, hl', hwrite _ _ _ _ ?_, hw, hwalk _ _ _ hw⟩
  rintro ⟨e, he⟩
  rw [hs] at he
  cases he

end TreeListing
