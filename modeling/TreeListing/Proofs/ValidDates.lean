import TreeListing.CommandLine
import TreeListing.Proofs.Extract
import TreeListing.Proofs.Recursion

/-!
Formats of dates that pass the check of the options. The check asks whether every specifier stands for
something, and one of them stands for an offset that can be read but not written. Without it every date is
written, and no listing fails for its dates; the main statement is `checked_dates_written_iff`.
-/
namespace TreeListing

namespace DateFormat

open DatePiece FixedField

theorem isSome_mapM_iff {α β : Type} {f : α → Option β} {xs : List α} :
    (xs.mapM f).isSome = true ↔ ∀ x ∈ xs, (f x).isSome = true := by
  induction xs with
  | nil => simp
  | cons x xs ih =>
    rw [List.forall_mem_cons, ← ih, List.mapM_cons]
    cases f x with
    | none => simp
    | some y => cases xs.mapM f <;> simp

/-- Only an offset of any kind cannot be written. -/
theorem isSome_renderPiece?_iff (m : Moment) (piece : DatePiece) :
    (renderPiece? m piece).isSome = true ↔ piece ≠ fixed offsetAny := by
  cases piece with
  | text c => simp [renderPiece?]
  | number field padding => simp [renderPiece?]
  | fixed field => cases field <;> simp [renderPiece?, renderFixed?]

theorem isSome_render?_iff {format : String} {pieces : List DatePiece}
    (h : parse? format.toList = some pieces) (t : Instant) :
    (render? format t).isSome = true ↔ fixed offsetAny ∉ pieces := by
  have hmap : render? format t
      = (pieces.mapM (renderPiece? t.moment)).map fun texts => String.ofList texts.flatten := by
    simp only [render?, h, Option.bind_eq_bind, Option.bind_some]
    cases pieces.mapM (renderPiece? t.moment) <;> rfl
  rw [hmap, Option.isSome_map, isSome_mapM_iff]
  simp only [isSome_renderPiece?_iff]
  exact ⟨fun hall hm => hall _ hm rfl, fun hm piece hp he => hm (he ▸ hp)⟩

end DateFormat

/-- Options that come from the usual ones through options files and flags. -/
inductive Options.IsChecked : Options → Prop
  | usual : IsChecked {}
  | file {o o' : Options} {text : String} (h : IsChecked o) (ho : OptionsFile.apply o text = (.ok (), o')) :
      IsChecked o'
  | flags {o o' : Options} {f : ListingFlags} (ho : f.apply o = .ok o') : IsChecked o'

namespace OptionsFile

variable {format : String} {o o' : Options}

theorem isValid_of_checkDateFormat (h : checkDateFormat format = .ok ()) :
    DateFormat.isValid format = true := by
  rw [checkDateFormat] at h
  split at h
  next hv => exact hv
  next => cases h

/-- A file is checked as a whole, and one without documents changes nothing. -/
theorem isValid_of_apply {text : String} (ho : DateFormat.isValid o.dateFormat = true)
    (h : apply o text = (.ok (), o')) : DateFormat.isValid o'.dateFormat = true := by
  delta apply at h
  split at h
  next => cases h
  next =>
    obtain ⟨-, rfl⟩ := Prod.mk.inj h
    exact ho
  next =>
    split at h
    next =>
      obtain ⟨hcheck, rfl⟩ := Prod.mk.inj h
      exact isValid_of_checkDateFormat hcheck
    next => cases h
  next => cases h

end OptionsFile

theorem ListingFlags.apply_of_isValid {f : ListingFlags} {o : Options}
    (h : DateFormat.isValid (f.overlay o).dateFormat = true) : f.apply o = .ok (f.overlay o) := by
  rw [apply, OptionsFile.checkDateFormat, if_pos h]
  rfl

theorem Options.IsChecked.isValid {o : Options} (h : o.IsChecked) :
    DateFormat.isValid o.dateFormat = true := by
  induction h with
  | usual => decide
  | file _ ho ih => exact OptionsFile.isValid_of_apply ih ho
  | flags ho =>
    obtain ⟨_, hcheck, he⟩ := bind_eq_ok.mp ho
    obtain rfl := Except.ok.inj he
    exact OptionsFile.isValid_of_checkDateFormat hcheck

namespace Property

variable {d : Disk} {o : Options} {i : Item} {p : Property} {e : ItemError}

theorem ne_dateFormat_of_metadata (h : i.metadata d = .error e) (format : String) :
    e ≠ .dateFormat format := by
  obtain ⟨cause, -, rfl⟩ := mapError_eq_error.mp h
  intro he
  cases he

theorem ne_dateFormat_of_contentHash (h : i.contentHash d = .error e) (format : String) :
    e ≠ .dateFormat format := by
  rcases bind_eq_error.mp h with h | ⟨m, -, h⟩
  · exact ne_dateFormat_of_metadata h format
  · rw [Item.hashOf] at h
    split at h
    next =>
      obtain ⟨cause, -, rfl⟩ := mapError_eq_error.mp h
      intro he
      cases he
    next => cases h

theorem dateText_ne_error {t : Instant} (hr : (DateFormat.render? o.dateFormat t).isSome = true)
    (e : ItemError) : dateText o.dateFormat t ≠ .error e := by
  obtain ⟨text, ht⟩ := Option.isSome_iff_exists.mp hr
  rw [dateText, ht]
  intro he
  cases he

/-- If every date can be written, what fails is never the format of dates. -/
theorem ne_dateFormat_of_extract (hr : ∀ t, (DateFormat.render? o.dateFormat t).isSome = true)
    (h : p.extract d o i = .error e) (format : String) : e ≠ .dateFormat format := by
  cases p with
  | size => exact ne_dateFormat_of_metadata (map_eq_error.mp (map_eq_error.mp h)) format
  | cdate =>
    rcases bind_eq_error.mp h with h | ⟨t, -, h⟩
    · exact ne_dateFormat_of_metadata (map_eq_error.mp h) format
    · exact absurd h (dateText_ne_error (hr t) e)
  | mdate =>
    rcases bind_eq_error.mp h with h | ⟨t, -, h⟩
    · exact ne_dateFormat_of_metadata (map_eq_error.mp h) format
    · exact absurd h (dateText_ne_error (hr t) e)
  | ndate =>
    rcases bind_eq_error.mp h with h | ⟨changed, -, h⟩
    · exact ne_dateFormat_of_metadata (map_eq_error.mp h) format
    · rcases bind_eq_error.mp h with h | ⟨modified, -, h⟩
      · exact ne_dateFormat_of_metadata (map_eq_error.mp h) format
      · exact absurd h (dateText_ne_error (hr _) e)
  | hash => exact ne_dateFormat_of_contentHash h format
  | _ => cases h

theorem exists_render_of_extract (hp : p ∈ [cdate, mdate, ndate]) {value : String}
    (h : p.extract d o i = .ok value) : ∃ t, DateFormat.render? o.dateFormat t = some value := by
  simp only [List.mem_cons, List.not_mem_nil, or_false] at hp
  rcases hp with rfl | rfl | rfl
  · obtain ⟨t, -, h⟩ := bind_eq_ok.mp h
    exact ⟨t, dateText_eq_ok h⟩
  · obtain ⟨t, -, h⟩ := bind_eq_ok.mp h
    exact ⟨t, dateText_eq_ok h⟩
  · obtain ⟨changed, -, h⟩ := bind_eq_ok.mp h
    obtain ⟨modified, -, h⟩ := bind_eq_ok.mp h
    exact ⟨_, dateText_eq_ok h⟩

end Property

namespace Lister

variable {o : Options} {r : Registry} {l : Lister} {d : Disk}

theorem record?_of_error_mem_outcomes {kind : Kind} {i : Item} {e : ListError}
    (h : .error e ∈ l.outcomes d kind i) : l.record? d kind i = .error e := by
  rw [outcomes, Option.mem_toList] at h
  cases hr : l.record? d kind i with
  | error cause => simpa [hr, Walk.yieldOf] using h
  | ok record? => cases record? <;> simp [hr, Walk.yieldOf] at h

/-- What fails in a walk is the record of some item. -/
theorem exists_of_error_mem_walk {folder : Path} {os : List Signal.Outcome} (hw : l.walk d folder = .ok os)
    {e : ListError} (he : .error e ∈ os) : ∃ kind i, l.record? d kind i = .error e := by
  obtain ⟨kind, i, ho⟩ := exists_of_mem_walk hw he
  exact ⟨kind, i, record?_of_error_mem_outcomes ho⟩

/-- The format of dates in options that were checked stands for a row of pieces. Dates are written in it, at
every instant, just if no piece is an offset of any kind. Then no record of any lister with the options fails
for its dates, and no walk does; with such an offset no entry has a record that shows a date. -/
theorem checked_dates_written_iff (ho : o.IsChecked) :
    ∃ pieces, DateFormat.parse? o.dateFormat.toList = some pieces ∧
      (∀ t, (DateFormat.render? o.dateFormat t).isSome = true ↔ .fixed .offsetAny ∉ pieces) ∧
      ∀ r l, compile o r = .ok l →
        (.fixed .offsetAny ∉ pieces → ∀ d format,
          (∀ kind i, l.record? d kind i ≠ .error (.property (.dateFormat format))) ∧
          ∀ folder os, l.walk d folder = .ok os → .error (.property (.dateFormat format)) ∉ os) ∧
        (.fixed .offsetAny ∈ pieces → ∀ kind t, l.template? kind = some t →
          (∃ x ∈ t.properties, x.2 ∈ [.cdate, .mdate, .ndate]) → ∀ d i record,
            l.record? d kind i ≠ .ok (some record)) := by
  obtain ⟨pieces, hp⟩ := Option.isSome_iff_exists.mp ho.isValid
  have hwritten := DateFormat.isSome_render?_iff hp
  refine ⟨pieces, hp, hwritten, fun r l hl => ⟨fun hm d format => ?_, ?_⟩⟩
  · have hrecord : ∀ kind i, l.record? d kind i ≠ .error (.property (.dateFormat format)) := by
      intro kind i h
      obtain ⟨t, cause, ht, hprops, he⟩ := exists_of_record?_eq_error h
      obtain rfl := ListError.property.inj he
      obtain ⟨_, -, hc⟩ := compiled_of_template? hl ht
      obtain ⟨x, -, hx⟩ := Template.exists_of_props_eq_error hprops
      exact Property.ne_dateFormat_of_extract (fun time => (hwritten time).mpr hm) (hc.options ▸ hx) format rfl
    refine ⟨hrecord, fun folder os hw he => ?_⟩
    obtain ⟨kind, i, h⟩ := exists_of_error_mem_walk hw he
    exact hrecord kind i h
  · rintro hm kind t ht ⟨x, hx, hdate⟩ d i record h
    obtain ⟨t', p, ht', hprops, -⟩ := record?_eq_some h
    obtain rfl := Option.some.inj (ht.symm.trans ht')
    obtain ⟨_, -, hc⟩ := compiled_of_template? hl ht
    obtain ⟨value, -, hv⟩ := hc.exists_of_mem_properties hprops hx
    obtain ⟨time, htime⟩ := Property.exists_render_of_extract hdate hv
    exact (hwritten time).mp (by rw [htime]; rfl) hm

theorem checked_dates_written_iff_isoDate : ∃ o l,
    ListingFlags.apply { showDate := true, dateFormat? := some "%Y-%m-%d" } {} = .ok o ∧
      compile o .core = .ok l ∧ (∀ t, (DateFormat.render? "%Y-%m-%d" t).isSome = true) ∧
      ∀ d folder os format, l.walk d folder = .ok os → .error (.property (.dateFormat format)) ∉ os := by
  let f : ListingFlags := { showDate := true, dateFormat? := some "%Y-%m-%d" }
  have happly : f.apply {} = .ok (f.overlay {}) := ListingFlags.apply_of_isValid (by decide +kernel)
  obtain ⟨l, hl⟩ : ∃ l, compile (f.overlay {}) .core = .ok l := exists_eq_ok_of_isOk (by decide +kernel)
  obtain ⟨pieces, hp, hwritten, hfails⟩ := checked_dates_written_iff (.flags happly)
  have hm : .fixed .offsetAny ∉ pieces := by
    have hdate : DateFormat.parse? "%Y-%m-%d".toList = some
        [.number .year .zeros, .text '-', .number .month .zeros, .text '-', .number .day .zeros] := by
      decide +kernel
    obtain rfl := Option.some.inj (hdate.symm.trans hp)
    decide
  exact ⟨_, l, happly, hl, fun t => (hwritten t).mpr hm,
    fun d folder os format => ((hfails _ l hl).1 hm d format).2 folder os⟩

/-- An offset of any kind passes the check, and then no date is written. -/
theorem valid_date_not_written : ∃ o l,
    ListingFlags.apply { showDate := true, dateFormat? := some "%#z" } {} = .ok o ∧
      (∀ t, DateFormat.render? o.dateFormat t = none) ∧ compile o .core = .ok l ∧
      l.record? (.oneFile "f") .file (.below ⟨"/t"⟩ ["f"] false) = .error (.property (.dateFormat "%#z")) := by
  let f : ListingFlags := { showDate := true, dateFormat? := some "%#z" }
  have happly : f.apply {} = .ok (f.overlay {}) := ListingFlags.apply_of_isValid (by decide +kernel)
  have hfails : (compile (f.overlay {}) .core).toOption.any (fun l => decide
      (l.record? (.oneFile "f") .file (.below ⟨"/t"⟩ ["f"] false)
        = .error (.property (.dateFormat "%#z")))) = true := by
    decide +kernel
  obtain ⟨l, hl, hfails⟩ := exists_eq_ok_of_any hfails
  have hoffset : DateFormat.parse? "%#z".toList = some [.fixed .offsetAny] := by decide +kernel
  refine ⟨_, l, happly, fun t => ?_, hl, of_decide_eq_true hfails⟩
  exact Option.not_isSome_iff_eq_none.mp fun h => (DateFormat.isSome_render?_iff hoffset t).mp h (by decide)

end Lister

end TreeListing
