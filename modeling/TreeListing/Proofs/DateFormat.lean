import TreeListing.Proofs.Fragment

/-!
How dates are written, and which of them the expression for their format recognises. The expression is
made from the format character by character, so it agrees with the writing as long as every specifier
is a single letter.
-/
namespace TreeListing

open Regex (Filled Matches MatchesAll)
open Regex.Parser (Reads)

namespace CharSet

theorem digit_contains {c : Char} (h : c.isDigit = true) : digit.contains c = true :=
  Text.isDigit_of_asciiDigit h

end CharSet

theorem filled_append {set : CharSet} {u v : List Char} (hu : ∀ c ∈ u, set.contains c = true)
    (hv : Filled set v) : Filled set (u ++ v) :=
  ⟨fun h => hv.1 (List.append_eq_nil_iff.mp h).2, fun c hc => (List.mem_append.mp hc).elim (hu c) (hv.2 c)⟩

theorem filled_notMem {set : CharSet} {c : Char} (h : set.contains c = false) {u : List Char}
    (hu : Filled set u) : c ∉ u := fun hm => by simp [hu.2 c hm] at h

theorem flatten_notMem {set : CharSet} {c : Char} (h : set.contains c = false) {n : Nat}
    {us : List (List Char)}
    (hu : List.Forall₂ (fun language v => language v) (List.replicate n (Filled set)) us) :
    c ∉ us.flatten := by
  induction n generalizing us with
  | zero =>
    cases hu
    exact List.not_mem_nil
  | succ n ih =>
    cases hu with
    | cons hv hu =>
      rw [List.flatten_cons, List.mem_append, not_or]
      exact ⟨filled_notMem h hv, ih hu⟩

theorem filled_toDigits (n : Nat) : Filled .digit (Nat.toDigits 10 n) :=
  ⟨Nat.toDigits_ne_nil, fun _ hc =>
    CharSet.digit_contains (Nat.isDigit_of_mem_toDigits (by decide) (by decide) hc)⟩

/-- The parts of the day are small enough for the places that they are written in. -/
structure Day.IsProper (d : Day) : Prop where
  month : d.month ≤ 12
  day : d.day < 100
  ordinal : d.ordinal < 600
  weekday : d.weekday < 7

theorem Day.isProper_ofNumber (n : Int) : (Day.ofNumber n).IsProper := by
  have hera : ((n + marchShift).fmod 146097).toNat < 146097 := by
    have := Int.fmod_lt_of_pos (n + marchShift) (b := 146097) (by decide)
    omega
  have hweekday : ((n + 4).fmod 7).toNat < 7 := by
    have := Int.fmod_lt_of_pos (n + 4) (b := 7) (by decide)
    omega
  simp only [Day.ofNumber]
  generalize ((n + marchShift).fmod 146097).toNat = dayOfEra at hera ⊢
  generalize hyear : (dayOfEra - dayOfEra / 1460 + dayOfEra / 36524 - dayOfEra / 146096) / 365
    = yearOfEra
  have hday : dayOfEra - (365 * yearOfEra + yearOfEra / 4 - yearOfEra / 100) ≤ 366 := by omega
  generalize dayOfEra - (365 * yearOfEra + yearOfEra / 4 - yearOfEra / 100) = dayOfYear at hday ⊢
  constructor <;> simp only
  · split <;> omega
  · omega
  · repeat' split
    all_goals omega
  · exact hweekday

theorem Day.isoWeek_lt {d : Day} (h : d.IsProper) : d.isoWeek.2 < 100 := by
  have hweeks : ∀ year, Day.weeksOf year < 100 := by
    intro year
    rw [Day.weeksOf]
    split <;> decide
  have hordinal := h.ordinal
  rw [Day.isoWeek]
  split
  · exact hweeks _
  · split
    · exact (by decide : 1 < 100)
    · simp only
      omega

structure Moment.IsProper (m : Moment) : Prop where
  day : m.day.IsProper
  year : 0 ≤ m.day.year ∧ m.day.year ≤ 9999
  hour : m.hour < 24
  minute : m.minute < 60
  second : m.second < 60

namespace DateFormat

open DatePiece NumericField FixedField Padding

section
variable {m : Moment} {padding : Padding}

theorem filled_two {n : Nat} (hn : n < 100) (hp : padding ≠ spaces) : Filled .digit (two padding n) := by
  have hdigit : ∀ k < 10, CharSet.digit.contains (Char.ofNat (48 + k)) = true := by decide
  have hones := hdigit (n % 10) (by omega)
  have htens := hdigit (n / 10) (by omega)
  unfold two
  split
  · exact ⟨by simp, by simpa using hones⟩
  · exact absurd rfl hp
  · exact ⟨by simp, by simpa using ⟨htens, hones⟩⟩

theorem filled_wide (width n : Nat) (hp : padding ≠ spaces) :
    Filled .digit (wide width false padding n) := by
  have hneg : ¬ (n : Int) < 0 := by omega
  unfold wide
  rw [if_neg hneg]
  cases padding with
  | zeros =>
    refine filled_append (fun c hc => ?_) (filled_toDigits _)
    rw [List.eq_of_mem_replicate ((List.mem_append.mp hc).resolve_left List.not_mem_nil)]
    decide
  | spaces => exact absurd rfl hp
  | nothing => exact filled_toDigits _

theorem filled_year {year : Int} (h : 0 ≤ year) (h' : year ≤ 9999) (hp : padding ≠ spaces) :
    Filled .digit (yearText padding year) := by
  obtain ⟨n, rfl⟩ := Int.eq_ofNat_of_zero_le h
  have hsigned : (decide ((n : Int) < 0) || decide (9999 < (n : Int))) = false := by
    rw [Bool.or_eq_false_iff, decide_eq_false_iff_not, decide_eq_false_iff_not]
    exact ⟨Int.not_lt.mpr h, Int.not_lt.mpr h'⟩
  rw [yearText, hsigned]
  exact filled_wide 4 n hp

/-- The numbers that are written without a sign and in places enough. -/
def IsPlain (field : NumericField) : Prop := field ∉ [century, isoYear, stamp]

instance (field : NumericField) : Decidable (IsPlain field) :=
  inferInstanceAs (Decidable (field ∉ [century, isoYear, stamp]))

theorem filled_renderNumber (hm : m.IsProper) {field : NumericField} (hf : IsPlain field)
    (hp : padding ≠ spaces) : Filled .digit (renderNumber m padding field) := by
  obtain ⟨hmonth, hday, hordinal, hweekday⟩ := hm.day
  have hhour := hm.hour
  have hminute := hm.minute
  have hsecond := hm.second
  cases field with
  | year => exact filled_year hm.year.1 hm.year.2 hp
  | century => exact absurd (by decide) hf
  | yearOfCentury => exact filled_two (by omega) hp
  | isoYear => exact absurd (by decide) hf
  | isoYearOfCentury => exact filled_two (by omega) hp
  | quarter => exact filled_toDigits _
  | month => exact filled_two (by omega) hp
  | day => exact filled_two hday hp
  | ordinal => exact filled_wide 3 m.day.ordinal hp
  | sundayWeek => exact filled_two (by rw [Day.weekFrom]; omega) hp
  | mondayWeek => exact filled_two (by rw [Day.weekFrom]; omega) hp
  | isoWeek => exact filled_two (Day.isoWeek_lt hm.day) hp
  | sinceSunday => exact filled_toDigits _
  | fromMonday => exact filled_toDigits _
  | hour => exact filled_two (by omega) hp
  | hour12 => exact filled_two (by rw [hour12Of]; split <;> omega) hp
  | minute => exact filled_two (by omega) hp
  | second => exact filled_two (by omega) hp
  | nanosecond => exact filled_wide 9 m.nanos hp
  | stamp => exact absurd (by decide) hf

def EndsInDigit (u : List Char) : Prop := ∃ front c, u = front ++ [c] ∧ c.isDigit = true

theorem EndsInDigit.append {u : List Char} (h : EndsInDigit u) (front : List Char) :
    EndsInDigit (front ++ u) := by
  obtain ⟨front', c, rfl, hc⟩ := h
  exact ⟨front ++ front', c, (List.append_assoc _ _ _).symm, hc⟩

theorem endsInDigit_toDigits (n : Nat) : EndsInDigit (Nat.toDigits 10 n) :=
  ⟨_, _, (List.dropLast_append_getLast Nat.toDigits_ne_nil).symm,
    Nat.isDigit_of_mem_toDigits (by decide) (by decide) (List.getLast_mem Nat.toDigits_ne_nil)⟩

theorem endsInDigit_two (padding : Padding) (n : Nat) : EndsInDigit (two padding n) := by
  have hdigit : ∀ k < 10, (Char.ofNat (48 + k)).isDigit = true := by decide
  have hones := hdigit (n % 10) (Nat.mod_lt n (by decide))
  unfold two
  split
  · exact ⟨[], _, rfl, hones⟩
  · exact ⟨[' '], _, rfl, hones⟩
  · exact ⟨[_], _, rfl, hones⟩

theorem endsInDigit_wide (width : Nat) (signed : Bool) (padding : Padding) (n : Int) :
    EndsInDigit (wide width signed padding n) := by
  unfold wide
  cases padding with
  | zeros => exact (endsInDigit_toDigits _).append _
  | spaces => exact (endsInDigit_toDigits _).append _
  | nothing => exact (endsInDigit_toDigits _).append _

theorem endsInDigit_renderNumber (m : Moment) (padding : Padding) (field : NumericField) :
    EndsInDigit (renderNumber m padding field) := by
  cases field <;>
    first
    | exact endsInDigit_two _ _
    | exact endsInDigit_wide _ _ _ _
    | exact endsInDigit_toDigits _

theorem endsInDigit_nanoDigits (count nanos : Nat) : EndsInDigit (nanoDigits count nanos) :=
  (endsInDigit_toDigits _).append _

theorem endsInDigit_fractionText {nanos : Nat} (h : fractionText nanos ≠ []) :
    EndsInDigit (fractionText nanos) := by
  unfold fractionText at h ⊢
  split_ifs at h ⊢
  all_goals first
    | exact absurd rfl h
    | exact (endsInDigit_nanoDigits _ nanos).append ['.']

theorem endsInDigit_offsetText (colons : Nat) : EndsInDigit (offsetText colons) := by
  have hzero : ∀ front, EndsInDigit (front ++ ['0']) := fun front => ⟨front, '0', rfl, by decide⟩
  unfold offsetText
  split
  · exact hzero "+000".toList
  · exact hzero "+00:0".toList
  · exact hzero "+00:00:0".toList
  · exact hzero "+0".toList

/-- Only a fraction can be written as nothing, and only an offset of any kind not at all. -/
theorem exists_renderPiece (hm : m.IsProper) {piece : DatePiece}
    (hp : piece ∉ [fixed fraction, fixed offsetAny]) : ∃ u, renderPiece? m piece = some u ∧ u ≠ [] := by
  have hweekday : ∀ k < 7, (weekdayNames.getD k "").toList ≠ [] ∧
      (weekdayNames.getD k "").toList.take 3 ≠ [] := by decide
  have hmonth : ∀ k < 12, (monthNames.getD k "").toList ≠ [] ∧
      (monthNames.getD k "").toList.take 3 ≠ [] := by decide
  have hday := hweekday _ hm.day.weekday
  have hname := hmonth (m.day.month - 1) (by have := hm.day.month; omega)
  cases piece with
  | text c => exact ⟨_, rfl, List.cons_ne_nil _ _⟩
  | number field padding =>
    obtain ⟨front, c, he, -⟩ := endsInDigit_renderNumber m padding field
    exact ⟨_, rfl, by simp [he]⟩
  | fixed field =>
    cases field with
    | weekdayName => exact ⟨_, rfl, hday.1⟩
    | weekdayShort => exact ⟨_, rfl, hday.2⟩
    | monthName => exact ⟨_, rfl, hname.1⟩
    | monthShort => exact ⟨_, rfl, hname.2⟩
    | amPm upper => exact ⟨_, rfl, by split <;> simp⟩
    | fraction => exact absurd (by decide) hp
    | digits point count => exact ⟨_, rfl, by simp [nanoDigits, Text.padded]⟩
    | zoneName => exact ⟨_, rfl, by decide⟩
    | offset colons => exact ⟨_, rfl, by unfold offsetText; split <;> decide⟩
    | offsetAny => exact absurd (by decide) hp
    | rfc3339 =>
      refine ⟨_, rfl, fun h => ?_⟩
      exact absurd (List.append_eq_nil_iff.mp h).2 (by decide)

end

/-- Every specifier of the format is a single letter. -/
inductive IsSimple : List Char → Prop
  | nil : IsSimple []
  | text {c : Char} {rest : List Char} (hc : c ≠ '%') (h : IsSimple rest) : IsSimple (c :: rest)
  | specifier {c : Char} {pieces : List DatePiece} {rest : List Char} (hc : specifier? c = some pieces)
      (h : IsSimple rest) : IsSimple ('%' :: c :: rest)

/-- No letter of a specifier is a digit or one of the marks that stand in front of it. -/
theorem notMem_of_specifier {c : Char} {pieces : List DatePiece} (h : specifier? c = some pieces) :
    c.isDigit = false ∧ c ∉ [':', '#', '.', '-', '_', '0', '3', '6', '9'] := by
  unfold specifier? at h
  split at h
  all_goals first
    | decide
    | cases h

theorem ne_nil_of_specifier {c : Char} {pieces : List DatePiece} (h : specifier? c = some pieces) :
    pieces ≠ [] ∧ ∀ piece ∈ pieces, piece ∉ [fixed fraction, fixed offsetAny] := by
  unfold specifier? at h
  split at h
  all_goals first
    | cases h; decide
    | cases h

/-- The letters that stand for digits stand for one number each. -/
theorem exists_number {c : Char} (h : c ∈ digitSpecifiers) :
    ∃ field padding, specifier? c = some [number field padding] ∧ IsPlain field ∧ padding ≠ spaces := by
  have hletters : digitSpecifiers
      = ['w', 'd', 'm', 'y', 'Y', 'H', 'I', 'M', 'S', 'f', 'j', 'U', 'W', 'u', 'V'] := by decide +kernel
  rw [hletters] at h
  simp only [List.mem_cons, List.not_mem_nil, or_false] at h
  rcases h with rfl | rfl | rfl | rfl | rfl | rfl | rfl | rfl | rfl | rfl | rfl | rfl | rfl | rfl | rfl
  all_goals exact ⟨_, _, rfl, by decide, by decide⟩

section
variable {c : Char} {pieces : List DatePiece} {front : List Char} {m : Moment}

theorem parse?_text (hc : c ≠ '%') (rest : List Char) :
    parse? (c :: rest) = (parse? rest).map (text c :: ·) := by
  rw [parse?]
  · rfl
  all_goals intros; contradiction

theorem parse?_specifier (hc : specifier? c = some pieces) (rest : List Char) :
    parse? ('%' :: c :: rest) = (parse? rest).map (pieces ++ ·) := by
  have hmark := (notMem_of_specifier hc).2
  simp only [List.mem_cons, List.not_mem_nil, or_false, not_or] at hmark
  rw [parse?, hc]
  · cases parse? rest <;> rfl
  all_goals simp_all

theorem items_text (hc : c ≠ '%') (rest : List Char) :
    items (c :: rest) = .chars (.one c) :: items rest := by
  rw [items]
  all_goals intros; contradiction

/-- What the expression has for a specifier of this letter. -/
def item (c : Char) : Regex :=
  if c = '%' then .chars (.one '%')
  else .plus false (.chars (if digitSpecifiers.contains c then .digit else .dot))

theorem items_specifier (c : Char) (rest : List Char) : items ('%' :: c :: rest) = item c :: items rest := by
  by_cases hc : c = '%'
  · rw [hc, items]
    rfl
  · rw [items, item, if_neg hc]
    exact hc

theorem parse?_append (hf : IsSimple front) (rest : List Char) :
    parse? (front ++ rest) = (parse? front).bind fun pieces => (parse? rest).map (pieces ++ ·) := by
  induction hf with
  | nil => cases h : parse? rest <;> simp [parse?, h]
  | text hc _ ih =>
    rw [List.cons_append, parse?_text hc, parse?_text hc, ih]
    cases parse? _ <;> cases parse? rest <;> rfl
  | specifier hc _ ih =>
    rw [List.cons_append, List.cons_append, parse?_specifier hc, parse?_specifier hc, ih]
    cases parse? _ <;> cases parse? rest <;> simp

theorem items_append (hf : IsSimple front) (rest : List Char) :
    items (front ++ rest) = items front ++ items rest := by
  induction hf with
  | nil => rfl
  | text hc _ ih => rw [List.cons_append, items_text hc, items_text hc, ih, List.cons_append]
  | specifier hc _ ih =>
    rw [List.cons_append, List.cons_append, items_specifier, items_specifier, ih, List.cons_append]

/-- The moment is written as `u` by these pieces. -/
def Writes (m : Moment) (pieces : List DatePiece) (u : List Char) : Prop :=
  ∃ texts, pieces.mapM (renderPiece? m) = some texts ∧ u = texts.flatten

theorem Writes.append {ps qs : List DatePiece} {u v : List Char} (hu : Writes m ps u)
    (hv : Writes m qs v) : Writes m (ps ++ qs) (u ++ v) := by
  obtain ⟨us, hus, rfl⟩ := hu
  obtain ⟨vs, hvs, rfl⟩ := hv
  exact ⟨us ++ vs, by rw [List.mapM_append, hus, hvs]; rfl, List.flatten_append.symm⟩

theorem Writes.single {piece : DatePiece} {u : List Char} (h : renderPiece? m piece = some u) :
    Writes m [piece] u :=
  ⟨[u], by simp [h], by simp⟩

theorem exists_writes (hm : m.IsProper) (hne : pieces ≠ [])
    (hp : ∀ piece ∈ pieces, piece ∉ [fixed fraction, fixed offsetAny]) :
    ∃ u, Writes m pieces u ∧ u ≠ [] := by
  obtain ⟨piece, rest, rfl⟩ := List.exists_cons_of_ne_nil hne
  rw [List.forall_mem_cons] at hp
  obtain ⟨u, hu, hne⟩ := exists_renderPiece hm hp.1
  have hrest : ∃ v, Writes m rest v := by
    obtain ⟨-, hp⟩ := hp
    clear hne
    induction rest with
    | nil => exact ⟨[], [], rfl, rfl⟩
    | cons piece rest ih =>
      rw [List.forall_mem_cons] at hp
      obtain ⟨u, hu, -⟩ := exists_renderPiece hm hp.1
      obtain ⟨v, hv⟩ := ih (List.cons_ne_nil _ _) hp.2
      exact ⟨u ++ v, (Writes.single hu).append hv⟩
  obtain ⟨v, hv⟩ := hrest
  exact ⟨u ++ v, (Writes.single hu).append hv, by simp [hne]⟩

/-- A single letter is written as what the expression has for it, unless that has a line feed. -/
theorem writes_specifier (hm : m.IsProper) (hc : specifier? c = some pieces) :
    ∃ u, Writes m pieces u ∧ ('\n' ∉ u → ∀ before after, Matches (item c) before u after []) := by
  by_cases hpercent : c = '%'
  · subst hpercent
    obtain rfl := Option.some.inj hc
    refine ⟨['%'], Writes.single rfl, fun _ _ _ => ?_⟩
    rw [item, if_pos rfl]
    exact Regex.matches_one.mpr ⟨rfl, rfl⟩
  rw [item, if_neg hpercent]
  by_cases hd : c ∈ digitSpecifiers
  · obtain ⟨field, padding, hs, hf, hp⟩ := exists_number hd
    obtain rfl := Option.some.inj (hs.symm.trans hc)
    rw [if_pos (List.contains_iff_mem.mpr hd)]
    exact ⟨_, Writes.single rfl, fun _ _ _ =>
      (Regex.recognises_filled _ _ _ _ _ _).mpr ⟨filled_renderNumber hm hf hp, rfl⟩⟩
  · obtain ⟨hne, hp⟩ := ne_nil_of_specifier hc
    obtain ⟨u, hu, hne⟩ := exists_writes hm hne hp
    rw [if_neg (fun h => hd (List.contains_iff_mem.mp h))]
    refine ⟨u, hu, fun hn _ _ => (Regex.recognises_filled _ _ _ _ _ _).mpr ⟨⟨hne, fun c hc => ?_⟩, rfl⟩⟩
    have hfeed : c ≠ '\n' := fun he => hn (he ▸ hc)
    simpa [CharSet.dot, CharSet.contains] using hfeed

/-- A format of single letters is written as what its expression matches. -/
theorem writes_format (hm : m.IsProper) (hf : IsSimple front) :
    ∃ pieces u, parse? front = some pieces ∧ Writes m pieces u ∧
      ('\n' ∉ u → ∀ before after, MatchesAll (items front) before u after []) := by
  induction hf with
  | nil => exact ⟨[], [], rfl, ⟨[], rfl, rfl⟩, fun _ _ _ => .nil⟩
  | @text c rest hc _ ih =>
    obtain ⟨pieces, u, hparse, hu, hmatch⟩ := ih
    have hparse' : parse? (c :: rest) = some (text c :: pieces) := by
      rw [parse?_text hc, hparse]
      rfl
    refine ⟨text c :: pieces, [c] ++ u, hparse', (Writes.single rfl).append hu, ?_⟩
    intro hn before after
    rw [List.mem_append, not_or] at hn
    rw [items_text hc]
    exact .cons (Regex.matches_one.mpr ⟨rfl, rfl⟩) (hmatch hn.2 _ _)
  | @specifier c ps rest hc _ ih =>
    obtain ⟨pieces, v, hparse, hv, hmatch⟩ := ih
    obtain ⟨u, hu, hone⟩ := writes_specifier hm hc
    refine ⟨ps ++ pieces, u ++ v, by rw [parse?_specifier hc, hparse]; rfl, hu.append hv, ?_⟩
    intro hn before after
    rw [List.mem_append, not_or] at hn
    rw [items_specifier]
    exact .cons (hone hn.1 _ _) (hmatch hn.2 _ _)

end

theorem render?_of_writes {format : String} {t : Instant} {pieces : List DatePiece} {u : List Char}
    (hp : parse? format.toList = some pieces) (hu : Writes t.moment pieces u) :
    render? format t = some (String.ofList u) := by
  obtain ⟨texts, ht, rfl⟩ := hu
  rw [render?, hp]
  simp only [Option.bind_eq_bind, Option.bind_some, ht]
  rfl

/-- The year can be written in four places. -/
def InRange (t : Instant) : Prop := 0 ≤ t.moment.day.year ∧ t.moment.day.year ≤ 9999

theorem InRange.isProper {t : Instant} (h : InRange t) : t.moment.IsProper := by
  have hclock := Int.fmod_lt_of_pos t.seconds (b := 86400) (by decide)
  have hclock' := Int.fmod_nonneg_of_pos t.seconds (b := 86400) (by decide)
  refine ⟨Day.isProper_ofNumber _, h, ?_, ?_, ?_⟩ <;> simp only [Instant.moment] <;> omega

/-- A date in the usual format is six numbers. -/
theorem texts_render {t : Instant} (h : InRange t) {text : String}
    (ht : render? Property.usualFormat t = some text) :
    ∃ us, List.Forall₂ (fun language v => language v) (List.replicate 6 (Filled .digit)) us
      ∧ text.toList = us.flatten := by
  have hparse : parse? Property.usualFormat.toList = some [number year zeros, number month zeros,
      number day zeros, number hour zeros, number minute zeros, number second zeros] := by
    decide +kernel
  have hnumber : ∀ field, IsPlain field → Filled .digit (renderNumber t.moment zeros field) :=
    fun field hf => filled_renderNumber h.isProper hf (by decide)
  rw [render?, hparse] at ht
  rw [← Option.some.inj ht, String.toList_ofList]
  exact ⟨_, .cons (hnumber year (by decide)) (.cons (hnumber month (by decide))
    (.cons (hnumber day (by decide)) (.cons (hnumber hour (by decide))
    (.cons (hnumber minute (by decide)) (.cons (hnumber second (by decide)) .nil))))), rfl⟩

/-- The whole text is found by the expression for dates in the format. -/
def Recognised (format text : String) : Prop :=
  ∃ r, Regex.parse? ("^(?:".toList ++ recogniser format.toList ++ ")$".toList) = some r ∧
    (r.search text.toList).isSome = true

theorem recognised_iff {format text : String} :
    Recognised format text ↔ ∃ gs, MatchesAll (items format.toList) 0 text.toList [] gs := by
  have hstart : Reads ['^'] [.atStart] := by
    intro s hs
    simp only [List.foldlM_cons, List.foldlM_nil, Regex.Parser.step, hs, Option.bind_eq_bind]
    rfl
  have hend : Reads ['$'] [.atEnd] := by
    intro s hs
    simp only [List.foldlM_cons, List.foldlM_nil, Regex.Parser.step, hs, Option.bind_eq_bind]
    rfl
  have hread := (hstart.append (Regex.Parser.reads_unnamed (reads_recogniser format.toList).leaves)).append
    hend
  have hparse := hread.leaves.parse?
  have hplain := (Regex.isPlain_concat (isPlain_items format.toList)).recognises
  have hsearch := hplain.isSome_search text.toList
  simp only [Regex.matches_concat] at hsearch
  rw [← hsearch]
  have htext : "^(?:".toList ++ recogniser format.toList ++ ")$".toList
      = ['^'] ++ ("(?:".toList ++ recogniser format.toList ++ [')']) ++ ['$'] := by simp
  rw [Recognised, htext, hparse]
  constructor
  · rintro ⟨r, hr, hs⟩
    obtain rfl := Option.some.inj hr
    exact hs
  · exact fun hs => ⟨_, rfl, hs⟩

/-- Dates in the format are recognised, and they are written on one line. -/
def IsReadable (format : String) : Prop := ∀ (t : Instant) (text : String), InRange t →
  render? format t = some text → '\n' ∉ text.toList ∧ Recognised format text

theorem recognised_of_isSimple {format : String} (hf : IsSimple format.toList) {t : Instant}
    (ht : InRange t) : ∃ text, render? format t = some text ∧ ('\n' ∉ text.toList → Recognised format text) := by
  obtain ⟨pieces, u, hparse, hu, hmatch⟩ := writes_format ht.isProper hf
  refine ⟨String.ofList u, render?_of_writes hparse hu, fun hn => ?_⟩
  rw [String.toList_ofList] at hn
  exact recognised_iff.mpr ⟨[], by simpa using hmatch hn 0 []⟩

theorem isReadable_usualFormat : IsReadable Property.usualFormat := by
  have hf : IsSimple Property.usualFormat.toList :=
    .specifier rfl (.specifier rfl (.specifier rfl (.specifier rfl (.specifier rfl (.specifier rfl .nil)))))
  intro t text ht hr
  have hline : '\n' ∉ text.toList := by
    obtain ⟨us, hus, he⟩ := texts_render ht hr
    rw [he]
    exact flatten_notMem (by decide +kernel) hus
  obtain ⟨text', hr', hrec⟩ := recognised_of_isSimple hf ht
  obtain rfl := Option.some.inj (hr.symm.trans hr')
  exact ⟨hline, hrec hline⟩

/-- Whatever is written by the piece ends in a digit, unless it is nothing. -/
def IsDigital (piece : DatePiece) : Prop :=
  ∀ (m : Moment) (u : List Char), renderPiece? m piece = some u → u ≠ [] → EndsInDigit u

section
variable {c : Char} {piece x : DatePiece} {pieces : List DatePiece} {padding : Padding} {rest : List Char}

theorem isDigital_number (field : NumericField) (padding : Padding) : IsDigital (number field padding) := by
  rintro m u hu -
  cases hu
  exact endsInDigit_renderNumber m padding field

theorem isDigital_digits (point : Bool) (count : Nat) : IsDigital (fixed (digits point count)) := by
  rintro m u hu -
  cases hu
  exact (endsInDigit_nanoDigits _ _).append _

theorem isDigital_offset (colons : Nat) : IsDigital (fixed (offset colons)) := by
  rintro m u hu -
  cases hu
  exact endsInDigit_offsetText colons

theorem isDigital_fraction : IsDigital (fixed fraction) := by
  intro m u hu hne
  cases hu
  exact endsInDigit_fractionText hne

theorem isDigital_offsetAny : IsDigital (fixed offsetAny) := by
  intro m u hu
  cases hu

/-- A padding of its own can only be given to a single number. -/
theorem exists_of_padded (h : padded? padding c = some pieces) :
    ∃ field, pieces = [number field padding] ∧ c.isDigit = false ∧ c ≠ '%' := by
  rw [padded?] at h
  split at h
  next field _ hs =>
    refine ⟨field, (Option.some.inj h).symm, (notMem_of_specifier hs).1, ?_⟩
    rintro rfl
    cases hs
  next => cases h

theorem bind_append_eq {ps? : Option (List DatePiece)}
    (h : (do return (← ps?) ++ (← parse? rest)) = some pieces) :
    ∃ ps qs, ps? = some ps ∧ parse? rest = some qs ∧ pieces = ps ++ qs := by
  obtain ⟨ps, hp, h⟩ := Option.bind_eq_some_iff.mp h
  obtain ⟨qs, hq, h⟩ := Option.bind_eq_some_iff.mp h
  exact ⟨ps, qs, hp, hq, (Option.some.inj h).symm⟩

theorem parse?_eq_nil {format : List Char} (h : parse? format = some []) : format = [] := by
  have hcons : ∀ {x : DatePiece} {rest : List Char}, (x :: ·) <$> parse? rest ≠ some [] := by
    intro x rest h
    obtain ⟨pieces, -, he⟩ := Option.map_eq_some_iff.mp h
    cases he
  have hpadded : ∀ {padding : Padding} {c : Char} {rest : List Char},
      (do return (← padded? padding c) ++ (← parse? rest)) ≠ some [] := by
    intro padding c rest h
    obtain ⟨ps, qs, hp, -, he⟩ := bind_append_eq h
    obtain ⟨field, rfl, -⟩ := exists_of_padded hp
    cases he
  fun_cases parse? format
  all_goals rw [parse?] at h
  case case7 =>
    obtain ⟨count, -, h⟩ := Option.bind_eq_some_iff.mp h
    exact absurd h hcons
  case case14 => cases h
  case case15 =>
    obtain ⟨ps, qs, hs, -, he⟩ := bind_append_eq h
    exact absurd (List.append_eq_nil_iff.mp he.symm).1 (ne_nil_of_specifier hs).1
  all_goals first
    | exact absurd h hcons
    | exact absurd h hpadded
    | assumption

theorem eq_of_parse?_cons (h : (x :: ·) <$> parse? rest = some [piece]) : piece = x ∧ rest = [] := by
  obtain ⟨pieces, hp, he⟩ := Option.map_eq_some_iff.mp h
  cases he
  exact ⟨rfl, parse?_eq_nil hp⟩

theorem letter_of_padded {mark : Char}
    (h : (do return (← padded? padding c) ++ (← parse? rest)) = some [piece]) :
    IsDigital piece ∧ ∃ front letter,
      items ('%' :: mark :: c :: rest) = front ++ [.chars (.one letter)] ∧ letter.isDigit = false := by
  obtain ⟨ps, qs, hp, hq, he⟩ := bind_append_eq h
  obtain ⟨field, rfl, hdigit, hpercent⟩ := exists_of_padded hp
  cases he
  obtain rfl := parse?_eq_nil hq
  refine ⟨isDigital_number field padding, [item mark], c, ?_, hdigit⟩
  rw [items_specifier, items_text hpercent]
  rfl

/-- A specifier of more than one letter stands for a piece that ends in a digit, while its expression
ends in a letter. -/
theorem letter_of_long {tail : List Char} (h : parse? tail = some [piece]) (hl : 2 < tail.length) :
    IsDigital piece ∧ ∃ front letter,
      items tail = front ++ [.chars (.one letter)] ∧ letter.isDigit = false := by
  fun_cases parse? tail
  all_goals rw [parse?] at h
  case case1 => cases h
  case case2 =>
    obtain ⟨rfl, rfl⟩ := eq_of_parse?_cons h
    exact ⟨isDigital_offset 3, [_, _, _], 'z', rfl, by decide⟩
  case case3 =>
    obtain ⟨rfl, rfl⟩ := eq_of_parse?_cons h
    exact ⟨isDigital_offset 2, [_, _], 'z', rfl, by decide⟩
  case case4 =>
    obtain ⟨rfl, rfl⟩ := eq_of_parse?_cons h
    exact ⟨isDigital_offset 1, [_], 'z', rfl, by decide⟩
  case case5 =>
    obtain ⟨rfl, rfl⟩ := eq_of_parse?_cons h
    exact ⟨isDigital_offsetAny, [_], 'z', rfl, by decide⟩
  case case6 =>
    obtain ⟨rfl, rfl⟩ := eq_of_parse?_cons h
    exact ⟨isDigital_fraction, [_], 'f', rfl, by decide⟩
  case case7 =>
    obtain ⟨count, hcount, h⟩ := Option.bind_eq_some_iff.mp h
    obtain ⟨rfl, rfl⟩ := eq_of_parse?_cons h
    refine ⟨isDigital_digits true count, ?_⟩
    unfold digitCount? at hcount
    split at hcount
    · exact ⟨[_, _], 'f', rfl, by decide⟩
    · exact ⟨[_, _], 'f', rfl, by decide⟩
    · exact ⟨[_, _], 'f', rfl, by decide⟩
    · cases hcount
  case case8 => exact letter_of_padded h
  case case9 => exact letter_of_padded h
  case case10 => exact letter_of_padded h
  case case11 =>
    obtain ⟨rfl, rfl⟩ := eq_of_parse?_cons h
    exact ⟨isDigital_digits false 3, [_], 'f', rfl, by decide⟩
  case case12 =>
    obtain ⟨rfl, rfl⟩ := eq_of_parse?_cons h
    exact ⟨isDigital_digits false 6, [_], 'f', rfl, by decide⟩
  case case13 =>
    obtain ⟨rfl, rfl⟩ := eq_of_parse?_cons h
    exact ⟨isDigital_digits false 9, [_], 'f', rfl, by decide⟩
  case case14 => cases h
  case case15 =>
    obtain ⟨ps, qs, hs, hq, he⟩ := bind_append_eq h
    obtain ⟨p, ps, rfl⟩ := List.exists_cons_of_ne_nil (ne_nil_of_specifier hs).1
    obtain rfl : qs = [] := (List.append_eq_nil_iff.mp (List.cons.inj he).2.symm).2
    obtain rfl := parse?_eq_nil hq
    exact absurd hl (Nat.lt_irrefl 2)
  case case16 =>
    obtain ⟨rfl, rfl⟩ := eq_of_parse?_cons h
    exact absurd hl (by simp)
  all_goals assumption

end

/-- Behind single letters a longer specifier is not recognised: the expression ends in a letter there,
and the date in a digit. -/
theorem not_recognised_of_letter {front tail : String} (hf : IsSimple front.toList) {before : List Regex}
    {c : Char} (ht : items tail.toList = before ++ [.chars (.one c)]) (hc : c.isDigit = false)
    {u v : List Char} (hv : EndsInDigit v) : ¬ Recognised (front ++ tail) (String.ofList (u ++ v)) := by
  rw [recognised_iff, String.toList_append, String.toList_ofList, items_append hf, ht]
  rintro ⟨gs, hmatch⟩
  obtain ⟨front', last, rfl, hlast⟩ := hv
  rw [← List.append_assoc, Regex.matchesAll_append] at hmatch
  obtain ⟨u', w, gs', hs, he, -, -, hw⟩ := hmatch
  cases hw with
  | @cons _ _ _ w w' _ gs hs hone hnil =>
    cases hnil
    obtain ⟨rfl, -⟩ := Regex.matches_one.mp hone
    have hend : (u ++ (front' ++ [last])).getLast? = some c := by
      rw [he]
      simp
    have hletter : last = c := by simpa [← List.append_assoc] using hend
    rw [← hletter, hlast] at hc
    cases hc

/-- As long as every specifier is a single letter, a date in the format is written and the expression
for the format recognises it, unless it is written with a line feed. Behind such a format a specifier of
more than two characters is never recognised: the expression takes the last of them for itself. -/
theorem dates_recognised {format : String} (hf : IsSimple format.toList) {t : Instant} (ht : InRange t) :
    (∃ text, render? format t = some text ∧ ('\n' ∉ text.toList → Recognised format text)) ∧
      ∀ (tail : String) (piece : DatePiece) (v : List Char), parse? tail.toList = some [piece] →
        2 < tail.toList.length → renderPiece? t.moment piece = some v → v ≠ [] → ∃ text,
          render? (format ++ tail) t = some text ∧ ¬ Recognised (format ++ tail) text := by
  refine ⟨recognised_of_isSimple hf ht, ?_⟩
  intro tail piece v hp hl hv hne
  obtain ⟨pieces, u, hparse, hu, -⟩ := writes_format ht.isProper hf
  obtain ⟨hends, before, c, hitems, hc⟩ := letter_of_long hp hl
  refine ⟨_, render?_of_writes ?_ (hu.append (Writes.single hv)),
    not_recognised_of_letter hf hitems hc (hends _ _ hv hne)⟩
  rw [String.toList_append, parse?_append hf, hparse, hp]
  rfl

theorem dates_recognised_isoDate :
    IsSimple "%Y-%m-%d".toList ∧ InRange ⟨446400, 0⟩ ∧ Recognised "%Y-%m-%d" "1970-01-06" ∧
      parse? "%:z".toList = some [fixed (offset 1)] ∧
      ¬ Recognised "%Y-%m-%d%:z" "1970-01-06+00:00" := by
  have hf : IsSimple "%Y-%m-%d".toList :=
    .specifier rfl (.text (by decide) (.specifier rfl (.text (by decide) (.specifier rfl .nil))))
  have ht : InRange ⟨446400, 0⟩ := by constructor <;> decide +kernel
  have hday : render? "%Y-%m-%d" ⟨446400, 0⟩ = some "1970-01-06" := by decide +kernel
  have hzone : render? ("%Y-%m-%d" ++ "%:z") ⟨446400, 0⟩ = some "1970-01-06+00:00" := by decide +kernel
  have hparse : parse? "%:z".toList = some [fixed (offset 1)] := rfl
  obtain ⟨⟨text, hr, hrec⟩, hlong⟩ := dates_recognised hf ht
  obtain rfl := Option.some.inj (hday.symm.trans hr)
  obtain ⟨text, hr, hnot⟩ := hlong "%:z" _ _ hparse (by decide) rfl (by decide)
  obtain rfl := Option.some.inj (hzone.symm.trans hr)
  exact ⟨hf, ht, hrec (by decide), hparse, hnot⟩

/-- A month without its leading zero is written as the format says, and the date is not recognised. -/
theorem unpadded_date_not_recognised :
    isValid "%d.%-m" = true ∧ InRange ⟨446400, 0⟩ ∧
      render? "%d.%-m" ⟨446400, 0⟩ = some "06.1" ∧ ¬ Recognised "%d.%-m" "06.1" := by
  have hf : IsSimple "%d.".toList := .specifier rfl (.text (by decide) .nil)
  have hitems : items "%-m".toList = [item '-'] ++ [.chars (.one 'm')] := rfl
  refine ⟨by decide +kernel, by constructor <;> decide +kernel, by decide +kernel, ?_⟩
  exact not_recognised_of_letter (u := "06.".toList) hf hitems (by decide) ⟨[], '1', rfl, by decide⟩

end DateFormat

end TreeListing
