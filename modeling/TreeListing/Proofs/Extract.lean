import TreeListing.LinePattern
import TreeListing.Proofs.DateFormat

/-!
That the text of a property for an item is one of the texts that the property can have: numbers and
dates are digits, hashes are hexadecimal digits, and the rest is a matter of names.
-/
namespace TreeListing

open Regex (Filled)

theorem CharSet.hex_contains_digitChar : ∀ n < 16, hex.contains (Nat.digitChar n) = true := by decide

theorem filled_toString (n : Nat) : Filled .digit (toString n).toList := by
  rw [Nat.toString_eq_repr, Nat.toList_repr]
  exact filled_toDigits n

namespace MetroHash

theorem filled_toDigits (n : Nat) : Filled .hex (Nat.toDigits 16 n) := by
  refine ⟨Nat.toDigits_ne_nil, ?_⟩
  induction n using Nat.strongRecOn with
  | _ n ih =>
    rw [Nat.toDigits_eq_if (by decide)]
    split
    next h => simpa using CharSet.hex_contains_digitChar n h
    next h =>
      intro c hc
      rcases List.mem_append.mp hc with hc | hc
      · exact ih (n / 16) (by omega) c hc
      · exact List.mem_singleton.mp hc ▸ CharSet.hex_contains_digitChar _ (Nat.mod_lt n (by decide))

theorem filled_hexWord (w : UInt64) : Filled .hex (hexWord w) := by
  rw [hexWord]
  refine filled_append (fun c hc => ?_) (filled_toDigits w.toNat)
  rw [List.eq_of_mem_replicate hc]
  decide

theorem filled_hexDigest (bytes : List UInt8) : Filled .hex (hexDigest bytes).toList := by
  rw [hexDigest, String.toList_ofList]
  exact filled_append (filled_hexWord _).2 (filled_hexWord _)

end MetroHash

def Item.date (i : Item) (d : Disk) : DateType → Except ItemError Instant
  | .newest => do
    let changed ← i.changed d
    let modified ← i.modified d
    return changed.latest modified
  | .creation => i.changed d
  | .modification => i.modified d

/-- Nothing about the item is strange to a listing: its names have the characters of names, a file is
a regular one, and years have four places. -/
structure Item.IsCommon (d : Disk) (o : Options) (i : Item) : Prop where
  name : Filled .name i.name.toList
  path : i.path.text ≠ "" → Filled .path i.path.text.toList
  abspath : Filled .path i.abspath.text.toList
  file : i.isFolder = false → d.isFile i.abspath = true
  date : i.isFolder = false → o.showDate = true → ∀ t, i.date d o.dateType = .ok t → DateFormat.InRange t

namespace Property

variable {d : Disk} {o : Options} {i : Item} {value : String}

theorem texts_indent (o : Options) (n : Nat) :
    Regex.Rounds o.indent.toList (String.join (List.replicate n o.indent)).toList := by
  refine ⟨n, ?_⟩
  induction n with
  | zero => rfl
  | succ n ih => simp [List.replicate_succ, String.join_cons, ih]

theorem dateText_eq_ok {format : String} {t : Instant} (h : dateText format t = .ok value) :
    DateFormat.render? format t = some value := by
  rw [dateText] at h
  split at h
  next text hs => exact Except.ok.inj h ▸ hs
  next => cases h

theorem exists_date {property : Property}
    (hp : Registry.core.get? (LinePattern.dateOf o.dateType) = some property)
    (he : property.extract d o i = .ok value) :
    ∃ t, i.date d o.dateType = .ok t ∧ DateFormat.render? o.dateFormat t = some value := by
  cases hd : o.dateType with
  | newest =>
    rw [hd] at hp
    obtain rfl : .ndate = property := Option.some.inj hp
    obtain ⟨changed, hc, he⟩ := bind_eq_ok.mp he
    obtain ⟨modified, hm, he⟩ := bind_eq_ok.mp he
    exact ⟨changed.latest modified, by rw [Item.date, hc, hm]; rfl, dateText_eq_ok he⟩
  | creation =>
    rw [hd] at hp
    obtain rfl : .cdate = property := Option.some.inj hp
    obtain ⟨t, ht, he⟩ := bind_eq_ok.mp he
    exact ⟨t, ht, dateText_eq_ok he⟩
  | modification =>
    rw [hd] at hp
    obtain rfl : .mdate = property := Option.some.inj hp
    obtain ⟨t, ht, he⟩ := bind_eq_ok.mp he
    exact ⟨t, ht, dateText_eq_ok he⟩

theorem texts_dateOf (hf : o.dateFormat = usualFormat)
    (hr : ∀ t, i.date d o.dateType = .ok t → DateFormat.InRange t) {property : Property}
    (hp : Registry.core.get? (LinePattern.dateOf o.dateType) = some property)
    (he : property.extract d o i = .ok value) : property.Texts o value.toList := by
  obtain ⟨t, ht, hrender⟩ := exists_date hp he
  rw [hf] at hrender
  have htext := DateFormat.texts_render (hr t ht) hrender
  cases hd : o.dateType with
  | newest =>
    rw [hd] at hp
    obtain rfl : .ndate = property := Option.some.inj hp
    exact htext
  | creation =>
    rw [hd] at hp
    obtain rfl : .cdate = property := Option.some.inj hp
    exact htext
  | modification =>
    rw [hd] at hp
    obtain rfl : .mdate = property := Option.some.inj hp
    exact htext

/-- What an item needs for the text of the property to be one that the property can have. Dates are a matter
of their format, and constants have a text of their own. -/
def Suits (d : Disk) (i : Item) : Property → Prop
  | name => Filled .name i.name.toList
  | relpath => Filled .path i.path.text.toList
  | abspath => Filled .path i.abspath.text.toList
  | hash => d.isFile i.abspath = true
  | cdate | mdate | ndate | constant _ _ => False
  | _ => True

theorem texts_size (he : size.extract d o i = .ok value) : size.Texts o value.toList := by
  obtain ⟨n, -, rfl⟩ := map_eq_ok.mp he
  exact filled_toString n

theorem texts_hash (hf : d.isFile i.abspath = true) (he : hash.extract d o i = .ok value) :
    hash.Texts o value.toList := by
  obtain ⟨m, hm, he⟩ := bind_eq_ok.mp he
  have hs := mapError_eq_ok.mp hm
  have ht : m.type = .file := by simpa [Disk.isFile, hs] using hf
  rw [Item.hashOf, if_pos ht] at he
  obtain ⟨bytes, -, rfl⟩ := map_eq_ok.mp (mapError_eq_ok.mp he)
  exact MetroHash.filled_hexDigest bytes

/-- What is said of an item that suits the property is a text of the property. -/
theorem texts_extract {p : Property} (hs : p.Suits d i) (he : p.extract d o i = .ok value) :
    p.Texts o value.toList := by
  cases p with
  | indent => exact Except.ok.inj he ▸ texts_indent o _
  | level => exact Except.ok.inj he ▸ filled_toString _
  | depth => exact Except.ok.inj he ▸ filled_toString _
  | name => exact Except.ok.inj he ▸ hs
  | relpath => exact Except.ok.inj he ▸ hs
  | abspath => exact Except.ok.inj he ▸ hs
  | hidden =>
    have hvalue := Except.ok.inj he
    split at hvalue
    · exact .inr (hvalue ▸ rfl)
    · exact .inl (hvalue ▸ rfl)
  | size => exact texts_size he
  | cdate => cases hs
  | mdate => cases hs
  | ndate => cases hs
  | hash => exact texts_hash hs he
  | constant value pattern => cases hs

end Property

end TreeListing
