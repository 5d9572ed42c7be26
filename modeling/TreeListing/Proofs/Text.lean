import Mathlib.Data.List.Basic
import TreeListing.Text.Utf8

/-!
Text as bytes and back: the bytes of a text are read as the text, and none of them but those of the
character itself is a byte of a character that takes one.
-/
namespace TreeListing.Text

theorem toList_eq_data_toList (bytes : ByteArray) : bytes.toList = bytes.data.toList := by
  have hloop : ∀ (i : Nat) (front : List UInt8),
      ByteArray.toList.loop bytes i front = front.reverse ++ bytes.data.toList.drop i := by
    intro i front
    fun_induction ByteArray.toList.loop bytes i front with
    | case1 i front hi ih =>
      have hlt : i < bytes.data.toList.length := by simpa using hi
      have hget : bytes.get! i = bytes.data.toList[i] := by simp [ByteArray.get!, hi]
      rw [ih, List.drop_eq_getElem_cons hlt, hget, List.reverse_cons, List.append_assoc,
        List.singleton_append]
    | case2 i front hi =>
      rw [List.drop_of_length_le (by simpa using hi), List.append_nil]
  exact (hloop 0 []).trans (by simp)

theorem encode_eq (s : String) : encode s = s.toList.flatMap String.utf8EncodeChar := by
  rw [encode, toList_eq_data_toList, String.toUTF8_eq_toByteArray, ← String.utf8Encode_toList,
    List.utf8Encode, List.toList_data_toByteArray]

@[simp]
theorem encode_empty : encode "" = [] := by rw [encode_eq]; rfl

theorem encode_append (s t : String) : encode (s ++ t) = encode s ++ encode t := by
  rw [encode_eq, encode_eq, encode_eq, String.toList_append, List.flatMap_append]

theorem encode_join (texts : List String) : encode (String.join texts) = texts.flatMap encode := by
  induction texts with
  | nil => exact encode_empty
  | cons text texts ih => rw [String.join_cons, encode_append, ih, List.flatMap_cons]

theorem leadOf_one : ∀ n < 0x80, leadOf (UInt8.ofNat n) = some (0, 0, 0) := by decide +kernel

theorem leadOf_two : ∀ n < 0xE0, 0xC2 ≤ n → leadOf (UInt8.ofNat n) = some (1, 0x80, 0xBF) := by
  decide +kernel

theorem leadOf_three : ∀ n < 0xF0, 0xE0 ≤ n → leadOf (UInt8.ofNat n)
    = some (2, if n = 0xE0 then 0xA0 else 0x80, if n = 0xED then 0x9F else 0xBF) := by
  decide +kernel

theorem leadOf_four : ∀ n < 0xF5, 0xF0 ≤ n → leadOf (UInt8.ofNat n)
    = some (3, if n = 0xF0 then 0x90 else 0x80, if n = 0xF4 then 0x8F else 0xBF) := by
  decide +kernel

theorem tailOf_cons {n : Nat} (hn : n < 256) {first last : UInt8} (hf : first.toNat ≤ n)
    (hl : n ≤ last.toNat) (count : Nat) (rest : List UInt8) :
    tailOf (count + 1) first last (UInt8.ofNat n :: rest)
      = UInt8.ofNat n :: tailOf count 0x80 0xBF rest := by
  have hb : (UInt8.ofNat n).toNat = n := UInt8.toNat_ofNat_of_lt' hn
  rw [tailOf, if_pos]
  simp [UInt8.le_iff_toNat_le, hb, hf, hl]

theorem tailOf_zero (first last : UInt8) (rest : List UInt8) : tailOf 0 first last rest = [] := by
  cases rest <;> rfl

/-- A character is read where its tail bytes are all there. -/
theorem decodeFirst_of_tail {b first last : UInt8} {count v : Nat} {tail rest : List UInt8}
    (hl : leadOf b = some (count + 1, first, last)) (ht : tailOf (count + 1) first last rest = tail)
    (hn : tail.length = count + 1)
    (hv : tail.foldl (fun n t => n * 64 + t.toNat % 64) (b.toNat % Nat.pow 2 (6 - (count + 1))) = v) :
    decodeFirst b rest = (some (Char.ofNat v), tail.length + 1) := by
  rw [decodeFirst, hl]
  simp only [ht]
  rw [if_neg (by omega), hv, hn, Nat.add_comm]

theorem toNat_ofNat {n : Nat} (h : n < 256) : (UInt8.ofNat n).toNat = n := UInt8.toNat_ofNat_of_lt' h

theorem exists_decodeFirst (c : Char) : ∃ b tail, String.utf8EncodeChar c = b :: tail ∧
    ∀ rest, decodeFirst b (tail ++ rest) = (some c, tail.length + 1) := by
  have hchar : Char.ofNat c.val.toNat = c := Char.ofNat_toNat c
  have hvalid : c.val.toNat < 0xD800 ∨ 0xDFFF < c.val.toNat ∧ c.val.toNat < 0x110000 := c.valid
  have hfirst : (0x80 : UInt8).toNat = 0x80 := rfl
  have hlast : (0xBF : UInt8).toNat = 0xBF := rfl
  rw [String.utf8EncodeChar]
  generalize c.val.toNat = v at hchar hvalid ⊢
  subst hchar
  split
  next h1 =>
    refine ⟨_, [], rfl, fun rest => ?_⟩
    rw [decodeFirst, leadOf_one v (by omega), toNat_ofNat (by omega)]
    rfl
  next h1 =>
    split
    next h2 =>
      refine ⟨_, [_], rfl, fun rest => decodeFirst_of_tail (leadOf_two _ (by omega) (by omega)) ?_ rfl ?_⟩
      · rw [List.singleton_append, tailOf_cons (by omega) (by omega) (by omega), tailOf_zero]
      · simp only [List.foldl_cons, List.foldl_nil, Nat.pow_eq]
        rw [toNat_ofNat (by omega), toNat_ofNat (by omega)]
        omega
    next h2 =>
      split
      next h3 =>
        refine ⟨_, [_, _], rfl, fun rest =>
          decodeFirst_of_tail (leadOf_three _ (by omega) (by omega)) ?_ rfl ?_⟩
        · rw [List.cons_append, tailOf_cons (by omega) (by split <;> simp; omega)
            (by split <;> simp <;> omega), List.singleton_append,
            tailOf_cons (by omega) (by omega) (by omega), tailOf_zero]
        · simp only [List.foldl_cons, List.foldl_nil, Nat.pow_eq]
          rw [toNat_ofNat (by omega), toNat_ofNat (by omega), toNat_ofNat (by omega)]
          omega
      next h3 =>
        refine ⟨_, [_, _, _], rfl, fun rest =>
          decodeFirst_of_tail (leadOf_four _ (by omega) (by omega)) ?_ rfl ?_⟩
        · rw [List.cons_append, tailOf_cons (by omega) (by split <;> simp; omega)
            (by split <;> simp <;> omega), List.cons_append,
            tailOf_cons (by omega) (by omega) (by omega), List.singleton_append,
            tailOf_cons (by omega) (by omega) (by omega), tailOf_zero]
        · simp only [List.foldl_cons, List.foldl_nil, Nat.pow_eq]
          rw [toNat_ofNat (by omega), toNat_ofNat (by omega), toNat_ofNat (by omega),
            toNat_ofNat (by omega)]
          omega

theorem decodeFrom_skip (tail rest : List UInt8) :
    decodeFrom tail.length (tail ++ rest) = decodeFrom 0 rest := by
  induction tail with
  | nil => rfl
  | cons b tail ih => exact ih

theorem decodeFrom_char (c : Char) (rest : List UInt8) :
    decodeFrom 0 (String.utf8EncodeChar c ++ rest) = some c :: decodeFrom 0 rest := by
  obtain ⟨b, tail, hc, hd⟩ := exists_decodeFirst c
  rw [hc, List.cons_append, decodeFrom, hd]
  exact congrArg (some c :: ·) (decodeFrom_skip tail rest)

theorem decode?_encode (s : String) : decode? (encode s) = some s := by
  have hall : ∀ cs : List Char,
      (decodeFrom 0 (cs.flatMap String.utf8EncodeChar)).mapM id = some cs := by
    intro cs
    induction cs with
    | nil => rfl
    | cons c cs ih =>
      rw [List.flatMap_cons, decodeFrom_char, List.mapM_cons, ih]
      rfl
  rw [decode?, encode_eq, hall, Option.map_some, String.ofList_toList]

/-- The bytes of a character are no line feeds unless it is one. -/
theorem notMem_utf8EncodeChar {c : Char} (h : c ≠ '\n') : 10 ∉ String.utf8EncodeChar c := by
  have hne : c.val.toNat ≠ 10 := fun he => h (Char.toNat_inj.mp he)
  have hbyte : ∀ n < 256, n ≠ 10 → (10 : UInt8) ≠ UInt8.ofNat n := fun n hn h he => by
    have := congrArg UInt8.toNat he
    rw [UInt8.toNat_ofNat_of_lt' hn] at this
    exact h this.symm
  rw [String.utf8EncodeChar]
  generalize c.val.toNat = v at hne ⊢
  split
  next h1 => simpa using hbyte v (by omega) hne
  next h1 =>
    split
    next h2 =>
      simp only [List.mem_cons, List.not_mem_nil, or_false, not_or]
      exact ⟨hbyte _ (by omega) (by omega), hbyte _ (by omega) (by omega)⟩
    next h2 =>
      split
      next h3 =>
        simp only [List.mem_cons, List.not_mem_nil, or_false, not_or]
        exact ⟨hbyte _ (by omega) (by omega), hbyte _ (by omega) (by omega), hbyte _ (by omega) (by omega)⟩
      next h3 =>
        simp only [List.mem_cons, List.not_mem_nil, or_false, not_or]
        exact ⟨hbyte _ (by omega) (by omega), hbyte _ (by omega) (by omega), hbyte _ (by omega) (by omega),
          hbyte _ (by omega) (by omega)⟩

theorem notMem_encode {s : String} (h : '\n' ∉ s.toList) : 10 ∉ encode s := by
  rw [encode_eq, List.mem_flatMap]
  rintro ⟨c, hc, hm⟩
  exact notMem_utf8EncodeChar (fun he => h (he ▸ hc)) hm

theorem encode_newline : encode "\n" = [10] := by
  rw [encode_eq]
  rfl

end TreeListing.Text
