/-
Base-58 text and byte strings are one to one.  Both are numerals: zeros in
front, then the digits of a number.  A numeral is known by its zeros and its
number, so writing the number in another base behind as many zeros is undone by
the same step back, and the alphabet pairs the digits with characters.
-/
import Mathlib.Data.Nat.Digits.Lemmas
import ShieldedPool.Base58
import ShieldedPool.Proofs.Results

namespace ShieldedPool.Base58

section Numerals

variable {base base' : Nat}

theorem digitsLE_eq_digits (hbase : 1 < base) (n : Nat) :
    digitsLE base hbase n = Nat.digits base n := by
  induction n using digitsLE.induct base hbase with
  | case1 => rw [digitsLE, Nat.digits_zero]
  | case2 n ih => rw [digitsLE, ih, Nat.digits_def' hbase n.succ_pos]

theorem valueBE_eq_ofDigits (digits : List Nat) :
    valueBE base digits = Nat.ofDigits base digits.reverse := by
  rw [Nat.ofDigits_eq_foldr, List.foldr_reverse, valueBE]
  congr 1
  funext high low
  exact Nat.add_comm _ _

/-- How many zeros a numeral starts with. -/
def leadingZeros (digits : List Nat) : Nat := (digits.takeWhile (· == 0)).length

/-- Zeros, then the digits of a number, most significant first. -/
def numeral (base zeros n : Nat) : List Nat :=
  List.replicate zeros 0 ++ (Nat.digits base n).reverse

theorem valueBE_numeral (zeros n : Nat) : valueBE base (numeral base zeros n) = n := by
  rw [valueBE_eq_ofDigits, numeral, List.reverse_append, List.reverse_reverse,
    List.reverse_replicate, Nat.ofDigits_append_replicate_zero, Nat.ofDigits_digits]

/-- The most significant digit of a number is no zero. -/
theorem leadingZeros_numeral (zeros n : Nat) : leadingZeros (numeral base zeros n) = zeros := by
  have hdigits : ((Nat.digits base n).reverse.takeWhile (· == 0)) = [] := by
    rcases hsplit : (Nat.digits base n).reverse with _ | ⟨d, rest⟩
    · rfl
    · have hne : n ≠ 0 := by
        rintro rfl
        rw [Nat.digits_zero] at hsplit
        cases hsplit
      have hlast := Nat.getLast_digit_ne_zero base hne
      rw [← List.head_reverse (by simp [hsplit])] at hlast
      simp only [hsplit, List.head_cons] at hlast
      exact List.takeWhile_cons_of_neg (by simpa using hlast)
  have hzeros : ∀ d ∈ List.replicate zeros 0, (d == 0) = true := by
    intro d hd
    rw [List.eq_of_mem_replicate hd]
    rfl
  rw [leadingZeros, numeral, List.takeWhile_append_of_pos hzeros, hdigits, List.append_nil,
    List.length_replicate]

theorem lt_of_mem_numeral (hbase : 1 < base) {zeros n d : Nat} (hmem : d ∈ numeral base zeros n) :
    d < base := by
  rcases List.mem_append.1 hmem with hzero | hdigit
  · rw [List.eq_of_mem_replicate hzero]
    exact Nat.zero_lt_of_lt hbase
  · exact Nat.digits_lt_base hbase (List.mem_reverse.1 hdigit)

/-- A list of digits is the numeral of its zeros and its number. -/
theorem numeral_eq (hbase : 1 < base) {digits : List Nat} (hlt : ∀ d ∈ digits, d < base) :
    numeral base (leadingZeros digits) (valueBE base digits) = digits := by
  induction digits with
  | nil => simp [numeral, leadingZeros, valueBE]
  | cons d digits ih =>
      by_cases hzero : d = 0
      · subst hzero
        have hzeros : leadingZeros (0 :: digits) = leadingZeros digits + 1 := rfl
        have hvalue : valueBE base (0 :: digits) = valueBE base digits := rfl
        rw [hzeros, hvalue, numeral, List.replicate_succ, List.cons_append]
        exact congrArg (0 :: ·) (ih fun d hd => hlt d (List.mem_cons_of_mem 0 hd))
      · have hzeros : leadingZeros (d :: digits) = 0 := by simp [leadingZeros, hzero]
        have hdigits : Nat.digits base (valueBE base (d :: digits)) = (d :: digits).reverse := by
          rw [valueBE_eq_ofDigits]
          apply Nat.digits_ofDigits base hbase
          · intro low hlow
            exact hlt low (List.mem_reverse.1 hlow)
          · intro hne
            rw [List.getLast_reverse]
            exact hzero
        rw [hzeros, numeral, hdigits, List.reverse_reverse]
        rfl

/-- The same number in another base, behind as many zeros. -/
def rebase (base base' : Nat) (digits : List Nat) : List Nat :=
  numeral base' (leadingZeros digits) (valueBE base digits)

theorem rebase_rebase (hbase : 1 < base) {digits : List Nat} (hlt : ∀ d ∈ digits, d < base) :
    rebase base' base (rebase base base' digits) = digits := by
  rw [rebase, rebase, leadingZeros_numeral, valueBE_numeral, numeral_eq hbase hlt]

end Numerals

section Alphabet

theorem idxOf?_digit {value : Nat} (hvalue : value < 58) :
    alphabet.idxOf? (digit value) = some value ∧ (digit value).toNat < 128 := by
  revert value
  decide

theorem digit_of_idxOf? {c : Char} {value : Nat} (hfound : alphabet.idxOf? c = some value) :
    digit value = c ∧ value < 58 := by
  obtain ⟨hlt, hget, -⟩ := List.idxOf?_eq_some_iff.1 hfound
  refine ⟨?_, hlt⟩
  rw [digit, List.getD_eq_getElem?_getD, List.getElem?_eq_getElem hlt, Option.getD_some, hget]

theorem digitValues_map_digit {values : List Nat} (hlt : ∀ v ∈ values, v < 58) (index : Nat) :
    digitValues index (values.map digit) = .ok values := by
  induction values generalizing index with
  | nil => rfl
  | cons value values ih =>
      obtain ⟨hvalue, hrest⟩ := List.forall_mem_cons.1 hlt
      obtain ⟨hindex, hascii⟩ := idxOf?_digit hvalue
      rw [List.map_cons, digitValues, if_neg (Nat.not_le.2 hascii), hindex]
      simp only [ih hrest]
      rfl

/-- Only the characters of digits are read. -/
theorem eq_map_digit {index : Nat} {chars : List Char} {values : List Nat}
    (hvalues : digitValues index chars = .ok values) :
    chars = values.map digit ∧ ∀ v ∈ values, v < 58 := by
  induction chars generalizing index values with
  | nil =>
      cases hvalues
      exact ⟨rfl, by simp⟩
  | cons c chars ih =>
      rw [digitValues] at hvalues
      split at hvalues
      · cases hvalues
      · split at hvalues
        · cases hvalues
        · next value hfound =>
            obtain ⟨rest, hrest, rfl⟩ := map_eq_ok_iff.1 hvalues
            obtain ⟨hdigit, hlt⟩ := digit_of_idxOf? hfound
            obtain ⟨rfl, hall⟩ := ih hrest
            exact ⟨by rw [List.map_cons, hdigit], List.forall_mem_cons.2 ⟨hlt, hall⟩⟩

end Alphabet

section Text

variable {bytes : Bytes}

theorem toNatBE_eq_valueBE (bytes : Bytes) :
    Bytes.toNatBE bytes = valueBE 256 (bytes.map UInt8.toNat) := by
  have hlow : ∀ low : Bytes, Bytes.toNatLE low = Nat.ofDigits 256 (low.map UInt8.toNat) := by
    intro low
    induction low with
    | nil => rfl
    | cons byte rest ih => rw [Bytes.toNatLE, ih, List.map_cons, Nat.ofDigits_cons]
  rw [valueBE_eq_ofDigits, ← List.map_reverse, ← hlow, Bytes.toNatBE]

theorem leadingZeros_bytes (bytes : Bytes) :
    leadingZeros (bytes.map UInt8.toNat) = (bytes.takeWhile (· == 0)).length := by
  have hzero : ∀ byte : UInt8, (byte.toNat == 0) = (byte == 0) := by
    intro byte
    rw [Bool.eq_iff_iff, beq_iff_eq, beq_iff_eq, ← UInt8.toNat_inj]
    rfl
  rw [leadingZeros, List.takeWhile_map, List.length_map]
  congr 2
  exact funext hzero

theorem map_toNat_lt : ∀ d ∈ bytes.map UInt8.toNat, d < 256 := by
  intro d hd
  obtain ⟨byte, -, rfl⟩ := List.mem_map.1 hd
  exact byte.toNat_lt

theorem map_toNat_map_ofNat {values : List Nat} (hlt : ∀ v ∈ values, v < 256) :
    (values.map UInt8.ofNat).map UInt8.toNat = values := by
  rw [List.map_map]
  refine (List.map_congr_left ?_).trans (List.map_id values)
  intro v hv
  exact UInt8.toNat_ofNat_of_lt' (hlt v hv)

theorem toList_encode (bytes : Bytes) :
    (encode bytes).toList = (rebase 256 58 (bytes.map UInt8.toNat)).map digit := by
  have hone : digit 0 = '1' := by decide
  simp only [encode, String.toList_ofList, rebase, numeral, digitsLE_eq_digits,
    toNatBE_eq_valueBE, leadingZeros_bytes, List.map_append, List.map_replicate,
    List.map_reverse, hone]

theorem decode_eq (text : String) :
    decode text = (digitValues 0 text.toList).map fun values =>
      (rebase 58 256 values).map UInt8.ofNat := by
  have hzero : UInt8.ofNat 0 = 0 := rfl
  simp only [decode, rebase, numeral, digitsLE_eq_digits, leadingZeros, List.map_append,
    List.map_replicate, List.map_reverse, hzero]

/-- Every byte string has one text, and a text that is read is the text of what
it is read as. -/
theorem decode_eq_ok_iff {text : String} : decode text = .ok bytes ↔ text = encode bytes := by
  rw [decode_eq, map_eq_ok_iff]
  constructor
  · rintro ⟨values, hvalues, rfl⟩
    obtain ⟨htext, hlt⟩ := eq_map_digit hvalues
    have hbytes : ∀ d ∈ rebase 58 256 values, d < 256 := fun d => lt_of_mem_numeral (by decide)
    rw [← String.toList_inj, toList_encode, map_toNat_map_ofNat hbytes,
      rebase_rebase (by decide) hlt, htext]
  · rintro rfl
    have hdigits : ∀ d ∈ rebase 256 58 (bytes.map UInt8.toNat), d < 58 :=
      fun d => lt_of_mem_numeral (by decide)
    refine ⟨_, by rw [toList_encode, digitValues_map_digit hdigits], ?_⟩
    rw [rebase_rebase (by decide) map_toNat_lt, List.map_map]
    refine (List.map_congr_left ?_).trans (List.map_id bytes)
    intro byte _
    exact UInt8.ofNat_toNat

end Text

end ShieldedPool.Base58
