/-
What the readers of the two number systems accept.  A strict reader takes the
32 bytes, or the hexadecimal numeral, of a number below the modulus and nothing
else; a reducing one takes every byte string.  Read byte by byte or as numbers,
the outcome is the same.  Since the field modulus is the smaller one, a field
element is a scalar as it stands, and a scalar below the field modulus survives
the way there and back.
-/
import ShieldedPool.Proofs.Residue.Bytewise

namespace ShieldedPool

namespace StrictReader

theorem modulus_le_bytes {n : Nat} (reader : StrictReader n) : n ≤ 256 ^ residueBytes := by
  have hlt := Bytes.toNatBE_lt reader.bound.bytes
  rw [reader.bound_eq, reader.bound.length_eq] at hlt
  exact Nat.le_of_lt hlt

/-- Accept a number below the modulus. -/
def ofNumber {n : Nat} (reader : StrictReader n) (value : Nat) :
    Except ResidueDefect (Residue n) :=
  match Residue.ofNat? n value with
  | some a => .ok a
  | none => .error (reader.tooLarge value)

theorem ofNumber_eq_ok_iff {n value : Nat} {reader : StrictReader n} {a : Residue n} :
    reader.ofNumber value = .ok a ↔ value = a.val := by
  rw [eq_comm (a := value), ← Residue.ofNat?_eq_some_iff, ofNumber]
  cases Residue.ofNat? n value <;> simp

variable {n : Nat} [NeZero n] (reader : StrictReader n)

theorem ofWord_eq (word : ByteWord residueBytes) :
    reader.ofWord word = reader.ofNumber (Bytes.toNatBE word.bytes) := by
  have hlength : word.bytes.length = reader.bound.bytes.length :=
    word.length_eq.trans reader.bound.length_eq.symm
  have hbefore : word.bytes < reader.bound.bytes ↔ Bytes.toNatBE word.bytes < n := by
    rw [Bytes.lt_iff_toNatBE_lt hlength, reader.bound_eq]
  rw [ofWord, Residue.gather_eq, ofNumber, Residue.ofNat?]
  by_cases hlt : Bytes.toNatBE word.bytes < n
  · have hvalue : Residue.ofNat n (Bytes.toNatBE word.bytes) = ⟨_, hlt⟩ :=
      Residue.ext_val (Nat.mod_eq_of_lt hlt)
    rw [if_pos (hbefore.2 hlt), dif_pos hlt, hvalue]
  · rw [if_neg (mt hbefore.1 hlt), dif_neg hlt]

theorem ofBytes_eq (bytes : Bytes) :
    reader.ofBytes bytes =
      if bytes.length = residueBytes then reader.ofNumber (Bytes.toNatBE bytes)
      else .error (.length bytes.length) := by
  rw [ofBytes]
  split
  · exact reader.ofWord_eq _
  · rfl

theorem ofHex_eq (text : String) :
    reader.ofHex text = (Hex.number? (2 * residueBytes) text).elim
      (.error (.unreadable text)) reader.ofNumber := by
  rw [ofHex, Hex.fill?_eq_map]
  rcases hvalue : Hex.number? (2 * residueBytes) text with _ | value
  · rfl
  · have hwide : value < 256 ^ residueBytes := Hex.lt_of_number? hvalue
    simp only [Option.map_some, Option.elim_some, ofBytes_eq, Bytes.length_ofNatBE, if_true,
      Bytes.toNatBE_ofNatBE, Nat.mod_eq_of_lt hwide]

theorem ofBytes_eq_ok_iff {bytes : Bytes} {a : Residue n} :
    reader.ofBytes bytes = .ok a ↔
      bytes.length = residueBytes ∧ Bytes.toNatBE bytes = a.val := by
  rw [ofBytes_eq]
  split
  · next hlength => rw [ofNumber_eq_ok_iff, and_iff_right hlength]
  · next hlength => exact iff_of_false (by simp) fun hboth => hlength hboth.1

theorem ofHex_eq_ok_iff {text : String} {a : Residue n} :
    reader.ofHex text = .ok a ↔ Hex.Writes (2 * residueBytes) text a.val := by
  rw [← Hex.number?_eq_some_iff, ofHex_eq]
  cases Hex.number? (2 * residueBytes) text with
  | none => simp
  | some value => rw [Option.elim_some, ofNumber_eq_ok_iff, Option.some.injEq]

theorem ofHex_toHex (a : Residue n) : reader.ofHex a.toHex = .ok a := by
  have hwide : a.val < 256 ^ residueBytes := Nat.lt_of_lt_of_le a.val_lt reader.modulus_le_bytes
  rw [ofHex_eq_ok_iff, ← Hex.number?_eq_some_iff]
  exact number?_hexWord hwide

end StrictReader

theorem Residue.exists_val_iff {n : Nat} {P : Nat → Prop} :
    (∃ a : Residue n, P a.val) ↔ ∃ value, P value ∧ value < n := by
  constructor
  · rintro ⟨a, ha⟩
    exact ⟨a.val, ha, a.val_lt⟩
  · rintro ⟨value, hvalue, hlt⟩
    exact ⟨⟨value, hlt⟩, hvalue⟩

section Systems

variable {n : Nat} [NeZero n] {reader : StrictReader n}
  {ofBytes : Bytes → Except ResidueDefect (Residue n)}
  {ofHex : String → Except ResidueDefect (Residue n)} {reduce : Bytes → Residue n}

/-- The readers of a number system: a strict one for bytes, a strict one for text,
and one that reduces. -/
structure ReadExactly (reader : StrictReader n)
    (ofBytes : Bytes → Except ResidueDefect (Residue n))
    (ofHex : String → Except ResidueDefect (Residue n)) (reduce : Bytes → Residue n) : Prop where
  bytewise : ofBytes = reader.ofBytes ∧ ofHex = reader.ofHex ∧ reduce = Residue.gather n
  bytes_accepted : ∀ bytes, (∃ a, ofBytes bytes = .ok a) ↔
    bytes.length = residueBytes ∧ Bytes.toNatBE bytes < n
  bytes_written : ∀ bytes a, ofBytes bytes = .ok a ↔ a.toBytes = bytes
  text_accepted : ∀ text, (∃ a, ofHex text = .ok a) ↔
    ∃ value, Hex.Writes (2 * residueBytes) text value ∧ value < n
  text_value : ∀ text a, ofHex text = .ok a ↔ Hex.Writes (2 * residueBytes) text a.val
  text_written : ∀ a, ofHex a.toHex = .ok a
  reduced : ∀ bytes, (reduce bytes).val = Bytes.toNatBE bytes % n

theorem StrictReader.readExactly (reader : StrictReader n) :
    ReadExactly reader reader.ofBytes reader.ofHex (Residue.gather n) where
  bytewise := ⟨rfl, rfl, rfl⟩
  bytes_accepted := by
    intro bytes
    simp only [ofBytes_eq_ok_iff, exists_and_left]
    rw [Residue.exists_val_iff (P := (Bytes.toNatBE bytes = ·)), exists_eq_left']
  bytes_written := by
    intro bytes a
    rw [ofBytes_eq_ok_iff, eq_comm (b := bytes), Residue.eq_toBytes_iff reader.modulus_le_bytes]
  text_accepted := by
    intro text
    simp only [ofHex_eq_ok_iff]
    exact Residue.exists_val_iff
  text_value := fun _ _ => reader.ofHex_eq_ok_iff
  text_written := reader.ofHex_toHex
  reduced := fun bytes => congrArg Residue.val (Residue.gather_eq n bytes)

/-- Readers that go by the number of what they are given. -/
theorem readExactly_of_numbers {ofNumber : Nat → Except ResidueDefect (Residue n)}
    (hnumber : ∀ value, ofNumber value = reader.ofNumber value)
    (hbytes : ∀ bytes, ofBytes bytes =
      if bytes.length = residueBytes then ofNumber (Bytes.toNatBE bytes)
      else .error (.length bytes.length))
    (hhex : ∀ text, ofHex text =
      (Hex.number? (2 * residueBytes) text).elim (.error (.unreadable text)) ofNumber)
    (hreduce : ∀ bytes, reduce bytes = Residue.ofNat n (Bytes.toNatBE bytes)) :
    ReadExactly reader ofBytes ofHex reduce := by
  obtain rfl : ofNumber = reader.ofNumber := funext hnumber
  obtain rfl : ofBytes = reader.ofBytes :=
    funext fun bytes => (hbytes bytes).trans (reader.ofBytes_eq bytes).symm
  obtain rfl : ofHex = reader.ofHex :=
    funext fun text => (hhex text).trans (reader.ofHex_eq text).symm
  obtain rfl : reduce = Residue.gather n :=
    funext fun bytes => (hreduce bytes).trans (Residue.gather_eq n bytes).symm
  exact reader.readExactly

end Systems

theorem Felt.readExactly : ReadExactly strict ofBytes ofHex reduce := by
  refine readExactly_of_numbers ?_ (fun _ => rfl) ?_ fun _ => rfl
  · intro value
    rw [ofNatStrict, StrictReader.ofNumber]
    cases Residue.ofNat? modulus value <;> rfl
  · intro text
    rw [ofHex]
    cases Hex.number? (2 * residueBytes) text <;> rfl

theorem Scalar.readExactly : ReadExactly strict ofBytes ofHex reduce := by
  refine readExactly_of_numbers ?_ (fun _ => rfl) ?_ fun _ => rfl
  · intro value
    rw [ofNatStrict, StrictReader.ofNumber]
    cases Residue.ofNat? modulus value <;> rfl
  · intro text
    rw [ofHex]
    cases Hex.number? (2 * residueBytes) text <;> rfl

/-- Field elements and scalars are read from the bytes and the numerals of the
numbers below their modulus, reduced from all other byte strings, and carried
from one modulus to the other by their bytes. -/
theorem residues_read_exactly :
    ReadExactly Felt.strict Felt.ofBytes Felt.ofHex Felt.reduce ∧
    ReadExactly Scalar.strict Scalar.ofBytes Scalar.ofHex Scalar.reduce ∧
    (∀ a : Felt, Scalar.ofFelt a = Scalar.reduce a.toBytes ∧ (Scalar.ofFelt a).val = a.val ∧
      (Scalar.ofFelt a).toFelt = a) ∧
    ∀ k : Scalar, k.toFelt = Felt.reduce k.toBytes ∧
      (Scalar.ofFelt k.toFelt = k ↔ k.val < Felt.modulus) := by
  refine ⟨Felt.readExactly, Scalar.readExactly, ?_, ?_⟩
  · intro a
    exact ⟨Scalar.ofFelt_eq_reduce a, rfl, Scalar.toFelt_ofFelt a⟩
  · intro k
    exact ⟨Scalar.toFelt_eq_reduce k, Scalar.ofFelt_toFelt_iff⟩

example : Felt.strict.ofHex "0x0X1" = .error (.unreadable "0x0X1") := by decide +kernel

end ShieldedPool
