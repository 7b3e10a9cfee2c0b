/-
Hexadecimal text reads back.  Every byte is two digits, so the digits of a byte
string write, in base sixteen, the number that the bytes write in base 256.
-/
import Mathlib.Tactic.Ring
import ShieldedPool.Proofs.Residue.CanonicalBytes

namespace ShieldedPool

namespace Bytes

theorem toNatLE_append (low high : Bytes) :
    toNatLE (low ++ high) = toNatLE low + 256 ^ low.length * toNatLE high := by
  induction low with
  | nil => simp [toNatLE]
  | cons byte low ih =>
      rw [List.cons_append, toNatLE, toNatLE, ih, List.length_cons, Nat.pow_succ]
      ring

theorem toNatBE_cons (byte : UInt8) (rest : Bytes) :
    toNatBE (byte :: rest) = byte.toNat * 256 ^ rest.length + toNatBE rest := by
  have hlast : toNatLE [byte] = byte.toNat := by simp [toNatLE]
  rw [toNatBE, List.reverse_cons, toNatLE_append, hlast, List.length_reverse, toNatBE]
  ring

end Bytes

namespace Hex

theorem valueFrom?_byteDigits (bytes : Bytes) (high : Nat) :
    valueFrom? high (bytes.flatMap byteDigits) =
      some (high * 256 ^ bytes.length + Bytes.toNatBE bytes) := by
  induction bytes generalizing high with
  | nil => simp [valueFrom?, Bytes.toNatBE, Bytes.toNatLE]
  | cons byte rest ih =>
      have hbyte : byte.toNat < 256 := byte.toNat_lt
      have hhigh := digitValue?_digit (byte.toNat / 16) (by omega)
      have hlow := digitValue?_digit (byte.toNat % 16) (by omega)
      have hjoin : 16 * (16 * high + byte.toNat / 16) + byte.toNat % 16 =
          high * 256 + byte.toNat := by omega
      have hstep : valueFrom? high ((byte :: rest).flatMap byteDigits) =
          valueFrom? (high * 256 + byte.toNat) (rest.flatMap byteDigits) := by
        rw [List.flatMap_cons, byteDigits, List.cons_append, List.cons_append, List.nil_append,
          valueFrom?, hhigh]
        simp only [valueFrom?, hlow, hjoin]
      rw [hstep, ih, Bytes.toNatBE_cons, List.length_cons, Nat.pow_succ]
      congr 1
      ring

/-- Two digits a byte. -/
theorem length_byteDigits (bytes : Bytes) :
    (bytes.flatMap byteDigits).length = 2 * bytes.length := by
  induction bytes with
  | nil => rfl
  | cons byte rest ih =>
      rw [List.flatMap_cons, List.length_append, ih, List.length_cons, byteDigits]
      simp only [List.length_cons, List.length_nil]
      omega

end Hex

theorem toList_hexWord (value : Nat) :
    (hexWord value).toList =
      '0' :: 'x' :: (Bytes.ofNatBE residueBytes value).flatMap Hex.byteDigits := by
  simp [hexWord, Hex.encode, String.toList_append]

/-- A written word reads back as the number it was written for. -/
theorem number?_hexWord {value : Nat} (hvalue : value < 256 ^ residueBytes) :
    Hex.number? (2 * residueBytes) (hexWord value) = some value := by
  have hlength : ((Bytes.ofNatBE residueBytes value).flatMap Hex.byteDigits).length =
      2 * residueBytes := by
    rw [Hex.length_byteDigits, Bytes.length_ofNatBE]
  have hdigits : ((Bytes.ofNatBE residueBytes value).flatMap Hex.byteDigits).isEmpty = false := by
    rw [List.isEmpty_eq_false_iff, ← List.length_pos_iff, hlength]
    decide
  have hread := Hex.valueFrom?_byteDigits (Bytes.ofNatBE residueBytes value) 0
  rw [Bytes.toNatBE_ofNatBE, Nat.mod_eq_of_lt hvalue, Nat.zero_mul, Nat.zero_add] at hread
  simp only [Hex.number?, toList_hexWord, Hex.stripMark, hdigits, hlength, Nat.lt_irrefl,
    decide_false, Bool.or_self, Bool.false_eq_true, if_false, hread]

theorem Felt.ofHex_toHex (a : Felt) : Felt.ofHex a.toHex = .ok a := by
  have hvalue : a.val < 256 ^ residueBytes :=
    Nat.lt_of_lt_of_le a.val_lt Felt.modulus_le_bytes
  simp only [Felt.ofHex, Residue.toHex, number?_hexWord hvalue, Felt.ofNatStrict,
    Residue.ofNat?_val]

end ShieldedPool
