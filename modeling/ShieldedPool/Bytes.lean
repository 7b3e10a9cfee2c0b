/-
Byte strings and the numbers they write.  Fixed-width integers are
little-endian in the record formats; field elements and scalars are
big-endian, which is the same numeral read from the other end.
-/
import ShieldedPool.Numbers

namespace ShieldedPool

abbrev Bytes := List UInt8

namespace Bytes

/-- The `width` lowest bytes of a number, least significant first. -/
def ofNatLE : Nat → Nat → Bytes
  | 0, _ => []
  | width + 1, value => UInt8.ofNat value :: ofNatLE width (value / 256)

/-- The number a byte string writes, least significant byte first. -/
def toNatLE : Bytes → Nat
  | [] => 0
  | byte :: rest => byte.toNat + 256 * toNatLE rest

/-- The `width` lowest bytes of a number, most significant first. -/
def ofNatBE (width value : Nat) : Bytes := (ofNatLE width value).reverse

/-- The number a byte string writes, most significant byte first. -/
def toNatBE (bytes : Bytes) : Nat := toNatLE bytes.reverse

@[simp] theorem length_ofNatLE (width value : Nat) :
    (ofNatLE width value).length = width := by
  induction width generalizing value with
  | zero => rfl
  | succ width ih => simp [ofNatLE, ih]

@[simp] theorem length_ofNatBE (width value : Nat) :
    (ofNatBE width value).length = width := by
  simp [ofNatBE]

theorem toNatLE_lt (bytes : Bytes) : toNatLE bytes < 256 ^ bytes.length := by
  induction bytes with
  | nil => simp [toNatLE]
  | cons byte rest ih =>
      have hbyte : byte.toNat < 256 := byte.toNat_lt
      simp only [toNatLE, List.length_cons, Nat.pow_succ]
      omega

theorem toNatBE_lt (bytes : Bytes) : toNatBE bytes < 256 ^ bytes.length := by
  simpa [toNatBE] using toNatLE_lt bytes.reverse

theorem toNatLE_ofNatLE (width value : Nat) :
    toNatLE (ofNatLE width value) = value % 256 ^ width := by
  induction width generalizing value with
  | zero => simp [ofNatLE, toNatLE, Nat.mod_one]
  | succ width ih =>
      have hstep : (UInt8.ofNat value).toNat = value % 256 := by simp
      rw [ofNatLE, toNatLE, ih, hstep, Nat.pow_succ, Nat.mul_comm (256 ^ width),
        Nat.mod_mul]

theorem toNatBE_ofNatBE (width value : Nat) :
    toNatBE (ofNatBE width value) = value % 256 ^ width := by
  simp [toNatBE, ofNatBE, toNatLE_ofNatLE]

theorem ofNatLE_toNatLE (bytes : Bytes) :
    ofNatLE bytes.length (toNatLE bytes) = bytes := by
  induction bytes with
  | nil => rfl
  | cons byte rest ih =>
      have hbyte : byte.toNat < 256 := byte.toNat_lt
      have hlow : UInt8.ofNat (byte.toNat + 256 * toNatLE rest) = byte := by
        apply UInt8.toNat.inj
        simp only [UInt8.toNat_ofNat']
        omega
      have hhigh : (byte.toNat + 256 * toNatLE rest) / 256 = toNatLE rest := by
        omega
      rw [toNatLE, List.length_cons, ofNatLE, hlow, hhigh, ih]

theorem ofNatBE_toNatBE (bytes : Bytes) :
    ofNatBE bytes.length (toNatBE bytes) = bytes := by
  have h := ofNatLE_toNatLE bytes.reverse
  rw [List.length_reverse] at h
  simp [ofNatBE, toNatBE, h]

/-- A 64-bit word as eight bytes, least significant first. -/
def ofWord64 (word : UInt64) : Bytes := ofNatLE 8 word.toNat

/-- The 64-bit word of a byte string, least significant byte first. -/
def toWord64 (bytes : Bytes) : UInt64 := UInt64.ofNat (toNatLE bytes)

theorem toWord64_ofWord64 (word : UInt64) : toWord64 (ofWord64 word) = word := by
  have hword : word.toNat < 2 ^ 64 := word.toNat_lt
  apply UInt64.toNat.inj
  simp only [toWord64, ofWord64, toNatLE_ofNatLE, UInt64.toNat_ofNat']
  omega

theorem ofWord64_toWord64 {bytes : Bytes} (hlength : bytes.length = 8) :
    ofWord64 (toWord64 bytes) = bytes := by
  have hlt := toNatLE_lt bytes
  have hback := ofNatLE_toNatLE bytes
  rw [hlength] at hlt hback
  have hvalue : (UInt64.ofNat (toNatLE bytes)).toNat = toNatLE bytes := by
    simp only [UInt64.toNat_ofNat']
    omega
  rw [ofWord64, toWord64, hvalue, hback]

/-- The first `count` bytes and the rest, when there are that many. -/
def split? (count : Nat) (bytes : Bytes) : Option (Bytes × Bytes) :=
  if count ≤ bytes.length then some (bytes.take count, bytes.drop count) else none

theorem split?_append {count : Nat} {head : Bytes} (hlength : head.length = count)
    (rest : Bytes) : split? count (head ++ rest) = some (head, rest) := by
  subst hlength
  simp [split?]

theorem eq_append_of_split? {count : Nat} {bytes head rest : Bytes}
    (hsplit : split? count bytes = some (head, rest)) :
    bytes = head ++ rest ∧ head.length = count := by
  unfold split? at hsplit
  split at hsplit
  · next hle =>
      simp only [Option.some.injEq, Prod.mk.injEq] at hsplit
      obtain ⟨rfl, rfl⟩ := hsplit
      exact ⟨(List.take_append_drop count bytes).symm, by simp [hle]⟩
  · simp at hsplit

end Bytes

/-- Exactly `n` bytes. -/
structure ByteWord (n : Nat) where
  bytes : Bytes
  length_eq : bytes.length = n
deriving DecidableEq

end ShieldedPool
