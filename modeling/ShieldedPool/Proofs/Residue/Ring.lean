/-
Residues are the ring of integers modulo their modulus.  Every operation is
that of the ring, and for a prime modulus the reciprocal is its inverse, so
identities between residues are settled there.
-/
import Mathlib.Data.ZMod.Basic
import Mathlib.FieldTheory.Finite.Basic
import ShieldedPool.Residue
import ShieldedPool.Proofs.Doubling

namespace ShieldedPool.Residue

variable {n : Nat}

def toZMod (a : Residue n) : ZMod n := (a.val : ZMod n)

theorem toZMod_injective : Function.Injective (toZMod : Residue n → ZMod n) := by
  intro a b heq
  apply ext_val
  have hmod := (ZMod.natCast_eq_natCast_iff' a.val b.val n).1 heq
  rwa [Nat.mod_eq_of_lt a.val_lt, Nat.mod_eq_of_lt b.val_lt] at hmod

theorem toZMod_inj {a b : Residue n} : a.toZMod = b.toZMod ↔ a = b :=
  toZMod_injective.eq_iff

@[simp] theorem toZMod_add (a b : Residue n) : (a + b).toZMod = a.toZMod + b.toZMod := by
  rw [toZMod, val_add, ZMod.natCast_mod, Nat.cast_add]
  rfl

@[simp] theorem toZMod_mul (a b : Residue n) : (a * b).toZMod = a.toZMod * b.toZMod := by
  rw [toZMod, val_mul, ZMod.natCast_mod, Nat.cast_mul]
  rfl

@[simp] theorem toZMod_neg (a : Residue n) : (-a).toZMod = -a.toZMod := by
  rw [toZMod, val_neg, ZMod.natCast_mod, Nat.cast_sub (Nat.le_of_lt a.val_lt),
    ZMod.natCast_self, zero_sub]
  rfl

@[simp] theorem toZMod_sub (a b : Residue n) : (a - b).toZMod = a.toZMod - b.toZMod := by
  rw [toZMod, val_sub, ZMod.natCast_mod, Nat.cast_add,
    Nat.cast_sub (Nat.le_of_lt b.val_lt), ZMod.natCast_self, zero_sub, ← sub_eq_add_neg]
  rfl

theorem mul_comm_residue (a b : Residue n) : a * b = b * a :=
  ext_val (by rw [val_mul, val_mul, Nat.mul_comm])

theorem add_comm_residue (a b : Residue n) : a + b = b + a :=
  ext_val (by rw [val_add, val_add, Nat.add_comm])

theorem neg_neg (a : Residue n) : - -a = a := by
  apply toZMod_injective
  simp

section NeZero

variable [NeZero n]

theorem toZMod_natCast (k : Nat) : (ofNat n k).toZMod = (k : ZMod n) := by
  rw [toZMod, val_ofNat, ZMod.natCast_mod]

@[simp] theorem toZMod_zero : (0 : Residue n).toZMod = 0 :=
  (toZMod_natCast 0).trans Nat.cast_zero

@[simp] theorem toZMod_one : (1 : Residue n).toZMod = 1 :=
  (toZMod_natCast 1).trans Nat.cast_one

@[simp] theorem toZMod_ofNat (k : Nat) [k.AtLeastTwo] :
    (ofNat(k) : Residue n).toZMod = ofNat(k) :=
  (toZMod_natCast k).trans (Nat.cast_ofNat)

@[simp] theorem toZMod_eq_zero {a : Residue n} : a.toZMod = 0 ↔ a = 0 := by
  rw [← toZMod_zero, toZMod_inj]

@[simp] theorem toZMod_pow (a : Residue n) (k : Nat) : (a ^ k).toZMod = a.toZMod ^ k := by
  refine repeatByDoubling_counts
    (fun copies (b : Residue n) => b.toZMod = a.toZMod ^ copies) ?_ ?_ ?_ k
  · rw [toZMod_one, pow_zero]
  · intro copies b hb
    rw [toZMod_mul, hb, ← pow_add, ← two_mul]
  · intro copies b hb
    rw [toZMod_mul, hb, pow_succ]

theorem add_eq_zero_iff {a b : Residue n} : a + b = 0 ↔ a = -b := by
  rw [← toZMod_eq_zero, toZMod_add, ← toZMod_inj, toZMod_neg, add_eq_zero_iff_eq_neg]

theorem val_ne_zero {a : Residue n} (hne : a ≠ 0) : a.val ≠ 0 :=
  fun hzero => hne (ext_val (hzero.trans (Nat.zero_mod n).symm))

/-- Opposite residues add up to the modulus, zero apart. -/
theorem val_add_val {a b : Residue n} (hsum : a + b = 0) (hne : a ≠ 0) :
    a.val + b.val = n := by
  have hmod : (a.val + b.val) % n = 0 := (congrArg val hsum).trans (Nat.zero_mod n)
  have hpos := val_ne_zero hne
  have hlt := a.val_lt
  have hlt' := b.val_lt
  by_cases hle : n ≤ a.val + b.val
  · rw [Nat.mod_eq_sub_mod hle, Nat.mod_eq_of_lt (by omega)] at hmod
    omega
  · rw [Nat.mod_eq_of_lt (by omega)] at hmod
    omega

def ofZMod (x : ZMod n) : Residue n := ⟨x.val, ZMod.val_lt x⟩

@[simp] theorem toZMod_ofZMod (x : ZMod n) : (ofZMod x).toZMod = x :=
  ZMod.natCast_zmod_val x

@[simp] theorem ofZMod_toZMod (a : Residue n) : ofZMod a.toZMod = a :=
  toZMod_injective (toZMod_ofZMod _)

theorem ofZMod_inj {x y : ZMod n} : ofZMod x = ofZMod y ↔ x = y :=
  (Function.LeftInverse.injective toZMod_ofZMod).eq_iff

theorem mul_eq_zero_iff [Fact n.Prime] {a b : Residue n} : a * b = 0 ↔ a = 0 ∨ b = 0 := by
  rw [← toZMod_eq_zero, toZMod_mul, mul_eq_zero, toZMod_eq_zero, toZMod_eq_zero]

/-- Modulo an odd prime the reciprocal is the inverse, also at zero. -/
theorem toZMod_reciprocal [Fact n.Prime] (hodd : 2 < n) (a : Residue n) :
    a.reciprocal.toZMod = a.toZMod⁻¹ := by
  rw [reciprocal, toZMod_pow]
  by_cases hzero : a.toZMod = 0
  · rw [hzero, inv_zero, zero_pow (by omega)]
  · apply eq_inv_of_mul_eq_one_left
    rw [← pow_succ, show n - 2 + 1 = n - 1 by omega, ZMod.pow_card_sub_one_eq_one hzero]

end NeZero

end ShieldedPool.Residue
