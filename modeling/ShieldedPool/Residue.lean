/-
Residues modulo a number.  A residue is stored as its least representative,
so equality of residues is equality of representatives and every operation
ends in one reduction.
-/
import ShieldedPool.Doubling

namespace ShieldedPool

/-- An integer modulo `n`, as the representative below `n`. -/
structure Residue (n : Nat) where
  val : Nat
  val_lt : val < n
deriving DecidableEq

namespace Residue

variable {n : Nat}

theorem ext_val : ∀ {a b : Residue n}, a.val = b.val → a = b
  | ⟨_, _⟩, ⟨_, _⟩, rfl => rfl

/-- The modulus of an inhabited residue type is positive. -/
theorem modulus_pos (a : Residue n) : 0 < n :=
  Nat.lt_of_le_of_lt (Nat.zero_le _) a.val_lt

def ofNat (n : Nat) [NeZero n] (k : Nat) : Residue n :=
  ⟨k % n, Nat.mod_lt _ (Nat.pos_of_ne_zero (NeZero.ne n))⟩

@[simp] theorem val_ofNat [NeZero n] (k : Nat) : (ofNat n k).val = k % n := rfl

theorem ofNat_val [NeZero n] (a : Residue n) : ofNat n a.val = a :=
  ext_val (Nat.mod_eq_of_lt a.val_lt)

instance [NeZero n] (k : Nat) : OfNat (Residue n) k := ⟨ofNat n k⟩

instance [NeZero n] : Inhabited (Residue n) := ⟨0⟩

instance : Add (Residue n) :=
  ⟨fun a b => ⟨(a.val + b.val) % n, Nat.mod_lt _ a.modulus_pos⟩⟩

instance : Neg (Residue n) :=
  ⟨fun a => ⟨(n - a.val) % n, Nat.mod_lt _ a.modulus_pos⟩⟩

instance : Sub (Residue n) :=
  ⟨fun a b => ⟨(a.val + (n - b.val)) % n, Nat.mod_lt _ a.modulus_pos⟩⟩

instance : Mul (Residue n) :=
  ⟨fun a b => ⟨(a.val * b.val) % n, Nat.mod_lt _ a.modulus_pos⟩⟩

theorem val_add (a b : Residue n) : (a + b).val = (a.val + b.val) % n := rfl

theorem val_neg (a : Residue n) : (-a).val = (n - a.val) % n := rfl

theorem val_sub (a b : Residue n) : (a - b).val = (a.val + (n - b.val)) % n := rfl

theorem val_mul (a b : Residue n) : (a * b).val = (a.val * b.val) % n := rfl

instance [NeZero n] : HPow (Residue n) Nat (Residue n) :=
  ⟨fun a k => repeatByDoubling (fun b => b * b) (fun b => b * a) 1 k⟩

def isOdd (a : Residue n) : Bool := a.val % 2 == 1

/-- The reciprocal, by the power `n - 2`: for a prime modulus it is the
multiplicative inverse of every residue but zero, whose reciprocal is zero. -/
def reciprocal [NeZero n] (a : Residue n) : Residue n := a ^ (n - 2)

/-- The multiplicative inverse modulo a prime, which zero does not have. -/
def inverse? [NeZero n] (a : Residue n) : Option (Residue n) :=
  if a = 0 then none else some a.reciprocal

end Residue

end ShieldedPool
