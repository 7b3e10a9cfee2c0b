/-
The bytes of a residue.  Thirty-two bytes write every number below the modulus
in one way, so a byte string of that length is the form of a residue exactly
when its number is below the modulus.  Strict readers accept these forms and
nothing else.
-/
import ShieldedPool.Felt

namespace ShieldedPool

namespace Residue

variable {n : Nat} {bytes : Bytes}

theorem toNatBE_toBytes (hwide : n ≤ 256 ^ residueBytes) (a : Residue n) :
    Bytes.toNatBE a.toBytes = a.val := by
  have hlt : a.val < 256 ^ residueBytes := Nat.lt_of_lt_of_le a.val_lt hwide
  rw [toBytes, Bytes.toNatBE_ofNatBE, Nat.mod_eq_of_lt hlt]

theorem eq_toBytes_iff (hwide : n ≤ 256 ^ residueBytes) {a : Residue n} :
    bytes = a.toBytes ↔ bytes.length = residueBytes ∧ Bytes.toNatBE bytes = a.val := by
  constructor
  · rintro rfl
    exact ⟨a.length_toBytes, toNatBE_toBytes hwide a⟩
  · rintro ⟨hlength, hvalue⟩
    calc bytes = Bytes.ofNatBE bytes.length (Bytes.toNatBE bytes) :=
          (Bytes.ofNatBE_toNatBE bytes).symm
      _ = Bytes.ofNatBE residueBytes a.val := by rw [hlength, hvalue]

/-- A byte string of the width of a residue is the form of one, or its number is
too large. -/
theorem exists_toBytes_or_le (hwide : n ≤ 256 ^ residueBytes)
    (hlength : bytes.length = residueBytes) :
    (∃ a : Residue n, bytes = a.toBytes) ∨ n ≤ Bytes.toNatBE bytes := by
  rcases Nat.lt_or_ge (Bytes.toNatBE bytes) n with hlt | hge
  · exact .inl ⟨⟨_, hlt⟩, (eq_toBytes_iff hwide).2 ⟨hlength, rfl⟩⟩
  · exact .inr hge

end Residue

namespace Felt

theorem modulus_le_bytes : modulus ≤ 256 ^ residueBytes := by decide

theorem toNatBE_toBytes (a : Felt) : Bytes.toNatBE a.toBytes = a.val :=
  Residue.toNatBE_toBytes modulus_le_bytes a

theorem ofBytes_toBytes (a : Felt) : ofBytes a.toBytes = .ok a := by
  rw [ofBytes, if_pos a.length_toBytes, ofNatStrict, toNatBE_toBytes, Residue.ofNat?_val]

/-- A number that is not reduced is refused. -/
theorem ofBytes_of_modulus_le {bytes : Bytes} (hlength : bytes.length = residueBytes)
    (hlarge : modulus ≤ Bytes.toNatBE bytes) :
    ofBytes bytes = .error (.notBelowField (Bytes.toNatBE bytes)) := by
  have hnone : Residue.ofNat? modulus (Bytes.toNatBE bytes) = none :=
    dif_neg (Nat.not_lt.2 hlarge)
  rw [ofBytes, if_pos hlength, ofNatStrict, hnone]

end Felt

namespace Scalar

theorem modulus_le_bytes : modulus ≤ 256 ^ residueBytes := by decide

theorem ofBytes_eq_ok_iff {bytes : Bytes} {k : Scalar} :
    ofBytes bytes = .ok k ↔ bytes = k.toBytes := by
  rw [Residue.eq_toBytes_iff modulus_le_bytes, ofBytes]
  by_cases hlength : bytes.length = residueBytes
  · have hvalue : Residue.ofNat? modulus (Bytes.toNatBE bytes) = some k ↔
        Bytes.toNatBE bytes = k.val := Residue.ofNat?_eq_some_iff.trans eq_comm
    rw [if_pos hlength, ofNatStrict, ← hvalue]
    cases Residue.ofNat? modulus (Bytes.toNatBE bytes) <;> simp [hlength]
  · simp [hlength]

/-- A field element is the scalar of its bytes. -/
theorem ofFelt_eq_reduce (a : Felt) : ofFelt a = reduce a.toBytes := by
  apply Residue.ext_val
  have hlt : a.val < modulus := (ofFelt a).val_lt
  rw [reduce, Felt.toNatBE_toBytes, Residue.val_ofNat, Nat.mod_eq_of_lt hlt]
  rfl

theorem toFelt_eq_reduce (k : Scalar) : k.toFelt = Felt.reduce k.toBytes := by
  rw [Felt.reduce, Residue.toNatBE_toBytes modulus_le_bytes]
  rfl

/-- A scalar survives reduction exactly when there is nothing to reduce. -/
theorem ofFelt_toFelt_iff {k : Scalar} : ofFelt k.toFelt = k ↔ k.val < Felt.modulus := by
  constructor
  · intro hsame
    rw [← hsame]
    exact k.toFelt.val_lt
  · intro hlt
    exact Residue.ext_val (Nat.mod_eq_of_lt hlt)

end Scalar

end ShieldedPool
