/-
The public point of a note.  A note is made of a scalar that is not zero, so the
point is finite, and the commitment holds its first coordinate.  A private scalar shares that
coordinate with its opposite modulo `q` and with no other.
-/
import ShieldedPool.Note
import ShieldedPool.Proofs.Point.Multiples

namespace ShieldedPool

theorem Note.create_eq_ok_iff {note : Note} {amount : UInt64} {privateScalar auxSecret : Felt} :
    create amount privateScalar auxSecret = .ok note ↔
      privateScalar ≠ 0 ∧ note = ⟨amount, privateScalar, auxSecret, none⟩ := by
  rw [create]
  by_cases hzero : privateScalar = 0
  · simp [hzero]
  · simp [hzero, eq_comm]

/-- The private scalars add up to the order of the curve. -/
def Note.Opposite (n₁ n₂ : Note) : Prop :=
  n₁.privateScalar.val + n₂.privateScalar.val = Scalar.modulus

theorem Note.eq_or_opposite {n₁ n₂ : Note} {x y₁ y₂ : Felt}
    (h₁ : n₁.publicKey = .affine x y₁) (h₂ : n₂.publicKey = .affine x y₂) :
    n₁.privateScalar = n₂.privateScalar ∨ n₁.Opposite n₂ := by
  rcases Point.eq_or_add_eq_zero_of_x h₁ h₂ with hsame | hsum
  · left
    exact Residue.ext_val (congrArg (fun k : Scalar => k.val) hsame)
  · right
    refine Residue.val_add_val hsum ?_
    intro hzero
    rw [publicKey, hzero, Point.mulGenerator_eq_infinity_iff.2 rfl] at h₁
    cases h₁

/-- The public point of a note that could be made is finite. -/
theorem Note.exists_publicKey {note : Note} (hne : note.privateScalar ≠ 0) :
    ∃ x y, note.publicKey = .affine x y := by
  rcases hkey : note.publicKey with _ | ⟨x, y⟩
  · have hscalar := Point.mulGenerator_eq_infinity_iff.1 hkey
    have hval : note.privateScalar.val = 0 := congrArg (fun k : Scalar => k.val) hscalar
    exact absurd hval (Residue.val_ne_zero hne)
  · exact ⟨x, y, rfl⟩

theorem Note.commitment_of_key {note : Note} {x y : Felt}
    (hkey : note.publicKey = .affine x y) :
    note.commitment = ShieldedPool.commitment x note.amount := by
  rw [commitment, hkey]

theorem Note.publicKey_of_opposite {n₁ n₂ : Note} {x y : Felt}
    (hopposite : n₁.Opposite n₂) (hkey : n₁.publicKey = .affine x y) :
    n₂.publicKey = .affine x (-y) := by
  have hsum : Scalar.ofFelt n₁.privateScalar + Scalar.ofFelt n₂.privateScalar = 0 :=
    Residue.ext_val ((congrArg (· % Scalar.modulus) hopposite).trans (Nat.mod_self _))
  rw [publicKey] at hkey ⊢
  rw [Point.mulGenerator_of_add_eq_zero hsum, hkey]
  rfl

end ShieldedPool
