/-
Compression loses nothing.  A first coordinate leaves two second ones, which
are opposite; the modulus is odd, so exactly one of the two has the parity in
the tag.
-/
import ShieldedPool.Point.Compressed
import ShieldedPool.Proofs.Felt.SquareRoot
import ShieldedPool.Proofs.Residue.CanonicalBytes

namespace ShieldedPool

theorem Felt.isOdd_neg {a : Felt} (hne : a ≠ 0) : (-a).isOdd = !a.isOdd := by
  have hpos : 0 < a.val := Nat.pos_of_ne_zero (Residue.val_ne_zero hne)
  have hlt := a.val_lt
  have hodd : Felt.modulus % 2 = 1 := by decide
  have hval : (-a).val = Felt.modulus - a.val := by
    rw [Residue.val_neg, Nat.mod_eq_of_lt (by omega)]
  rw [Residue.isOdd, Residue.isOdd, hval, Bool.eq_iff_iff]
  simp only [beq_iff_eq, Bool.not_eq_true', beq_eq_false_iff_ne]
  omega

namespace Point

/-- Of a root and its opposite, the parity picks the one it was taken from. -/
theorem select_parity {y root : Felt} (hroot : root = y ∨ root = -y) :
    (if root.isOdd = y.isOdd then root else -root) = y := by
  rcases hroot with rfl | rfl
  · rw [if_pos rfl]
  · by_cases hzero : y = 0
    · have hneg : (-0 : Felt) = 0 := Residue.toZMod_injective (by simp)
      rw [hzero, hneg, if_pos rfl]
    · have hflip : (-y).isOdd ≠ y.isOdd := by
        rw [Felt.isOdd_neg hzero]
        exact Bool.not_ne_self _
      rw [if_neg hflip, Residue.neg_neg]

theorem lift_isOdd {x y : Felt} (hcurve : (affine x y).OnCurve) :
    lift x y.isOdd = .ok (affine x y) := by
  have hsquare : y * y = curveRight x := hcurve
  obtain ⟨root, hfound, hroot⟩ := Felt.sqrt?_of_square hsquare
  have hsame : root = y ∨ root = -y :=
    Felt.eq_or_eq_neg_of_square (hroot.trans hsquare.symm)
  rw [lift, hfound, Option.elim_some, select_parity hsame, ofCoordinates, if_pos hcurve]

theorem decompress_compress {p : Point} (hcurve : p.OnCurve) :
    decompress p.compress = .ok p := by
  rcases p with _ | ⟨x, y⟩
  · rfl
  · have htag : parityTag y ≠ 0 ∧ (parityTag y = 2 ∨ parityTag y = 3) ∧
        (parityTag y == 3) = y.isOdd := by
      rw [parityTag]
      cases y.isOdd <;> decide
    rw [compress, decompress, if_neg (by simp), if_neg htag.1, if_pos htag.2.1,
      Felt.ofBytes_toBytes]
    simp only [htag.2.2, lift_isOdd hcurve]

end Point

end ShieldedPool
