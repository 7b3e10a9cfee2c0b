/-
Every point has one compressed form.  No point of the curve has a zero second
coordinate, for seventeen is no cube modulo `p`.  So the two points over a first
coordinate have second coordinates of different parity, a tag names one of them,
and what is read from a byte string is written as that same byte string.
-/
import ShieldedPool.Proofs.Point.Compression
import ShieldedPool.Proofs.Results

namespace ShieldedPool

/-- A cube to a third of the order of the field is one, and seventeen is not. -/
theorem Felt.cube_ne_seventeen (x : Felt) : x * x * x ≠ 17 := by
  intro hcube
  have hring : x.toZMod ^ 3 = (17 : Felt).toZMod := by
    rw [← hcube, Residue.toZMod_mul, Residue.toZMod_mul]
    ring
  have hne : x.toZMod ≠ 0 := by
    intro hzero
    have hseventeen : (17 : Felt) = 0 := by
      rw [← Residue.toZMod_eq_zero, ← hring, hzero, zero_pow three_ne_zero]
    exact absurd hseventeen (by decide)
  have hthird : modulus - 1 = 3 * ((modulus - 1) / 3) := by decide
  have hone : (17 : Felt) ^ ((modulus - 1) / 3) = 1 := by
    apply Residue.toZMod_injective
    rw [Residue.toZMod_pow, ← hring, ← pow_mul, ← hthird, ZMod.pow_card_sub_one_eq_one hne,
      Residue.toZMod_one]
  exact absurd hone (by decide +kernel)

namespace Point

variable {x y : Felt} {tag : UInt8} {bytes : Bytes}

theorem OnCurve.y_ne_zero (hcurve : (affine x y).OnCurve) : y ≠ 0 := by
  rintro rfl
  apply x.cube_ne_seventeen
  have hring := congrArg Residue.toZMod (show (0 : Felt) * 0 = curveRight x from hcurve)
  simp only [curveRight, Residue.toZMod_mul, Residue.toZMod_sub, Residue.toZMod_zero,
    mul_zero] at hring
  apply Residue.toZMod_injective
  rw [Residue.toZMod_mul, Residue.toZMod_mul]
  exact sub_eq_zero.1 hring.symm

theorem OnCurve.neg (hcurve : (affine x y).OnCurve) : (affine x (-y)).OnCurve := by
  have hsquare : y * y = curveRight x := hcurve
  have hopposite : -y * -y = y * y := Residue.toZMod_injective (by simp)
  exact hopposite.trans hsquare

/-- The points over a first coordinate bear both tags. -/
theorem exists_onCurve_of_tag (htag : tag = 2 ∨ tag = 3) (hsquare : IsSquare (curveRight x)) :
    ∃ y, (affine x y).OnCurve ∧ parityTag y = tag := by
  obtain ⟨y, hy⟩ := hsquare
  have hcurve : (affine x y).OnCurve := hy.symm
  have hflip := Felt.isOdd_neg hcurve.y_ne_zero
  by_cases hsame : parityTag y = tag
  · exact ⟨y, hcurve, hsame⟩
  · refine ⟨-y, hcurve.neg, ?_⟩
    revert hsame
    rw [parityTag, parityTag, hflip]
    rcases htag with rfl | rfl <;> cases y.isOdd <;> decide

/-- Zeros throughout, or a tag of parity before a number below the modulus that
the curve has a point over. -/
inductive WellFormed : Bytes → Prop
  | infinity : WellFormed (List.replicate compressedBytes 0)
  | finite {tag : UInt8} {payload : Bytes} {x : Felt} (htag : tag = 2 ∨ tag = 3)
      (hlength : payload.length = residueBytes) (hvalue : Bytes.toNatBE payload = x.val)
      (hsquare : IsSquare (curveRight x)) : WellFormed (tag :: payload)

/-- What is wrong with a byte string that is the form of no point. -/
inductive Malformed : Bytes → PointDefect → Prop
  | length {bytes : Bytes} (hlength : bytes.length ≠ compressedBytes) :
      Malformed bytes (.length bytes.length)
  | infinityPayload {payload : Bytes} (hlength : payload.length = residueBytes)
      (hpayload : payload ≠ List.replicate residueBytes 0) :
      Malformed (0 :: payload) .infinityPayload
  | unknownTag {tag : UInt8} {payload : Bytes} (hlength : payload.length = residueBytes)
      (htag : tag ≠ 0 ∧ tag ≠ 2 ∧ tag ≠ 3) : Malformed (tag :: payload) (.unknownTag tag)
  | coordinateTooLarge {tag : UInt8} {payload : Bytes} (htag : tag = 2 ∨ tag = 3)
      (hlength : payload.length = residueBytes)
      (hlarge : Felt.modulus ≤ Bytes.toNatBE payload) :
      Malformed (tag :: payload) .coordinateTooLarge
  | noPoint {tag : UInt8} {payload : Bytes} {x : Felt} (htag : tag = 2 ∨ tag = 3)
      (hlength : payload.length = residueBytes) (hvalue : Bytes.toNatBE payload = x.val)
      (hsquare : ¬ IsSquare (curveRight x)) : Malformed (tag :: payload) (.noPoint x)

theorem wellFormed_or_malformed (bytes : Bytes) :
    WellFormed bytes ∨ ∃ defect, Malformed bytes defect := by
  by_cases hlength : bytes.length = compressedBytes
  · rcases bytes with _ | ⟨tag, payload⟩
    · cases hlength
    · have hpayload : payload.length = residueBytes :=
        Nat.succ.inj (hlength.trans (Nat.add_comm 1 residueBytes))
      by_cases hparity : tag = 2 ∨ tag = 3
      · rcases Residue.exists_toBytes_or_le Felt.modulus_le_bytes hpayload with
          ⟨x, hx⟩ | hlarge
        · have hvalue := ((Residue.eq_toBytes_iff Felt.modulus_le_bytes).1 hx).2
          by_cases hsquare : IsSquare (curveRight x)
          · exact .inl (.finite hparity hpayload hvalue hsquare)
          · exact .inr ⟨_, .noPoint hparity hpayload hvalue hsquare⟩
        · exact .inr ⟨_, .coordinateTooLarge hparity hpayload hlarge⟩
      · by_cases hzero : tag = 0
        · subst hzero
          by_cases hzeros : payload = List.replicate residueBytes 0
          · subst hzeros
            exact .inl .infinity
          · exact .inr ⟨_, .infinityPayload hpayload hzeros⟩
        · exact .inr ⟨_, .unknownTag hpayload ⟨hzero, not_or.1 hparity⟩⟩
  · exact .inr ⟨_, .length hlength⟩

theorem wellFormed_iff_exists :
    WellFormed bytes ↔ ∃ p : Point, p.OnCurve ∧ p.compress = bytes := by
  constructor
  · rintro (_ | ⟨htag, hlength, hvalue, hsquare⟩)
    · exact ⟨infinity, trivial, rfl⟩
    · obtain ⟨y, hcurve, rfl⟩ := exists_onCurve_of_tag htag hsquare
      refine ⟨_, hcurve, ?_⟩
      rw [compress, (Residue.eq_toBytes_iff Felt.modulus_le_bytes).2 ⟨hlength, hvalue⟩]
  · rintro ⟨_ | ⟨x, y⟩, hcurve, rfl⟩
    · exact .infinity
    · have htag : parityTag y = 2 ∨ parityTag y = 3 := by
        rw [parityTag]
        cases y.isOdd <;> decide
      have hsquare : IsSquare (curveRight x) := ⟨y, hcurve.symm⟩
      exact .finite htag x.length_toBytes x.toNatBE_toBytes hsquare

/-- A malformed byte string is refused for what is wrong with it. -/
theorem Malformed.refused {defect : PointDefect} (hmalformed : Malformed bytes defect) :
    decompress bytes = .error defect := by
  cases hmalformed with
  | length hlength =>
      rcases bytes with _ | ⟨tag, payload⟩
      · rfl
      · have hpayload : payload.length ≠ residueBytes := by
          intro hsame
          exact hlength ((congrArg (· + 1) hsame).trans (Nat.add_comm residueBytes 1))
        rw [decompress, if_pos hpayload, List.length_cons]
  | @infinityPayload payload hlength hpayload =>
      have hnonzero : ¬ payload.all (· == 0) = true := by
        intro hzeros
        apply hpayload
        rw [← hlength, List.eq_replicate_iff]
        simpa using hzeros
      rw [decompress, if_neg (not_not_intro hlength), if_pos rfl, if_neg hnonzero]
  | @unknownTag tag payload hlength htag =>
      have hparity : ¬ (tag = 2 ∨ tag = 3) := not_or.2 htag.2
      rw [decompress, if_neg (not_not_intro hlength), if_neg htag.1, if_neg hparity]
  | @coordinateTooLarge tag payload htag hlength hlarge =>
      have hzero : ¬ tag = 0 := by rcases htag with rfl | rfl <;> decide
      rw [decompress, if_neg (not_not_intro hlength), if_neg hzero, if_pos htag,
        Felt.ofBytes_of_modulus_le hlength hlarge]
  | @noPoint tag payload x htag hlength hvalue hsquare =>
      have hzero : ¬ tag = 0 := by rcases htag with rfl | rfl <;> decide
      have hx := (Residue.eq_toBytes_iff Felt.modulus_le_bytes).2 ⟨hlength, hvalue⟩
      rw [decompress, if_neg (not_not_intro hlength), if_neg hzero, if_pos htag, hx,
        Felt.ofBytes_toBytes]
      simp only [lift, Felt.sqrt?_eq_none hsquare, Option.elim_none]

theorem reads_decompress :
    Reads decompress (fun p bytes => p.OnCurve ∧ p.compress = bytes) Malformed where
  accepts := by
    rintro p bytes ⟨hcurve, rfl⟩
    exact decompress_compress hcurve
  refuses := Malformed.refused
  covers := by
    intro bytes
    exact (wellFormed_or_malformed bytes).imp_left wellFormed_iff_exists.1

/-- The byte strings that are read as points are the compressed forms of the
points of the curve, one of each point.  They are the well-formed ones, and every
other byte string is refused for what is wrong with it. -/
theorem compressed_forms_exact :
    (∀ bytes p, decompress bytes = .ok p ↔ p.OnCurve ∧ p.compress = bytes) ∧
    (∀ bytes, (∃ p, decompress bytes = .ok p) ↔ WellFormed bytes) ∧
    (∀ bytes defect, decompress bytes = .error defect ↔ Malformed bytes defect) := by
  refine ⟨?_, ?_, ?_⟩
  · intro bytes p
    exact reads_decompress.eq_ok_iff
  · intro bytes
    rw [wellFormed_iff_exists]
    exact exists_congr fun p => reads_decompress.eq_ok_iff
  · intro bytes defect
    exact reads_decompress.eq_error_iff

end Point

end ShieldedPool
