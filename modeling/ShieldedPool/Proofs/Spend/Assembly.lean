/-
What assembling a witness can come to, over every proof there is.  The two
lists of a proof are compared with each other and never with a depth, so a path
may be longer than any tree is high.  Its sides then stand for a number that
may not fit 64 bits, and this number is read before it is compared with the leaf
index.  Every refusal names what is wrong, except there: a right turn beyond the
sixty-fourth level, on a path that does reach the root, overflows.
-/
import ShieldedPool.Proofs.Spend.KeyOpening

namespace ShieldedPool

namespace Merkle

theorem bitsValue_eq_zero_iff {bits : List Bool} : bitsValue bits = 0 ↔ true ∉ bits := by
  induction bits with
  | nil => simp [bitsValue]
  | cons bit bits ih =>
      rw [bitsValue, List.mem_cons, not_or, ← ih]
      cases bit <;> simp

/-- The number is small exactly when no right turn stands behind its low bits. -/
theorem bitsValue_lt_two_pow_iff {bits : List Bool} {count : Nat} :
    bitsValue bits < 2 ^ count ↔ true ∉ bits.drop count := by
  rw [← bitsValue_eq_zero_iff, bitsValue_drop,
    Nat.div_eq_zero_iff_lt (Nat.two_pow_pos count)]

namespace Inclusion

/-- A right turn of the path lies beyond the sixty-fourth level. -/
def Overlong (proof : Inclusion) : Prop :=
  ∃ level, 64 ≤ level ∧ proof.pathBits[level]? = some true

/-- The path leads from a leaf to the root, and its index does not fit. -/
structure Overruns (proof : Inclusion) (leaf root : Felt) : Prop where
  length : proof.siblings.length = proof.pathBits.length
  reaches : foldPath leaf proof.siblings proof.pathBits = root
  overlong : proof.Overlong

variable {proof : Inclusion} {leaf root : Felt} {refusal : Failure}

theorem overlong_iff_mem_drop : proof.Overlong ↔ true ∈ proof.pathBits.drop 64 := by
  rw [List.mem_iff_getElem?]
  constructor
  · rintro ⟨level, hle, hturn⟩
    refine ⟨level - 64, ?_⟩
    rw [List.getElem?_drop, Nat.add_sub_cancel' hle]
    exact hturn
  · rintro ⟨place, hturn⟩
    rw [List.getElem?_drop] at hturn
    exact ⟨64 + place, Nat.le_add_right 64 place, hturn⟩

/-- The index of a path is refused for its size alone. -/
theorem pathIndex_eq_error_iff :
    proof.pathIndex = .error refusal ↔ proof.Overlong ∧ refusal = .overflow := by
  have hfits : bitsValue proof.pathBits < UInt64.size ↔ ¬ proof.Overlong := by
    rw [overlong_iff_mem_drop]
    exact @bitsValue_lt_two_pow_iff _ 64
  rw [pathIndex]
  by_cases hlong : proof.Overlong
  · rw [if_neg (mt hfits.1 (not_not_intro hlong))]
    simp [hlong, eq_comm]
  · rw [if_pos (hfits.2 hlong)]
    simp [hlong]

theorem impliedRoot_eq_error_iff :
    proof.impliedRoot leaf = .error refusal ↔
      proof.siblings.length ≠ proof.pathBits.length ∧
        refusal = .proofLength proof.siblings.length proof.siblings.length
          proof.pathBits.length := by
  rw [impliedRoot]
  split
  · next hlength => simp [hlength]
  · next hlength => simp [hlength, eq_comm]

theorem overruns_iff :
    proof.Overruns leaf root ↔
      proof.impliedRoot leaf = .ok root ∧ proof.pathIndex = .error .overflow := by
  rw [impliedRoot_eq_ok_iff, pathIndex_eq_error_iff]
  constructor
  · rintro ⟨hlength, hreaches, hlong⟩
    exact ⟨⟨hlength, hreaches⟩, hlong, rfl⟩
  · rintro ⟨⟨hlength, hreaches⟩, hlong, -⟩
    exact ⟨hlength, hreaches, hlong⟩

end Inclusion

end Merkle

namespace Spend

open Merkle (Inclusion)
open Stealth (Claim)

namespace Witness

variable {privateScalar keyX root : Felt} {amount : UInt64} {proof : Inclusion}
  {note : Note} {claim : Claim} {refusal : Failure}

/-- Why no witness opens a commitment along a path to a root. -/
inductive Refused (proof : Inclusion) (opened root : Felt) : Failure → Prop
  | length (hlength : proof.siblings.length ≠ proof.pathBits.length) :
      Refused proof opened root (.proofLength proof.siblings.length
        proof.siblings.length proof.pathBits.length)
  | wrongRoot (implied : Felt) (himplied : proof.impliedRoot opened = .ok implied)
      (hroot : implied ≠ root) :
      Refused proof opened root (.witness (.wrongRoot proof.leafIndex root))
  | overrun (hoverruns : proof.Overruns opened root) : Refused proof opened root .overflow
  | turns (index : UInt64) (himplied : proof.impliedRoot opened = .ok root)
      (hindex : proof.pathIndex = .ok index) (hturns : index ≠ proof.leafIndex) :
      Refused proof opened root (.witness .pathDisagrees)

/-- A commitment that reaches the root leaves the sides of the path to check. -/
theorem assemble_of_impliedRoot
    (himplied : proof.impliedRoot (commitment keyX amount) = .ok root) :
    assemble privateScalar keyX amount proof root = do
      let index ← proof.pathIndex
      if index ≠ proof.leafIndex then throw (.witness .pathDisagrees)
      return {
        privateScalar, keyX, amount, root
        leafIndex := proof.leafIndex
        siblings := proof.siblings
        pathBits := proof.pathBits
        nullifierHash := spendMark privateScalar proof.leafIndex } := by
  rw [assemble, himplied, ok_bind, if_neg (not_not_intro rfl)]

theorem assemble_eq_error_iff :
    assemble privateScalar keyX amount proof root = .error refusal ↔
      Refused proof (commitment keyX amount) root refusal := by
  constructor
  · intro hrefused
    rcases himplied : proof.impliedRoot (commitment keyX amount) with failure | implied
    · obtain ⟨hlength, rfl⟩ := Inclusion.impliedRoot_eq_error_iff.1 himplied
      rw [assemble, himplied] at hrefused
      cases hrefused
      exact .length hlength
    · by_cases hroot : implied = root
      · subst hroot
        rw [assemble_of_impliedRoot himplied] at hrefused
        rcases hindex : proof.pathIndex with failure | index
        · obtain ⟨-, rfl⟩ := Inclusion.pathIndex_eq_error_iff.1 hindex
          rw [hindex] at hrefused
          cases hrefused
          exact .overrun (Inclusion.overruns_iff.2 ⟨himplied, hindex⟩)
        · rw [hindex, ok_bind] at hrefused
          by_cases hturns : index = proof.leafIndex
          · rw [if_neg (not_not_intro hturns)] at hrefused
            cases hrefused
          · rw [if_pos hturns] at hrefused
            cases hrefused
            exact .turns index himplied hindex hturns
      · rw [assemble, himplied, ok_bind, if_pos hroot] at hrefused
        cases hrefused
        exact .wrongRoot implied himplied hroot
  · intro hrefused
    cases hrefused with
    | length hlength =>
        rw [assemble, Inclusion.impliedRoot_eq_error_iff.2 ⟨hlength, rfl⟩]
        rfl
    | wrongRoot implied himplied hroot =>
        rw [assemble, himplied, ok_bind, if_pos hroot]
        rfl
    | overrun hoverruns =>
        obtain ⟨himplied, hindex⟩ := Inclusion.overruns_iff.1 hoverruns
        rw [assemble_of_impliedRoot himplied, hindex]
        rfl
    | turns index himplied hindex hturns =>
        rw [assemble_of_impliedRoot himplied, hindex, ok_bind, if_pos hturns]
        rfl

theorem assemble_eq_overflow_iff :
    assemble privateScalar keyX amount proof root = .error .overflow ↔
      proof.Overruns (commitment keyX amount) root := by
  rw [assemble_eq_error_iff]
  constructor
  · rintro (_ | _ | hoverruns | _)
    exact hoverruns
  · exact .overrun

/-- The checks before assembly refuse a note for a reason of their own. -/
theorem ofNote_eq_overflow_iff :
    ofNote note proof root = .error .overflow ↔
      note.leafIndex = some proof.leafIndex ∧
        ∃ x y, note.publicKey = .affine x y ∧
          proof.Overruns (commitment x note.amount) root := by
  rw [ofNote]
  rcases note.leafIndex with _ | leafIndex
  · simp
  · simp only [Option.some.injEq]
    by_cases hindex : leafIndex = proof.leafIndex
    · rw [if_neg (not_not_intro hindex)]
      rcases note.publicKey with _ | ⟨x, y⟩
      · simp
      · simp [hindex, assemble_eq_overflow_iff]
    · rw [if_pos hindex]
      simp [hindex]

theorem ofClaim_eq_overflow_iff :
    ofClaim claim proof root = .error .overflow ↔
      claim.epoch = none ∧ claim.leafIndex = proof.leafIndex ∧
        ∃ x y, claim.stealthPub = .affine x y ∧
          proof.Overruns (commitment x claim.amount) root := by
  rw [ofClaim]
  rcases claim.epoch with _ | epoch
  · rw [if_neg (by simp)]
    by_cases hindex : claim.leafIndex = proof.leafIndex
    · rw [if_neg (not_not_intro hindex)]
      rcases claim.stealthPub with _ | ⟨x, y⟩
      · simp
      · simp [hindex, assemble_eq_overflow_iff]
    · rw [if_pos hindex]
      simp [hindex]
  · simp

end Witness

/-- An assembly hands out a witness or says what is wrong, but for one kind of
proof: it leads from the commitment to the root and turns right beyond the
sixty-fourth level.  The guards of notes and claims stand before that and let it
through. -/
theorem assembly_overflow_iff (proof : Inclusion) (root : Felt) :
    (∀ (privateScalar keyX : Felt) (amount : UInt64),
      Witness.assemble privateScalar keyX amount proof root = .error .overflow ↔
        proof.Overruns (commitment keyX amount) root) ∧
    (∀ note : Note, Witness.ofNote note proof root = .error .overflow ↔
      note.leafIndex = some proof.leafIndex ∧
        ∃ x y, note.publicKey = .affine x y ∧
          proof.Overruns (commitment x note.amount) root) ∧
    (∀ claim : Claim, Witness.ofClaim claim proof root = .error .overflow ↔
      claim.epoch = none ∧ claim.leafIndex = proof.leafIndex ∧
        ∃ x y, claim.stealthPub = .affine x y ∧
          proof.Overruns (commitment x claim.amount) root) := by
  refine ⟨?_, ?_, ?_⟩
  · intro privateScalar keyX amount
    exact Witness.assemble_eq_overflow_iff
  · intro note
    exact Witness.ofNote_eq_overflow_iff
  · intro claim
    exact Witness.ofClaim_eq_overflow_iff

/-- A path of sixty-five levels whose last turn is to the right.  The commitment
of the scalar one reaches the root that is given with it, and neither the fields
nor the note get a witness or a reason. -/
theorem sixty_fifth_turn_overflows :
    let proof : Inclusion :=
      ⟨0, List.replicate 65 0, List.replicate 64 false ++ [true]⟩
    let root := Merkle.foldPath (commitment 1 5) proof.siblings proof.pathBits
    Witness.assemble 1 1 5 proof root = .error .overflow ∧
      Witness.ofNote ⟨5, 1, 0, some 0⟩ proof root = .error .overflow := by
  intro proof root
  have hoverruns : proof.Overruns (commitment 1 5) root := by
    refine ⟨?_, rfl, 64, Nat.le_refl 64, ?_⟩
    · decide
    · decide
  have hx : (Note.mk 5 1 0 (some 0)).publicKey.x? = some 1 := by decide +kernel
  obtain ⟨y, hkey⟩ := Point.x?_eq_some_iff.1 hx
  exact ⟨Witness.assemble_eq_overflow_iff.2 hoverruns,
    Witness.ofNote_eq_overflow_iff.2 ⟨rfl, 1, y, hkey, hoverruns⟩⟩

end Spend

end ShieldedPool
