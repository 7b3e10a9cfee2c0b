/-
What is found can be claimed.  Detection and claiming compute one candidate and
compare one commitment with it.  A claim goes on to ask whether the spend secret
plus the tweak opens the candidate's point; that point is the spend point plus
the tweak times the generator, so the way the keys were made answers it, and the
two refuse the same announcements for the same causes.
-/
import ShieldedPool.Proofs.Point.Multiples
import ShieldedPool.Proofs.Results
import ShieldedPool.Stealth.Claim

namespace ShieldedPool.Stealth

open Point (mulGenerator)

variable {protocol : Protocol} {keys : Keys} {a : Announcement} {candidate : OneTimeKey}
  {refusal : PointDefect}

theorem oneTimeKey_point {sharedSecret spendPub : Point}
    (hkey : protocol.oneTimeKey sharedSecret spendPub = .ok candidate) :
    candidate.point = spendPub.add (mulGenerator candidate.tweak) := by
  rw [Protocol.oneTimeKey] at hkey
  by_cases hinfinity : sharedSecret = .infinity
  · rw [if_pos hinfinity] at hkey
    cases hkey
  · rw [if_neg hinfinity] at hkey
    rcases hsum : spendPub.add (mulGenerator (deriveTweak sharedSecret protocol.domainTag))
      with _ | ⟨x, y⟩
    · simp only [hsum] at hkey
      cases hkey
    · simp only [hsum, Except.ok.injEq] at hkey
      subst hkey
      exact hsum.symm

/-- The private key that a claim computes for a candidate opens its point. -/
theorem candidate_opened (hcandidate : protocol.candidate keys a = .ok candidate) :
    mulGenerator (keys.spend + candidate.tweak) = candidate.point := by
  obtain ⟨⟨⟩, -, hkey⟩ := bind_eq_ok_iff.1 hcandidate
  have hpoint := oneTimeKey_point hkey
  have hspend : ScanKey.spendPub keys = mulGenerator keys.spend := keys.spendPub_eq
  rw [hpoint, hspend, Point.mulGenerator_add]

/-- The claim on an announcement whose candidate is the keys' own. -/
def OneTimeKey.claimOf (candidate : OneTimeKey) (keys : Keys) (a : Announcement) : Claim :=
  { privateKey := keys.spend + candidate.tweak
    stealthPub := candidate.point
    commitment := a.commitment
    amount := a.amount
    epoch := a.epoch
    leafIndex := a.leafIndex
    nullifier := nullifier (keys.spend + candidate.tweak).toFelt a.leafIndex
    nullifierHash := spendMark (keys.spend + candidate.tweak).toFelt a.leafIndex }

theorem detect_of_candidate {κ : Type} [ScanKey κ] {key : κ}
    (hcandidate : protocol.candidate key a = .ok candidate) :
    protocol.detect key a =
      .ok (if positionCommitment candidate.x a.amount a.epoch = a.commitment then
        some candidate.point else none) := by
  rw [Protocol.detect, hcandidate]
  rfl

theorem detect_of_refusal {κ : Type} [ScanKey κ] {key : κ}
    (hcandidate : protocol.candidate key a = .error refusal) :
    protocol.detect key a = .error refusal := by
  rw [Protocol.detect, hcandidate]
  rfl

/-- The commitment alone decides about a claim. -/
theorem claim_of_candidate (hcandidate : protocol.candidate keys a = .ok candidate) :
    protocol.claim keys a =
      if positionCommitment candidate.x a.amount a.epoch = a.commitment then
        .ok (candidate.claimOf keys a) else .error .notOwner := by
  have hopened := candidate_opened hcandidate
  rw [Protocol.claim, hcandidate, mapError_ok, ok_bind]
  by_cases howned : positionCommitment candidate.x a.amount a.epoch = a.commitment
  · simp only [howned, hopened, ne_eq, not_true_eq_false, if_false, if_true]
    rfl
  · simp only [howned, ne_eq, not_false_eq_true, if_true, if_false]
    rfl

theorem claim_of_refusal (hcandidate : protocol.candidate keys a = .error refusal) :
    protocol.claim keys a = .error (.point refusal) := by
  rw [Protocol.claim, hcandidate]
  rfl

theorem claim_eq_ok_iff {claim : Claim} :
    protocol.claim keys a = .ok claim ↔
      ∃ candidate, protocol.candidate keys a = .ok candidate ∧
        positionCommitment candidate.x a.amount a.epoch = a.commitment ∧
        claim = candidate.claimOf keys a := by
  rcases hcandidate : protocol.candidate keys a with refusal | candidate
  · rw [claim_of_refusal hcandidate]
    simp
  · rw [claim_of_candidate hcandidate]
    by_cases howned : positionCommitment candidate.x a.amount a.epoch = a.commitment
    · simp [howned, eq_comm]
    · simp [howned]

/-- The private key of a claim opens its one-time point. -/
theorem claim_opened {claim : Claim} (hclaim : protocol.claim keys a = .ok claim) :
    mulGenerator claim.privateKey = claim.stealthPub := by
  obtain ⟨candidate, hcandidate, -, rfl⟩ := claim_eq_ok_iff.1 hclaim
  exact candidate_opened hcandidate

/-- A recipient can claim what the keys find, at the point that they find, and
nothing else.  What is not found is refused as not owned, and that is when the
candidate is not the one committed to.  What cannot be looked for is refused for
the same cause.  The viewing key finds the same. -/
theorem detection_agrees_with_claiming (protocol : Protocol) (keys : Keys)
    (a : Announcement) :
    (∀ found, protocol.detect keys a = .ok (some found) ↔
      ∃ claim, protocol.claim keys a = .ok claim ∧ claim.stealthPub = found) ∧
    (protocol.detect keys a = .ok none ↔ protocol.claim keys a = .error .notOwner) ∧
    (∀ refusal, protocol.detect keys a = .error refusal ↔
      protocol.claim keys a = .error (.point refusal)) ∧
    (protocol.claim keys a = .error .notOwner ↔
      ∃ candidate, protocol.candidate keys a = .ok candidate ∧
        positionCommitment candidate.x a.amount a.epoch ≠ a.commitment) ∧
    protocol.detect keys.viewingKey a = protocol.detect keys a := by
  rcases hcandidate : protocol.candidate keys a with refusal | candidate
  · rw [detect_of_refusal hcandidate, claim_of_refusal hcandidate]
    refine ⟨?_, ?_, ?_, ?_, detect_of_refusal hcandidate⟩ <;> simp
  · rw [claim_of_candidate hcandidate]
    have hviewing : protocol.detect keys.viewingKey a = _ := detect_of_candidate hcandidate
    rw [hviewing, detect_of_candidate hcandidate]
    by_cases howned : positionCommitment candidate.x a.amount a.epoch = a.commitment
    · simp [howned, OneTimeKey.claimOf]
    · simp [howned]

end ShieldedPool.Stealth
