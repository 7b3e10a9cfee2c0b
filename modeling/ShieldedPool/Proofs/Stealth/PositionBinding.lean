/-
What a match binds.  A scan key finds an announcement when the commitment that
it computes from its one-time key is the announced one.  So two keys that find
announcements of one commitment have computed one hash: they agree in the first
coordinate of the one-time key, in the amount and in the epoch, or different
inputs collide, of two elements or of three.  Points of the curve over one first
coordinate are equal or opposite, and opposite ones do occur.
-/
import ShieldedPool.Proofs.HashInputs
import ShieldedPool.Proofs.Spend.KeyOpening
import ShieldedPool.Proofs.Stealth.Ownership

namespace ShieldedPool

open Point (mulGenerator)

theorem Keys.onCurve_spendPub (keys : Keys) : (ScanKey.spendPub keys).OnCurve :=
  keys.validKey_spendPub.2

theorem Keys.create_viewingKey (keys : Keys) :
    ViewingKey.create keys.view keys.spendPub = .ok keys.viewingKey := by
  rw [ViewingKey.create, Point.validate_eq_ok_iff.2 keys.validKey_spendPub]
  rfl

/-- A viewing key is made from a usable spend point only. -/
theorem ViewingKey.onCurve_spendPub {view : Scalar} {spendPub : Point} {key : ViewingKey}
    (hcreate : create view spendPub = .ok key) : (ScanKey.spendPub key).OnCurve := by
  obtain ⟨⟨⟩, hvalid, rfl⟩ := map_eq_ok_iff.1 hcreate
  exact (Point.validate_eq_ok_iff.1 hvalid).2

namespace Stealth

section Match

variable {κ : Type} [ScanKey κ] {protocol : Protocol} {key : κ} {a : Announcement}

theorem detect_eq_some_iff {found : Point} :
    protocol.detect key a = .ok (some found) ↔
      ∃ candidate, protocol.candidate key a = .ok candidate ∧
        positionCommitment candidate.x a.amount a.epoch = a.commitment ∧
        found = candidate.point := by
  rcases hcandidate : protocol.candidate key a with refusal | candidate
  · simp [detect_of_refusal hcandidate]
  · rw [detect_of_candidate hcandidate]
    by_cases hmatch : positionCommitment candidate.x a.amount a.epoch = a.commitment
    · simp [hmatch, eq_comm]
    · simp [hmatch]

/-- A spend point on the curve has its one-time points there. -/
theorem onCurve_candidate {candidate : OneTimeKey} (hcurve : (ScanKey.spendPub key).OnCurve)
    (hcandidate : protocol.candidate key a = .ok candidate) : candidate.point.OnCurve := by
  obtain ⟨⟨⟩, -, hkey⟩ := bind_eq_ok_iff.1 hcandidate
  rw [oneTimeKey_point hkey]
  exact hcurve.add (Point.onCurve_mulGenerator _)

end Match

/-- Under any tags, two scan keys that find announcements of one commitment have
found one-time points with one first coordinate, for one amount and one epoch,
and the points are equal or opposite.  Otherwise the two commitments hash
different inputs to one value. -/
theorem match_binds_position {κ κ' : Type} [ScanKey κ] [ScanKey κ'] (protocol protocol' : Protocol)
    (key : κ) (key' : κ') {a a' : Announcement} {found found' : Point}
    (hfound : protocol.detect key a = .ok (some found))
    (hfound' : protocol'.detect key' a' = .ok (some found'))
    (hcommitment : a.commitment = a'.commitment) :
    ∃ x y x' y', found = .affine x y ∧ found' = .affine x' y' ∧
      ((x = x' ∧ a.amount = a'.amount ∧ a.epoch = a'.epoch ∧
          ((ScanKey.spendPub key).OnCurve → (ScanKey.spendPub key').OnCurve →
            found = found' ∨ found = found'.neg)) ∨
        Poseidon.Collide (positionInputs x a.amount a.epoch)
          (positionInputs x' a'.amount a'.epoch)) := by
  obtain ⟨candidate, hcandidate, hmatch, rfl⟩ := detect_eq_some_iff.1 hfound
  obtain ⟨candidate', hcandidate', hmatch', rfl⟩ := detect_eq_some_iff.1 hfound'
  refine ⟨candidate.x, candidate.y, candidate'.x, candidate'.y, rfl, rfl, ?_⟩
  have hsame := (hmatch.trans hcommitment).trans hmatch'.symm
  refine (position_eq_or_collide hsame).imp_left ?_
  rintro ⟨hx, hamount, hepoch⟩
  refine ⟨hx, hamount, hepoch, ?_⟩
  intro hcurve hcurve'
  have hpoint := onCurve_candidate hcurve hcandidate
  have hpoint' := onCurve_candidate hcurve' hcandidate'
  rw [OneTimeKey.point] at hpoint hpoint' ⊢
  rw [hx] at hpoint
  rw [OneTimeKey.point, hx]
  exact hpoint.eq_or_eq_neg hpoint'

/-- There are keys whose payment with the fresh secret five opens with a given
secret. -/
theorem exists_keys_of_privateKey {k : Scalar} (hk : k ≠ Spend.sampleTweak) :
    ∃ keys : Keys, keys.spend + Protocol.standard.paymentTweak keys 5 = k :=
  ⟨Spend.sampleKeys k hk, Spend.sampleKeys_privateKey hk⟩

/-- Two recipients whose one-time secrets are opposite find one commitment, the
second with a viewing key, in announcements that differ in all that the
commitment does not bind. -/
theorem match_binds_position_of_opposite :
    ∃ (keys : Keys) (view : Scalar) (spendPub : Point) (key : ViewingKey)
      (a a' : Announcement) (found : Point),
      ViewingKey.create view spendPub = .ok key ∧
        Protocol.standard.detect keys a = .ok (some found) ∧
        Protocol.standard.detect key a' = .ok (some found.neg) ∧
        a.commitment = a'.commitment ∧ a.leafIndex ≠ a'.leafIndex ∧
        ∃ x y x' y', found = .affine x y ∧ found.neg = .affine x' y' ∧
          ((x = x' ∧ a.amount = a'.amount ∧ a.epoch = a'.epoch ∧
              (found = found.neg ∨ found = found.neg.neg)) ∨
            Poseidon.Collide (positionInputs x a.amount a.epoch)
              (positionInputs x' a'.amount a'.epoch)) := by
  have hfive : (5 : Scalar) ≠ 0 := by decide
  have htweak : (1 : Scalar) ≠ Spend.sampleTweak := by decide +kernel
  have htweak' : (-1 : Scalar) ≠ Spend.sampleTweak := by decide +kernel
  obtain ⟨keys, hopens⟩ := exists_keys_of_privateKey htweak
  obtain ⟨keys', hopens'⟩ := exists_keys_of_privateKey htweak'
  rcases hpoint : mulGenerator 1 with _ | ⟨x, y⟩
  · have hzero : (1 : Scalar) ≠ 0 := by decide
    exact absurd (Point.mulGenerator_eq_infinity_iff.1 hpoint) hzero
  · have hpoint' : mulGenerator (-1) = .affine x (-y) := by
      rw [Point.mulGenerator_of_add_eq_zero (show (1 : Scalar) + -1 = 0 by decide), hpoint]
      rfl
    rw [← hopens] at hpoint
    rw [← hopens'] at hpoint'
    have hfound : Protocol.standard.detect keys
        ((Spend.sampleOutput x y).announcement 0 60 []) = .ok (some (.affine x y)) :=
      detect_eq rfl rfl hfive hpoint rfl rfl
    have hfound' : Protocol.standard.detect keys'.viewingKey
        ((Spend.sampleOutput x (-y)).announcement 4 61 [0x2a]) =
          .ok (some (Point.affine x y).neg) :=
      detect_eq rfl rfl hfive hpoint' rfl rfl
    have hother : (0 : UInt64) ≠ 4 := by decide
    have hcreate := keys'.create_viewingKey
    obtain ⟨x₁, y₁, x₂, y₂, hx₁, hx₂, hbinds⟩ :=
      match_binds_position Protocol.standard Protocol.standard keys keys'.viewingKey
        hfound hfound' rfl
    refine ⟨_, _, _, _, _, _, _, hcreate, hfound, hfound', rfl, hother, x₁, y₁, x₂, y₂, hx₁, hx₂,
      hbinds.imp_left ?_⟩
    rintro ⟨hx, hamount, hepoch, hsign⟩
    exact ⟨hx, hamount, hepoch,
      hsign keys.onCurve_spendPub (ViewingKey.onCurve_spendPub hcreate)⟩

end Stealth

end ShieldedPool
