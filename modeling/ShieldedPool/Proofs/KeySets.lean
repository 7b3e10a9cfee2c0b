/-
Complete key sets and notes.  A secret is a scalar other than zero, and the
order of the curve is prime, so its public point is a usable key.  A key set is
known by its two secrets: the constructors give one for every two secrets that
are not zero, and what is exported rebuilds it.  The point of a note is finite
for the same reason, and its commitment holds the first coordinate.
-/
import ShieldedPool.MetaAddress
import ShieldedPool.Proofs.Note.PublicKey
import ShieldedPool.Proofs.Residue.CanonicalBytes
import ShieldedPool.Proofs.Results

namespace ShieldedPool

/-- A stored secret: 32 bytes whose number is below the order and not zero. -/
def Scalar.IsSecret (bytes : Bytes) : Prop :=
  bytes.length = residueBytes ∧ Bytes.toNatBE bytes ≠ 0 ∧ Bytes.toNatBE bytes < modulus

theorem Scalar.isSecret_iff {bytes : Bytes} :
    IsSecret bytes ↔ ∃ k : Scalar, k ≠ 0 ∧ bytes = k.toBytes := by
  constructor
  · rintro ⟨hlength, hne, hlt⟩
    refine ⟨⟨Bytes.toNatBE bytes, hlt⟩, ?_, ?_⟩
    · intro hzero
      exact hne (congrArg (fun k : Scalar => k.val) hzero)
    · exact (Residue.eq_toBytes_iff modulus_le_bytes).2 ⟨hlength, rfl⟩
  · rintro ⟨k, hne, hbytes⟩
    obtain ⟨hlength, hvalue⟩ := (Residue.eq_toBytes_iff modulus_le_bytes).1 hbytes
    refine ⟨hlength, ?_, ?_⟩
    · rw [hvalue]
      exact Residue.val_ne_zero hne
    · rw [hvalue]
      exact k.val_lt

namespace Keys

theorem validKey_spendPub (keys : Keys) : keys.spendPub.ValidKey := by
  rw [keys.spendPub_eq]
  exact Point.validKey_mulGenerator keys.spend_ne_zero

theorem validKey_viewPub (keys : Keys) : keys.viewPub.ValidKey := by
  rw [keys.viewPub_eq]
  exact Point.validKey_mulGenerator keys.view_ne_zero

theorem validate_metaAddress (keys : Keys) : keys.metaAddress.validate = .ok () := by
  have hspend := Point.validate_eq_ok_iff.2 keys.validKey_spendPub
  have hview := Point.validate_eq_ok_iff.2 keys.validKey_viewPub
  simp only [MetaAddress.validate, metaAddress, hspend, hview]

section Constructors

variable {view spend : Scalar} {refusal : PointDefect}

/-- A key set is known by its secrets. -/
theorem eq_of_secrets_eq {keys other : Keys} (hview : keys.view = other.view)
    (hspend : keys.spend = other.spend) : keys = other := by
  obtain ⟨view, spend, _, _, _, _, rfl, rfl⟩ := keys
  obtain ⟨view', spend', _, _, _, _, rfl, rfl⟩ := other
  cases hview
  cases hspend
  rfl

theorem ofScalars_eq_ok_iff {keys : Keys} :
    ofScalars view spend refusal = .ok keys ↔ keys.view = view ∧ keys.spend = spend := by
  rw [ofScalars]
  split
  · next hne =>
      constructor
      · intro hok
        cases hok
        exact ⟨rfl, rfl⟩
      · rintro ⟨hview, hspend⟩
        exact congrArg Except.ok (eq_of_secrets_eq hview.symm hspend.symm)
  · next hzero =>
      refine iff_of_false (by simp) ?_
      rintro ⟨rfl, rfl⟩
      exact hzero ⟨keys.view_ne_zero, keys.spend_ne_zero⟩

theorem exists_ofScalars_iff :
    (∃ keys, ofScalars view spend refusal = .ok keys) ↔ view ≠ 0 ∧ spend ≠ 0 := by
  constructor
  · rintro ⟨keys, hkeys⟩
    obtain ⟨rfl, rfl⟩ := ofScalars_eq_ok_iff.1 hkeys
    exact ⟨keys.view_ne_zero, keys.spend_ne_zero⟩
  · intro hne
    exact ⟨_, dif_pos hne⟩

/-- Two byte strings rebuild the key set that exports them, and no other. -/
theorem ofSecrets_eq_ok_iff {view spend : Bytes} {keys : Keys} :
    ofSecrets view spend = .ok keys ↔ keys.secrets = (view, spend) := by
  simp only [ofSecrets, bind_eq_ok_iff, mapError_eq_ok_iff, Scalar.ofBytes_eq_ok_iff,
    ofScalars_eq_ok_iff, secrets, Prod.mk.injEq]
  constructor
  · rintro ⟨_, rfl, _, rfl, rfl, rfl⟩
    exact ⟨rfl, rfl⟩
  · rintro ⟨rfl, rfl⟩
    exact ⟨_, rfl, _, rfl, rfl, rfl⟩

theorem exists_ofSecrets_iff {view spend : Bytes} :
    (∃ keys, ofSecrets view spend = .ok keys) ↔
      Scalar.IsSecret view ∧ Scalar.IsSecret spend := by
  simp only [ofSecrets_eq_ok_iff, Scalar.isSecret_iff]
  constructor
  · rintro ⟨keys, hsecrets⟩
    cases hsecrets
    exact ⟨⟨keys.view, keys.view_ne_zero, rfl⟩, keys.spend, keys.spend_ne_zero, rfl⟩
  · rintro ⟨⟨k, hk, rfl⟩, l, hl, rfl⟩
    exact ⟨⟨k, l, _, _, hk, hl, rfl, rfl⟩, rfl⟩

end Constructors

/-- The scalars that a seed gives. -/
def seedView (seed : Bytes) : Scalar := hashToScalar (textBytes "shielded/view" ++ seed)

def seedSpend (seed : Bytes) : Scalar := hashToScalar (textBytes "shielded/spend" ++ seed)

/-- What every complete key set has: usable public points, an address that is
accepted, an export that rebuilds it, and a viewing key with the same points. -/
structure Sound (keys : Keys) : Prop where
  viewPub : keys.viewPub.ValidKey
  spendPub : keys.spendPub.ValidKey
  address : MetaAddress.create keys.spendPub keys.viewPub = .ok keys.metaAddress
  restored : ofSecrets keys.secrets.1 keys.secrets.2 = .ok keys
  viewingKey : keys.viewingKey.viewPub = keys.viewPub ∧
    keys.viewingKey.spendPub = keys.spendPub

theorem sound (keys : Keys) : keys.Sound where
  viewPub := keys.validKey_viewPub
  spendPub := keys.validKey_spendPub
  address := congrArg (Except.map fun _ => keys.metaAddress) keys.validate_metaAddress
  restored := ofSecrets_eq_ok_iff.2 rfl
  viewingKey := ⟨keys.viewPub_eq.symm, rfl⟩

end Keys

namespace Note

variable {amount : UInt64} {privateScalar auxSecret : Felt}

theorem exists_create_iff :
    (∃ note, create amount privateScalar auxSecret = .ok note) ↔ privateScalar ≠ 0 := by
  simp only [create_eq_ok_iff, exists_and_left, exists_eq, and_true]

/-- A note is made exactly where its public point has a first coordinate, which
its commitment then holds. -/
theorem create_eq_ok_iff_committed {note : Note} :
    create amount privateScalar auxSecret = .ok note ↔
      note = ⟨amount, privateScalar, auxSecret, none⟩ ∧
        ∃ x y, Point.mulGenerator (Scalar.ofFelt privateScalar) = .affine x y ∧
          (Point.affine x y).ValidKey ∧ note.publicKey = .affine x y ∧
          note.commitment = ShieldedPool.commitment x amount := by
  rw [create_eq_ok_iff, and_comm]
  refine and_congr_right fun hnote => ?_
  subst hnote
  constructor
  · intro hne
    obtain ⟨x, y, hkey⟩ : ∃ x y, (Note.mk amount privateScalar auxSecret none).publicKey =
        .affine x y := exists_publicKey hne
    have hcurve := Point.onCurve_mulGenerator (Scalar.ofFelt privateScalar)
    have hpoint : Point.mulGenerator (Scalar.ofFelt privateScalar) = .affine x y := hkey
    rw [hpoint] at hcurve
    exact ⟨x, y, hpoint, ⟨by simp, hcurve⟩, hkey, commitment_of_key hkey⟩
  · rintro ⟨x, y, hpoint, -⟩ rfl
    have hinfinity : Point.mulGenerator (Scalar.ofFelt 0) = .infinity :=
      Point.mulGenerator_eq_infinity_iff.2 rfl
    rw [hinfinity] at hpoint
    cases hpoint

end Note

/-- The keys and notes that can be built are usable.  A seed, or two stored
secrets, give a key set exactly when neither secret is zero or too large; every
key set has usable points and comes back from its export.  A note exists exactly
for a private scalar other than zero, its public point is a usable key, and its
commitment is never the zero that stands for a missing coordinate. -/
theorem keys_and_notes_usable :
    (∀ seed, (∃ keys, Keys.ofSeed seed = .ok keys) ↔
      Keys.seedView seed ≠ 0 ∧ Keys.seedSpend seed ≠ 0) ∧
    (∀ seed keys, Keys.ofSeed seed = .ok keys ↔
      keys.view = Keys.seedView seed ∧ keys.spend = Keys.seedSpend seed) ∧
    (∀ view spend, (∃ keys, Keys.ofSecrets view spend = .ok keys) ↔
      Scalar.IsSecret view ∧ Scalar.IsSecret spend) ∧
    (∀ view spend keys, Keys.ofSecrets view spend = .ok keys ↔ keys.secrets = (view, spend)) ∧
    (∀ keys : Keys, keys.Sound) ∧
    ∀ amount privateScalar auxSecret,
      ((∃ note, Note.create amount privateScalar auxSecret = .ok note) ↔ privateScalar ≠ 0) ∧
      ∀ note, Note.create amount privateScalar auxSecret = .ok note ↔
        note = ⟨amount, privateScalar, auxSecret, none⟩ ∧
          ∃ x y, Point.mulGenerator (Scalar.ofFelt privateScalar) = .affine x y ∧
            (Point.affine x y).ValidKey ∧ note.publicKey = .affine x y ∧
            note.commitment = commitment x amount :=
  ⟨fun _ => Keys.exists_ofScalars_iff, fun _ _ => Keys.ofScalars_eq_ok_iff,
    fun _ _ => Keys.exists_ofSecrets_iff, fun _ _ _ => Keys.ofSecrets_eq_ok_iff, Keys.sound,
    fun _ _ _ => ⟨Note.exists_create_iff, fun _ => Note.create_eq_ok_iff_committed⟩⟩

end ShieldedPool
