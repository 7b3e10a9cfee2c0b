/-
Notes restored from stored secrets.  Secrets make a note when their scalar is not
zero and what is stored beside them is what they derive; otherwise the first check
that fails says why not.  So whoever changes stored secrets and leaves the
commitment and the nullifier hash as they were gets the same amount, scalar and
leaf, if the note has a leaf, and without a leaf the same amount and the scalar up
to its sign.  Anything else shows two inputs with one hash.
-/
import ShieldedPool.Proofs.HashInputs
import ShieldedPool.Proofs.Note.PublicKey
import ShieldedPool.Proofs.Note.SecretsCodec

namespace ShieldedPool

open Poseidon (Collide)

/-- The note of the secrets, without a look at what is stored beside them. -/
def NoteSecrets.note (stored : NoteSecrets) : Note :=
  ⟨stored.amount, stored.privateScalar, stored.auxSecret, stored.leafIndex⟩

/-- The commitment, if it is stored, is that of the note. -/
def NoteSecrets.KeepsCommitment (stored : NoteSecrets) : Prop :=
  ∀ hash, stored.commitment = some hash → hash = stored.note.commitment

namespace Note

/-- What is stored beside the secrets of the note is what they derive. -/
structure StoredAs (note : Note) (stored : NoteSecrets) : Prop where
  note_eq : stored.note = note
  scalar : note.privateScalar ≠ 0
  commitment : stored.KeepsCommitment
  nullifierHash : ∀ hash, stored.nullifierHash = some hash → note.nullifierHash? = some hash

/-- Why stored secrets make no note, by the check that fails first. -/
inductive Unrestorable (stored : NoteSecrets) : NoteDefect → Prop
  | zeroScalar (hzero : stored.privateScalar = 0) : Unrestorable stored .zeroScalar
  | commitment {hash : Felt} (hscalar : stored.privateScalar ≠ 0)
      (hstored : stored.commitment = some hash) (hdiffers : hash ≠ stored.note.commitment) :
      Unrestorable stored .commitmentMismatch
  | orphan {hash : Felt} (hscalar : stored.privateScalar ≠ 0) (hkeeps : stored.KeepsCommitment)
      (hstored : stored.nullifierHash = some hash) (hleaf : stored.leafIndex = none) :
      Unrestorable stored .orphanNullifierHash
  | nullifierHash {hash derived : Felt} (hscalar : stored.privateScalar ≠ 0)
      (hkeeps : stored.KeepsCommitment) (hstored : stored.nullifierHash = some hash)
      (hderived : stored.note.nullifierHash? = some derived) (hdiffers : hash ≠ derived) :
      Unrestorable stored .nullifierHashMismatch

section Reading

variable {stored : NoteSecrets} {note : Note} {defect : NoteDefect}

theorem nullifierHash?_eq_none_iff : note.nullifierHash? = none ↔ note.leafIndex = none := by
  simp [nullifierHash?, nullifier?]

theorem create_note (hscalar : stored.privateScalar ≠ 0) :
    create stored.amount stored.privateScalar stored.auxSecret =
      .ok ⟨stored.amount, stored.privateScalar, stored.auxSecret, none⟩ :=
  create_eq_ok_iff.2 ⟨hscalar, rfl⟩

/-- What is left to do once the commitment is checked. -/
def checkMark (stored : NoteSecrets) : Except NoteDefect Note :=
  match stored.nullifierHash, stored.note.nullifierHash? with
  | none, _ => .ok stored.note
  | some _, none => .error .orphanNullifierHash
  | some hash, some derived =>
      if hash ≠ derived then .error .nullifierHashMismatch else .ok stored.note

theorem ofSecrets_of_differs (hscalar : stored.privateScalar ≠ 0) {hash : Felt}
    (hstored : stored.commitment = some hash) (hdiffers : hash ≠ stored.note.commitment) :
    ofSecrets stored = .error .commitmentMismatch := by
  simp only [ofSecrets, create_note hscalar, ok_bind, hstored]
  exact if_pos hdiffers

theorem ofSecrets_of_keeps (hscalar : stored.privateScalar ≠ 0)
    (hkeeps : stored.KeepsCommitment) :
    ofSecrets stored = checkMark stored := by
  simp only [ofSecrets, create_note hscalar, ok_bind]
  rcases hstored : stored.commitment with _ | hash
  · rfl
  · have hsame := hkeeps hash hstored
    exact if_neg (not_not_intro hsame)

theorem reads_ofSecrets : Reads ofSecrets StoredAs Unrestorable where
  accepts := by
    rintro note stored ⟨rfl, hscalar, hkeeps, hhash⟩
    rw [ofSecrets_of_keeps hscalar hkeeps, checkMark]
    rcases hstored : stored.nullifierHash with _ | hash
    · rfl
    · simp only [hhash hash hstored, ne_eq, not_true_eq_false, if_false]
  refuses := by
    intro stored defect hrefused
    cases hrefused with
    | zeroScalar hzero => simp only [ofSecrets, create, if_pos hzero, error_bind]
    | commitment hscalar hstored hdiffers => exact ofSecrets_of_differs hscalar hstored hdiffers
    | orphan hscalar hkeeps hstored hleaf =>
        have hnone : stored.note.nullifierHash? = none := nullifierHash?_eq_none_iff.2 hleaf
        rw [ofSecrets_of_keeps hscalar hkeeps, checkMark]
        simp only [hstored, hnone]
    | nullifierHash hscalar hkeeps hstored hderived hdiffers =>
        rw [ofSecrets_of_keeps hscalar hkeeps, checkMark]
        simp only [hstored, hderived, if_pos hdiffers]
  covers := by
    intro stored
    by_cases hscalar : stored.privateScalar = 0
    · exact .inr ⟨_, .zeroScalar hscalar⟩
    · by_cases hkeeps : stored.KeepsCommitment
      · rcases hstored : stored.nullifierHash with _ | hash
        · exact .inl ⟨stored.note, rfl, hscalar, hkeeps, by simp [hstored]⟩
        · rcases hderived : stored.note.nullifierHash? with _ | derived
          · have hleaf := nullifierHash?_eq_none_iff.1 hderived
            exact .inr ⟨_, .orphan hscalar hkeeps hstored hleaf⟩
          · by_cases hsame : hash = derived
            · exact .inl ⟨stored.note, rfl, hscalar, hkeeps, by simp [hstored, hderived, hsame]⟩
            · exact .inr ⟨_, .nullifierHash hscalar hkeeps hstored hderived hsame⟩
      · rw [NoteSecrets.KeepsCommitment] at hkeeps
        push Not at hkeeps
        obtain ⟨hash, hstored, hdiffers⟩ := hkeeps
        exact .inr ⟨_, .commitment hscalar hstored hdiffers⟩

end Reading

section Binding

variable {n₁ n₂ : Note}

/-- The notes have one commitment from different inputs. -/
def CommitmentsMeet (n₁ n₂ : Note) : Prop :=
  ∃ x₁ y₁ x₂ y₂, n₁.publicKey = .affine x₁ y₁ ∧ n₂.publicKey = .affine x₂ y₂ ∧
    Collide (positionInputs x₁ n₁.amount none) (positionInputs x₂ n₂.amount none)

/-- The notes have one nullifier hash from different inputs, of the nullifiers or
of their hashes. -/
def HashesMeet (n₁ n₂ : Note) : Prop :=
  ∃ leaf₁ leaf₂, n₁.leafIndex = some leaf₁ ∧ n₂.leafIndex = some leaf₂ ∧
    MarksMeet n₁.privateScalar leaf₁ n₂.privateScalar leaf₂

/-- The second note has the private scalar of the first, or the opposite one and
with it the opposite public point. -/
def SameUpToSign (n₁ n₂ : Note) : Prop :=
  n₂.privateScalar = n₁.privateScalar ∨
    n₁.Opposite n₂ ∧ n₂.publicKey = n₁.publicKey.neg

theorem commitment_binds (hscalar₁ : n₁.privateScalar ≠ 0) (hscalar₂ : n₂.privateScalar ≠ 0)
    (hsame : n₁.commitment = n₂.commitment) :
    (n₂.amount = n₁.amount ∧ n₁.SameUpToSign n₂) ∨ n₁.CommitmentsMeet n₂ := by
  obtain ⟨x₁, y₁, hkey₁⟩ := exists_publicKey hscalar₁
  obtain ⟨x₂, y₂, hkey₂⟩ := exists_publicKey hscalar₂
  rw [commitment_of_key hkey₁, commitment_of_key hkey₂] at hsame
  have hposition : positionCommitment x₁ n₁.amount none = positionCommitment x₂ n₂.amount none :=
    hsame
  rcases position_eq_or_collide hposition with ⟨rfl, hamount, -⟩ | hcollide
  · left
    refine ⟨hamount.symm, ?_⟩
    rcases eq_or_opposite hkey₁ hkey₂ with hscalar | hopposite
    · exact .inl hscalar.symm
    · refine .inr ⟨hopposite, ?_⟩
      rw [publicKey_of_opposite hopposite hkey₁, hkey₁, Point.neg]
  · exact .inr ⟨x₁, y₁, x₂, y₂, hkey₁, hkey₂, hcollide⟩

theorem nullifierHash_binds {leaf₁ leaf₂ : UInt64} (hleaf₁ : n₁.leafIndex = some leaf₁)
    (hleaf₂ : n₂.leafIndex = some leaf₂) (hsame : n₁.nullifierHash? = n₂.nullifierHash?) :
    (n₂.privateScalar = n₁.privateScalar ∧ n₂.leafIndex = n₁.leafIndex) ∨ n₁.HashesMeet n₂ := by
  have hmark : spendMark n₁.privateScalar leaf₁ = spendMark n₂.privateScalar leaf₂ := by
    simpa [nullifierHash?, nullifier?, hleaf₁, hleaf₂, spendMark] using hsame
  rcases mark_eq_or_marksMeet hmark with ⟨hscalar, hleaf⟩ | hmeet
  · left
    exact ⟨hscalar.symm, by rw [hleaf₁, hleaf₂, hleaf]⟩
  · exact .inr ⟨leaf₁, leaf₂, hleaf₁, hleaf₂, hmeet⟩

end Binding

/-- What the stored secrets of a note give away when they are read again.
* `restored`: as they are, they make the note.
* `assigned`: with a leaf, whatever keeps the commitment and the nullifier hash
  and makes a note has the amount, the scalar and the leaf of this one.
* `unassigned`: without a leaf it has the amount, and the scalar up to its sign.
Either fails only where different inputs of a computation have one hash. -/
structure TamperEvident (note : Note) : Prop where
  restored : ofSecrets note.toSecrets = .ok note
  assigned : ∀ {index : UInt64} {stored : NoteSecrets} {other : Note},
    note.leafIndex = some index → stored.commitment = note.toSecrets.commitment →
    stored.nullifierHash = note.toSecrets.nullifierHash → ofSecrets stored = .ok other →
      (stored.amount = note.amount ∧ stored.privateScalar = note.privateScalar ∧
        stored.leafIndex = note.leafIndex) ∨
      note.CommitmentsMeet other ∨ note.HashesMeet other
  unassigned : ∀ {stored : NoteSecrets} {other : Note},
    note.leafIndex = none → stored.commitment = note.toSecrets.commitment →
    stored.nullifierHash = note.toSecrets.nullifierHash → ofSecrets stored = .ok other →
      (stored.amount = note.amount ∧ note.SameUpToSign other) ∨ note.CommitmentsMeet other

theorem tamperEvident {note : Note} (hscalar : note.privateScalar ≠ 0) : note.TamperEvident where
  restored := ofSecrets_toSecrets hscalar
  assigned := by
    intro index stored other hleaf hcommitment hhash hread
    obtain ⟨rfl, hscalar', hkeeps, hderived⟩ := reads_ofSecrets.eq_ok_iff.1 hread
    have hmark : note.nullifierHash? = some (spendMark note.privateScalar index) := by
      rw [nullifierHash?, nullifier?, hleaf]
      rfl
    have hsame : stored.note.nullifierHash? = note.nullifierHash? := by
      rw [hmark]
      exact hderived _ (hhash.trans hmark)
    rcases hleaf' : stored.leafIndex with _ | index'
    · have hnone : stored.note.nullifierHash? = none := nullifierHash?_eq_none_iff.2 hleaf'
      rw [hsame, hmark] at hnone
      cases hnone
    · rcases nullifierHash_binds hleaf hleaf' hsame.symm with ⟨hk, hindex⟩ | hmeet
      · rcases commitment_binds hscalar hscalar' (hkeeps _ hcommitment) with
          ⟨hamount, -⟩ | hmeet
        · exact .inl ⟨hamount, hk, hleaf'.symm.trans hindex⟩
        · exact .inr (.inl hmeet)
      · exact .inr (.inr hmeet)
  unassigned := by
    intro stored other hleaf hcommitment hhash hread
    obtain ⟨rfl, hscalar', hkeeps, -⟩ := reads_ofSecrets.eq_ok_iff.1 hread
    exact commitment_binds hscalar hscalar' (hkeeps _ hcommitment)

/-- The notes that there can be: new ones, those at a leaf, and those restored. -/
inductive Made : Note → Prop
  | created {amount : UInt64} {privateScalar auxSecret : Felt} {note : Note}
      (hcreated : create amount privateScalar auxSecret = .ok note) : Made note
  | assigned {note : Note} (hmade : Made note) (index : UInt64) : Made (note.assignLeaf index)
  | restored {stored : NoteSecrets} {note : Note} (hread : ofSecrets stored = .ok note) :
      Made note

/-- They are the notes with a scalar that is not zero. -/
theorem made_iff {note : Note} : note.Made ↔ note.privateScalar ≠ 0 := by
  constructor
  · intro hmade
    induction hmade with
    | created hcreated =>
        obtain ⟨hscalar, rfl⟩ := create_eq_ok_iff.1 hcreated
        exact hscalar
    | assigned _ index ih => exact ih
    | restored hread => exact (reads_ofSecrets.eq_ok_iff.1 hread).scalar
  · intro hscalar
    obtain ⟨amount, privateScalar, auxSecret, leafIndex⟩ := note
    have hcreated : (Note.mk amount privateScalar auxSecret none).Made :=
      .created (create_eq_ok_iff.2 ⟨hscalar, rfl⟩)
    rcases leafIndex with _ | index
    · exact hcreated
    · exact hcreated.assigned index

/-- Whoever changes the stored secrets of a note and keeps its commitment and its
nullifier hash is found out, up to what these do not bind.  A scalar that is zero
is refused, and so is a nullifier hash that is stored without a leaf. -/
theorem restoring_detects_tampering :
    (∀ note : Note, note.Made → note.TamperEvident) ∧
    (∀ stored defect, ofSecrets stored = .error defect ↔ Unrestorable stored defect) ∧
    (∀ stored : NoteSecrets, stored.privateScalar = 0 →
      ofSecrets stored = .error .zeroScalar) ∧
    (∀ (stored : NoteSecrets) (hash : Felt), stored.nullifierHash = some hash →
      stored.leafIndex = none → ∃ defect, ofSecrets stored = .error defect) := by
  refine ⟨?_, ?_, ?_, ?_⟩
  · intro note hmade
    exact tamperEvident (made_iff.1 hmade)
  · intro stored defect
    exact reads_ofSecrets.eq_error_iff
  · intro stored hzero
    exact reads_ofSecrets.refuses (.zeroScalar hzero)
  · intro stored hash hstored hleaf
    rcases reads_ofSecrets.covers stored with ⟨note, rfl, -, -, hderived⟩ | ⟨defect, hrefused⟩
    · have hmark := hderived hash hstored
      rw [nullifierHash?_eq_none_iff.2 hleaf] at hmark
      cases hmark
    · exact ⟨defect, reads_ofSecrets.refuses hrefused⟩

section Unbound

variable {note : Note} {stored : NoteSecrets}

theorem Opposite.privateScalar_ne_zero {other : Note} (hopposite : note.Opposite other) :
    other.privateScalar ≠ 0 := by
  intro hzero
  have hlt := note.privateScalar.val_lt
  have hmoduli := feltModulus_lt_scalarModulus
  rw [Opposite, hzero] at hopposite
  have hval : (0 : Felt).val = 0 := rfl
  omega

/-- The auxiliary secret is bound by nothing that is stored. -/
theorem ofSecrets_of_auxSecret (hscalar : note.privateScalar ≠ 0) (auxSecret : Felt) :
    ofSecrets { note.toSecrets with auxSecret } = .ok { note with auxSecret } :=
  @ofSecrets_toSecrets { note with auxSecret } hscalar

/-- Without a nullifier hash the opposite scalar goes through, with any auxiliary
secret and any leaf. -/
theorem ofSecrets_of_opposite (hscalar : note.privateScalar ≠ 0)
    (hopposite : note.Opposite stored.note) (hamount : stored.amount = note.amount)
    (hcommitment : stored.commitment = some note.commitment)
    (hhash : stored.nullifierHash = none) : ofSecrets stored = .ok stored.note := by
  obtain ⟨x, y, hkey⟩ := exists_publicKey hscalar
  have hkey' := publicKey_of_opposite hopposite hkey
  have hsame : note.commitment = stored.note.commitment := by
    rw [commitment_of_key hkey, commitment_of_key hkey']
    exact congrArg (ShieldedPool.commitment x) hamount.symm
  apply reads_ofSecrets.accepts
  refine ⟨rfl, hopposite.privateScalar_ne_zero, ?_, ?_⟩
  · intro hash hstored
    rw [hcommitment] at hstored
    cases hstored
    exact hsame
  · intro hash hstored
    rw [hhash] at hstored
    cases hstored

end Unbound

/-- A note at a leaf is restored with another auxiliary secret, and a note without
a leaf with the opposite scalar and a leaf; neither with another amount. -/
theorem restoring_with_other_secrets :
    ∃ (note fresh : Note) (stored changed : NoteSecrets) (other opposite : Note),
      note.Made ∧ note.leafIndex = some 7 ∧
        stored.commitment = note.toSecrets.commitment ∧
        stored.nullifierHash = note.toSecrets.nullifierHash ∧
        stored.auxSecret ≠ note.auxSecret ∧ ofSecrets stored = .ok other ∧
        ((stored.amount = note.amount ∧ stored.privateScalar = note.privateScalar ∧
            stored.leafIndex = note.leafIndex) ∨
          note.CommitmentsMeet other ∨ note.HashesMeet other) ∧
      fresh.Made ∧ fresh.leafIndex = none ∧
        changed.commitment = fresh.toSecrets.commitment ∧
        changed.nullifierHash = fresh.toSecrets.nullifierHash ∧
        changed.privateScalar ≠ fresh.privateScalar ∧ ofSecrets changed = .ok opposite ∧
        ((changed.amount = fresh.amount ∧ fresh.SameUpToSign opposite) ∨
          fresh.CommitmentsMeet opposite) := by
  let note : Note := ⟨5, 1, 0, some 7⟩
  let fresh : Note := ⟨5, -1, 0, none⟩
  let changed : NoteSecrets :=
    { fresh.toSecrets with
      privateScalar := Residue.ofNat _ (Scalar.modulus - Felt.modulus + 1)
      leafIndex := some 3 }
  have hscalar : note.privateScalar ≠ 0 := by decide
  have hfresh : fresh.privateScalar ≠ 0 := by decide
  have haux : (9 : Felt) ≠ 0 := by decide
  have hdiffers : (Residue.ofNat _ (Scalar.modulus - Felt.modulus + 1) : Felt) ≠ -1 := by decide
  have hopposite : fresh.Opposite changed.note := by
    show (-1 : Felt).val + (Residue.ofNat _ (Scalar.modulus - Felt.modulus + 1) : Felt).val =
      Scalar.modulus
    decide
  have hread := ofSecrets_of_auxSecret hscalar 9
  have hreadFresh : ofSecrets changed = .ok changed.note :=
    ofSecrets_of_opposite hfresh hopposite rfl rfl rfl
  have hmade := made_iff.2 hscalar
  have hmadeFresh := made_iff.2 hfresh
  refine ⟨note, fresh, { note.toSecrets with auxSecret := 9 }, changed,
    { note with auxSecret := 9 }, changed.note, hmade, rfl, rfl, rfl, haux, hread, ?_,
    hmadeFresh, rfl, rfl, rfl, hdiffers, hreadFresh, ?_⟩
  · exact (restoring_detects_tampering.1 note hmade).assigned rfl rfl rfl hread
  · exact (restoring_detects_tampering.1 fresh hmadeFresh).unassigned rfl rfl rfl hreadFresh

end Note

end ShieldedPool
