/-
Stored secrets are read back.  A field that may be absent is written exactly
when its flag is set, so every reader finds its field at the front, and the
secrets of a note give the note again: what is stored beside them is what they
derive.
-/
import ShieldedPool.Note
import ShieldedPool.Proofs.Residue.CanonicalBytes
import ShieldedPool.Proofs.Results

namespace ShieldedPool

namespace NoteSecrets

section Readers

variable (part : SecretsPart) (rest : Bytes)

theorem takeWord64_append (word : UInt64) :
    takeWord64 part (Bytes.ofWord64 word ++ rest) = .ok (word, rest) := by
  have hsplit : Bytes.split? 8 (Bytes.ofWord64 word ++ rest) =
      some (Bytes.ofWord64 word, rest) :=
    Bytes.split?_append (Bytes.length_ofNatLE 8 _) rest
  simp only [takeWord64, hsplit, Bytes.toWord64_ofWord64]

theorem takeFelt_append (a : Felt) :
    takeFelt part (a.toBytes ++ rest) = .ok (a, rest) := by
  have hsplit := Bytes.split?_append a.length_toBytes rest
  simp only [takeFelt, hsplit, Felt.ofBytes_toBytes]

/-- A value is there exactly when its flag is set. -/
theorem takeIf_append {α : Type} {take : Bytes → Except NoteDefect (α × Bytes)}
    {write : α → Bytes} (htake : ∀ a, take (write a ++ rest) = .ok (a, rest))
    (value : Option α) :
    takeIf value.isSome take (optionalBytes write value ++ rest) = .ok (value, rest) := by
  rcases value with _ | a
  · rfl
  · rw [takeIf, optionalBytes, htake]
    rfl

end Readers

section Flags

variable (secrets : NoteSecrets)

theorem flags_known : ¬ 8 ≤ secrets.flags.toNat := by
  rw [flags]
  rcases secrets.leafIndex.isSome <;> rcases secrets.commitment.isSome <;>
    rcases secrets.nullifierHash.isSome <;> decide

theorem testBit_flags :
    secrets.flags.toNat.testBit 0 = secrets.leafIndex.isSome ∧
      secrets.flags.toNat.testBit 1 = secrets.commitment.isSome ∧
      secrets.flags.toNat.testBit 2 = secrets.nullifierHash.isSome := by
  rw [flags]
  rcases secrets.leafIndex.isSome <;> rcases secrets.commitment.isSome <;>
    rcases secrets.nullifierHash.isSome <;> decide

end Flags

/-- The reader takes every part off and looks at what is left. -/
theorem ofBytes_toBytes_append {secrets : NoteSecrets}
    (hversion : secrets.version = currentVersion) (rest : Bytes) :
    ofBytes (secrets.toBytes ++ rest) =
      if rest.isEmpty then .ok secrets else .error (.trailing rest.length) := by
  obtain ⟨hleaf, hcommitment, hhash⟩ := secrets.testBit_flags
  have htakeLeaf := takeIf_append _ (takeWord64_append .leafIndex
    (optionalBytes Residue.toBytes secrets.commitment ++
      (optionalBytes Residue.toBytes secrets.nullifierHash ++ rest))) secrets.leafIndex
  have htakeCommitment := takeIf_append _ (takeFelt_append .commitment
    (optionalBytes Residue.toBytes secrets.nullifierHash ++ rest)) secrets.commitment
  have htakeHash := takeIf_append rest (takeFelt_append .nullifierHash rest)
    secrets.nullifierHash
  simp only [toBytes, ofBytes, List.append_assoc, List.cons_append, takeByte, ok_bind,
    if_neg (not_not_intro hversion), takeWord64_append, takeFelt_append,
    if_neg secrets.flags_known, hleaf, hcommitment, hhash, htakeLeaf, htakeCommitment,
    htakeHash]
  rfl

theorem ofBytes_toBytes {secrets : NoteSecrets} (hversion : secrets.version = currentVersion) :
    ofBytes secrets.toBytes = .ok secrets := by
  have hread := ofBytes_toBytes_append hversion []
  rwa [List.append_nil] at hread

end NoteSecrets

namespace Note

/-- The secrets of a note that could be made restore it. -/
theorem ofSecrets_toSecrets {note : Note} (hne : note.privateScalar ≠ 0) :
    ofSecrets note.toSecrets = .ok note := by
  obtain ⟨amount, privateScalar, auxSecret, leafIndex⟩ := note
  have hcreated : create amount privateScalar auxSecret =
      .ok ⟨amount, privateScalar, auxSecret, none⟩ := if_neg hne
  rw [ofSecrets, toSecrets, hcreated]
  rcases leafIndex with _ | index <;> simp [nullifierHash?, nullifier?, commitment]

end Note

end ShieldedPool
