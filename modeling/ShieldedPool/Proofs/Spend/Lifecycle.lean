/-
The life of a note.  A note that could be made, whose commitment is a leaf of
the tree, is spent from there, whatever leaves are before and behind it and
whether or not its secrets have been stored and read back in between.  A tree
that keeps its frontier only gives out the same witness while the leaf is the
last one.
-/
import ShieldedPool.Proofs.Merkle.AccumulatorAgreement
import ShieldedPool.Proofs.Note.SecretsCodec
import ShieldedPool.Proofs.Spend.OneMark

namespace ShieldedPool

/-- The note that the stored bytes of a note restore. -/
def Note.reread (note : Note) : Except NoteDefect Note :=
  NoteSecrets.ofBytes note.toSecrets.toBytes >>= ofSecrets

namespace Note

variable {note : Note}

theorem reread_eq (hne : note.privateScalar ≠ 0) : note.reread = .ok note := by
  have hbytes : NoteSecrets.ofBytes note.toSecrets.toBytes = .ok note.toSecrets :=
    NoteSecrets.ofBytes_toBytes rfl
  rw [reread, hbytes, ok_bind, ofSecrets_toSecrets hne]

theorem markHash_assignLeaf (index : UInt64) :
    (note.assignLeaf index).markHash = .ok (spendMark note.privateScalar index) := rfl

end Note

namespace Spend

open Merkle (Archive Depth Follower feed)

/-- The witness of a note at a leaf of a tree, and the registry that holds its
mark and those that were there. -/
structure Spent (note : Note) (index : UInt64) (tree : Archive) (registry : Registry)
    (witness : Witness) (after : Registry) : Prop where
  prepared : prepare registry note tree = .ok (witness, after)
  root_eq : witness.root = tree.root
  leafIndex_eq : witness.leafIndex = index
  mark_eq : note.markHash = .ok witness.nullifierHash
  length_siblings : witness.siblings.length = tree.depth.levels
  length_pathBits : witness.pathBits.length = tree.depth.levels
  verified : Merkle.Inclusion.verifyStrict ⟨index, witness.siblings, witness.pathBits⟩
    tree.depth.levels note.commitment tree.root = .ok true
  registered : ∀ hash, after.contains hash ↔
    hash = witness.nullifierHash ∨ registry.contains hash

/-- The note is restored from its secrets with and without its leaf, and every
registry that does not hold its mark lets it be spent at the leaf.  A follower
gives out the same witness if the leaf is its last one, and else refuses. -/
structure SpendableAt (note : Note) (index : UInt64) (full : Archive) (live : Follower) :
    Prop where
  reread : note.reread = .ok note
  reread_assigned : (note.assignLeaf index).reread = .ok (note.assignLeaf index)
  spent : ∃ mark, (note.assignLeaf index).markHash = .ok mark ∧
    ∀ registry : Registry, registry.contains mark = false → ∃ witness after,
      Spent (note.assignLeaf index) index full registry witness after ∧
        prepare registry (note.assignLeaf index) live =
          if index.toNat + 1 = live.nextIndex then .ok (witness, after)
          else .error (.proofUnavailable index.toNat)

section Padded

variable {depth : Depth} {leaves : List Felt} {note : Note} {index : UInt64}
  (hleaf : leaves[index.toNat]? = some note.commitment)
include hleaf

theorem exists_spent (hne : note.privateScalar ≠ 0) (hle : leaves.length ≤ depth.capacity)
    {registry : Registry}
    (hfree : registry.contains (spendMark note.privateScalar index) = false) :
    ∃ witness after, Spent (note.assignLeaf index) index (Archive.padded depth leaves)
      registry witness after := by
  obtain ⟨x, y, hkey⟩ := Note.exists_publicKey hne
  have hcommitment := Note.commitment_of_key hkey
  have hopened : leaves[index.toNat]? = some (commitment x note.amount) := by
    rw [hleaf, hcommitment]
  have hpresent := (List.getElem?_eq_some_iff.1 hleaf).1
  have hcapacity : index.toNat < depth.capacity := Nat.lt_of_lt_of_le hpresent hle
  have hwitness : witnessIn (Archive.padded depth leaves) (note.assignLeaf index) = _ :=
    witnessIn_padded rfl hkey hopened hle
  have hroot := Archive.root_padded depth leaves
  refine ⟨_, _, prepare_of_witnessIn hwitness hfree, hroot.symm, rfl,
    Note.markHash_assignLeaf index, Merkle.length_paddedSiblings _ _ _,
    Merkle.length_pathBits _ _, ?_, ?_⟩
  · rw [hroot]
    exact Merkle.verifyStrict_paddedProof hcapacity hleaf
  · intro hash
    simp [Registry.contains]

/-- A follower at the same leaves proves the last one only. -/
theorem prepare_live {live : Follower} (hagrees : live.Agrees (Archive.padded depth leaves))
    (registry : Registry) :
    prepare registry (note.assignLeaf index) live =
      if index.toNat + 1 = live.nextIndex then
        prepare registry (note.assignLeaf index) (Archive.padded depth leaves)
      else .error (.proofUnavailable index.toNat) := by
  have hpresent := (List.getElem?_eq_some_iff.1 hleaf).1
  have hlive := Follower.prove_of_agrees hagrees index
  have hfull := Archive.prove_padded depth leaves index
  rw [if_pos hpresent] at hlive hfull
  rw [hagrees.nextIndex_eq, Archive.nextIndex_padded]
  by_cases hlast : index.toNat + 1 = leaves.length
  · rw [if_pos hlast] at hlive ⊢
    exact prepare_congr rfl (hlive.trans hfull.symm) hagrees.root_eq
  · rw [if_neg hlast] at hlive ⊢
    exact prepare_of_prove_error rfl hlive

theorem spendableAt_padded (hne : note.privateScalar ≠ 0)
    (hle : leaves.length ≤ depth.capacity) {live : Follower}
    (hagrees : live.Agrees (Archive.padded depth leaves)) :
    SpendableAt note index (Archive.padded depth leaves) live where
  reread := Note.reread_eq hne
  reread_assigned := Note.reread_eq hne
  spent := by
    refine ⟨_, Note.markHash_assignLeaf index, ?_⟩
    intro registry hfree
    obtain ⟨witness, after, hspent⟩ := exists_spent hleaf hne hle hfree
    refine ⟨witness, after, hspent, ?_⟩
    rw [prepare_live hleaf hagrees, hspent.prepared]

end Padded

/-- A note that was made, and whose commitment is a leaf of a tree after any run
of insertions, is restored from its secrets and spent at that leaf. -/
theorem made_note_spendable (depth : Depth) (size : Nat) (fed : List Felt)
    {amount : UInt64} {privateScalar auxSecret : Felt} {note : Note} {index : UInt64}
    (hmade : Note.create amount privateScalar auxSecret = .ok note)
    (hleaf : (feed (Archive.empty depth) fed).1.leaf? index.toNat = some note.commitment) :
    SpendableAt note index (feed (Archive.empty depth) fed).1
      (feed (Follower.empty depth size) fed).1 := by
  obtain ⟨hne, rfl⟩ := Note.create_eq_ok_iff.1 hmade
  have hagrees := Follower.feed_empty_agrees depth size fed
  have hle : (fed.take depth.capacity).length ≤ depth.capacity := List.length_take_le _ _
  rw [Archive.fst_feed_empty] at hleaf hagrees ⊢
  rw [Archive.leaf?_padded] at hleaf
  exact spendableAt_padded hleaf hne hle hagrees

/-- The note of the scalar one between two other leaves. -/
theorem made_note_spendable_between :
    ∃ note, Note.create 5 1 0 = .ok note ∧
      let fed := [7, note.commitment, 9]
      (feed (Archive.empty fourLevels) fed).1.leaf? (1 : UInt64).toNat =
          some note.commitment ∧
        SpendableAt note 1 (feed (Archive.empty fourLevels) fed).1
          (feed (Follower.empty fourLevels 1) fed).1 := by
  have hnonzero : (1 : Felt) ≠ 0 := by decide
  have hmade : Note.create 5 1 0 = .ok ⟨5, 1, 0, none⟩ := if_neg hnonzero
  refine ⟨_, hmade, ?_⟩
  intro fed
  have hleaf : (feed (Archive.empty fourLevels) fed).1.leaf? (1 : UInt64).toNat =
      some (Note.commitment ⟨5, 1, 0, none⟩) := by
    rw [Archive.fst_feed_empty, Archive.leaf?_padded]
    rfl
  exact ⟨hleaf, made_note_spendable fourLevels 1 fed hmade hleaf⟩

end Spend

end ShieldedPool
