/-
What a preparation checks.  A witness comes out exactly when the note sits at
the index of the proof, has a finite public point, and its commitment reaches
the root along a path that turns as the index says; the registry then takes a
hash that is not in flight.
-/
import ShieldedPool.Proofs.Merkle.ArchiveTree
import ShieldedPool.Proofs.Results
import ShieldedPool.Spend.Preparation

namespace ShieldedPool.Spend

namespace Witness

/-- The commitment that the witness opens. -/
def opened (witness : Witness) : Felt := commitment witness.keyX witness.amount

def steps (witness : Witness) : List (Felt × Bool) := witness.siblings.zip witness.pathBits

variable {privateScalar keyX root : Felt} {amount : UInt64} {proof : Merkle.Inclusion}
  {note : Note} {witness : Witness}

theorem assemble_eq_ok_iff :
    assemble privateScalar keyX amount proof root = .ok witness ↔
      proof.impliedRoot (commitment keyX amount) = .ok root ∧
        proof.pathIndex = .ok proof.leafIndex ∧
        witness = {
          privateScalar, keyX, amount, root
          leafIndex := proof.leafIndex
          siblings := proof.siblings
          pathBits := proof.pathBits
          nullifierHash := spendMark privateScalar proof.leafIndex } := by
  rw [assemble]
  rcases proof.impliedRoot (commitment keyX amount) with failure | implied
  · simp
  · rw [ok_bind, Except.ok.injEq]
    by_cases hroot : implied = root
    · rw [if_neg (not_not_intro hroot)]
      rcases proof.pathIndex with failure | index
      · simp
      · rw [ok_bind, Except.ok.injEq]
        by_cases hindex : index = proof.leafIndex
        · rw [if_neg (not_not_intro hindex)]
          simp [hroot, hindex, eq_comm]
        · rw [if_pos hindex]
          simp [hindex]
    · rw [if_pos hroot]
      simp [hroot]

theorem ofNote_eq_ok_iff :
    ofNote note proof root = .ok witness ↔
      note.leafIndex = some proof.leafIndex ∧
        ∃ x y, note.publicKey = .affine x y ∧
          assemble note.privateScalar x note.amount proof root = .ok witness := by
  rw [ofNote]
  rcases note.leafIndex with _ | leafIndex
  · simp
  · simp only [Option.some.injEq]
    by_cases hindex : leafIndex = proof.leafIndex
    · rw [if_neg (not_not_intro hindex)]
      rcases note.publicKey with _ | ⟨x, y⟩
      · simp
      · simp [hindex]
    · rw [if_pos hindex]
      simp [hindex]

end Witness

namespace Registry

variable {registry after : Registry} {hash other : Felt}

theorem begin_eq_ok_iff :
    registry.begin hash = .ok after ↔
      registry.contains hash = false ∧ after = ⟨hash :: registry.inFlight⟩ := by
  rw [Registry.begin]
  rcases registry.contains hash with _ | _ <;> simp [eq_comm]

theorem begin_eq_error_iff {refusal : Failure} :
    registry.begin hash = .error refusal ↔
      registry.contains hash ∧ refusal = .duplicateSpend hash := by
  rw [Registry.begin]
  rcases registry.contains hash with _ | _ <;> simp [eq_comm]

theorem contains_iff : registry.contains hash ↔ hash ∈ registry.inFlight :=
  List.contains_iff_mem

theorem contains_begin_iff (hbegin : registry.begin other = .ok after) :
    after.contains hash ↔ hash = other ∨ registry.contains hash := by
  obtain ⟨-, rfl⟩ := begin_eq_ok_iff.1 hbegin
  simp only [contains_iff, List.mem_cons]

theorem contains_release_iff :
    (registry.release other).contains hash ↔ hash ≠ other ∧ registry.contains hash := by
  simp only [contains_iff, release, List.mem_filter, decide_eq_true_eq]
  exact and_comm

end Registry

section Prepare

variable {α : Type} [Merkle.Accumulator α] {tree : α} {note : Note} {witness : Witness}
  {registry after : Registry}

theorem witnessIn_eq_ok_iff :
    witnessIn tree note = .ok witness ↔
      ∃ leafIndex proof, note.leafIndex = some leafIndex ∧
        Merkle.Accumulator.prove tree leafIndex = .ok proof ∧
        Witness.ofNote note proof (Merkle.Accumulator.root tree) = .ok witness := by
  rw [witnessIn]
  rcases note.leafIndex with _ | leafIndex
  · simp
  · simp [bind_eq_ok_iff]

theorem prepare_eq_ok_iff :
    prepare registry note tree = .ok (witness, after) ↔
      witnessIn tree note = .ok witness ∧
        registry.begin witness.nullifierHash = .ok after := by
  simp only [prepare, bind_eq_ok_iff, pure_eq_ok, Except.ok.injEq, Prod.mk.injEq]
  constructor
  · rintro ⟨_, hwitness, _, hbegin, rfl, rfl⟩
    exact ⟨hwitness, hbegin⟩
  · rintro ⟨hwitness, hbegin⟩
    exact ⟨_, hwitness, _, hbegin, rfl, rfl⟩

theorem prepare_of_witnessIn (hwitness : witnessIn tree note = .ok witness)
    (hfree : registry.contains witness.nullifierHash = false) :
    prepare registry note tree =
      .ok (witness, ⟨witness.nullifierHash :: registry.inFlight⟩) :=
  prepare_eq_ok_iff.2 ⟨hwitness, Registry.begin_eq_ok_iff.2 ⟨hfree, rfl⟩⟩

/-- Two trees with one root and one proof prepare a note alike. -/
theorem prepare_congr {β : Type} [Merkle.Accumulator β] {other : β} {index : UInt64}
    (hindex : note.leafIndex = some index)
    (hprove : Merkle.Accumulator.prove other index = Merkle.Accumulator.prove tree index)
    (hroot : Merkle.Accumulator.root other = Merkle.Accumulator.root tree) :
    prepare registry note other = prepare registry note tree := by
  have hwitness : witnessIn other note = witnessIn tree note := by
    simp only [witnessIn, hindex, hprove, hroot]
  rw [prepare, prepare, hwitness]

theorem prepare_of_prove_error {index : UInt64} {refusal : Failure}
    (hindex : note.leafIndex = some index)
    (hprove : Merkle.Accumulator.prove tree index = .error refusal) :
    prepare registry note tree = .error refusal := by
  simp only [prepare, witnessIn, hindex, hprove, error_bind]

/-- A note whose commitment is the leaf at its index has its witness. -/
theorem witnessIn_padded {depth : Merkle.Depth} {leaves : List Felt} {index : UInt64}
    {x y : Felt} (hindex : note.leafIndex = some index)
    (hkey : note.publicKey = .affine x y)
    (hleaf : leaves[index.toNat]? = some (commitment x note.amount))
    (hle : leaves.length ≤ depth.capacity) :
    witnessIn (Merkle.Archive.padded depth leaves) note = .ok {
      privateScalar := note.privateScalar
      keyX := x
      amount := note.amount
      leafIndex := index
      root := Merkle.paddedRoot depth.levels leaves
      siblings := Merkle.paddedSiblings leaves depth.levels index.toNat
      pathBits := Merkle.pathBits depth.levels index.toNat
      nullifierHash := spendMark note.privateScalar index } := by
  have hpresent : index.toNat < leaves.length := (List.getElem?_eq_some_iff.1 hleaf).1
  have hcapacity := Nat.lt_of_lt_of_le hpresent hle
  have hprove := Merkle.Archive.prove_padded depth leaves index
  rw [if_pos hpresent] at hprove
  refine witnessIn_eq_ok_iff.2 ⟨index, _, hindex, hprove, ?_⟩
  refine Witness.ofNote_eq_ok_iff.2 ⟨hindex, x, y, hkey, Witness.assemble_eq_ok_iff.2 ?_⟩
  rw [show Merkle.Accumulator.root (Merkle.Archive.padded depth leaves) =
    Merkle.paddedRoot depth.levels leaves from Merkle.Archive.root_padded depth leaves]
  exact ⟨Merkle.impliedRoot_paddedProof hcapacity hleaf,
    Merkle.pathIndex_paddedProof hcapacity leaves, rfl⟩

end Prepare

end ShieldedPool.Spend
