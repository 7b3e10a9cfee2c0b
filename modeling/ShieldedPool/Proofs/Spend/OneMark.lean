/-
How many marks a leaf can be spent under.  A commitment holds the first
coordinate of a public point, which a private scalar shares with its opposite
modulo `q` and with no other; the mark is that of the scalar itself.  So two
notes that are prepared for one leaf leave one mark unless their scalars are
opposite, or a hash meets itself on two inputs along the way, and opposite
scalars do leave two.
-/
import ShieldedPool.Proofs.Note.PublicKey
import ShieldedPool.Proofs.Spend.Session

namespace ShieldedPool

namespace Spend

namespace Witness

/-- Two witnesses open one commitment with different inputs. -/
def CommitmentsMeet (w₁ w₂ : Witness) : Prop :=
  ¬(w₁.keyX = w₂.keyX ∧ w₁.amount = w₂.amount) ∧ w₁.opened = w₂.opened

/-- Along the climb of a witness its commitment and a leaf meet in one node. -/
def NodesMeet (witness : Witness) (leaf : Felt) : Prop :=
  Merkle.ClimbsMeet witness.steps witness.opened leaf

/-- The witness is of a note, in a tree that proves the leaf. -/
structure IsOf {α : Type} [Merkle.Accumulator α] (witness : Witness) (note : Note)
    (tree : α) : Prop where
  leafIndex : note.leafIndex = some witness.leafIndex
  key : ∃ y, note.publicKey = .affine witness.keyX y
  mark : witness.nullifierHash = spendMark note.privateScalar witness.leafIndex
  proven : ∃ proof, Merkle.Accumulator.prove tree witness.leafIndex = .ok proof ∧
    witness.steps = proof.steps ∧
    proof.impliedRoot witness.opened = .ok (Merkle.Accumulator.root tree)

end Witness

section Marks

variable {α : Type} [Merkle.Accumulator α] {tree : α} {n₁ n₂ : Note} {w₁ w₂ : Witness}

theorem isOf_of_witnessIn (hwitness : witnessIn tree n₁ = .ok w₁) : w₁.IsOf n₁ tree := by
  obtain ⟨leafIndex, proof, hleaf, hprove, hnote⟩ := witnessIn_eq_ok_iff.1 hwitness
  obtain ⟨hindex, x, y, hkey, hassemble⟩ := Witness.ofNote_eq_ok_iff.1 hnote
  obtain ⟨hroot, -, rfl⟩ := Witness.assemble_eq_ok_iff.1 hassemble
  obtain rfl : leafIndex = proof.leafIndex := Option.some.inj (hleaf.symm.trans hindex)
  exact ⟨hindex, ⟨y, hkey⟩, rfl, proof, hprove, rfl, hroot⟩

theorem leafIndex_eq {later : α} (h₁ : w₁.IsOf n₁ tree) (h₂ : w₂.IsOf n₂ later)
    (hleaf : n₁.leafIndex = n₂.leafIndex) : w₁.leafIndex = w₂.leafIndex := by
  rw [h₁.leafIndex, h₂.leafIndex] at hleaf
  exact Option.some.inj hleaf

/-- One commitment at one leaf leaves one mark, opposite scalars apart. -/
theorem mark_eq_or_opposite {later : α} (h₁ : w₁.IsOf n₁ tree) (h₂ : w₂.IsOf n₂ later)
    (hleaf : n₁.leafIndex = n₂.leafIndex) (hopened : w₁.opened = w₂.opened) :
    w₁.nullifierHash = w₂.nullifierHash ∨ n₁.Opposite n₂ ∨ w₁.CommitmentsMeet w₂ := by
  have hindex := leafIndex_eq h₁ h₂ hleaf
  by_cases hsame : w₁.keyX = w₂.keyX ∧ w₁.amount = w₂.amount
  · obtain ⟨y₁, hkey₁⟩ := h₁.key
    obtain ⟨y₂, hkey₂⟩ := h₂.key
    rw [← hsame.1] at hkey₂
    rcases Note.eq_or_opposite hkey₁ hkey₂ with hscalar | hopposite
    · left
      rw [h₁.mark, h₂.mark, hscalar, hindex]
    · exact .inr (.inl hopposite)
  · exact .inr (.inr ⟨hsame, hopened⟩)

theorem same_tree_mark (hwitness₁ : witnessIn tree n₁ = .ok w₁)
    (hwitness₂ : witnessIn tree n₂ = .ok w₂) (hleaf : n₁.leafIndex = n₂.leafIndex) :
    w₁.nullifierHash = w₂.nullifierHash ∨ n₁.Opposite n₂ ∨ w₁.CommitmentsMeet w₂ ∨
      w₁.NodesMeet w₂.opened := by
  have h₁ := isOf_of_witnessIn hwitness₁
  have h₂ := isOf_of_witnessIn hwitness₂
  obtain ⟨proof, hprove₁, hsteps, hroot₁⟩ := h₁.proven
  obtain ⟨other, hprove₂, -, hroot₂⟩ := h₂.proven
  have hindex := leafIndex_eq h₁ h₂ hleaf
  rw [← hindex, hprove₁] at hprove₂
  cases hprove₂
  have hfold := (Merkle.Inclusion.impliedRoot_eq_ok hroot₁).trans
    (Merkle.Inclusion.impliedRoot_eq_ok hroot₂).symm
  rcases Merkle.eq_or_climbsMeet hfold with hopened | hmeet
  · rcases mark_eq_or_opposite h₁ h₂ hleaf hopened with hmark | hopposite | hcommitments
    · exact .inl hmark
    · exact .inr (.inl hopposite)
    · exact .inr (.inr (.inl hcommitments))
  · rw [← hsteps] at hmeet
    exact .inr (.inr (.inr hmeet))

/-- In a tree that shows the padded one, a witness opens the leaf at its index. -/
theorem opened_eq_leaf {depth : Merkle.Depth} {holds : α → List Felt → Prop}
    (hshows : Merkle.ShowsPadded depth holds) {leaves : List Felt} (hholds : holds tree leaves)
    (hle : leaves.length ≤ depth.capacity) (hof : w₁.IsOf n₁ tree) :
    ∃ leaf, leaves[w₁.leafIndex.toNat]? = some leaf ∧
      (w₁.opened = leaf ∨ w₁.NodesMeet leaf) := by
  obtain ⟨proof, hprove, hsteps, hroot⟩ := hof.proven
  obtain ⟨hpresent, rfl⟩ := hshows.prove_eq hholds hprove
  rw [hshows.root_eq hholds] at hroot
  have hleaf := List.getElem?_eq_getElem hpresent
  refine ⟨_, hleaf, ?_⟩
  rw [Witness.NodesMeet, hsteps]
  exact Merkle.eq_leaf_or_climbsMeet (Nat.lt_of_lt_of_le hpresent hle) hleaf hroot

/-- Between two preparations for one leaf lies a release of the first mark. -/
theorem released_between {depth : Merkle.Depth} {holds : α → List Felt → Prop}
    (hshows : Merkle.ShowsPadded depth holds) {leaves : List Felt} (hholds : holds tree leaves)
    (hle : leaves.length ≤ depth.capacity) {registry registry₁ registry₂ : Registry}
    {acts : List Act} (hleaf : n₁.leafIndex = n₂.leafIndex)
    (hprepare₁ : prepare registry n₁ tree = .ok (w₁, registry₁))
    (hprepare₂ : prepare ((Session.mk tree registry₁).run acts).registry n₂
      ((Session.mk tree registry₁).run acts).tree = .ok (w₂, registry₂)) :
    .release w₁.nullifierHash ∈ acts ∨ n₁.Opposite n₂ ∨ w₁.CommitmentsMeet w₂ ∨
      ∃ leaf, leaves[w₁.leafIndex.toNat]? = some leaf ∧
        (w₁.NodesMeet leaf ∨ w₂.NodesMeet leaf) := by
  obtain ⟨hwitness₁, hbegin₁⟩ := prepare_eq_ok_iff.1 hprepare₁
  obtain ⟨hwitness₂, hbegin₂⟩ := prepare_eq_ok_iff.1 hprepare₂
  have h₁ := isOf_of_witnessIn hwitness₁
  have h₂ := isOf_of_witnessIn hwitness₂
  have hindex := leafIndex_eq h₁ h₂ hleaf
  obtain ⟨leaf, hpresent, hopened₁⟩ := opened_eq_leaf hshows hholds hle h₁
  obtain ⟨more, hrun, hfits⟩ := Session.holds_run hshows ⟨tree, registry₁⟩ hholds hle acts
  obtain ⟨other, hother, hopened₂⟩ := opened_eq_leaf hshows hrun hfits h₂
  -- the tree has only grown, so the second witness opens the same leaf
  obtain rfl : leaf = other := by
    have hshort := (List.getElem?_eq_some_iff.1 hpresent).1
    rw [← hindex, List.getElem?_append_left hshort, hpresent] at hother
    exact Option.some.inj hother
  by_cases hmeet : w₁.NodesMeet leaf ∨ w₂.NodesMeet leaf
  · exact .inr (.inr (.inr ⟨leaf, hpresent, hmeet⟩))
  · rw [not_or] at hmeet
    have hopened : w₁.opened = w₂.opened :=
      (hopened₁.resolve_right hmeet.1).trans (hopened₂.resolve_right hmeet.2).symm
    rcases mark_eq_or_opposite h₁ h₂ hleaf hopened with hmark | hopposite | hcommitments
    · left
      rw [← hmark] at hbegin₂
      exact Session.released_of_begin_twice hbegin₁ hbegin₂
    · exact .inr (.inl hopposite)
    · exact .inr (.inr (.inl hcommitments))

end Marks

/-- What the spends of a leaf leave behind.  Two notes with witnesses for one
leaf have one mark, and between two preparations for a leaf, whatever else
happens, the first mark is released.  Either fails only for opposite scalars, or
where two different inputs of the computations have one commitment or node. -/
structure OneMarkPerLeaf {α : Type} [Merkle.Accumulator α] (tree : α)
    (leaves : List Felt) : Prop where
  same_mark : ∀ {n₁ n₂ : Note} {w₁ w₂ : Witness}, n₁.leafIndex = n₂.leafIndex →
    witnessIn tree n₁ = .ok w₁ → witnessIn tree n₂ = .ok w₂ →
      w₁.nullifierHash = w₂.nullifierHash ∨ n₁.Opposite n₂ ∨ w₁.CommitmentsMeet w₂ ∨
        w₁.NodesMeet w₂.opened
  released : ∀ {registry registry₁ registry₂ : Registry} {n₁ n₂ : Note} {w₁ w₂ : Witness}
    {acts : List Act}, n₁.leafIndex = n₂.leafIndex →
    prepare registry n₁ tree = .ok (w₁, registry₁) →
    prepare ((Session.mk tree registry₁).run acts).registry n₂
      ((Session.mk tree registry₁).run acts).tree = .ok (w₂, registry₂) →
      .release w₁.nullifierHash ∈ acts ∨ n₁.Opposite n₂ ∨ w₁.CommitmentsMeet w₂ ∨
        ∃ leaf, leaves[w₁.leafIndex.toNat]? = some leaf ∧
          (w₁.NodesMeet leaf ∨ w₂.NodesMeet leaf)

theorem oneMarkPerLeaf_of_shows {α : Type} [Merkle.Accumulator α] {depth : Merkle.Depth}
    {holds : α → List Felt → Prop} (hshows : Merkle.ShowsPadded depth holds) {tree : α}
    {leaves : List Felt} (hholds : holds tree leaves)
    (hle : leaves.length ≤ depth.capacity) : OneMarkPerLeaf tree leaves where
  same_mark hleaf hwitness₁ hwitness₂ := same_tree_mark hwitness₁ hwitness₂ hleaf
  released hleaf hprepare₁ hprepare₂ :=
    released_between hshows hholds hle hleaf hprepare₁ hprepare₂

/-- Every tree has one mark per leaf, whatever it was fed and however it is kept. -/
theorem one_mark_per_leaf (depth : Merkle.Depth) (size viewSize : Nat) (fed : List Felt) :
    let full := (Merkle.feed (Merkle.Archive.empty depth) fed).1
    let live := (Merkle.feed (Merkle.Follower.empty depth size) fed).1
    let leaves := fed.take depth.capacity
    OneMarkPerLeaf full leaves ∧ OneMarkPerLeaf live leaves ∧
      OneMarkPerLeaf (full.follower viewSize) leaves := by
  intro full live leaves
  have hle : leaves.length ≤ depth.capacity := List.length_take_le _ _
  have hfull : full = Merkle.Archive.padded depth leaves :=
    congrArg Prod.fst (Merkle.Archive.feed_empty depth fed)
  have hlive : live.Agrees (Merkle.Archive.padded depth leaves) :=
    ((Merkle.Follower.grows_agrees depth).feed_holds
      (Merkle.Follower.empty_agrees depth size) (Nat.zero_le _) fed).1
  have hview : (full.follower viewSize).Agrees (Merkle.Archive.padded depth leaves) := by
    rw [hfull]
    exact Merkle.Archive.follower_agrees _ viewSize
  exact ⟨oneMarkPerLeaf_of_shows (Merkle.Archive.showsPadded depth) hfull hle,
    oneMarkPerLeaf_of_shows (Merkle.Follower.showsPadded depth) hlive hle,
    oneMarkPerLeaf_of_shows (Merkle.Follower.showsPadded depth) hview hle⟩

/-- Opposite notes share a leaf, and the second is prepared beside the first
under a mark of its own. -/
theorem prepare_opposite {depth : Merkle.Depth} {leaves : List Felt} {n₁ n₂ : Note}
    {index : UInt64} {x y : Felt} {registry : Registry} (hopposite : n₁.Opposite n₂)
    (hamount : n₁.amount = n₂.amount) (hindex₁ : n₁.leafIndex = some index)
    (hindex₂ : n₂.leafIndex = some index) (hkey : n₁.publicKey = .affine x y)
    (hleaf : leaves[index.toNat]? = some (commitment x n₁.amount))
    (hle : leaves.length ≤ depth.capacity)
    (hfree₁ : registry.contains (spendMark n₁.privateScalar index) = false)
    (hfree₂ : registry.contains (spendMark n₂.privateScalar index) = false)
    (hmarks : spendMark n₁.privateScalar index ≠ spendMark n₂.privateScalar index) :
    ∃ w₁ w₂ registry₁ registry₂,
      prepare registry n₁ (Merkle.Archive.padded depth leaves) = .ok (w₁, registry₁) ∧
      prepare registry₁ n₂ (Merkle.Archive.padded depth leaves) = .ok (w₂, registry₂) ∧
      w₁.nullifierHash ≠ w₂.nullifierHash ∧ ¬ w₁.CommitmentsMeet w₂ ∧
      ¬ w₁.NodesMeet w₂.opened := by
  have hkey₂ := Note.publicKey_of_opposite hopposite hkey
  have hleaf₂ := hleaf
  rw [hamount] at hleaf₂
  have hwitness₁ := witnessIn_padded hindex₁ hkey hleaf hle
  have hwitness₂ := witnessIn_padded hindex₂ hkey₂ hleaf₂ hle
  refine ⟨_, _, _, _, prepare_of_witnessIn hwitness₁ hfree₁,
    prepare_of_witnessIn hwitness₂ ?_, hmarks, ?_, ?_⟩
  · simp only [Registry.contains, List.contains_cons, Bool.or_eq_false_iff] at hfree₂ ⊢
    exact ⟨beq_eq_false_iff_ne.2 (Ne.symm hmarks), hfree₂⟩
  · rintro ⟨hdiffer, -⟩
    exact hdiffer ⟨rfl, hamount⟩
  · rw [Witness.NodesMeet, Witness.opened, Witness.opened, hamount]
    exact Merkle.not_climbsMeet_self _ _

section Example

def fourLevels : Merkle.Depth := ⟨4, by decide, by decide⟩

theorem feed_single (leaf : Felt) :
    (Merkle.feed (Merkle.Archive.empty fourLevels) [leaf]).1 =
      Merkle.Archive.padded fourLevels [leaf] :=
  congrArg Prod.fst (Merkle.Archive.feed_empty fourLevels [leaf])

theorem single_fits (leaf : Felt) : [leaf].length ≤ fourLevels.capacity :=
  show 1 ≤ 2 ^ 4 by decide

theorem marks_of_opposite_differ :
    spendMark (-1) 0 ≠ spendMark (Residue.ofNat _ (Scalar.modulus - Felt.modulus + 1)) 0 := by
  decide +kernel

/-- The scalars `p - 1` and `q - p + 1` are opposite, and their notes are both
prepared for the leaf of the first. -/
theorem two_marks_of_one_leaf :
    ∃ m₁ m₂ : Note, Note.create 5 (-1) 0 = .ok m₁ ∧
      Note.create 5 (Residue.ofNat _ (Scalar.modulus - Felt.modulus + 1)) 0 = .ok m₂ ∧
      let tree := (Merkle.feed (Merkle.Archive.empty fourLevels) [m₁.commitment]).1
      ∃ w₁ w₂ registry₁ registry₂,
        prepare Registry.empty (m₁.assignLeaf 0) tree = .ok (w₁, registry₁) ∧
        prepare registry₁ (m₂.assignLeaf 0) tree = .ok (w₂, registry₂) ∧
        w₁.nullifierHash ≠ w₂.nullifierHash ∧ ¬ w₁.CommitmentsMeet w₂ ∧
        ¬ w₁.NodesMeet w₂.opened := by
  have hnonzero₁ : (-1 : Felt) ≠ 0 := by decide
  have hnonzero₂ : (Residue.ofNat _ (Scalar.modulus - Felt.modulus + 1) : Felt) ≠ 0 := by
    decide
  have hopposite : (-1 : Felt).val +
      (Residue.ofNat _ (Scalar.modulus - Felt.modulus + 1) : Felt).val = Scalar.modulus := by
    decide
  refine ⟨_, _, if_neg hnonzero₁, if_neg hnonzero₂, ?_⟩
  obtain ⟨x, y, hkey⟩ := @Note.exists_publicKey ⟨5, -1, 0, none⟩ hnonzero₁
  simp only [feed_single, Note.commitment_of_key hkey]
  exact prepare_opposite hopposite rfl rfl rfl hkey rfl (single_fits _) rfl rfl
    marks_of_opposite_differ

/-- One note is prepared again once its mark is released. -/
theorem one_mark_per_leaf_after_release :
    ∃ (note : Note) (w₁ w₂ : Witness) (registry₁ registry₂ : Registry) (act : Act),
      let tree := (Merkle.feed (Merkle.Archive.empty fourLevels) [note.commitment]).1
      prepare Registry.empty note tree = .ok (w₁, registry₁) ∧
      prepare ((Session.mk tree registry₁).run [act]).registry note
        ((Session.mk tree registry₁).run [act]).tree = .ok (w₂, registry₂) ∧
      (.release w₁.nullifierHash ∈ [act] ∨ note.Opposite note ∨ w₁.CommitmentsMeet w₂ ∨
        ∃ leaf, [note.commitment][w₁.leafIndex.toNat]? = some leaf ∧
          (w₁.NodesMeet leaf ∨ w₂.NodesMeet leaf)) := by
  have hnonzero : (Note.mk 5 1 0 (some 0)).privateScalar ≠ 0 := by decide
  obtain ⟨x, y, hkey⟩ := Note.exists_publicKey hnonzero
  have hleaf : [Note.commitment ⟨5, 1, 0, some 0⟩][(0 : UInt64).toNat]? =
      some (commitment x 5) := by
    rw [Note.commitment_of_key hkey]
    rfl
  have hwitness := witnessIn_padded rfl hkey hleaf (single_fits _)
  rw [← feed_single] at hwitness
  have hprepare₁ : prepare Registry.empty _ _ = _ := prepare_of_witnessIn hwitness rfl
  have hfree : ((⟨[spendMark 1 0]⟩ : Registry).release (spendMark 1 0)).contains
      (spendMark 1 0) = false := by
    simp [Registry.release, Registry.contains]
  have hprepare₂ := prepare_of_witnessIn hwitness hfree
  exact ⟨_, _, _, _, _, .release (spendMark 1 0), hprepare₁, hprepare₂,
    (one_mark_per_leaf fourLevels 1 1 _).1.released rfl hprepare₁ hprepare₂⟩

end Example

end Spend

end ShieldedPool
