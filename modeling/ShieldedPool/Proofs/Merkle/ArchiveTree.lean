/-
The archive is the padded tree.  Its levels are the nodes that cover a leaf,
and an insertion, which touches one node a level, gives the archive of the
longer list.  So whatever is read off an archive is read off the tree over its
leaves.
-/
import Mathlib.Data.List.GetD
import ShieldedPool.Merkle.Archive
import ShieldedPool.Proofs.Merkle.Feed
import ShieldedPool.Proofs.Merkle.Path

namespace ShieldedPool.Merkle

def paddedLevel (leaves : List Felt) (height : Nat) : List Felt :=
  (List.range (filled leaves.length height)).map (paddedNode leaves height)

@[simp] theorem length_paddedLevel (leaves : List Felt) (height : Nat) :
    (paddedLevel leaves height).length = filled leaves.length height := by
  simp [paddedLevel]

theorem getD_paddedLevel {leaves : List Felt} {height index : Nat}
    (hindex : index < filled leaves.length height) (default : Felt) :
    (paddedLevel leaves height).getD index default = paddedNode leaves height index := by
  simp [paddedLevel, List.getD_eq_getElem?_getD, hindex]

theorem nodeOrEmpty_paddedLevel (leaves : List Felt) (height index : Nat) :
    nodeOrEmpty height (paddedLevel leaves height) index =
      paddedNode leaves height index := by
  by_cases hindex : index < filled leaves.length height
  · exact getD_paddedLevel hindex _
  · have hpast : leaves.length ≤ index * 2 ^ height :=
      Nat.le_of_not_lt fun hlt => hindex (lt_filled_iff.2 hlt)
    rw [paddedNode_eq_emptyNode hpast, nodeOrEmpty, List.getD_eq_default]
    rw [length_paddedLevel]
    exact Nat.le_of_not_lt hindex

theorem paddedLevel_zero (leaves : List Felt) : paddedLevel leaves 0 = leaves := by
  apply List.ext_getElem
  · simp [filled_zero_right]
  · intro index _ hindex
    simp [paddedLevel, paddedNode_zero, hindex]

theorem paddedLevel_nil (height : Nat) : paddedLevel [] height = [] := by
  simp [paddedLevel, filled_zero_left]

/-- Placing the node of the path turns a level into that of the longer list. -/
theorem place_paddedLevel (leaves : List Felt) (leaf : Felt) (height : Nat) :
    place (paddedLevel leaves height) (leaves.length / 2 ^ height)
        (pathNode leaves leaf height) =
      paddedLevel (leaves ++ [leaf]) height := by
  have hlonger : paddedLevel (leaves ++ [leaf]) height =
      (List.range (leaves.length / 2 ^ height)).map (paddedNode leaves height) ++
        [pathNode leaves leaf height] := by
    rw [paddedLevel, List.length_append, List.length_singleton, filled_succ,
      List.range_succ, List.map_append]
    congr 1
    apply List.map_congr_left
    intro index hindex
    exact paddedNode_left_of_path leaves leaf height (List.mem_range.1 hindex)
  rw [hlonger, place, length_paddedLevel]
  rcases filled_eq_or leaves.length height with hpath | hpath
  · rw [if_neg (by omega), paddedLevel, hpath]
  · rw [if_pos (by omega), paddedLevel, hpath, List.range_succ, List.map_append,
      List.set_append_right _ _ (by simp)]
    simp

/-- The parent of the path node that an archive computes is the next one on
the path. -/
theorem parentOf_pathNode (leaves : List Felt) (leaf : Felt) (height : Nat) :
    parentOf height (paddedLevel leaves height) (leaves.length / 2 ^ height)
        (pathNode leaves leaf height) =
      pathNode leaves leaf (height + 1) := by
  rw [parentOf, nodeOrEmpty_paddedLevel]
  split
  · next hright => exact (pathNode_succ_of_right leaves leaf height hright).symm
  · next hleft => exact (pathNode_succ_of_left leaves leaf height hleft).symm

theorem placeUpward_paddedLevels (leaves : List Felt) (leaf : Felt)
    (above height : Nat) :
    placeUpward height (leaves.length / 2 ^ height) (pathNode leaves leaf height)
        ((List.range' height (above + 1)).map (paddedLevel leaves)) =
      (List.range' height (above + 1)).map (paddedLevel (leaves ++ [leaf])) := by
  induction above generalizing height with
  | zero => simp [placeUpward, place_paddedLevel]
  | succ above ih =>
      have hup := ih (height + 1)
      rw [Nat.pow_succ, ← Nat.div_div_eq_div_mul, ← parentOf_pathNode] at hup
      rw [List.range'_succ, List.map_cons, List.map_cons, ← place_paddedLevel, ← hup,
        List.range'_succ, List.map_cons, placeUpward]

/-- The archive of a list of leaves, with every level as the tree has it. -/
def Archive.padded (depth : Depth) (leaves : List Felt) : Archive :=
  ⟨depth, (List.range (depth.levels + 1)).map (paddedLevel leaves)⟩

namespace Archive

variable (depth : Depth) (leaves : List Felt)

theorem padded_nil : padded depth [] = empty depth := by
  have hlevels : (List.range (depth.levels + 1)).map (paddedLevel []) =
      List.replicate (depth.levels + 1) [] :=
    List.eq_replicate_iff.2 ⟨by simp, by simp [paddedLevel_nil]⟩
  rw [padded, empty, hlevels]

@[simp] theorem depth_padded : (padded depth leaves).depth = depth := rfl

theorem level_padded {height : Nat} (hheight : height ≤ depth.levels) :
    (padded depth leaves).level height = paddedLevel leaves height := by
  simp [level, padded, List.getD_eq_getElem?_getD, Nat.lt_succ_of_le hheight]

theorem nodeAt_padded {height : Nat} (hheight : height ≤ depth.levels) (index : Nat) :
    (padded depth leaves).nodeAt height index = paddedNode leaves height index := by
  rw [nodeAt, level_padded depth leaves hheight, nodeOrEmpty_paddedLevel]

@[simp] theorem leaves_padded : (padded depth leaves).leaves = leaves := by
  rw [Archive.leaves, level_padded depth leaves (Nat.zero_le _), paddedLevel_zero]

@[simp] theorem leaf?_padded (index : Nat) :
    (padded depth leaves).leaf? index = leaves[index]? := by
  rw [leaf?, leaves_padded]

@[simp] theorem nextIndex_padded : (padded depth leaves).nextIndex = leaves.length := by
  rw [nextIndex, leaves_padded]

@[simp] theorem root_padded :
    (padded depth leaves).root = paddedRoot depth.levels leaves := by
  rw [root, depth_padded, nodeAt_padded depth leaves (Nat.le_refl _), paddedNode_top]

theorem siblings_padded (index : Nat) :
    (padded depth leaves).siblings index = paddedSiblings leaves depth.levels index := by
  apply List.map_congr_left
  intro height hheight
  exact nodeAt_padded depth leaves (Nat.le_of_lt (List.mem_range.1 hheight)) _

theorem prove_padded (index : UInt64) :
    (padded depth leaves).prove index =
      if index.toNat < leaves.length then .ok (paddedProof depth leaves index)
      else .error (.leafAbsent index.toNat leaves.length) := by
  rw [prove, nextIndex_padded, siblings_padded, depth_padded, paddedProof]

theorem insert_padded (hroom : leaves.length < depth.capacity) (leaf : Felt) :
    (padded depth leaves).insert leaf =
      .ok (padded depth (leaves ++ [leaf]), leaves.length) := by
  have hup := placeUpward_paddedLevels leaves leaf depth.levels 0
  rw [Nat.pow_zero, Nat.div_one, pathNode_zero, ← List.range_eq_range'] at hup
  rw [insert, nextIndex_padded, depth_padded, if_pos hroom, padded, padded, hup]

theorem insert_padded_full (hfull : leaves.length = depth.capacity) (leaf : Felt) :
    (padded depth leaves).insert leaf = .error (.treeFull depth.capacity) := by
  rw [insert, nextIndex_padded, depth_padded, if_neg (by omega)]

/-- Every insertion into the archive of a list gives the archive of the longer
list. -/
theorem grows_padded :
    Grows depth.capacity (fun tree leaves => tree = padded depth leaves) where
  accepts := by
    rintro _ leaves rfl hroom leaf
    exact ⟨_, insert_padded depth leaves hroom leaf, rfl⟩
  refuses := by
    rintro _ leaves rfl hfull leaf
    exact insert_padded_full depth leaves hfull leaf

theorem feed_empty (leaves : List Felt) :
    feed (empty depth) leaves =
      (padded depth (leaves.take depth.capacity),
        answers depth.capacity 0 leaves.length) := by
  obtain ⟨htree, hanswers⟩ := (grows_padded depth).feed_holds
    (padded_nil depth).symm (Nat.zero_le _) leaves
  exact Prod.ext htree hanswers

theorem fst_feed_empty (leaves : List Felt) :
    (feed (empty depth) leaves).1 = padded depth (leaves.take depth.capacity) :=
  congrArg Prod.fst (feed_empty depth leaves)

end Archive

end ShieldedPool.Merkle
