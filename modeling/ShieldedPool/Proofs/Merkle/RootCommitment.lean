/-
What a root says about the leaves.  The root of a tree is that of its leaves
with zeros behind them up to the capacity, so lists that are equal with these
zeros have one root.  Lists with one root are equal with their zeros as well,
or at one place of the two trees different children have one node: the climbs
from a leaf in which the lists differ turn alike, so they meet on the way.
-/
import ShieldedPool.Proofs.Merkle.AccumulatorAgreement
import ShieldedPool.Proofs.Merkle.Trail

namespace ShieldedPool.Merkle

/-- The leaves of a full tree: those of a list, and zeros behind them. -/
def Depth.pad (depth : Depth) (leaves : List Felt) : List Felt :=
  leaves.rightpad depth.capacity 0

section Pad

variable {depth : Depth} {height index : Nat} {leaves other : List Felt}

theorem getD_append_zeros (count : Nat) :
    (leaves ++ List.replicate count 0).getD index 0 = leaves.getD index 0 := by
  rcases Nat.lt_or_ge index leaves.length with hpresent | hpast
  · rw [List.getD_append _ _ _ _ hpresent]
  · rw [List.getD_append_right _ _ _ _ hpast, List.getD_eq_default _ _ hpast,
      List.getD_eq_getElem?_getD, List.getElem?_replicate]
    split <;> rfl

/-- Lists are equal with their zeros when they have the same leaf at every place. -/
theorem pad_eq_iff (hle : leaves.length ≤ depth.capacity)
    (hother : other.length ≤ depth.capacity) :
    depth.pad leaves = depth.pad other ↔ ∀ index, leaves.getD index 0 = other.getD index 0 := by
  constructor
  · intro hpad index
    have hplace := congrArg (fun padded => padded.getD index 0) hpad
    simpa only [Depth.pad, List.rightpad, getD_append_zeros] using hplace
  · intro hsame
    have hlength : (depth.pad leaves).length = (depth.pad other).length := by
      rw [Depth.pad, Depth.pad, List.length_rightpad, List.length_rightpad, Nat.max_eq_left hle,
        Nat.max_eq_left hother]
    apply List.ext_getElem hlength
    intro index hpresent hpresent'
    rw [← List.getD_eq_getElem _ 0 hpresent, ← List.getD_eq_getElem _ 0 hpresent']
    simpa only [Depth.pad, List.rightpad, getD_append_zeros] using hsame index

theorem eq_of_pad_eq (hlength : leaves.length = other.length)
    (hpad : depth.pad leaves = depth.pad other) : leaves = other :=
  (List.append_inj hpad hlength).1

/-- The root of a height reads the first leaves, one by one. -/
theorem paddedRoot_congr
    (hsame : ∀ index < 2 ^ height, leaves.getD index 0 = other.getD index 0) :
    paddedRoot height leaves = paddedRoot height other := by
  induction height generalizing leaves other with
  | zero =>
      have hfirst := hsame 0 (Nat.two_pow_pos 0)
      cases leaves <;> cases other <;> exact hfirst
  | succ height ih =>
      have hleft : ∀ index < 2 ^ height, leaves.getD index 0 = other.getD index 0 := by
        intro index hindex
        exact hsame index (Nat.lt_of_lt_of_le hindex (Nat.pow_le_pow_right (by decide) (by omega)))
      have hright : ∀ index < 2 ^ height,
          (leaves.drop (2 ^ height)).getD index 0 = (other.drop (2 ^ height)).getD index 0 := by
        intro index hindex
        have hplace := hsame (2 ^ height + index) (by rw [Nat.pow_succ]; omega)
        simpa [List.getD_eq_getElem?_getD] using hplace
      rw [paddedRoot, paddedRoot, ih hleft, ih hright]

/-- Lists with one root have the same leaf at a place, or the paths to it meet. -/
theorem getD_eq_or_trailsMeet (hindex : index < 2 ^ height)
    (hroot : paddedRoot height leaves = paddedRoot height other) :
    leaves.getD index 0 = other.getD index 0 ∨
      TrailsMeet (paddedTrail leaves index height) (paddedTrail other index height) := by
  -- the climb from the leaf of the one list ends at the root of the other
  have hclimb := (foldl_climb_from_leaf leaves index hindex).trans hroot
  have hplace : bitsValue ((paddedSteps leaves index 0 height).map Prod.snd) = index := by
    rw [map_snd_paddedSteps, Nat.pow_zero, Nat.div_one, bitsValue_pathBits hindex]
  rw [← paddedNode_zero, ← paddedNode_zero other, paddedTrail_eq leaves]
  exact (eq_leaf_or_trailsMeet hindex (length_paddedSteps _ _ _ _) hplace hclimb).imp_left And.left

/-- A zero behind the leaves is no change. -/
theorem paddedRoot_take_concat_zero (leaves : List Felt) :
    paddedRoot depth.levels ((leaves ++ [0]).take depth.capacity) =
      paddedRoot depth.levels (leaves.take depth.capacity) := by
  apply paddedRoot_congr
  intro index (hindex : index < depth.capacity)
  have hzero : (leaves ++ [0]).getD index 0 = leaves.getD index 0 := getD_append_zeros 1
  simpa only [List.getD_eq_getElem?_getD, List.getElem?_take_of_lt hindex] using hzero

end Pad

/-- Somewhere in two trees different children have one node. -/
def Archive.Meets (tree other : Archive) : Prop :=
  ∃ index < tree.depth.capacity, TrailsMeet (tree.trail index) (other.trail index)

/-- The forms in which a tree is kept: with all its leaves, or by its frontier
with room for some recent roots. -/
inductive Keeping
  | archive
  | follower (size : Nat)

/-- The root after inserting leaves into an empty tree. -/
def Keeping.root (depth : Depth) (fed : List Felt) : Keeping → Felt
  | archive => (feed (Archive.empty depth) fed).1.root
  | follower size => (feed (Follower.empty depth size) fed).1.root

section Root

variable {depth : Depth} {fed other : List Felt}

theorem Keeping.root_eq (depth : Depth) (fed : List Felt) (keeping : Keeping) :
    keeping.root depth fed = paddedRoot depth.levels (fed.take depth.capacity) := by
  have hfull : (feed (Archive.empty depth) fed).1.root = _ :=
    (congrArg Archive.root (Archive.fst_feed_empty depth fed)).trans (Archive.root_padded _ _)
  cases keeping with
  | archive => exact hfull
  | follower size => exact (Follower.feed_empty_agrees depth size fed).root_eq.trans hfull

theorem pad_eq_or_meets (hfits : fed.length ≤ depth.capacity)
    (hother : other.length ≤ depth.capacity)
    (hroot : paddedRoot depth.levels fed = paddedRoot depth.levels other) :
    depth.pad fed = depth.pad other ∨
      (Archive.padded depth fed).Meets (Archive.padded depth other) := by
  by_cases hmeet : (Archive.padded depth fed).Meets (Archive.padded depth other)
  · exact .inr hmeet
  · left
    rw [pad_eq_iff hfits hother]
    intro index
    rcases Nat.lt_or_ge index depth.capacity with hindex | hpast
    · refine (getD_eq_or_trailsMeet hindex hroot).resolve_right ?_
      intro hpaths
      rw [← Archive.trail_padded, ← Archive.trail_padded] at hpaths
      exact hmeet ⟨index, hindex, hpaths⟩
    · rw [List.getD_eq_default _ _ (Nat.le_trans hfits hpast),
        List.getD_eq_default _ _ (Nat.le_trans hother hpast)]

/-- Two trees over different lists of one length have different roots, or meet. -/
theorem root_ne_or_meets (hfits : fed.length ≤ depth.capacity)
    (hlength : fed.length = other.length) (hne : fed ≠ other) :
    paddedRoot depth.levels fed ≠ paddedRoot depth.levels other ∨
      (Archive.padded depth fed).Meets (Archive.padded depth other) := by
  by_cases hroot : paddedRoot depth.levels fed = paddedRoot depth.levels other
  · have hother : other.length ≤ depth.capacity := hlength ▸ hfits
    rcases pad_eq_or_meets hfits hother hroot with hpad | hmeets
    · exact absurd (eq_of_pad_eq hlength hpad) hne
    · exact .inr hmeets
  · exact .inl hroot

end Root

/-- What the roots of two trees of one depth say about the leaves fed to them.
Leaves that are equal with their zeros give one root, and one root means that
they are, or that the trees meet.  So leaves in another order or with one of
them changed give another root, or the trees meet; a zero leaf changes nothing. -/
structure CommitsToLeaves (depth : Depth) (fed other : List Felt) (kept kept' : Keeping) :
    Prop where
  root_eq : depth.pad fed = depth.pad other → kept.root depth fed = kept'.root depth other
  pad_eq : kept.root depth fed = kept'.root depth other →
    depth.pad fed = depth.pad other ∨
      (feed (Archive.empty depth) fed).1.Meets (feed (Archive.empty depth) other).1
  reordered : fed.Perm other → fed ≠ other →
    kept.root depth fed ≠ kept'.root depth other ∨
      (feed (Archive.empty depth) fed).1.Meets (feed (Archive.empty depth) other).1
  changed : ∀ index leaf, other = fed.set index leaf → fed ≠ other →
    kept.root depth fed ≠ kept'.root depth other ∨
      (feed (Archive.empty depth) fed).1.Meets (feed (Archive.empty depth) other).1
  zero_leaf : kept.root depth (fed ++ [0]) = kept.root depth fed

/-- The root of a tree commits to its leaves in their order, whichever form the
tree is kept in. -/
theorem root_commits_to_leaves (depth : Depth) {fed other : List Felt} (kept kept' : Keeping)
    (hfits : fed.length ≤ depth.capacity) (hother : other.length ≤ depth.capacity) :
    CommitsToLeaves depth fed other kept kept' := by
  have htake := List.take_of_length_le hfits
  have hroot := kept.root_eq depth fed
  have hroot' := kept'.root_eq depth other
  have hfull := Archive.fst_feed_empty depth fed
  have hfull' := Archive.fst_feed_empty depth other
  rw [htake] at hroot hfull
  rw [List.take_of_length_le hother] at hroot' hfull'
  refine ⟨?root_eq, ?pad_eq, ?reordered, ?changed, ?zero_leaf⟩
  case root_eq =>
    intro hpad
    rw [hroot, hroot']
    exact paddedRoot_congr fun index _ => (pad_eq_iff hfits hother).1 hpad index
  case pad_eq =>
    rw [hroot, hroot', hfull, hfull']
    exact pad_eq_or_meets hfits hother
  case reordered =>
    intro hperm hne
    rw [hroot, hroot', hfull, hfull']
    exact root_ne_or_meets hfits hperm.length_eq hne
  case changed =>
    intro index leaf hset hne
    have hlength : fed.length = other.length := by rw [hset, List.length_set]
    rw [hroot, hroot', hfull, hfull']
    exact root_ne_or_meets hfits hlength hne
  case zero_leaf =>
    rw [kept.root_eq, paddedRoot_take_concat_zero, htake, hroot]

def twoLevels : Depth := ⟨2, by decide, by decide⟩

/-- Two leaves in either order, kept in either form, and one of them followed by
a zero. -/
theorem root_commits_to_two_leaves :
    (Keeping.archive.root twoLevels [7, 5] ≠ (Keeping.follower 1).root twoLevels [5, 7] ∨
        (feed (Archive.empty twoLevels) [7, 5]).1.Meets
          (feed (Archive.empty twoLevels) [5, 7]).1) ∧
      Keeping.archive.root twoLevels [7] = (Keeping.follower 1).root twoLevels [7, 0] := by
  have hone : [(7 : Felt)].length ≤ twoLevels.capacity := show 1 ≤ 2 ^ 2 by decide
  have htwo : ∀ a b : Felt, [a, b].length ≤ twoLevels.capacity :=
    fun _ _ => show 2 ≤ 2 ^ 2 by decide
  constructor
  · exact (root_commits_to_leaves twoLevels .archive (.follower 1) (htwo 7 5)
      (htwo 5 7)).reordered (List.Perm.swap 5 7 []) (by decide)
  · exact (root_commits_to_leaves twoLevels .archive (.follower 1) hone (htwo 7 0)).root_eq rfl

end ShieldedPool.Merkle
