/-
Paths through a frontier.  Appending a leaf and checking a published state both
read the frontier along the path of an index: where the path turns right the
entry is the sibling, where it turns left the sibling is empty.  So both are
one climb over the same steps, and what an append writes into the frontier is
what the check afterwards finds there.
-/
import ShieldedPool.Merkle.Follower
import ShieldedPool.Proofs.Merkle.Trail
import ShieldedPool.Proofs.Results

namespace ShieldedPool.Merkle

/-- The siblings and sides along the path of an index through a frontier. -/
def pathSteps : (height index : Nat) → List Felt → List (Felt × Bool)
  | _, _, [] => []
  | height, index, entry :: above =>
      (if index % 2 = 1 then (entry, true) else (emptyNode height, false)) ::
        pathSteps (height + 1) (index / 2) above

section Turns

variable {height index : Nat} (entry : Felt) (above : List Felt)

theorem pathSteps_right (hright : index % 2 = 1) :
    pathSteps height index (entry :: above) =
      (entry, true) :: pathSteps (height + 1) (index / 2) above := by
  rw [pathSteps, if_pos hright]

theorem pathSteps_left (hleft : ¬ index % 2 = 1) :
    pathSteps height index (entry :: above) =
      (emptyNode height, false) :: pathSteps (height + 1) (index / 2) above := by
  rw [pathSteps, if_neg hleft]

/-- Behind a path that turns right at first, the next one turns left there. -/
theorem pathSteps_succ_of_right (hright : index % 2 = 1) :
    pathSteps height (index + 1) (entry :: above) =
      (emptyNode height, false) :: pathSteps (height + 1) (index / 2 + 1) above := by
  have hnext : (index + 1) / 2 = index / 2 + 1 := by omega
  rw [pathSteps_left _ _ (by omega), hnext]

/-- Behind a path that turns left at first, the next one turns right there and
goes on as that path does. -/
theorem pathSteps_succ_of_left (hleft : ¬ index % 2 = 1) :
    pathSteps height (index + 1) (entry :: above) =
      (entry, true) :: pathSteps (height + 1) (index / 2) above := by
  have hnext : (index + 1) / 2 = index / 2 := by omega
  rw [pathSteps_right _ _ (by omega), hnext]

end Turns

/-- The sides of the path are the bits of the index. -/
theorem map_snd_pathSteps_eq (height index : Nat) (frontier : List Felt) :
    (pathSteps height index frontier).map Prod.snd = pathBits frontier.length index := by
  induction frontier generalizing height index with
  | nil => rfl
  | cons entry above ih =>
      rw [List.length_cons, pathBits_succ, isRightChild, Nat.testBit_zero]
      by_cases hright : index % 2 = 1
      · rw [pathSteps_right _ _ hright, List.map_cons, ih, decide_eq_true hright]
      · rw [pathSteps_left _ _ hright, List.map_cons, ih, decide_eq_false hright]

@[simp] theorem length_pathSteps (height index : Nat) (frontier : List Felt) :
    (pathSteps height index frontier).length = frontier.length := by
  have hsides := congrArg List.length (map_snd_pathSteps_eq height index frontier)
  simpa using hsides

/-- The sides of the path do not depend on the entries. -/
theorem map_snd_pathSteps {frontier frontier' : List Felt}
    (hlength : frontier.length = frontier'.length) (height index : Nat) :
    (pathSteps height index frontier).map Prod.snd =
      (pathSteps height index frontier').map Prod.snd := by
  rw [map_snd_pathSteps_eq, map_snd_pathSteps_eq, hlength]

/-- A path that only turns left does not read the frontier. -/
theorem pathSteps_zero {frontier frontier' : List Felt}
    (hlength : frontier.length = frontier'.length) (height : Nat) :
    pathSteps height 0 frontier = pathSteps height 0 frontier' := by
  induction frontier generalizing frontier' height with
  | nil => rw [List.eq_nil_of_length_eq_zero hlength.symm]
  | cons entry above ih =>
      cases frontier' with
      | nil => simp at hlength
      | cons entry' above' =>
          simp [pathSteps, ih (Nat.succ.inj hlength) (height + 1)]

section Ascent

variable (height index : Nat) (current : Felt) (frontier : List Felt)

@[simp] theorem length_frontier_ascend :
    (ascend height index current frontier).frontier.length = frontier.length := by
  induction frontier generalizing height index current with
  | nil => rfl
  | cons entry above ih =>
      rw [ascend]
      split <;> simp [ih]

/-- The siblings that an ascent meets are those of its path. -/
theorem siblings_ascend :
    (ascend height index current frontier).siblings =
      (pathSteps height index frontier).map Prod.fst := by
  induction frontier generalizing height index current with
  | nil => rfl
  | cons entry above ih =>
      by_cases hright : index % 2 = 1
      · rw [pathSteps_right _ _ hright]
        simp only [ascend, if_pos hright, ih, List.map_cons]
      · rw [pathSteps_left _ _ hright]
        simp only [ascend, if_neg hright, ih, List.map_cons]

theorem root_ascend :
    (ascend height index current frontier).root =
      (pathSteps height index frontier).foldl climb current := by
  induction frontier generalizing height index current with
  | nil => rfl
  | cons entry above ih =>
      by_cases hright : index % 2 = 1
      · rw [pathSteps_right _ _ hright]
        simp only [ascend, if_pos hright, ih, List.foldl_cons, climb]
        rfl
      · rw [pathSteps_left _ _ hright]
        simp only [ascend, if_neg hright, ih, List.foldl_cons, climb]
        rfl

theorem length_siblings_ascend :
    (ascend height index current frontier).siblings.length = frontier.length := by
  rw [siblings_ascend, List.length_map, length_pathSteps]

/-- The siblings and the sides of the path lead from the leaf to the new root,
whatever the frontier held. -/
theorem foldPath_ascend :
    foldPath current (ascend height index current frontier).siblings
        (pathBits frontier.length index) =
      (ascend height index current frontier).root := by
  have hzip : pathSteps height index frontier =
      ((pathSteps height index frontier).map Prod.fst).zip
        ((pathSteps height index frontier).map Prod.snd) := List.zip_of_prod rfl rfl
  rw [siblings_ascend, root_ascend, ← map_snd_pathSteps_eq height, foldPath, ← hzip]

/-- An ascent reads no more of the frontier than the siblings of its path. -/
theorem ascend_congr {frontier' : List Felt}
    (hsteps : pathSteps height index frontier = pathSteps height index frontier') :
    ascend height index current frontier = ascend height index current frontier' := by
  induction frontier generalizing frontier' height index current with
  | nil =>
      cases frontier' with
      | nil => rfl
      | cons entry' above' => simp [pathSteps] at hsteps
  | cons entry above ih =>
      cases frontier' with
      | nil => simp [pathSteps] at hsteps
      | cons entry' above' =>
          by_cases hright : index % 2 = 1
          · rw [pathSteps_right _ _ hright, pathSteps_right _ _ hright] at hsteps
            obtain ⟨hstep, hrest⟩ := List.cons.inj hsteps
            obtain rfl : entry = entry' := congrArg Prod.fst hstep
            simp only [ascend, if_pos hright, ih _ _ _ hrest]
          · rw [pathSteps_left _ _ hright, pathSteps_left _ _ hright] at hsteps
            obtain ⟨-, hrest⟩ := List.cons.inj hsteps
            simp only [ascend, if_neg hright, ih _ _ _ hrest]

/-- The check along the path of the last leaf finds what the ascent wrote, and
ends at its root. -/
theorem rootAlong_ascend :
    rootAlong height index current (ascend height index current frontier).frontier =
      .ok (ascend height index current frontier).root := by
  induction frontier generalizing height index current with
  | nil => rfl
  | cons entry above ih =>
      by_cases hright : index % 2 = 1
      · simp only [ascend, if_pos hright, rootAlong]
        exact ih _ _ _
      · simp only [ascend, if_neg hright, rootAlong, if_true]
        exact ih _ _ _

/-- A frontier that an ascent leaves implies its root, or no root at all. -/
theorem rootOfPath_ascend :
    ∃ derived, rootOfPath height index (ascend height index current frontier).frontier =
        .ok derived ∧
      ∀ root ∈ derived, root = (ascend height index current frontier).root := by
  induction frontier generalizing height index current with
  | nil => exact ⟨none, rfl, by simp⟩
  | cons entry above ih =>
      by_cases hright : index % 2 = 1
      · simp only [ascend, if_pos hright, rootOfPath]
        exact ih _ _ _
      · have halong := rootAlong_ascend height index current (entry :: above)
        simp only [ascend, if_neg hright] at halong ⊢
        simp only [rootOfPath, if_neg hright, halong]
        exact ⟨_, rfl, by simp⟩

end Ascent

/-- A check that succeeds has climbed the steps of the path. -/
theorem foldl_climb_of_rootAlong {height index : Nat} {current root : Felt}
    {frontier : List Felt} (halong : rootAlong height index current frontier = .ok root) :
    (pathSteps height index frontier).foldl climb current = root := by
  induction frontier generalizing height index current with
  | nil =>
      cases halong
      rfl
  | cons entry above ih =>
      rw [rootAlong] at halong
      by_cases hright : index % 2 = 1
      · rw [if_pos hright] at halong
        rw [pathSteps_right _ _ hright]
        exact ih halong
      · rw [if_neg hright] at halong
        split at halong
        · rw [pathSteps_left _ _ hright]
          exact ih halong
        · cases halong

/-- Only the path of the last leaf of a full tree turns right throughout. -/
theorem dvd_of_rootOfPath_eq_none {height index : Nat} {frontier : List Felt}
    (hnone : rootOfPath height index frontier = .ok none) :
    2 ^ frontier.length ∣ index + 1 := by
  induction frontier generalizing height index with
  | nil => exact Nat.one_dvd _
  | cons entry above ih =>
      rw [rootOfPath] at hnone
      by_cases hright : index % 2 = 1
      · rw [if_pos hright] at hnone
        have hupper := Nat.mul_dvd_mul_left 2 (ih hnone)
        rw [List.length_cons, Nat.pow_succ']
        rwa [show 2 * (index / 2 + 1) = index + 1 by omega] at hupper
      · rw [if_neg hright] at hnone
        obtain ⟨root, -, hsome⟩ := map_eq_ok_iff.1 hnone
        cases hsome

namespace Snapshot

variable {snapshot : Snapshot} {depth : Depth}

/-- The frontier fits the depth and implies no other root than the published
one. -/
structure Sound (snapshot : Snapshot) (depth : Depth) : Prop where
  length_frontier : snapshot.frontier.length = depth.levels
  nextIndex_le : snapshot.nextIndex ≤ depth.capacity
  root_of_empty : snapshot.nextIndex = 0 → snapshot.root = depth.emptyRoot
  root_of_path : snapshot.nextIndex ≠ 0 → ∃ derived,
    rootOfPath 0 (snapshot.nextIndex - 1) snapshot.frontier = .ok derived ∧
      ∀ root ∈ derived, root = snapshot.root

theorem deriveRoot_of_fits {frontier : List Felt} {nextIndex : Nat}
    (hlength : frontier.length = depth.levels) (hle : nextIndex ≤ depth.capacity) :
    deriveRoot depth frontier nextIndex =
      if nextIndex = 0 then .ok (some depth.emptyRoot)
      else rootOfPath 0 (nextIndex - 1) frontier := by
  rw [deriveRoot, if_neg (not_not_intro hlength), if_neg (Nat.not_lt.2 hle)]

theorem fits_of_deriveRoot {frontier : List Felt} {nextIndex : Nat} {derived : Option Felt}
    (hderive : deriveRoot depth frontier nextIndex = .ok derived) :
    frontier.length = depth.levels ∧ nextIndex ≤ depth.capacity := by
  rw [deriveRoot] at hderive
  split at hderive
  · cases hderive
  · next hlength =>
      split at hderive
      · cases hderive
      · next hle => exact ⟨not_not.1 hlength, Nat.not_lt.1 hle⟩

theorem check_eq_ok_iff_derived :
    snapshot.check depth = .ok () ↔ ∃ derived,
      deriveRoot depth snapshot.frontier snapshot.nextIndex = .ok derived ∧
        ∀ root ∈ derived, root = snapshot.root := by
  rw [check]
  rcases deriveRoot depth snapshot.frontier snapshot.nextIndex with failure | _ | root
  · simp
  · simp
  · by_cases hroot : root = snapshot.root
    · simp [hroot]
    · simp [hroot]

theorem check_eq_ok_iff : snapshot.check depth = .ok () ↔ snapshot.Sound depth := by
  rw [check_eq_ok_iff_derived]
  constructor
  · rintro ⟨derived, hderive, hroot⟩
    obtain ⟨hlength, hle⟩ := fits_of_deriveRoot hderive
    rw [deriveRoot_of_fits hlength hle] at hderive
    refine ⟨hlength, hle, ?_, ?_⟩
    · intro hempty
      rw [if_pos hempty] at hderive
      cases hderive
      exact (hroot _ rfl).symm
    · intro hsome
      rw [if_neg hsome] at hderive
      exact ⟨derived, hderive, hroot⟩
  · rintro ⟨hlength, hle, hempty, hpath⟩
    rw [deriveRoot_of_fits hlength hle]
    split
    · next hzero =>
        refine ⟨_, rfl, ?_⟩
        rintro root ⟨⟩
        exact (hempty hzero).symm
    · next hsome => exact hpath hsome

end Snapshot

end ShieldedPool.Merkle
