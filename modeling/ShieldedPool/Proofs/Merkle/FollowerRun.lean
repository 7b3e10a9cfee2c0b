/-
A follower at work.  It appends leaves, takes over published states and
accounts and restores recent roots in any order, and an act that is refused
changes nothing.  Whatever came before, the state that it would publish passes
its own check: an insertion writes into the frontier what the check asks for,
and an import has checked it.
-/
import ShieldedPool.LedgerAccount
import ShieldedPool.Proofs.Merkle.FollowerFuture

namespace ShieldedPool.Merkle.Follower

/-- An act on a follower. -/
inductive Act
  | insert (leaf : Felt)
  | importState (snapshot : Snapshot)
  | restoreHistory (older : List Felt)
  | applyAccount (account : LedgerAccount)

def perform (tree : Follower) : Act → Except Failure Follower
  | .insert leaf => (tree.insert leaf).map Prod.fst
  | .importState snapshot => tree.importState snapshot
  | .restoreHistory older => .ok (tree.restoreHistory older)
  | .applyAccount account => account.applyTo tree

/-- The tree after an act; a refusal leaves it as it is. -/
def step (tree : Follower) (act : Act) : Follower :=
  match tree.perform act with
  | .ok after => after
  | .error _ => tree

def run (tree : Follower) (acts : List Act) : Follower := acts.foldl step tree

variable {tree after : Follower}

theorem step_of_ok {act : Act} (haccepted : tree.perform act = .ok after) :
    tree.step act = after := by
  rw [step, haccepted]

theorem step_of_error {act : Act} {refusal : Failure}
    (hrefused : tree.perform act = .error refusal) : tree.step act = tree := by
  rw [step, hrefused]

theorem run_append (tree : Follower) (before rest : List Act) :
    tree.run (before ++ rest) = (tree.run before).run rest := List.foldl_append

theorem run_concat (tree : Follower) (acts : List Act) (act : Act) :
    tree.run (acts ++ [act]) = (tree.run acts).step act := run_append tree acts [act]

/-- What every accepted act keeps, a run keeps. -/
theorem run_induction {holds : Follower → Prop}
    (hperform : ∀ {tree after : Follower} {act : Act}, holds tree →
      tree.perform act = .ok after → holds after)
    {tree : Follower} (hholds : holds tree) (acts : List Act) : holds (tree.run acts) := by
  induction acts generalizing tree with
  | nil => exact hholds
  | cons act acts ih =>
      apply ih
      rw [step]
      split
      · next haccepted => exact hperform hholds haccepted
      · exact hholds

theorem perform_insert_eq_ok_iff {leaf : Felt} :
    tree.perform (.insert leaf) = .ok after ↔
      tree.nextIndex < tree.depth.capacity ∧ after = tree.grown leaf := by
  rw [perform]
  by_cases hroom : tree.nextIndex < tree.depth.capacity
  · simp [insert_of_room hroom, hroom, Except.map, eq_comm]
  · simp [insert_of_full hroom, hroom, Except.map]

theorem perform_applyAccount_eq_ok_iff {account : LedgerAccount} :
    tree.perform (.applyAccount account) = .ok after ↔
      account.snapshot.Sound tree.depth ∧
        after = (tree.adopted account.snapshot).restoreHistory account.rootsOldestFirst := by
  rw [perform, LedgerAccount.applyTo, map_eq_ok_iff]
  constructor
  · rintro ⟨adopted, himport, rfl⟩
    obtain ⟨hsound, rfl⟩ := importState_eq_ok_iff.1 himport
    exact ⟨hsound, rfl⟩
  · rintro ⟨hsound, rfl⟩
    exact ⟨_, tree.importState_of_sound hsound, rfl⟩

/-- A run of insertions is a feed. -/
theorem run_map_insert (tree : Follower) (leaves : List Felt) :
    tree.run (leaves.map .insert) = (feed tree leaves).1 := by
  induction leaves generalizing tree with
  | nil => rfl
  | cons leaf leaves ih =>
      rw [List.map_cons, run, List.foldl_cons]
      by_cases hroom : tree.nextIndex < tree.depth.capacity
      · rw [feed_of_ok (insert_of_room hroom leaf),
          step_of_ok (perform_insert_eq_ok_iff.2 ⟨hroom, rfl⟩)]
        exact ih _
      · have hrefused : tree.perform (.insert leaf) = .error (.treeFull tree.depth.capacity) := by
          rw [perform, insert_of_full hroom]
          rfl
        rw [feed_of_error (insert_of_full hroom leaf), step_of_error hrefused]
        exact ih _

/-- What the tree would publish passes the check of its depth. -/
def Publishable (depth : Depth) (tree : Follower) : Prop :=
  tree.depth = depth ∧ tree.snapshot.Sound depth

section Publishable

variable {depth : Depth}

theorem publishable_empty (depth : Depth) (size : Nat) : Publishable depth (empty depth size) :=
  ⟨rfl, {
    length_frontier := List.length_replicate
    nextIndex_le := Nat.zero_le _
    root_of_empty := fun _ => rfl
    root_of_path := fun hne => absurd rfl hne }⟩

/-- An insertion asks for room and a frontier of the right length only. -/
theorem Publishable.grown (hpublishable : Publishable depth tree)
    (hroom : tree.nextIndex < tree.depth.capacity) (leaf : Felt) :
    Publishable depth (tree.grown leaf) := by
  obtain ⟨rfl, hsound⟩ := hpublishable
  exact ⟨rfl, {
    length_frontier := (length_frontier_ascend _ _ _ _).trans hsound.length_frontier
    nextIndex_le := hroom
    root_of_empty := fun hzero => absurd hzero (Nat.succ_ne_zero _)
    root_of_path := fun _ => rootOfPath_ascend 0 tree.nextIndex leaf tree.frontier }⟩

theorem Publishable.adopted (hpublishable : Publishable depth tree) {snapshot : Snapshot}
    (hsound : snapshot.Sound tree.depth) : Publishable depth (tree.adopted snapshot) := by
  obtain ⟨rfl, -⟩ := hpublishable
  exact ⟨rfl, hsound⟩

theorem Publishable.perform {act : Act} (hpublishable : Publishable depth tree)
    (haccepted : tree.perform act = .ok after) : Publishable depth after := by
  cases act with
  | insert leaf =>
      obtain ⟨hroom, rfl⟩ := perform_insert_eq_ok_iff.1 haccepted
      exact hpublishable.grown hroom leaf
  | importState snapshot =>
      obtain ⟨hsound, rfl⟩ := importState_eq_ok_iff.1 haccepted
      exact hpublishable.adopted hsound
  | restoreHistory older =>
      cases haccepted
      exact hpublishable
  | applyAccount account =>
      obtain ⟨hsound, rfl⟩ := perform_applyAccount_eq_ok_iff.1 haccepted
      exact hpublishable.adopted hsound

theorem Publishable.run (hpublishable : Publishable depth tree) (acts : List Act) :
    Publishable depth (tree.run acts) :=
  run_induction Publishable.perform hpublishable acts

theorem publishable_feed (depth : Depth) (size : Nat) (fed : List Felt) :
    Publishable depth (feed (empty depth size) fed).1 := by
  rw [← run_map_insert]
  exact (publishable_empty depth size).run _

end Publishable

end ShieldedPool.Merkle.Follower
