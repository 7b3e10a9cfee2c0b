/-
What the operations in place come to.  Each of them makes its checks before its
first write, so on the states that a client can reach it does what the function
of its name says: it writes the function's outcome, or it refuses and leaves the
state as it was.  The two climbs write one node a level; half-way up, the levels
below are already those of the new tree and the levels above still the old ones.
-/
import ShieldedPool.InPlace
import ShieldedPool.Proofs.Merkle.FollowerRun

namespace ShieldedPool

namespace InPlace

variable {σ α : Type}

/-- Write the outcome of a function to the state that it was computed from.  A
refusal writes nothing. -/
def settle (state : σ) : Except Failure (α × σ) → EStateM.Result Failure σ α
  | .ok (a, after) => .ok a after
  | .error refusal => .error refusal state

/-- A refusal stems from the function and leaves the state. -/
theorem settle_eq_error_iff {state left : σ} {outcome : Except Failure (α × σ)}
    {refusal : Failure} :
    settle state outcome = .error refusal left ↔ outcome = .error refusal ∧ left = state := by
  rcases outcome with refusal' | ⟨a, after⟩
  · simp [settle, eq_comm]
  · simp [settle]

@[simp] theorem run_ofExcept_ok (a : α) (state : σ) :
    (MonadExcept.ofExcept (.ok a) : InPlace σ α).run state = .ok a state := rfl

/-- A program that settles on a part of the state settles on the state. -/
theorem run_on_settle {τ : Type} {part : σ → τ} {write : σ → τ → σ} {program : InPlace τ α}
    {state : σ} {result : Except Failure (α × τ)} (hsame : write state (part state) = state)
    (hsettles : program.run (part state) = settle (part state) result) :
    (program.on part write).run state =
      settle state (result.map fun (a, after) => (a, write state after)) := by
  rw [EStateM.run, on, hsettles]
  rcases result with refusal | ⟨a, after⟩
  · exact congrArg (EStateM.Result.error refusal) hsame
  · rfl

end InPlace

open InPlace (settle)
open EStateM (run_bind run_get run_modify run_pure run_throw)

namespace Merkle

namespace Follower

/-- On the way up, the frontier holds the entries of the longer tree below and
those of the old tree from here on. -/
theorem run_climbInPlace (index : Nat) (low high : List Felt) (current : Felt)
    (tree : Follower) (hfrontier : tree.frontier = low ++ high) :
    let ascent := ascend low.length (index / 2 ^ low.length) current high
    (climbInPlace index high.length low.length current).run tree =
      .ok (ascent.siblings, ascent.root) { tree with frontier := low ++ ascent.frontier } := by
  induction high generalizing low current tree with
  | nil =>
      intro ascent
      have hsame : { tree with frontier := low ++ ascent.frontier } = tree := by
        rw [show ascent.frontier = [] from rfl, ← hfrontier]
      rw [hsame]
      rfl
  | cons entry high ih =>
      intro ascent
      have hturn : isRightChild index low.length =
          decide (index / 2 ^ low.length % 2 = 1) := Nat.testBit_eq_decide_div_mod_eq
      rw [List.length_cons, climbInPlace, hturn]
      by_cases hright : index / 2 ^ low.length % 2 = 1
      · have hentry : tree.frontier.getD low.length 0 = entry := by
          simp [hfrontier]
        have hup := ih (low ++ [entry]) (node entry current) tree (by simp [hfrontier])
        simp only [List.length_append, List.length_singleton, Nat.pow_succ,
          ← Nat.div_div_eq_div_mul, List.append_assoc] at hup
        have hascent : ascent = _ := if_pos hright
        rw [if_pos (decide_eq_true hright), hascent]
        simp only [run_bind, run_get, hentry, hup, run_pure]
        rfl
      · have hup := ih (low ++ [current]) (node current (emptyNode low.length))
          { tree with frontier := tree.frontier.set low.length current } (by simp [hfrontier])
        simp only [List.length_append, List.length_singleton, Nat.pow_succ,
          ← Nat.div_div_eq_div_mul, List.append_assoc] at hup
        have hascent : ascent = _ := if_neg hright
        rw [if_neg (by simpa using hright), hascent]
        simp only [run_bind, run_modify, hup, run_pure]
        rfl

theorem run_recordInPlace (tree : Follower) (root : Felt) :
    (recordInPlace root).run tree = .ok () { tree with history := tree.history.record root } := by
  simp only [recordInPlace, run_bind, run_get]
  split
  · next hfull =>
      simp only [run_bind, run_modify, RootWindow.record, if_pos hfull]
  · next hroom =>
      simp only [run_modify, RootWindow.record, if_neg hroom]

theorem run_insertInPlace {tree : Follower} (hlength : tree.frontier.length = tree.depth.levels)
    (leaf : Felt) :
    (insertInPlace leaf).run tree = settle tree ((tree.insert leaf).map Prod.swap) := by
  simp only [insertInPlace, run_bind, run_get]
  split
  · next hfull =>
      rw [insert_of_full (Nat.not_lt.2 hfull)]
      rfl
  · next hroom =>
      have hclimb := run_climbInPlace tree.nextIndex [] tree.frontier leaf tree rfl
      simp only [List.length_nil, Nat.pow_zero, Nat.div_one, List.nil_append, hlength] at hclimb
      rw [insert_of_room (Nat.not_le.1 hroom)]
      simp only [run_bind, hclimb, run_modify, run_recordInPlace, run_pure]
      rfl

theorem run_adoptInPlace (tree : Follower) (snapshot : Snapshot) :
    (adoptInPlace snapshot).run tree = .ok () (tree.adopted snapshot) := by
  simp only [adoptInPlace, run_bind, run_get, run_modify]
  rw [adopted, RootWindow.recordNew]
  split
  · next hknown =>
      have hknown : tree.history.knows snapshot.root := hknown
      rw [if_pos hknown]
      rfl
  · next hnew =>
      have hnew : ¬ tree.history.knows snapshot.root := hnew
      rw [if_neg hnew, run_recordInPlace]

theorem run_importInPlace (tree : Follower) (snapshot : Snapshot) :
    (importInPlace snapshot).run tree =
      settle tree ((tree.importState snapshot).map fun after => ((), after)) := by
  rw [importState, Snapshot.check]
  simp only [importInPlace, run_bind, run_get]
  rcases deriveRoot tree.depth snapshot.frontier snapshot.nextIndex with refusal | _ | derived
  · rfl
  · simp only [InPlace.run_ofExcept_ok, run_adoptInPlace]
    rfl
  · by_cases hsame : derived = snapshot.root
    · simp only [InPlace.run_ofExcept_ok, if_neg (not_not_intro hsame), if_pos hsame,
        run_adoptInPlace]
      rfl
    · simp only [InPlace.run_ofExcept_ok, if_pos hsame, if_neg hsame, run_bind, run_throw]
      rfl

theorem run_forM_recordInPlace (tree : Follower) (roots : List Felt) :
    (roots.forM recordInPlace).run tree =
      .ok () { tree with history := roots.foldl RootWindow.record tree.history } := by
  induction roots generalizing tree with
  | nil => rfl
  | cons root roots ih =>
      have hfirst : (root :: roots).forM recordInPlace =
          recordInPlace root >>= fun _ => roots.forM recordInPlace := rfl
      rw [hfirst, run_bind, run_recordInPlace]
      exact ih _

theorem run_restoreInPlace (tree : Follower) (older : List Felt) :
    (restoreInPlace older).run tree = .ok () (tree.restoreHistory older) := by
  simp only [restoreInPlace, run_bind, run_get, run_modify, run_forM_recordInPlace]
  rw [restoreHistory, RootWindow.restore]
  generalize older.foldl RootWindow.record { tree.history with roots := [] } = window
  by_cases hlast : window.roots.getLast? = some tree.root
  · simp only [if_pos hlast, if_neg (not_not_intro hlast), run_pure]
  · simp only [if_neg hlast, if_pos hlast, run_recordInPlace]

end Follower

namespace Archive

variable (depth : Depth) (leaves : List Felt) (leaf : Felt)

/-- Half-way through an insertion: the lowest levels are those of the longer tree. -/
def partway (written : Nat) : Archive :=
  ⟨depth, (List.range (depth.levels + 1)).map fun height =>
    if height < written then paddedLevel (leaves ++ [leaf]) height
    else paddedLevel leaves height⟩

theorem partway_zero : partway depth leaves leaf 0 = padded depth leaves := by
  simp [partway, padded]

theorem partway_all : partway depth leaves leaf (depth.levels + 1) =
    padded depth (leaves ++ [leaf]) := by
  rw [partway, padded]
  congr 1
  apply List.map_congr_left
  intro height hheight
  rw [if_pos (List.mem_range.1 hheight)]

theorem level_partway {written height : Nat} (hheight : height ≤ depth.levels) :
    (partway depth leaves leaf written).level height =
      if height < written then paddedLevel (leaves ++ [leaf]) height
      else paddedLevel leaves height := by
  simp [level, partway, List.getD_eq_getElem?_getD, Nat.lt_succ_of_le hheight]

theorem run_setNode_partway {height : Nat} :
    (setNode height (leaves.length / 2 ^ height) (pathNode leaves leaf height)).run
        (partway depth leaves leaf height) =
      .ok () (partway depth leaves leaf (height + 1)) := by
  have hlevels : (partway depth leaves leaf height).levels.modify height
      (place · (leaves.length / 2 ^ height) (pathNode leaves leaf height)) =
      (partway depth leaves leaf (height + 1)).levels := by
    apply List.ext_getElem
    · simp [partway]
    · intro other _ hother
      simp only [partway, List.getElem_modify, List.getElem_map, List.getElem_range]
      by_cases hsame : height = other
      · subst hsame
        rw [if_pos rfl, if_neg (Nat.lt_irrefl _), if_pos (Nat.lt_succ_self _), place_paddedLevel]
      · rw [if_neg hsame]
        have hiff : other < height ↔ other < height + 1 := by omega
        simp only [hiff]
  rw [setNode, run_modify, hlevels]
  rfl

/-- The parent of the path node is the same when its own level is written already:
the sibling that it asks for is left of the path. -/
theorem parentOf_pathNode_append (height : Nat) :
    parentOf height (paddedLevel (leaves ++ [leaf]) height) (leaves.length / 2 ^ height)
        (pathNode leaves leaf height) =
      pathNode leaves leaf (height + 1) := by
  rw [← parentOf_pathNode, parentOf, parentOf]
  split
  · next hright =>
      rw [nodeOrEmpty_paddedLevel, nodeOrEmpty_paddedLevel,
        paddedNode_before_path leaves leaf height hright]
  · rfl

theorem run_climbInPlace {count height : Nat} (hheight : height + count = depth.levels) :
    (climbInPlace count height (leaves.length / 2 ^ height) (pathNode leaves leaf height)).run
        (partway depth leaves leaf (height + 1)) =
      .ok () (padded depth (leaves ++ [leaf])) := by
  induction count generalizing height with
  | zero =>
      rw [Nat.add_zero] at hheight
      rw [climbInPlace, run_pure, hheight, partway_all]
  | succ count ih =>
      have hlevel : (partway depth leaves leaf (height + 1)).level height =
          paddedLevel (leaves ++ [leaf]) height := by
        rw [level_partway depth leaves leaf (by omega), if_pos (Nat.lt_succ_self height)]
      have hwrite := @run_setNode_partway depth leaves leaf (height + 1)
      have hup := @ih (height + 1) (by omega)
      rw [Nat.pow_succ, ← Nat.div_div_eq_div_mul] at hwrite hup
      simp only [climbInPlace, run_bind, run_get]
      rw [hlevel, parentOf_pathNode_append, hwrite]
      exact hup

theorem run_insertInPlace (hle : leaves.length ≤ depth.capacity) :
    (insertInPlace leaf).run (padded depth leaves) =
      settle (padded depth leaves) (((padded depth leaves).insert leaf).map Prod.swap) := by
  simp only [insertInPlace, run_bind, run_get, nextIndex_padded, depth_padded]
  rcases Nat.lt_or_eq_of_le hle with hroom | hfull
  · have hwrite := @run_setNode_partway depth leaves leaf 0
    have hup := run_climbInPlace depth leaves leaf (Nat.zero_add depth.levels)
    rw [Nat.pow_zero, Nat.div_one, pathNode_zero] at hwrite hup
    rw [partway_zero] at hwrite
    rw [if_neg (Nat.not_le.2 hroom), insert_padded depth leaves hroom]
    simp only [run_bind, hwrite, hup, run_pure]
    rfl
  · rw [if_pos (Nat.le_of_eq hfull.symm), insert_padded_full depth leaves hfull]
    rfl

end Archive

end Merkle

namespace LedgerAccount

theorem run_applyInPlace (account : LedgerAccount) (tree : Merkle.Follower) :
    account.applyInPlace.run tree =
      settle tree ((account.applyTo tree).map fun after => ((), after)) := by
  rw [applyInPlace, run_bind, Merkle.Follower.run_importInPlace, applyTo]
  rcases tree.importState account.snapshot with refusal | after
  · rfl
  · exact Merkle.Follower.run_restoreInPlace after account.rootsOldestFirst

end LedgerAccount

namespace Spend

theorem Registry.run_beginInPlace (registry : Registry) (hash : Felt) :
    (Registry.beginInPlace hash).run registry =
      settle registry ((registry.begin hash).map fun after => ((), after)) := by
  simp only [Registry.beginInPlace, Registry.addInPlace, run_bind, run_get, Registry.begin]
  rcases registry.contains hash with _ | _ <;> rfl

theorem Registry.run_releaseInPlace (registry : Registry) (hash : Felt) :
    (Registry.releaseInPlace hash).run registry =
      .ok (registry.contains hash) (registry.release hash) := rfl

theorem run_prepareInPlace {α : Type} [Merkle.Accumulator α] (registry : Registry) (note : Note)
    (tree : α) :
    (prepareInPlace note tree).run registry = settle registry (prepare registry note tree) := by
  rw [prepareInPlace, run_bind, prepare]
  rcases witnessIn tree note with refusal | witness
  · rfl
  · simp only [InPlace.run_ofExcept_ok, run_bind, Registry.run_beginInPlace, ok_bind]
    rcases registry.begin witness.nullifierHash with refusal | after <;> rfl

end Spend

end ShieldedPool
