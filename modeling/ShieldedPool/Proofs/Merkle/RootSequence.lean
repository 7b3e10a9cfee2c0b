/-
The roots of a tree in order, kept from one end and replayed from the other.  A
follower that was only fed keeps the end of the sequence, the empty root
included, by letting its oldest root go.  An archive keeps no roots: it rebuilds
the tree before a number of its leaves and lists the root behind each of them.
Both give the same roots while the window does not reach back to the empty tree.
Neither comes to that with a size for which no queue can be reserved: such a
follower is not made, and such a list overflows however few roots it would have.
-/
import ShieldedPool.Proofs.Merkle.AccumulatorAgreement
import ShieldedPool.Proofs.Merkle.CurrentRoot

namespace ShieldedPool.Merkle

namespace Archive

variable (depth : Depth) {leaves more : List Felt}

theorem insertAll_padded (hfits : leaves.length + more.length ≤ depth.capacity) :
    insertAll (padded depth leaves) more = .ok (padded depth (leaves ++ more)) := by
  induction more generalizing leaves with
  | nil => rw [List.append_nil, insertAll]
  | cons leaf more ih =>
      rw [List.length_cons] at hfits
      have hinsert : Accumulator.insert (padded depth leaves) leaf =
          .ok (padded depth (leaves ++ [leaf]), leaves.length) :=
        insert_padded depth leaves (by omega) leaf
      have hlonger : (leaves ++ [leaf]).length = leaves.length + 1 := by simp
      have hrest := @ih (leaves ++ [leaf]) (by omega)
      rw [insertAll, hinsert, List.append_cons leaves leaf more]
      exact hrest

theorem ofLeaves_padded (hfits : leaves.length ≤ depth.capacity) :
    ofLeaves depth leaves = .ok (padded depth leaves) := by
  have hall := @insertAll_padded depth [] leaves (by rwa [List.length_nil, Nat.zero_add])
  rwa [padded_nil] at hall

/-- Behind each of the leaves that follow stands the root of all leaves up to it. -/
theorem rootsAlong_padded (hfits : leaves.length + more.length ≤ depth.capacity) :
    (padded depth leaves).rootsAlong more =
      .ok ((List.range' (leaves.length + 1) more.length).map fun count =>
        paddedRoot depth.levels ((leaves ++ more).take count)) := by
  induction more generalizing leaves with
  | nil => rfl
  | cons leaf more ih =>
      rw [List.length_cons] at hfits
      have hinsert := insert_padded depth leaves (by omega) leaf
      have hlonger : (leaves ++ [leaf]).length = leaves.length + 1 := by simp
      have hrest := @ih (leaves ++ [leaf]) (by omega)
      have hfirst : (leaves ++ [leaf] ++ more).take (leaves.length + 1) = leaves ++ [leaf] := by
        rw [← hlonger, List.take_left]
      rw [hlonger] at hrest
      rw [rootsAlong, hinsert, List.append_cons leaves leaf more, List.length_cons, List.range'_succ,
        List.map_cons, hfirst]
      simp only [hrest, Except.map, root_padded]

end Archive

/-- The root of the tree over the first leaves of a list. -/
def prefixRoot (depth : Depth) (leaves : List Felt) (count : Nat) : Felt :=
  paddedRoot depth.levels (leaves.take count)

section LastRoots

variable (root : Nat → Felt) (first count size : Nat)

/-- The roots from one number of leaves up to another. -/
def rootsBetween : List Felt := (List.range' first (count + 1 - first)).map root

theorem length_rootsBetween : (rootsBetween root first count).length = count + 1 - first := by
  rw [rootsBetween, List.length_map, List.length_range']

theorem rtake_rootsBetween :
    (rootsBetween root first count).rtake size =
      rootsBetween root (max first (count + 1 - size)) count := by
  rw [List.rtake, length_rootsBetween, rootsBetween, ← List.map_drop, List.drop_range',
    rootsBetween]
  congr 2 <;> omega

variable {root first count size}

theorem mem_rootsBetween_iff {known : Felt} :
    known ∈ rootsBetween root first count ↔
      ∃ after, first ≤ after ∧ after ≤ count ∧ root after = known := by
  rw [rootsBetween, List.mem_map]
  simp only [List.mem_range'_1]
  constructor
  · rintro ⟨after, ⟨hfrom, hbelow⟩, rfl⟩
    exact ⟨after, hfrom, by omega, rfl⟩
  · rintro ⟨after, hfrom, hupto, rfl⟩
    exact ⟨after, ⟨hfrom, by omega⟩, rfl⟩

theorem getLast?_rootsBetween (hle : first ≤ count) :
    (rootsBetween root first count).getLast? = some (root count) := by
  rw [rootsBetween, Nat.sub_add_comm hle, List.range'_concat, List.map_append,
    List.map_singleton, List.getLast?_concat, Nat.one_mul, Nat.add_sub_cancel' hle]

end LastRoots

section Sequence

variable {depth : Depth} {leaves : List Felt} (hle : leaves.length ≤ depth.capacity)
include hle

theorem successiveRoots_eq_rootsBetween :
    successiveRoots depth leaves = rootsBetween (prefixRoot depth leaves) 0 leaves.length := by
  rw [successiveRoots, rootsBetween, Nat.sub_zero, List.range_eq_range']
  apply List.map_congr_left
  intro count _
  exact root_feed_of_le ((List.length_take_le' count leaves).trans hle)

/-- An archive replays the leaves behind the first ones. -/
theorem recentRoots_padded (count : Nat) :
    (Archive.padded depth leaves).recentRoots count =
      if RootWindow.Reservable count then
        .ok ((rootsBetween (prefixRoot depth leaves) 1 leaves.length).rtake count)
      else .error .overflow := by
  let start := leaves.length - count
  have hstart : start ≤ leaves.length := Nat.sub_le _ _
  have hearlier : (leaves.take start).length = start := List.length_take_of_le hstart
  have hlater : (leaves.drop start).length = leaves.length - start := List.length_drop
  have hrebuilt := Archive.ofLeaves_padded depth (hearlier.trans_le (hstart.trans hle))
  have hreplayed := Archive.rootsAlong_padded depth
    (show (leaves.take start).length + (leaves.drop start).length ≤ depth.capacity by omega)
  rw [List.take_append_drop, hearlier, hlater] at hreplayed
  have hroots : (rootsBetween (prefixRoot depth leaves) 1 leaves.length).rtake count =
      (List.range' (start + 1) (leaves.length - start)).map (prefixRoot depth leaves) := by
    rw [rtake_rootsBetween, rootsBetween]
    congr 2 <;> omega
  rw [Archive.recentRoots, hroots]
  split
  · simp only [Archive.nextIndex_padded, Archive.leaves_padded, Archive.depth_padded]
    rw [hrebuilt]
    exact hreplayed
  · rfl

end Sequence

/-- The window holds the last of the roots after no leaf up to `count` leaves, and
knows no others. -/
structure Follower.KeepsLast (tree : Follower) (root : Nat → Felt) (count size : Nat) :
    Prop where
  roots_eq : tree.history.roots = (rootsBetween root 0 count).rtake size
  length_eq : tree.history.roots.length = min (count + 1) size
  knows_iff : ∀ known : Felt, tree.knowsRoot known ↔
    ∃ after, count + 1 - size ≤ after ∧ after ≤ count ∧ root after = known

/-- The archive lists the last of the roots after one leaf up to `count` leaves,
unless it cannot reserve a queue for as many as are asked for.  Where there is any,
the last one is its own. -/
structure Archive.ListsLast (tree : Archive) (root : Nat → Felt) (count size : Nat)
    (roots : List Felt) : Prop where
  recent : tree.recentRoots size =
    if RootWindow.Reservable size then .ok roots else .error .overflow
  roots_eq : roots = (rootsBetween root 1 count).rtake size
  length_eq : roots.length = min count size
  getLast?_eq : 0 < count → roots.getLast? = some tree.root

/-- No tree is so deep that a queue for the roots after all its leaves could not be
reserved. -/
theorem Depth.reservable_of_le_capacity {depth : Depth} {count : Nat}
    (hle : count ≤ depth.capacity) : RootWindow.Reservable count := by
  rw [RootWindow.reservable_iff]
  calc count
      ≤ 2 ^ depth.levels := hle
    _ ≤ 2 ^ maxDepth := Nat.pow_le_pow_right Nat.two_pos depth.le_max
    _ < 2 ^ 58 := by decide

section Windows

variable {depth : Depth} {size : Nat} (hsize : 0 < size)
include hsize

theorem Follower.create_levels :
    create depth.levels size =
      if RootWindow.Reservable size then .ok (empty depth size) else .error .overflow := by
  rw [create, if_neg (Nat.ne_of_gt hsize), Depth.ofNat_eq_ok_iff.2 rfl]
  rfl

theorem Follower.keepsLast_feed (fed : List Felt) :
    (feed (Follower.empty depth size) fed).1.KeepsLast
      (prefixRoot depth (fed.take depth.capacity)) (fed.take depth.capacity).length size := by
  have hrecorded := Follower.recorded_feed depth hsize fed
  have hle : (fed.take depth.capacity).length ≤ depth.capacity := List.length_take_le _ _
  generalize (feed (Follower.empty depth size) fed).1 = tree at hrecorded
  generalize fed.take depth.capacity = leaves at hrecorded hle
  have hroots : tree.history.roots =
      (rootsBetween (prefixRoot depth leaves) 0 leaves.length).rtake size := by
    rw [hrecorded.history_eq, RootWindow.last, successiveRoots_eq_rootsBetween hle]
  refine ⟨hroots, ?_, ?_⟩
  · rw [hroots, List.length_rtake, length_rootsBetween, Nat.sub_zero, Nat.min_comm]
  · intro known
    rw [Follower.knowsRoot_iff, hroots, rtake_rootsBetween, Nat.zero_max, mem_rootsBetween_iff]

theorem Archive.listsLast_padded {leaves : List Felt} (hle : leaves.length ≤ depth.capacity) :
    ∃ roots, (padded depth leaves).ListsLast (prefixRoot depth leaves) leaves.length size
      roots := by
  refine ⟨_, recentRoots_padded hle size, rfl, ?_, ?_⟩
  · rw [List.length_rtake, length_rootsBetween, Nat.add_sub_cancel, Nat.min_comm]
  · intro hpos
    rw [rtake_rootsBetween, getLast?_rootsBetween (by omega), root_padded, prefixRoot,
      List.take_length]

end Windows

/-- The roots of a tree that is fed leaf after leaf, up to its capacity.  A follower
keeps the last ones, the empty root among them while there is room.  An archive
lists the last ones without it; so a list of full length is the window of a
follower of that size.  What overflows is a size for which no queue can be
reserved, whatever it would hold. -/
theorem root_windows_exact (depth : Depth) (fed : List Felt) {size count : Nat}
    (hsize : 0 < size) (hcount : 0 < count) :
    let leaves := fed.take depth.capacity
    let root := prefixRoot depth leaves
    (root 0 = depth.emptyRoot ∧ ∀ after,
      (feed (Follower.empty depth size) (leaves.take after)).1.root = root after ∧
        (feed (Archive.empty depth) (leaves.take after)).1.root = root after) ∧
    (Follower.create depth.levels size =
      if RootWindow.Reservable size then .ok (Follower.empty depth size)
      else .error .overflow) ∧
    (feed (Follower.empty depth size) fed).1.KeepsLast root leaves.length size ∧
    (∃ roots, (feed (Archive.empty depth) fed).1.ListsLast root leaves.length count roots) ∧
    (count ≤ leaves.length → (feed (Archive.empty depth) fed).1.recentRoots count =
      .ok (feed (Follower.empty depth count) fed).1.history.roots) := by
  intro leaves root
  have hle : leaves.length ≤ depth.capacity := List.length_take_le _ _
  have hfull : ∀ after, (feed (Archive.empty depth) (leaves.take after)).1.root = root after :=
    fun after => root_feed_of_le ((List.length_take_le' after leaves).trans hle)
  obtain ⟨roots, hlisted⟩ := Archive.listsLast_padded hcount hle
  rw [← Archive.fst_feed_empty] at hlisted
  refine ⟨⟨?_, ?_⟩, Follower.create_levels hsize, Follower.keepsLast_feed hsize fed,
    ⟨roots, hlisted⟩, ?_⟩
  · rw [Depth.emptyRoot, emptyNode_eq_emptyRoot, ← paddedRoot_nil]
    rfl
  · intro after
    have hsame := (Follower.feed_empty_agrees depth size (leaves.take after)).root_eq
    exact ⟨hsame.trans (hfull after), hfull after⟩
  · intro hreach
    have hsame : max 1 (leaves.length + 1 - count) = max 0 (leaves.length + 1 - count) := by
      omega
    have hroots : roots = (feed (Follower.empty depth count) fed).1.history.roots := by
      rw [hlisted.roots_eq, (Follower.keepsLast_feed hcount fed).roots_eq, rtake_rootsBetween,
        rtake_rootsBetween, hsame]
    rw [hlisted.recent, if_pos (Depth.reservable_of_le_capacity (hreach.trans hle)), hroots]

/-- Two leaves in the least tree, with room for five roots and a list of two. -/
theorem root_windows_exact_pair :
    (0 < 5 ∧ (feed (Follower.empty oneLevel 5) [7, 5]).1.history.roots =
      [node 0 0, node 7 0, node 7 5]) ∧
    0 < 2 ∧ (feed (Archive.empty oneLevel) [7, 5]).1.recentRoots 2 =
      .ok [node 7 0, node 7 5] := by
  have hsize : 0 < 5 := by decide
  have hcount : 0 < 2 := by decide
  obtain ⟨-, -, hkept, ⟨roots, hlisted⟩, -⟩ :=
    root_windows_exact oneLevel [7, 5] hsize hcount
  refine ⟨⟨hsize, ?_⟩, hcount, ?_⟩
  · rw [hkept.roots_eq]
    rfl
  · have hreservable : RootWindow.Reservable 2 := by decide
    rw [hlisted.recent, if_pos hreservable, hlisted.roots_eq]
    rfl

/-- One leaf has one root after it, but asked for `2 ^ 58` roots the tree reserves a
queue for them first. -/
theorem list_past_memory_overflows :
    let tree := (feed (Archive.empty oneLevel) [7]).1
    0 < 2 ^ 58 ∧ tree.nextIndex = 1 ∧ tree.recentRoots (2 ^ 58) = .error .overflow := by
  intro tree
  have htree : tree = Archive.padded oneLevel [7] := Archive.fst_feed_empty oneLevel [7]
  have hlarge : ¬ RootWindow.Reservable (2 ^ 58) := by
    rw [RootWindow.reservable_iff]
    exact Nat.lt_irrefl _
  refine ⟨Nat.two_pow_pos 58, ?_, if_neg hlarge⟩
  rw [htree, Archive.nextIndex_padded]
  rfl

end ShieldedPool.Merkle
