/-
The roots that a window keeps.  However it has been filled, a window keeps the
end of the sequence of roots that it was given: recording lengthens the
sequence by one, restoring starts another one.  A follower that starts empty
records the roots of the tree in order, the empty one first.
-/
import Mathlib.Data.List.DropRight
import ShieldedPool.Proofs.Merkle.FollowerRun

namespace List

variable {α : Type*}

theorem rtake_of_length_le {l : List α} {n : Nat} (hle : l.length ≤ n) : l.rtake n = l := by
  rw [rtake, Nat.sub_eq_zero_of_le hle, drop_zero]

theorem length_rtake (l : List α) (n : Nat) : (l.rtake n).length = min n l.length := by
  rw [rtake, length_drop]
  omega

theorem rtake_rtake_self (l : List α) (n : Nat) : (l.rtake n).rtake n = l.rtake n := by
  apply rtake_of_length_le
  rw [length_rtake]
  exact Nat.min_le_left _ _

/-- The end of a longer list lets the first of a full end go. -/
theorem rtake_concat_of_le {l : List α} {n : Nat} (hpos : 0 < n) (hle : n ≤ l.length) (a : α) :
    (l ++ [a]).rtake n = (l.rtake n).drop 1 ++ [a] := by
  obtain ⟨m, rfl⟩ := Nat.exists_eq_add_of_le' hpos
  rw [rtake_concat_succ, rtake, rtake, drop_drop]
  congr 2
  omega

theorem suffix_rtake {l suffix : List α} {n : Nat} (hsuffix : suffix <:+ l)
    (hle : suffix.length ≤ n) : suffix <:+ l.rtake n := by
  obtain ⟨front, rfl⟩ := hsuffix
  rw [rtake, length_append, drop_append_of_le_length (by omega)]
  exact suffix_append _ _

end List

namespace ShieldedPool.Merkle

namespace RootWindow

/-- The window on the end of a sequence of roots. -/
def last (size : Nat) (roots : List Felt) : RootWindow := ⟨size, roots.rtake size⟩

variable {size : Nat} {window : RootWindow}

theorem eq_last_of_length_le (hle : window.roots.length ≤ window.size) :
    window = last window.size window.roots := by
  rw [last, List.rtake_of_length_le hle]

theorem start_eq_last (hsize : 0 < size) (root : Felt) : start size root = last size [root] := by
  rw [start, last, List.rtake_of_length_le hsize]

@[simp] theorem size_recordNew (window : RootWindow) (root : Felt) :
    (window.recordNew root).size = window.size := by
  rw [recordNew]
  split <;> rfl

theorem last_rtake (size : Nat) (roots : List Felt) :
    last size (roots.rtake size) = last size roots := by
  rw [last, List.rtake_rtake_self, last]

/-- Recording lengthens the sequence. -/
theorem record_last (hsize : 0 < size) (roots : List Felt) (root : Felt) :
    (last size roots).record root = last size (roots ++ [root]) := by
  have hlength := List.length_rtake roots size
  rw [last, record, last]
  rcases Nat.lt_or_ge roots.length size with hroom | hfull
  · have hshort : (roots.rtake size).length ≠ size := by omega
    have hlonger : (roots ++ [root]).length ≤ size := by
      rw [List.length_append]
      exact hroom
    rw [if_neg hshort, List.rtake_of_length_le (Nat.le_of_lt hroom),
      List.rtake_of_length_le hlonger]
  · have hkept : (roots.rtake size).length = size := by omega
    rw [if_pos hkept, List.rtake_concat_of_le hsize hfull]

theorem foldl_record_last (hsize : 0 < size) (roots more : List Felt) :
    more.foldl record (last size roots) = last size (roots ++ more) := by
  induction more generalizing roots with
  | nil => rw [List.foldl_nil, List.append_nil]
  | cons root more ih =>
      rw [List.foldl_cons, record_last hsize, ih, List.append_assoc, List.singleton_append]

theorem getLast?_last (hsize : 0 < size) (roots : List Felt) :
    (last size roots).roots.getLast? = roots.getLast? := by
  rw [last, List.rtake, List.getLast?_drop]
  by_cases hempty : roots = []
  · simp [hempty]
  · have hpos := List.length_pos_iff.2 hempty
    rw [if_neg (by omega)]

/-- Restoring starts the sequence again. -/
theorem restore_eq_last (hsize : 0 < window.size) (older : List Felt) (current : Felt) :
    window.restore older current =
      last window.size (if older.getLast? = some current then older else older ++ [current]) := by
  have hcleared : { window with roots := [] } = last window.size [] := by
    rw [last, List.rtake_nil]
  rw [restore, hcleared, foldl_record_last hsize, List.nil_append]
  simp only [getLast?_last hsize, record_last hsize]
  split <;> rfl

end RootWindow

section Successive

variable (depth : Depth) (leaves : List Felt)

/-- The root after the first `count` leaves. -/
def rootAfter (count : Nat) : Felt := (feed (Archive.empty depth) (leaves.take count)).1.root

/-- The roots that the tree had before each leaf. -/
def previousRoots : List Felt := (List.range leaves.length).map (rootAfter depth leaves)

/-- All roots that the tree had, the empty one first and the current one last. -/
def successiveRoots : List Felt :=
  (List.range (leaves.length + 1)).map (rootAfter depth leaves)

theorem successiveRoots_eq :
    successiveRoots depth leaves =
      previousRoots depth leaves ++ [(feed (Archive.empty depth) leaves).1.root] := by
  rw [successiveRoots, List.range_succ, List.map_append, previousRoots, List.map_singleton,
    rootAfter, List.take_length]

/-- With a leaf more, every root so far is a previous one. -/
theorem previousRoots_append (leaf : Felt) :
    previousRoots depth (leaves ++ [leaf]) = successiveRoots depth leaves := by
  rw [previousRoots, successiveRoots, List.length_append, List.length_singleton]
  apply List.map_congr_left
  intro count hcount
  have hle : count ≤ leaves.length := Nat.le_of_lt_succ (List.mem_range.1 hcount)
  rw [rootAfter, rootAfter, List.take_append_of_le_length hle]

variable {depth leaves}

/-- A run whose roots all differ from their neighbours has had no leaf refused. -/
theorem length_le_of_isChain (hdistinct : (successiveRoots depth leaves).IsChain (· ≠ ·)) :
    leaves.length ≤ depth.capacity := by
  by_contra hlong
  have hcount : depth.capacity + 1 < (successiveRoots depth leaves).length := by
    rw [successiveRoots, List.length_map, List.length_range]
    omega
  apply List.isChain_iff_getElem.1 hdistinct depth.capacity hcount
  simp only [successiveRoots, List.getElem_map, List.getElem_range, rootAfter,
    Archive.fst_feed_empty, List.take_take, Nat.min_self, Nat.min_eq_left (Nat.le_succ _)]

theorem root_feed_of_le (hle : leaves.length ≤ depth.capacity) :
    (feed (Archive.empty depth) leaves).1.root = paddedRoot depth.levels leaves := by
  rw [Archive.fst_feed_empty, List.take_of_length_le hle, Archive.root_padded]

end Successive

namespace Follower

/-- A follower that agrees with the padded tree and has kept the end of its
roots. -/
structure Recorded (depth : Depth) (size : Nat) (tree : Follower) (leaves : List Felt) :
    Prop where
  agrees : tree.Agrees (Archive.padded depth leaves)
  history_eq : tree.history = .last size (successiveRoots depth leaves)

theorem recorded_empty (depth : Depth) {size : Nat} (hsize : 0 < size) :
    Recorded depth size (empty depth size) [] where
  agrees := empty_agrees depth size
  history_eq := by
    have hempty : successiveRoots depth [] = [depth.emptyRoot] := by
      rw [successiveRoots_eq, root_feed_of_le (Nat.zero_le _), paddedRoot_nil,
        ← emptyNode_eq_emptyRoot]
      rfl
    rw [empty, RootWindow.start_eq_last hsize, hempty]

theorem grows_recorded (depth : Depth) {size : Nat} (hsize : 0 < size) :
    Grows depth.capacity (Recorded depth size) where
  accepts {tree leaves} hrecorded hroom leaf := by
    obtain ⟨hagrees, hhistory⟩ := hrecorded
    obtain ⟨after, hinsert, hafter⟩ := insert_agrees hagrees hroom leaf
    refine ⟨after, hinsert, hafter, ?_⟩
    obtain ⟨-, rfl⟩ := perform_insert_eq_ok_iff.1 (congrArg (Except.map Prod.fst) hinsert)
    let root := (feed (Archive.empty depth) (leaves ++ [leaf])).1.root
    have hroot : (tree.grown leaf).root = root := by
      have hle : (leaves ++ [leaf]).length ≤ depth.capacity := by
        rw [List.length_append]
        exact hroom
      have hpadded : root = paddedRoot depth.levels (leaves ++ [leaf]) := root_feed_of_le hle
      rw [hafter.root_eq, Archive.root_padded, hpadded]
    have hlonger : successiveRoots depth (leaves ++ [leaf]) =
        successiveRoots depth leaves ++ [root] := by
      rw [successiveRoots_eq, previousRoots_append]
    calc (tree.grown leaf).history
        = tree.history.record (tree.grown leaf).root := rfl
      _ = (RootWindow.last size (successiveRoots depth leaves)).record root := by
          rw [hhistory, hroot]
      _ = .last size (successiveRoots depth leaves ++ [root]) :=
          RootWindow.record_last hsize _ _
      _ = .last size (successiveRoots depth (leaves ++ [leaf])) := by rw [hlonger]
  refuses hrecorded hfull leaf := insert_agrees_full hrecorded.agrees hfull leaf

theorem recorded_feed (depth : Depth) {size : Nat} (hsize : 0 < size) (fed : List Felt) :
    Recorded depth size (feed (empty depth size) fed).1 (fed.take depth.capacity) :=
  ((grows_recorded depth hsize).feed_holds (recorded_empty depth hsize) (Nat.zero_le _) fed).1

end Follower

section Pair

/-- The depth of a tree of two leaves. -/
def oneLevel : Depth := ⟨1, by decide, by decide⟩

theorem successiveRoots_pair :
    successiveRoots oneLevel [7, 5] = [node 0 0, node 7 0, node 7 5] := by
  have hroot : ∀ leaves : List Felt, leaves.length ≤ 2 →
      (feed (Archive.empty oneLevel) leaves).1.root = paddedRoot 1 leaves := by
    intro leaves hle
    exact root_feed_of_le hle
  simp [successiveRoots, rootAfter, List.range_succ, hroot, paddedRoot]

/-- The nodes of that sequence differ from zero and from their neighbours, and
the first two from the node above them. -/
theorem pairNodes_distinct :
    (node 0 0 ≠ 0 ∧ node 7 0 ≠ 0 ∧ node 7 5 ≠ 0) ∧
      node 0 0 ≠ node 7 0 ∧ node 7 0 ≠ node 7 5 ∧
      node (node 7 0) (node 0 0) ≠ node 7 0 ∧ node (node 7 0) (node 0 0) ≠ node 0 0 := by
  decide +kernel

end Pair

end ShieldedPool.Merkle
