/-
A mirror that is synced from the ledger's account.  The ledger keeps the roots
from before each leaf in a ring; turned by the number of leaves, the ring is the
end of those roots, behind zeros as long as it is not full.  Restoring them and
the current root gives the window of a follower that appended the same leaves.
-/
import Mathlib.Data.List.Chain
import Mathlib.Data.List.Rotate
import ShieldedPool.Proofs.Ledger.AccountCodec
import ShieldedPool.Proofs.Merkle.RecentRoots

namespace List

variable {α : Type*}

/-- Writing into the slot that a count names and turning the ring once more puts
the new entry last and lets the first one go. -/
theorem rotate_set_succ {ring : List α} {count : Nat} (hpos : 0 < ring.length) (a : α) :
    (ring.set (count % ring.length) a).rotate (count + 1) = (ring.rotate count).drop 1 ++ [a] := by
  let slot := count % ring.length
  have hslot : slot < ring.length := Nat.mod_lt _ hpos
  have hfront : (ring.take slot).length = slot := length_take_of_le (Nat.le_of_lt hslot)
  have hset : ring.set slot a = ring.take slot ++ a :: ring.drop (slot + 1) :=
    set_eq_take_append_cons_drop.trans (if_pos hslot)
  have hturned : (ring.set slot a).rotate count =
      a :: (ring.drop (slot + 1) ++ ring.take slot) := by
    have hslots := rotate_append_length_eq (ring.take slot) (a :: ring.drop (slot + 1))
    rw [hfront, ← hset] at hslots
    rwa [← rotate_mod, length_set]
  have hring : (ring.rotate count).drop 1 = ring.drop (slot + 1) ++ ring.take slot := by
    have hback : 1 ≤ (ring.drop slot).length := by
      rw [length_drop]
      omega
    rw [rotate_eq_drop_append_take_mod, drop_append_of_le_length hback, drop_drop]
  calc (ring.set slot a).rotate (count + 1)
      = ((ring.set slot a).rotate count).rotate 1 := (rotate_rotate _ _ _).symm
    _ = ring.drop (slot + 1) ++ ring.take slot ++ [a] := by
        rw [hturned, rotate_cons_succ, rotate_zero]
    _ = (ring.rotate count).drop 1 ++ [a] := by rw [hring]

/-- Without its zeros, the end of a sequence behind zeros is the end of the
sequence. -/
theorem filter_rtake_replicate [DecidableEq α] {zero : α} {l : List α}
    (hne : ∀ a ∈ l, a ≠ zero) (n : Nat) :
    ((replicate n zero ++ l).rtake n).filter (· ≠ zero) = l.rtake n := by
  have hsplit : (replicate n zero ++ l).rtake n = replicate (n - l.length) zero ++ l.rtake n := by
    rw [rtake, length_append, length_replicate, Nat.add_sub_cancel_left, drop_append,
      drop_replicate, length_replicate, rtake]
  have hzeros : (replicate (n - l.length) zero).filter (· ≠ zero) = [] := by
    simp
  have hkept : (l.rtake n).filter (· ≠ zero) = l.rtake n := by
    apply filter_eq_self.2
    intro a ha
    exact decide_eq_true (hne a (mem_of_mem_drop ha))
  rw [hsplit, filter_append, hzeros, hkept, nil_append]

end List

namespace ShieldedPool

open Merkle (Accumulator Archive Depth Follower Grows RootWindow feed oneLevel previousRoots
  successiveRoots)

/-- A ledger: the tree, and a ring of the roots from before each leaf with the
count of all that were written to it. -/
structure Ledger where
  tree : Archive
  ring : List Felt
  written : UInt32

namespace Ledger

/-- The empty tree, and a ring of zeros. -/
def genesis (depth : Depth) (slots : Nat) : Ledger :=
  ⟨Archive.empty depth, List.replicate slots 0, 0⟩

/-- Append a leaf; the root from before it goes to the slot that the count
names. -/
def insert (ledger : Ledger) (leaf : Felt) : Except Failure (Ledger × Nat) :=
  (ledger.tree.insert leaf).map fun inserted =>
    ({ tree := inserted.1
       ring := ledger.ring.set (ledger.written.toNat % ledger.ring.length) ledger.tree.root
       written := ledger.written + 1 },
     inserted.2)

instance : Accumulator Ledger where
  depth ledger := ledger.tree.depth
  root ledger := ledger.tree.root
  nextIndex ledger := ledger.tree.nextIndex
  insert := insert
  prove ledger := ledger.tree.prove

/-- The account in which the ledger publishes its state. -/
def account (ledger : Ledger) (bump : UInt8) : LedgerAccount :=
  { bump
    root := ledger.tree.root
    nextIndex := UInt64.ofNat ledger.tree.nextIndex
    frontier := ledger.tree.frontier
    rootHistory := ledger.ring
    rootHistoryIndex := ledger.written }

/-- The ledger holds the padded tree, and its ring the end of the previous
roots. -/
structure Records (ledger : Ledger) (depth : Depth) (slots : Nat) (leaves : List Felt) :
    Prop where
  tree_eq : ledger.tree = Archive.padded depth leaves
  length_ring : ledger.ring.length = slots
  written_eq : ledger.written = UInt32.ofNat leaves.length
  ring_eq : leaves.length < UInt32.size → ledger.ring.rotate leaves.length =
    (List.replicate slots 0 ++ previousRoots depth leaves).rtake slots

section Records

variable {depth : Depth} {slots : Nat} {ledger : Ledger} {leaves : List Felt}

theorem records_genesis (depth : Depth) (slots : Nat) :
    (genesis depth slots).Records depth slots [] where
  tree_eq := (Archive.padded_nil depth).symm
  length_ring := List.length_replicate
  written_eq := rfl
  ring_eq := by
    intro _
    have hring : (List.replicate slots (0 : Felt)).length ≤ slots :=
      Nat.le_of_eq List.length_replicate
    have hprevious : previousRoots depth [] = [] := rfl
    rw [genesis, List.length_nil, List.rotate_zero, hprevious, List.append_nil,
      List.rtake_of_length_le hring]

/-- Appending a leaf turns the ring by one slot and makes the root from before it
a previous one. -/
theorem Records.insert (hslots : 0 < slots) (hrecords : ledger.Records depth slots leaves)
    (hroom : leaves.length < depth.capacity) (leaf : Felt) :
    ∃ after, ledger.insert leaf = .ok (after, leaves.length) ∧
      after.Records depth slots (leaves ++ [leaf]) := by
  obtain ⟨htree, hring, hwritten, hturned⟩ := hrecords
  have hinsert : ledger.tree.insert leaf =
      .ok (Archive.padded depth (leaves ++ [leaf]), leaves.length) := by
    rw [htree, Archive.insert_padded depth leaves hroom]
  have hroot : ledger.tree.root = (feed (Archive.empty depth) leaves).1.root := by
    rw [htree, Archive.root_padded, Merkle.root_feed_of_le (Nat.le_of_lt hroom)]
  refine ⟨_, congrArg (Except.map _) hinsert, rfl, ?_, ?_, ?_⟩
  · rw [List.length_set, hring]
  · rw [hwritten, List.length_append, List.length_singleton, UInt32.ofNat_add]
    rfl
  · intro hcount
    rw [List.length_append, List.length_singleton] at hcount ⊢
    have hcounted : ledger.written.toNat = leaves.length := by
      rw [hwritten]
      exact UInt32.toNat_ofNat_of_lt' (Nat.lt_of_succ_lt hcount)
    have hpos : 0 < ledger.ring.length := hslots.trans_eq hring.symm
    have hle : slots ≤ (List.replicate slots 0 ++ previousRoots depth leaves).length := by
      rw [List.length_append, List.length_replicate]
      exact Nat.le_add_right _ _
    have hprevious : previousRoots depth (leaves ++ [leaf]) =
        previousRoots depth leaves ++ [ledger.tree.root] := by
      rw [Merkle.previousRoots_append, Merkle.successiveRoots_eq, hroot]
    have hstep := calc
      (ledger.ring.set (leaves.length % ledger.ring.length) ledger.tree.root).rotate
          (leaves.length + 1)
        = (ledger.ring.rotate leaves.length).drop 1 ++ [ledger.tree.root] :=
          List.rotate_set_succ hpos _
      _ = ((List.replicate slots 0 ++ previousRoots depth leaves).rtake slots).drop 1 ++
            [ledger.tree.root] := by rw [hturned (Nat.lt_of_succ_lt hcount)]
      _ = (List.replicate slots 0 ++ previousRoots depth leaves ++
            [ledger.tree.root]).rtake slots := (List.rtake_concat_of_le hslots hle _).symm
    rw [hcounted, hprevious, ← List.append_assoc]
    exact hstep

theorem grows_records (depth : Depth) (hslots : 0 < slots) :
    Grows depth.capacity (fun ledger leaves => Records ledger depth slots leaves) where
  accepts hrecords hroom leaf := hrecords.insert hslots hroom leaf
  refuses {ledger leaves} hrecords hfull leaf := by
    have hinsert : ledger.tree.insert leaf = .error (.treeFull depth.capacity) := by
      rw [hrecords.tree_eq, Archive.insert_padded_full depth leaves hfull]
    exact congrArg (Except.map _) hinsert

theorem records_feed (depth : Depth) (hslots : 0 < slots) (hle : leaves.length ≤ depth.capacity) :
    (feed (genesis depth slots) leaves).1.Records depth slots leaves := by
  have hrun := ((grows_records depth hslots).feed_holds (records_genesis depth slots)
    (Nat.zero_le _) leaves).1
  rwa [List.nil_append, List.take_of_length_le hle] at hrun

end Records

end Ledger

theorem LedgerAccount.rootsOldestFirst_eq (account : LedgerAccount) :
    account.rootsOldestFirst =
      (account.rootHistory.rotate account.rootHistoryIndex.toNat).filter (· ≠ 0) := by
  rw [rootsOldestFirst, List.rotate_eq_drop_append_take_mod]

namespace Ledger

section Account

variable {depth : Depth} {slots : Nat} {ledger : Ledger} {leaves : List Felt} {bump : UInt8}

theorem levels_lt_wordBits (depth : Depth) : depth.levels < 64 :=
  Nat.lt_of_le_of_lt depth.le_max (show Merkle.maxDepth < 64 by decide)

/-- The account lists the end of the previous roots. -/
theorem Records.rootsOldestFirst (hrecords : ledger.Records depth slots leaves)
    (hcount : leaves.length < UInt32.size)
    (hnonzero : ∀ root ∈ previousRoots depth leaves, root ≠ 0) :
    (ledger.account bump).rootsOldestFirst = (previousRoots depth leaves).rtake slots := by
  have hcounted : (ledger.account bump).rootHistoryIndex.toNat = leaves.length := by
    rw [account, hrecords.written_eq]
    exact UInt32.toNat_ofNat_of_lt' hcount
  have hturned : (ledger.account bump).rootHistory.rotate leaves.length =
      (List.replicate slots 0 ++ previousRoots depth leaves).rtake slots :=
    hrecords.ring_eq hcount
  rw [LedgerAccount.rootsOldestFirst_eq, hcounted, hturned,
    List.filter_rtake_replicate hnonzero]

theorem Records.nextIndex (hrecords : ledger.Records depth slots leaves)
    (hle : leaves.length ≤ depth.capacity) :
    (ledger.account bump).nextIndex.toNat = leaves.length := by
  have hword : depth.capacity < UInt64.size :=
    Nat.pow_lt_pow_right Nat.one_lt_two (levels_lt_wordBits depth)
  rw [account, hrecords.tree_eq, Archive.nextIndex_padded]
  exact UInt64.toNat_ofNat_of_lt' (Nat.lt_of_le_of_lt hle hword)

theorem Records.fits (hrecords : ledger.Records depth slots leaves)
    (hle : leaves.length ≤ depth.capacity) :
    (ledger.account bump).Fits depth.levels slots where
  length_frontier := by
    rw [account, hrecords.tree_eq, Archive.frontier_padded, List.length_map, List.length_range]
  length_rootHistory := hrecords.length_ring
  nextIndex_le := (hrecords.nextIndex hle).trans_le hle

/-- The account publishes the state of a follower with the same leaves. -/
theorem Records.snapshot_eq (hrecords : ledger.Records depth slots leaves)
    (hle : leaves.length ≤ depth.capacity) {followed : Follower}
    (hagrees : followed.Agrees (Archive.padded depth leaves)) :
    (ledger.account bump).snapshot = followed.snapshot := by
  have hnext : followed.nextIndex = leaves.length :=
    hagrees.nextIndex_eq.trans (Archive.nextIndex_padded depth leaves)
  rw [LedgerAccount.snapshot, Follower.snapshot, hrecords.nextIndex hle, hagrees.root_eq,
    hagrees.frontier_eq, hnext, account, hrecords.tree_eq]

/-- Restored with the current root, the end of the previous roots is the end of
all of them. -/
theorem restore_previousRoots (hslots : 0 < slots) {window : RootWindow}
    (hsize : window.size = slots) {root : Felt}
    (hroots : successiveRoots depth leaves = previousRoots depth leaves ++ [root])
    (hdistinct : (successiveRoots depth leaves).IsChain (· ≠ ·)) :
    window.restore ((previousRoots depth leaves).rtake slots) root =
      RootWindow.last slots (successiveRoots depth leaves) := by
  have hlast : ((previousRoots depth leaves).rtake slots).getLast? ≠ some root := by
    have hend := RootWindow.getLast?_last hslots (previousRoots depth leaves)
    rw [RootWindow.last] at hend
    rw [hend]
    intro hsame
    rw [hroots, List.isChain_append] at hdistinct
    exact hdistinct.2.2 root hsame root rfl rfl
  calc window.restore ((previousRoots depth leaves).rtake slots) root
      = .last slots ((previousRoots depth leaves).rtake slots ++ [root]) := by
        rw [RootWindow.restore_eq_last (hslots.trans_eq hsize.symm), if_neg hlast, hsize]
    _ = (RootWindow.last slots ((previousRoots depth leaves).rtake slots)).record root :=
        (RootWindow.record_last hslots _ _).symm
    _ = (RootWindow.last slots (previousRoots depth leaves)).record root := by
        rw [RootWindow.last_rtake]
    _ = .last slots (previousRoots depth leaves ++ [root]) := RootWindow.record_last hslots _ _
    _ = .last slots (successiveRoots depth leaves) := by rw [hroots]

end Account

/-- Written, parsed and applied to any follower of the depth and the window size,
the account gives the state and the recent roots of another follower; where the
size of the account does not fit 64 bits, parsing says so. -/
def SyncsTo (account : LedgerAccount) (depth : Depth) (slots : Nat) (followed : Follower) :
    Prop :=
  ∀ mirror : Follower, mirror.depth = depth → mirror.history.size = slots →
    ∃ synced : Follower,
      (LedgerAccount.parse depth.levels slots account.toBytes >>= (·.applyTo mirror)) =
          (LedgerAccount.size depth.levels slots).map (fun _ => synced) ∧
        synced.root = followed.root ∧ synced.nextIndex = followed.nextIndex ∧
        synced.frontier = followed.frontier ∧ synced.history = followed.history

/-- The account of a ledger lists the end of the previous roots, and syncs any
mirror to the follower that appended the same leaves. -/
theorem sync_equals_following (depth : Depth) {slots : Nat} (hslots : 0 < slots)
    (bump : UInt8) {leaves : List Felt} (hcount : leaves.length < UInt32.size)
    (hnonzero : ∀ root ∈ successiveRoots depth leaves, root ≠ 0)
    (hdistinct : (successiveRoots depth leaves).IsChain (· ≠ ·)) :
    let account := (feed (genesis depth slots) leaves).1.account bump
    let followed := (feed (Follower.empty depth slots) leaves).1
    account.rootsOldestFirst = (previousRoots depth leaves).rtake slots ∧
      SyncsTo account depth slots followed := by
  intro account followed
  have hle := Merkle.length_le_of_isChain hdistinct
  have hrecords := records_feed depth hslots hle
  have hfollowed : followed.Recorded depth slots leaves := by
    have hrun := Follower.recorded_feed depth hslots leaves
    rwa [List.take_of_length_le hle] at hrun
  have hroots : successiveRoots depth leaves = previousRoots depth leaves ++ [account.root] := by
    have htree : (feed (Archive.empty depth) leaves).1 =
        (feed (genesis depth slots) leaves).1.tree := by
      rw [Archive.fst_feed_empty, List.take_of_length_le hle, hrecords.tree_eq]
    rw [Merkle.successiveRoots_eq, htree]
    rfl
  have hprevious : ∀ root ∈ previousRoots depth leaves, root ≠ 0 := by
    intro root hroot
    rw [hroots] at hnonzero
    exact hnonzero root (List.mem_append_left _ hroot)
  have holdest : account.rootsOldestFirst = (previousRoots depth leaves).rtake slots :=
    hrecords.rootsOldestFirst hcount hprevious
  have hsnapshot : account.snapshot = followed.snapshot :=
    hrecords.snapshot_eq hle hfollowed.agrees
  refine ⟨holdest, ?_⟩
  intro mirror hdepth hsize
  let synced := (mirror.adopted account.snapshot).restoreHistory account.rootsOldestFirst
  have happly : account.applyTo mirror = .ok synced := by
    have hsound : account.snapshot.Sound mirror.depth := by
      rw [hsnapshot, hdepth]
      exact (Follower.publishable_feed depth slots leaves).2
    exact Follower.perform_applyAccount_eq_ok_iff.2 ⟨hsound, rfl⟩
  refine ⟨synced, ?_, congrArg Merkle.Snapshot.root hsnapshot,
    congrArg Merkle.Snapshot.nextIndex hsnapshot,
    congrArg Merkle.Snapshot.frontier hsnapshot, ?_⟩
  · rw [LedgerAccount.parse_toBytes (levels_lt_wordBits depth) (hrecords.fits hle)]
    rcases LedgerAccount.size depth.levels slots with refusal | bytes
    · rfl
    · exact happly
  · have hkept : (mirror.adopted account.snapshot).history.size = slots :=
      (RootWindow.size_recordNew _ _).trans hsize
    have hrestored := restore_previousRoots hslots hkept hroots hdistinct
    rw [← holdest, ← hfollowed.history_eq] at hrestored
    exact hrestored

/-- A full tree of two leaves whose ring of one slot has been written twice. -/
theorem sync_equals_following_full :
    ([7, 5] : List Felt).length < UInt32.size ∧
      (∀ root ∈ successiveRoots oneLevel [7, 5], root ≠ 0) ∧
      (successiveRoots oneLevel [7, 5]).IsChain (· ≠ ·) ∧
      let account := (feed (genesis oneLevel 1) [7, 5]).1.account 254
      let followed := (feed (Follower.empty oneLevel 1) [7, 5]).1
      account.rootsOldestFirst = (previousRoots oneLevel [7, 5]).rtake 1 ∧
        SyncsTo account oneLevel 1 followed := by
  have hcount : ([7, 5] : List Felt).length < UInt32.size := by decide
  obtain ⟨⟨hempty, hfirst, hfull⟩, hmoved, hmovedOn, -⟩ := Merkle.pairNodes_distinct
  have hnonzero : ∀ root ∈ successiveRoots oneLevel [7, 5], root ≠ 0 := by
    rw [Merkle.successiveRoots_pair]
    simp [hempty, hfirst, hfull]
  have hdistinct : (successiveRoots oneLevel [7, 5]).IsChain (· ≠ ·) := by
    rw [Merkle.successiveRoots_pair]
    simp [hmoved, hmovedOn]
  exact ⟨hcount, hnonzero, hdistinct,
    sync_equals_following oneLevel Nat.one_pos 254 hcount hnonzero hdistinct⟩

end Ledger

end ShieldedPool
