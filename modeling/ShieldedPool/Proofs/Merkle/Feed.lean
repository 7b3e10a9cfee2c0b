/-
Runs of insertions.  A tree is fed a list of leaves; it answers every one of
them, and a leaf that it refuses leaves it as it is.  What a tree holds after
a run follows from what a single insertion does to it.
-/
import Mathlib.Data.List.Basic
import ShieldedPool.Merkle.Accumulator

namespace ShieldedPool.Merkle

variable {α : Type} [Accumulator α]

/-- Insert leaves one after another, and list the answers. -/
def feed (tree : α) : List Felt → α × List (Except Failure Nat)
  | [] => (tree, [])
  | leaf :: leaves =>
      match Accumulator.insert tree leaf with
      | .ok (after, index) =>
          ((feed after leaves).1, .ok index :: (feed after leaves).2)
      | .error failure =>
          ((feed tree leaves).1, .error failure :: (feed tree leaves).2)

theorem feed_of_ok {tree after : α} {leaf : Felt} {index : Nat}
    (hinsert : Accumulator.insert tree leaf = .ok (after, index)) (leaves : List Felt) :
    feed tree (leaf :: leaves) = ((feed after leaves).1, .ok index :: (feed after leaves).2) := by
  rw [feed, hinsert]

theorem feed_of_error {tree : α} {leaf : Felt} {refusal : Failure}
    (hinsert : Accumulator.insert tree leaf = .error refusal) (leaves : List Felt) :
    feed tree (leaf :: leaves) =
      ((feed tree leaves).1, .error refusal :: (feed tree leaves).2) := by
  rw [feed, hinsert]

/-- The answer to the leaf behind `count` others: its index, until the tree is
full. -/
def answer (capacity count : Nat) : Except Failure Nat :=
  if count < capacity then .ok count else .error (.treeFull capacity)

def answers (capacity count more : Nat) : List (Except Failure Nat) :=
  (List.range' count more).map (answer capacity)

/-- What is held of a tree and its leaves grows with every insertion up to the
capacity, and there insertions stop. -/
structure Grows (capacity : Nat) (holds : α → List Felt → Prop) : Prop where
  accepts : ∀ {tree : α} {leaves : List Felt}, holds tree leaves →
    leaves.length < capacity → ∀ leaf : Felt, ∃ after : α,
      Accumulator.insert tree leaf = .ok (after, leaves.length) ∧
        holds after (leaves ++ [leaf])
  refuses : ∀ {tree : α} {leaves : List Felt}, holds tree leaves →
    leaves.length = capacity → ∀ leaf : Felt,
      Accumulator.insert tree leaf = .error (.treeFull capacity)

theorem answers_of_le {capacity count : Nat} (hfull : capacity ≤ count) (more : Nat) :
    answers capacity count more =
      List.replicate more (.error (.treeFull capacity)) := by
  induction more generalizing count with
  | zero => rfl
  | succ more ih =>
      rw [answers, List.range'_succ, List.map_cons, answer, if_neg (by omega),
        List.replicate_succ]
      exact congrArg _ (ih (Nat.le_succ_of_le hfull))

variable {capacity : Nat} {holds : α → List Felt → Prop}

theorem Grows.feed_full (hgrows : Grows capacity holds) {tree : α}
    {leaves : List Felt} (hholds : holds tree leaves) (hfull : leaves.length = capacity)
    (more : List Felt) :
    feed tree more =
      (tree, List.replicate more.length (.error (.treeFull capacity))) := by
  induction more with
  | nil => rfl
  | cons leaf more ih =>
      rw [feed_of_error (hgrows.refuses hholds hfull leaf), ih]
      rfl

/-- A run keeps what a single insertion keeps, and its answers are counted
from the leaves that were there before. -/
theorem Grows.feed_holds (hgrows : Grows capacity holds) {tree : α}
    {leaves : List Felt} (hholds : holds tree leaves) (hle : leaves.length ≤ capacity)
    (more : List Felt) :
    holds (feed tree more).1 ((leaves ++ more).take capacity) ∧
      (feed tree more).2 = answers capacity leaves.length more.length := by
  -- an accepted leaf moves to those that the tree holds
  induction more generalizing tree leaves with
  | nil =>
      rw [List.append_nil, List.take_of_length_le hle]
      exact ⟨hholds, rfl⟩
  | cons leaf more ih =>
      rcases Nat.lt_or_eq_of_le hle with hroom | hfull
      · obtain ⟨after, hinsert, hafter⟩ := hgrows.accepts hholds hroom leaf
        have hlength : (leaves ++ [leaf]).length = leaves.length + 1 := by simp
        obtain ⟨hrun, hanswers⟩ := ih hafter (by omega)
        rw [List.append_cons, feed_of_ok hinsert]
        refine ⟨hrun, ?_⟩
        simp only [hanswers, hlength, List.length_cons, answers, List.range'_succ,
          List.map_cons, answer, if_pos hroom]
      · have hge : capacity ≤ leaves.length := Nat.le_of_eq hfull.symm
        rw [hgrows.feed_full hholds hfull, List.take_append_of_le_length hge,
          List.take_of_length_le hle, answers_of_le hge]
        exact ⟨hholds, rfl⟩

theorem answers_eq_range (capacity count : Nat) :
    answers capacity 0 count = (List.range count).map (answer capacity) := by
  rw [answers, List.range_eq_range']

end ShieldedPool.Merkle
