/-
What repetition by doubling gathers.  Whatever counts copies, is doubled by
the doubling and raised by one by the step, counts as many copies as were
asked for.
-/
import Mathlib.Data.Nat.Bitwise
import ShieldedPool.Doubling

namespace ShieldedPool

universe u

variable {α : Type u} {double step : α → α} (counts : Nat → α → Prop)

theorem doubleAndStep_counts
    (hdouble : ∀ copies gathered, counts copies gathered →
      counts (2 * copies) (double gathered))
    (hstep : ∀ copies gathered, counts copies gathered →
      counts (copies + 1) (step gathered))
    (count bits : Nat) {gathered : α} (hgathered : counts (count / 2 ^ bits) gathered) :
    counts count (doubleAndStep double step count bits gathered) := by
  induction bits generalizing gathered with
  | zero =>
      rw [Nat.pow_zero, Nat.div_one] at hgathered
      exact hgathered
  | succ bits ih =>
      have hdoubled := hdouble _ _ hgathered
      have hbit := Nat.testBit_eq_decide_div_mod_eq (x := count) (i := bits)
      rw [Nat.pow_succ, ← Nat.div_div_eq_div_mul] at hdoubled
      rw [doubleAndStep]
      apply ih
      generalize count / 2 ^ bits = copies at hdoubled hbit ⊢
      by_cases hodd : copies % 2 = 1
      · rw [if_pos (by simp [hbit, hodd]), show copies = 2 * (copies / 2) + 1 by omega]
        exact hstep _ _ hdoubled
      · rw [if_neg (by simp [hbit, hodd]), show copies = 2 * (copies / 2) by omega]
        exact hdoubled

theorem repeatByDoubling_counts {start : α} (hstart : counts 0 start)
    (hdouble : ∀ copies gathered, counts copies gathered →
      counts (2 * copies) (double gathered))
    (hstep : ∀ copies gathered, counts copies gathered →
      counts (copies + 1) (step gathered))
    (count : Nat) : counts count (repeatByDoubling double step start count) := by
  apply doubleAndStep_counts counts hdouble hstep
  rw [Nat.div_eq_of_lt Nat.lt_log2_self]
  exact hstart

end ShieldedPool
