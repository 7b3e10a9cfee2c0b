/-
The roots that are still accepted: a queue of bounded length, oldest first.  Room
for all of its roots is reserved before there is any, so a queue can be too long
to be made.
-/
import ShieldedPool.Felt

namespace ShieldedPool.Merkle

/-- Recent roots, of which at most `size` are kept. -/
structure RootWindow where
  size : Nat
  roots : List Felt
deriving DecidableEq

namespace RootWindow

/-- A queue for so many roots can be asked for: the bytes of one block of memory
number less than `2 ^ 63`.  Whether a machine has them is left open. -/
def Reservable (count : Nat) : Prop := count * residueBytes < 2 ^ (63 : Nat)

instance (count : Nat) : Decidable (Reservable count) := inferInstanceAs (Decidable (_ < _))

theorem reservable_iff {count : Nat} : Reservable count ↔ count < 2 ^ (58 : Nat) := by
  rw [Reservable, residueBytes]
  omega

/-- The window on a first root. -/
def start (size : Nat) (root : Felt) : RootWindow := ⟨size, [root]⟩

/-- Take a root in; a full window lets its oldest root go. -/
def record (window : RootWindow) (root : Felt) : RootWindow :=
  let kept := if window.roots.length = window.size then window.roots.drop 1
    else window.roots
  { window with roots := kept ++ [root] }

def knows (window : RootWindow) (root : Felt) : Bool := window.roots.contains root

/-- Take a root in unless it is known. -/
def recordNew (window : RootWindow) (root : Felt) : RootWindow :=
  if window.knows root then window else window.record root

/-- Start again from older roots, with the current one last. -/
def restore (window : RootWindow) (older : List Felt) (current : Felt) : RootWindow :=
  let window := older.foldl record { window with roots := [] }
  if window.roots.getLast? = some current then window else window.record current

end RootWindow

end ShieldedPool.Merkle
