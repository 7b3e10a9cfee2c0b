/-
Inclusion proofs.  A proof lists the siblings along the path of a leaf, lowest
first, and for every level which side the path is on.  Nothing in its form
ties the two lists to each other, to a depth or to the claimed index; the
checks do.
-/
import ShieldedPool.Merkle.Node

namespace ShieldedPool.Merkle

/-- The claim that a leaf sits at an index of a tree. -/
structure Inclusion where
  leafIndex : UInt64
  siblings : List Felt
  pathBits : List Bool
deriving DecidableEq

/-- The node above a node and its sibling. -/
def climb (current : Felt) (step : Felt × Bool) : Felt :=
  if step.2 then node step.1 current else node current step.1

/-- The root that a leaf reaches along siblings and sides. -/
def foldPath (leaf : Felt) (siblings : List Felt) (bits : List Bool) : Felt :=
  (siblings.zip bits).foldl climb leaf

/-- The number whose bits are given, lowest first. -/
def bitsValue : List Bool → Nat
  | [] => 0
  | bit :: bits => bit.toNat + 2 * bitsValue bits

namespace Inclusion

/-- The root that the proof implies for a leaf. -/
def impliedRoot (proof : Inclusion) (leaf : Felt) : Except Failure Felt :=
  if proof.siblings.length = proof.pathBits.length then
    .ok (foldPath leaf proof.siblings proof.pathBits)
  else
    .error (.proofLength proof.siblings.length proof.siblings.length
      proof.pathBits.length)

/-- Check the proof in a tree of a given depth and root. -/
def verifyStrict (proof : Inclusion) (depth : Nat) (leaf root : Felt) :
    Except Failure Bool :=
  if proof.siblings.length = depth ∧ proof.pathBits.length = depth then
    .ok (foldPath leaf proof.siblings proof.pathBits == root)
  else
    .error (.proofLength depth proof.siblings.length proof.pathBits.length)

/-- Check the proof, where a proof of a wrong length is simply wrong. -/
def verify (proof : Inclusion) (depth : Nat) (leaf root : Felt) : Bool :=
  match proof.verifyStrict depth leaf root with
  | .ok holds => holds
  | .error _ => false

/-- The index that the sides of the path stand for.  A right turn beyond the
sixty-fourth level has no 64-bit index. -/
def pathIndex (proof : Inclusion) : Except Failure UInt64 :=
  let index := bitsValue proof.pathBits
  if index < UInt64.size then .ok (UInt64.ofNat index) else .error .overflow

end Inclusion

end ShieldedPool.Merkle
