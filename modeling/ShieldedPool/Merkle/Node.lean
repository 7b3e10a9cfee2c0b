/-
Nodes of the commitment tree.  A node is the hash of its two children, and a
leaf that was never inserted counts as zero; so an empty subtree has a node
that depends on its height alone.
-/
import ShieldedPool.Failure
import ShieldedPool.Poseidon

namespace ShieldedPool.Merkle

/-- The node above two children. -/
def node (left right : Felt) : Felt := Poseidon.hash2 left right

/-- The deepest tree there is. -/
def maxDepth : Nat := 32

/-- The depth of the ledger's tree. -/
def ledgerDepth : Nat := 20

/-- The depth of a tree: at least one level, at most `maxDepth`. -/
structure Depth where
  levels : Nat
  pos : 0 < levels
  le_max : levels ≤ maxDepth
deriving DecidableEq

namespace Depth

def ofNat (levels : Nat) : Except Failure Depth :=
  if h : 0 < levels ∧ levels ≤ maxDepth then .ok ⟨levels, h.1, h.2⟩
  else .error (.config (.treeDepth levels maxDepth))

theorem ofNat_eq_ok_iff {levels : Nat} {depth : Depth} :
    ofNat levels = .ok depth ↔ depth.levels = levels := by
  constructor
  · intro hok
    rw [ofNat] at hok
    split at hok
    · cases hok
      rfl
    · cases hok
  · rintro rfl
    exact dif_pos ⟨depth.pos, depth.le_max⟩

def capacity (depth : Depth) : Nat := 2 ^ depth.levels

end Depth

/-- The node of an empty subtree. -/
def emptyRoot : (height : Nat) → Felt
  | 0 => 0
  | height + 1 => node (emptyRoot height) (emptyRoot height)

/-- A node and the `count` nodes above it whose children are equal. -/
def ladder : (count : Nat) → Felt → List Felt
  | 0, a => [a]
  | count + 1, a => a :: ladder count (node a a)

theorem getElem?_ladder {count base height : Nat} (hheight : height ≤ count) :
    (ladder count (emptyRoot base))[height]? = some (emptyRoot (base + height)) := by
  induction count generalizing base height with
  | zero =>
      obtain rfl : height = 0 := Nat.le_zero.1 hheight
      rfl
  | succ count ih =>
      cases height with
      | zero => rfl
      | succ height =>
          have hstep := @ih (base + 1) height (Nat.le_of_succ_le_succ hheight)
          rw [ladder, List.getElem?_cons_succ,
            show node (emptyRoot base) (emptyRoot base) = emptyRoot (base + 1) from rfl,
            hstep, Nat.add_right_comm, Nat.add_assoc]

/-- The empty nodes of every height that a tree can have. -/
def emptyTable : List Felt := ladder maxDepth 0

/-- The node of an empty subtree, from the table where it reaches. -/
def emptyNode (height : Nat) : Felt := (emptyTable[height]?).getD (emptyRoot height)

theorem emptyNode_eq_emptyRoot (height : Nat) : emptyNode height = emptyRoot height := by
  unfold emptyNode
  by_cases hheight : height ≤ maxDepth
  · have hrow := @getElem?_ladder maxDepth 0 height hheight
    rw [show emptyTable = ladder maxDepth (emptyRoot 0) from rfl, hrow]
    simp
  · have hlength : ∀ count a, (ladder count a).length = count + 1 := by
      intro count
      induction count with
      | zero => intro a; rfl
      | succ count ih => intro a; simp [ladder, ih]
    rw [List.getElem?_eq_none (by rw [emptyTable, hlength]; omega)]
    rfl

theorem emptyNode_zero : emptyNode 0 = 0 := by
  rw [emptyNode_eq_emptyRoot]
  rfl

theorem emptyNode_succ (height : Nat) :
    emptyNode (height + 1) = node (emptyNode height) (emptyNode height) := by
  simp only [emptyNode_eq_emptyRoot]
  rfl

/-- The empty nodes of a tree, leaf level first. -/
def Depth.emptyNodes (depth : Depth) : List Felt :=
  (List.range (depth.levels + 1)).map emptyNode

def Depth.emptyRoot (depth : Depth) : Felt := emptyNode depth.levels

/-- Check the root of the empty tree against an expected one. -/
def Depth.checkEmptyRoot (depth : Depth) (expected : Felt) : Except Failure Unit :=
  if depth.emptyRoot = expected then .ok ()
  else .error (.emptyRootMismatch expected depth.emptyRoot)

/-- The bit of an index that says which child a node on its path is: a right
one when the bit is set. -/
def isRightChild (index level : Nat) : Bool := index.testBit level

/-- The bits of an index, lowest first. -/
def pathBits (depth index : Nat) : List Bool :=
  (List.range depth).map (isRightChild index)

end ShieldedPool.Merkle
