/-
The ledger's account of the commitment tree.  Its layout is fixed by the depth
of the tree and the length of the root history: a marker byte, a bump byte and
six bytes of padding, the root, the next index, the frontier, the history, the
history index, and sixty bytes of reserve.  Integers are little-endian, field
elements big-endian; what padding and reserve hold is not read.
-/
import ShieldedPool.Merkle.Follower

namespace ShieldedPool

/-- The tree account.  The history is a ring: the next root is written to the
slot that the history index names, which counts all writes ever made. -/
structure LedgerAccount where
  bump : UInt8
  root : Felt
  nextIndex : UInt64
  frontier : List Felt
  rootHistory : List Felt
  rootHistoryIndex : UInt32
deriving DecidableEq

namespace LedgerAccount

/-- The first byte of a tree account. -/
def marker : UInt8 := 5

/-- Bytes before the root. -/
def headerBytes : Nat := 8

/-- Bytes behind the history index. -/
def reservedBytes : Nat := 60

/-- Bytes before the frontier. -/
def frontierOffset : Nat := headerBytes + residueBytes + 8

/-- The size of an account, as a plain number. -/
def bytesFor (depth history : Nat) : Nat :=
  frontierOffset + residueBytes * depth + residueBytes * history + 4 + reservedBytes

/-- The size of an account, which has to fit 64 bits. -/
def size (depth history : Nat) : Except Failure Nat :=
  if bytesFor depth history < UInt64.size then .ok (bytesFor depth history)
  else .error .overflow

/-- Read the field element at the front.  The offset is quoted when it is not
below the modulus. -/
def readFelt (part : AccountPart) (offset : Nat) (bytes : Bytes) :
    Except TreeStateDefect Felt :=
  match Felt.ofBytes (bytes.take residueBytes) with
  | .error _ => .error (.notCanonical part offset)
  | .ok a => .ok a

/-- Read field elements one after another. -/
def readFelts (part : AccountPart) :
    (count offset : Nat) → Bytes → Except TreeStateDefect (List Felt)
  | 0, _, _ => .ok []
  | count + 1, offset, bytes =>
      match readFelt part offset bytes with
      | .error defect => .error defect
      | .ok a =>
          (readFelts part count (offset + residueBytes) (bytes.drop residueBytes)).map
            (a :: ·)

/-- Read an account of the right size. -/
def ofBytes (depth history : Nat) (data : Bytes) :
    Except TreeStateDefect LedgerAccount := do
  let historyOffset := frontierOffset + residueBytes * depth
  let indexOffset := historyOffset + residueBytes * history
  if data.headD 0 ≠ marker then
    throw (.discriminator (data.headD 0) marker)
  let root ← readFelt .root headerBytes (data.drop headerBytes)
  let frontier ← readFelts .frontierNode depth frontierOffset (data.drop frontierOffset)
  let rootHistory ←
    readFelts .historicalRoot history historyOffset (data.drop historyOffset)
  return {
    bump := data.getD 1 0
    root
    nextIndex := Bytes.toWord64 ((data.drop (headerBytes + residueBytes)).take 8)
    frontier
    rootHistory
    rootHistoryIndex := UInt32.ofNat (Bytes.toNatLE ((data.drop indexOffset).take 4)) }

/-- The leaves that a tree of a depth can hold, as a 64-bit number. -/
def capacity (depth : Nat) : Except Failure Nat :=
  if depth < 64 then .ok (2 ^ depth) else .error .overflow

/-- Read an account of a given layout. -/
def parse (depth history : Nat) (data : Bytes) : Except Failure LedgerAccount := do
  let expected ← size depth history
  if data.length ≠ expected then
    throw (.treeState (.accountLength data.length expected))
  let account ← (ofBytes depth history data).mapError .treeState
  let limit ← capacity depth
  if limit < account.nextIndex.toNat then
    throw (.treeState (.beyondCapacity account.nextIndex.toNat limit))
  return account

def toBytes (account : LedgerAccount) : Bytes :=
  marker :: account.bump :: List.replicate 6 0
    ++ account.root.toBytes
    ++ Bytes.ofWord64 account.nextIndex
    ++ account.frontier.flatMap Residue.toBytes
    ++ account.rootHistory.flatMap Residue.toBytes
    ++ Bytes.ofNatLE 4 account.rootHistoryIndex.toNat
    ++ List.replicate reservedBytes 0

def snapshot (account : LedgerAccount) : Merkle.Snapshot :=
  ⟨account.root, account.frontier, account.nextIndex.toNat⟩

/-- The recorded roots, oldest first.  Slots that were never written hold zero. -/
def rootsOldestFirst (account : LedgerAccount) : List Felt :=
  let ring := account.rootHistory
  let start := account.rootHistoryIndex.toNat % ring.length
  (ring.drop start ++ ring.take start).filter (· ≠ 0)

/-- Bring a tree to the state of the account, recent roots included. -/
def applyTo (account : LedgerAccount) (tree : Merkle.Follower) :
    Except Failure Merkle.Follower :=
  (tree.importState account.snapshot).map
    (·.restoreHistory account.rootsOldestFirst)

end LedgerAccount

end ShieldedPool
