/-
An account that is written is read back.  The reader finds every field behind
the ones before it, whatever the depth of the tree and the length of the ring
are, so an account that fits the layout is parsed to itself wherever the layout
has a size.
-/
import ShieldedPool.LedgerAccount
import ShieldedPool.Proofs.Residue.CanonicalBytes
import ShieldedPool.Proofs.Results

namespace ShieldedPool.LedgerAccount

section Readers

variable (part : AccountPart) (offset : Nat) (rest : Bytes)

theorem readFelt_append (a : Felt) : readFelt part offset (a.toBytes ++ rest) = .ok a := by
  have htake : (a.toBytes ++ rest).take residueBytes = a.toBytes :=
    List.take_left' a.length_toBytes
  rw [readFelt, htake, Felt.ofBytes_toBytes]

theorem readFelts_append (felts : List Felt) :
    readFelts part felts.length offset (felts.flatMap Residue.toBytes ++ rest) = .ok felts := by
  induction felts generalizing offset with
  | nil => rfl
  | cons a felts ih =>
      have hdrop : (a.toBytes ++ (felts.flatMap Residue.toBytes ++ rest)).drop residueBytes =
          felts.flatMap Residue.toBytes ++ rest := List.drop_left' a.length_toBytes
      rw [List.length_cons, readFelts, List.flatMap_cons, List.append_assoc, readFelt_append,
        hdrop, ih]
      rfl

theorem length_flatMap_toBytes (felts : List Felt) :
    (felts.flatMap Residue.toBytes).length = residueBytes * felts.length := by
  induction felts with
  | nil => rfl
  | cons a felts ih =>
      rw [List.flatMap_cons, List.length_append, Residue.length_toBytes, ih, List.length_cons,
        Nat.mul_succ, Nat.add_comm]

end Readers

section Sections

variable (account : LedgerAccount)

/-- The bytes before the root. -/
def header : Bytes := marker :: account.bump :: List.replicate 6 0

/-- The bytes from the history index on, and from each field before it. -/
def fromIndex : Bytes :=
  Bytes.ofNatLE 4 account.rootHistoryIndex.toNat ++ List.replicate reservedBytes 0

def fromHistory : Bytes := account.rootHistory.flatMap Residue.toBytes ++ account.fromIndex

def fromFrontier : Bytes := account.frontier.flatMap Residue.toBytes ++ account.fromHistory

def fromNextIndex : Bytes := Bytes.ofWord64 account.nextIndex ++ account.fromFrontier

def fromRoot : Bytes := account.root.toBytes ++ account.fromNextIndex

theorem toBytes_eq : account.toBytes = account.header ++ account.fromRoot := by
  simp only [toBytes, fromRoot, fromNextIndex, fromFrontier, fromHistory, fromIndex, header,
    List.append_assoc, List.cons_append]

theorem length_toBytes :
    account.toBytes.length = bytesFor account.frontier.length account.rootHistory.length := by
  have hheader : account.header.length = headerBytes := rfl
  have hindex : account.fromIndex.length = 4 + reservedBytes := by
    rw [fromIndex, List.length_append, Bytes.length_ofNatLE, List.length_replicate]
  rw [toBytes_eq, fromRoot, fromNextIndex, fromFrontier, fromHistory, Bytes.ofWord64]
  simp only [List.length_append, Residue.length_toBytes, Bytes.length_ofNatLE,
    length_flatMap_toBytes, hheader, hindex, bytesFor, frontierOffset]
  omega

theorem drop_header : account.toBytes.drop headerBytes = account.fromRoot := by
  rw [toBytes_eq]
  exact List.drop_left' rfl

theorem drop_root :
    account.toBytes.drop (headerBytes + residueBytes) = account.fromNextIndex := by
  rw [← List.drop_drop, drop_header]
  exact List.drop_left' account.root.length_toBytes

theorem drop_nextIndex : account.toBytes.drop frontierOffset = account.fromFrontier := by
  rw [frontierOffset, ← List.drop_drop, drop_root]
  exact List.drop_left' (Bytes.length_ofNatLE 8 _)

theorem drop_frontier :
    account.toBytes.drop (frontierOffset + residueBytes * account.frontier.length) =
      account.fromHistory := by
  rw [← List.drop_drop, drop_nextIndex]
  exact List.drop_left' (length_flatMap_toBytes _)

theorem drop_history :
    account.toBytes.drop (frontierOffset + residueBytes * account.frontier.length +
      residueBytes * account.rootHistory.length) = account.fromIndex := by
  rw [← List.drop_drop, drop_frontier]
  exact List.drop_left' (length_flatMap_toBytes _)

theorem readFelt_root :
    readFelt .root headerBytes (account.toBytes.drop headerBytes) = .ok account.root := by
  rw [drop_header]
  exact readFelt_append _ _ _ _

theorem readFelts_frontier :
    readFelts .frontierNode account.frontier.length frontierOffset
      (account.toBytes.drop frontierOffset) = .ok account.frontier := by
  rw [drop_nextIndex]
  exact readFelts_append _ _ _ _

theorem readFelts_rootHistory :
    readFelts .historicalRoot account.rootHistory.length
      (frontierOffset + residueBytes * account.frontier.length)
      (account.toBytes.drop (frontierOffset + residueBytes * account.frontier.length)) =
        .ok account.rootHistory := by
  rw [drop_frontier]
  exact readFelts_append _ _ _ _

theorem toWord64_nextIndex :
    Bytes.toWord64 (account.fromNextIndex.take 8) = account.nextIndex := by
  have htake : account.fromNextIndex.take 8 = Bytes.ofWord64 account.nextIndex :=
    List.take_left' (Bytes.length_ofNatLE 8 _)
  rw [htake, Bytes.toWord64_ofWord64]

theorem ofNat_rootHistoryIndex :
    UInt32.ofNat (Bytes.toNatLE (account.fromIndex.take 4)) = account.rootHistoryIndex := by
  have htake : account.fromIndex.take 4 = Bytes.ofNatLE 4 account.rootHistoryIndex.toNat :=
    List.take_left' (Bytes.length_ofNatLE 4 _)
  have hlt : account.rootHistoryIndex.toNat < 256 ^ 4 := account.rootHistoryIndex.toNat_lt
  rw [htake, Bytes.toNatLE_ofNatLE, Nat.mod_eq_of_lt hlt, UInt32.ofNat_toNat]

end Sections

theorem ofBytes_toBytes (account : LedgerAccount) :
    ofBytes account.frontier.length account.rootHistory.length account.toBytes =
      .ok account := by
  have hmarker : ¬ account.toBytes.headD 0 ≠ marker := not_not_intro rfl
  have hbump : account.toBytes.getD 1 0 = account.bump := rfl
  simp only [ofBytes, if_neg hmarker, readFelt_root, readFelts_frontier,
    readFelts_rootHistory, drop_root, drop_history, toWord64_nextIndex,
    ofNat_rootHistoryIndex, hbump]
  rfl

/-- The account has the layout of a tree of a depth with a ring of a length. -/
structure Fits (account : LedgerAccount) (depth slots : Nat) : Prop where
  length_frontier : account.frontier.length = depth
  length_rootHistory : account.rootHistory.length = slots
  nextIndex_le : account.nextIndex.toNat ≤ 2 ^ depth

/-- An account that fits is parsed to itself, unless its size does not fit 64
bits. -/
theorem parse_toBytes {account : LedgerAccount} {depth slots : Nat} (hdepth : depth < 64)
    (hfits : account.Fits depth slots) :
    parse depth slots account.toBytes = (size depth slots).map fun _ => account := by
  obtain ⟨rfl, rfl, hle⟩ := hfits
  have hcapacity : capacity account.frontier.length = .ok (2 ^ account.frontier.length) :=
    if_pos hdepth
  rw [parse, size]
  split
  · rw [ok_bind, if_neg (not_not_intro account.length_toBytes), ofBytes_toBytes]
    simp only [mapError_ok, ok_bind, hcapacity, if_neg (Nat.not_lt.2 hle)]
    rfl
  · rfl

end ShieldedPool.LedgerAccount
