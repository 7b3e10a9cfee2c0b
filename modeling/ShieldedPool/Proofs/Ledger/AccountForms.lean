/-
The bytes of tree accounts.  Every field of a layout has its place, so an account
is read off byte by byte: the byte strings that are accepted have the size of the
layout, start with the marker, hold a reduced element in every place of one, and
count no more leaves than the tree can hold.  Writing what was read gives the same
bytes, up to padding and reserve, which are written as zeros and not looked at.
-/
import ShieldedPool.Proofs.Ledger.AccountCodec

namespace ShieldedPool.LedgerAccount

/-- The bytes from an offset on, as many as a field has. -/
def slice (data : Bytes) (offset width : Nat) : Bytes := (data.drop offset).take width

section Slices

variable {data : Bytes} {offset width : Nat}

theorem length_slice (hfits : offset + width ≤ data.length) :
    (slice data offset width).length = width := by
  rw [slice, List.length_take, List.length_drop]
  omega

theorem slice_append (data : Bytes) (offset width width' : Nat) :
    slice data offset width ++ slice data (offset + width) width' =
      slice data offset (width + width') := by
  rw [slice, slice, slice, List.take_add, List.drop_drop]

/-- A slice of a slice. -/
theorem slice_slice {start limit : Nat} (hfits : offset + width ≤ limit) :
    slice (slice data start limit) offset width = slice data (start + offset) width := by
  rw [slice, slice, slice, List.drop_take, List.drop_drop, List.take_take]
  congr 1
  omega

end Slices

/-- The number at an offset is below the field modulus. -/
def Canonical (data : Bytes) (offset : Nat) : Prop :=
  Bytes.toNatBE (slice data offset residueBytes) < Felt.modulus

instance (data : Bytes) : DecidablePred (Canonical data) := fun _ =>
  inferInstanceAs (Decidable (_ < _))

/-- Places of one part, in a row. -/
def placesFrom (part : AccountPart) (count offset : Nat) : List (AccountPart × Nat) :=
  (List.range count).map fun i => (part, offset + residueBytes * i)

/-- The places of the field elements of a layout, in the order in which they are
read. -/
def feltPlaces (depth slots : Nat) : List (AccountPart × Nat) :=
  (.root, headerBytes) :: placesFrom .frontierNode depth frontierOffset ++
    placesFrom .historicalRoot slots (frontierOffset + residueBytes * depth)

/-- The first place whose number is no reduced element. -/
def firstFault? (data : Bytes) (places : List (AccountPart × Nat)) : Option (AccountPart × Nat) :=
  places.find? fun place => ¬ Canonical data place.2

theorem firstFault?_eq_none_iff {data : Bytes} {places : List (AccountPart × Nat)} :
    firstFault? data places = none ↔ ∀ place ∈ places, Canonical data place.2 := by
  simp [firstFault?]

/-- The leaves that an account counts. -/
def countedLeaves (data : Bytes) : Nat :=
  Bytes.toNatLE (slice data (headerBytes + residueBytes) 8)

/-- The size of the layout, the marker in front, reduced elements throughout, and
no more leaves than the tree can hold. -/
structure WellFormed (depth slots : Nat) (data : Bytes) : Prop where
  length_eq : data.length = bytesFor depth slots
  marked : data.headD 0 = marker
  canonical : ∀ place ∈ feltPlaces depth slots, Canonical data place.2
  countedLeaves_le : countedLeaves data ≤ 2 ^ depth

/-- What is wrong with a byte string of which no account of a layout is read, at
the first thing that is looked at. -/
inductive Malformed (depth slots : Nat) : Bytes → TreeStateDefect → Prop
  | accountLength {data : Bytes} (hlength : data.length ≠ bytesFor depth slots) :
      Malformed depth slots data (.accountLength data.length (bytesFor depth slots))
  | discriminator {data : Bytes} (hlength : data.length = bytesFor depth slots)
      (hmarker : data.headD 0 ≠ marker) :
      Malformed depth slots data (.discriminator (data.headD 0) marker)
  | notCanonical {data : Bytes} {place : AccountPart × Nat}
      (hlength : data.length = bytesFor depth slots) (hmarker : data.headD 0 = marker)
      (hfault : firstFault? data (feltPlaces depth slots) = some place) :
      Malformed depth slots data (.notCanonical place.1 place.2)
  | beyondCapacity {data : Bytes} (hlength : data.length = bytesFor depth slots)
      (hmarker : data.headD 0 = marker)
      (hcanonical : ∀ place ∈ feltPlaces depth slots, Canonical data place.2)
      (hbeyond : 2 ^ depth < countedLeaves data) :
      Malformed depth slots data (.beyondCapacity (countedLeaves data) (2 ^ depth))

/-- The data with zeros for padding and reserve. -/
def withoutPadding (data : Bytes) : Bytes :=
  data.take 2 ++ List.replicate 6 0 ++
    slice data headerBytes (data.length - (headerBytes + reservedBytes)) ++
    List.replicate reservedBytes 0

section Reading

variable {data : Bytes} {part : AccountPart} {count offset : Nat}

theorem placesFrom_succ (part : AccountPart) (count offset : Nat) :
    placesFrom part (count + 1) offset =
      (part, offset) :: placesFrom part count (offset + residueBytes) := by
  simp only [placesFrom, List.range_succ_eq_map, List.map_cons, List.map_map, Nat.mul_zero,
    Nat.add_zero]
  congr 1
  apply List.map_congr_left
  intro i _
  simp only [Function.comp_apply, Prod.mk.injEq, true_and]
  rw [Nat.mul_succ]
  omega

theorem readFelt_of_canonical (part : AccountPart) (hfits : offset + residueBytes ≤ data.length)
    (hcanonical : Canonical data offset) :
    ∃ a : Felt, readFelt part offset (data.drop offset) = .ok a ∧
      a.toBytes = slice data offset residueBytes := by
  have hform : slice data offset residueBytes = (⟨_, hcanonical⟩ : Felt).toBytes :=
    (Residue.eq_toBytes_iff Felt.modulus_le_bytes).2 ⟨length_slice hfits, rfl⟩
  refine ⟨_, ?_, hform.symm⟩
  have htaken : (data.drop offset).take residueBytes = _ := hform
  rw [readFelt, htaken, Felt.ofBytes_toBytes]

theorem readFelt_of_large (part : AccountPart) (hfits : offset + residueBytes ≤ data.length)
    (hlarge : ¬ Canonical data offset) :
    readFelt part offset (data.drop offset) = .error (.notCanonical part offset) := by
  have hrefused : Felt.ofBytes ((data.drop offset).take residueBytes) = _ :=
    Felt.ofBytes_of_modulus_le (length_slice hfits) (Nat.not_lt.1 hlarge)
  rw [readFelt, hrefused]

/-- By induction on the places: reduced elements in a row are all read. -/
theorem readFelts_of_canonical (hfits : offset + residueBytes * count ≤ data.length)
    (hcanonical : ∀ place ∈ placesFrom part count offset, Canonical data place.2) :
    ∃ felts, readFelts part count offset (data.drop offset) = .ok felts ∧
      felts.length = count ∧
      felts.flatMap Residue.toBytes = slice data offset (residueBytes * count) := by
  induction count generalizing offset with
  | zero => exact ⟨[], rfl, rfl, by simp [slice]⟩
  | succ count ih =>
      rw [placesFrom_succ, List.forall_mem_cons] at hcanonical
      rw [Nat.mul_succ] at hfits
      obtain ⟨a, hread, hbytes⟩ := readFelt_of_canonical part (by omega) hcanonical.1
      obtain ⟨felts, hreads, hlength, hform⟩ := ih (by omega) hcanonical.2
      refine ⟨a :: felts, ?_, congrArg (· + 1) hlength, ?_⟩
      · simp only [readFelts, hread, List.drop_drop, hreads]
        rfl
      · rw [List.flatMap_cons, hbytes, hform, slice_append, Nat.mul_succ, Nat.add_comm]

/-- The first number that is too large is the one that is complained about. -/
theorem readFelts_of_fault {place : AccountPart × Nat}
    (hfits : offset + residueBytes * count ≤ data.length)
    (hfault : firstFault? data (placesFrom part count offset) = some place) :
    readFelts part count offset (data.drop offset) = .error (.notCanonical place.1 place.2) := by
  induction count generalizing offset with
  | zero => cases hfault
  | succ count ih =>
      rw [Nat.mul_succ] at hfits
      rw [placesFrom_succ, firstFault?, List.find?_cons] at hfault
      by_cases hcanonical : Canonical data offset
      · obtain ⟨a, hread, -⟩ := readFelt_of_canonical part (by omega) hcanonical
        have hlater : firstFault? data (placesFrom part count (offset + residueBytes)) =
            some place := by simpa [firstFault?, hcanonical] using hfault
        simp only [readFelts, hread, List.drop_drop, ih (by omega) hlater]
        rfl
      · have hplace : (part, offset) = place := by simpa [hcanonical] using hfault
        subst hplace
        simp only [readFelts, readFelt_of_large part (by omega) hcanonical]

end Reading

section Layout

variable {depth slots : Nat} {data : Bytes} {account : LedgerAccount}

theorem withoutPadding_eq (hlength : data.length = bytesFor depth slots) :
    withoutPadding data = data.take 2 ++ List.replicate 6 0 ++
      (slice data headerBytes residueBytes ++
        (slice data (headerBytes + residueBytes) 8 ++
          (slice data frontierOffset (residueBytes * depth) ++
            (slice data (frontierOffset + residueBytes * depth) (residueBytes * slots) ++
              (slice data (frontierOffset + residueBytes * depth + residueBytes * slots) 4 ++
                List.replicate reservedBytes 0))))) := by
  have hmiddle : data.length - (headerBytes + reservedBytes) =
      residueBytes + 8 + residueBytes * depth + residueBytes * slots + 4 := by
    simp only [hlength, bytesFor, frontierOffset]
    omega
  have hfrontier : frontierOffset = headerBytes + (residueBytes + 8) := rfl
  rw [withoutPadding, hmiddle, hfrontier]
  simp only [← slice_append, ← Nat.add_assoc, List.append_assoc]

theorem take_two (hlength : data.length = bytesFor depth slots) (hmarker : data.headD 0 = marker) :
    data.take 2 = [marker, data.getD 1 0] := by
  have hlong : 2 ≤ data.length := by
    rw [hlength, bytesFor, reservedBytes]
    omega
  rcases data with _ | ⟨first, _ | ⟨second, rest⟩⟩
  · cases hlong
  · exact absurd hlong (by simp)
  · cases hmarker
    rfl

theorem toNat_toWord64 {bytes : Bytes} (hlength : bytes.length = 8) :
    (Bytes.toWord64 bytes).toNat = Bytes.toNatLE bytes := by
  have hlt := Bytes.toNatLE_lt bytes
  rw [hlength] at hlt
  rw [Bytes.toWord64, UInt64.toNat_ofNat']
  exact Nat.mod_eq_of_lt hlt

theorem ofNatLE_toUInt32 {bytes : Bytes} (hlength : bytes.length = 4) :
    Bytes.ofNatLE 4 (UInt32.ofNat (Bytes.toNatLE bytes)).toNat = bytes := by
  have hlt := Bytes.toNatLE_lt bytes
  have hback := Bytes.ofNatLE_toNatLE bytes
  rw [hlength] at hlt hback
  have hvalue : (UInt32.ofNat (Bytes.toNatLE bytes)).toNat = Bytes.toNatLE bytes := by
    rw [UInt32.toNat_ofNat']
    exact Nat.mod_eq_of_lt hlt
  rw [hvalue, hback]

/-- Reduced elements throughout are read, and written back where they were. -/
theorem ofBytes_of_canonical (hlength : data.length = bytesFor depth slots)
    (hmarker : data.headD 0 = marker)
    (hcanonical : ∀ place ∈ feltPlaces depth slots, Canonical data place.2) :
    ∃ account, ofBytes depth slots data = .ok account ∧ account.frontier.length = depth ∧
      account.rootHistory.length = slots ∧ account.nextIndex.toNat = countedLeaves data ∧
      account.toBytes = withoutPadding data := by
  rw [feltPlaces, List.forall_mem_append, List.forall_mem_cons] at hcanonical
  obtain ⟨⟨hroot, hfrontier⟩, hhistory⟩ := hcanonical
  have hroom : data.length = frontierOffset + residueBytes * depth + residueBytes * slots + 4 +
      reservedBytes := hlength
  have hstart : frontierOffset = headerBytes + residueBytes + 8 := rfl
  obtain ⟨root, hreadRoot, hrootBytes⟩ :=
    readFelt_of_canonical .root (by omega) hroot
  obtain ⟨frontier, hreadFrontier, hdepth, hfrontierBytes⟩ :=
    readFelts_of_canonical (by omega) hfrontier
  obtain ⟨history, hreadHistory, hslots, hhistoryBytes⟩ :=
    readFelts_of_canonical (by omega) hhistory
  have hword : (slice data (headerBytes + residueBytes) 8).length = 8 :=
    length_slice (by omega)
  have hindex : (slice data
      (frontierOffset + residueBytes * depth + residueBytes * slots) 4).length = 4 :=
    length_slice (by omega)
  refine ⟨⟨data.getD 1 0, root, Bytes.toWord64 (slice data (headerBytes + residueBytes) 8),
    frontier, history, UInt32.ofNat (Bytes.toNatLE (slice data
      (frontierOffset + residueBytes * depth + residueBytes * slots) 4))⟩, ?_, hdepth, hslots,
    toNat_toWord64 hword, ?_⟩
  · rw [ofBytes, if_neg (not_not_intro hmarker), hreadRoot, ok_bind, hreadFrontier, ok_bind,
      hreadHistory, ok_bind]
    rfl
  · rw [withoutPadding_eq hlength, take_two hlength hmarker, toBytes_eq, fromRoot, fromNextIndex,
      fromFrontier, fromHistory, fromIndex]
    simp only [header, hrootBytes, hfrontierBytes, hhistoryBytes, Bytes.ofWord64_toWord64 hword,
      ofNatLE_toUInt32 hindex]
    rfl

theorem ofBytes_of_fault {place : AccountPart × Nat} (hlength : data.length = bytesFor depth slots)
    (hmarker : data.headD 0 = marker)
    (hfault : firstFault? data (feltPlaces depth slots) = some place) :
    ofBytes depth slots data = .error (.notCanonical place.1 place.2) := by
  have hroom : data.length = frontierOffset + residueBytes * depth + residueBytes * slots + 4 +
      reservedBytes := hlength
  have hstart : frontierOffset = headerBytes + residueBytes + 8 := rfl
  rw [firstFault?, feltPlaces, List.cons_append, List.find?_cons, List.find?_append] at hfault
  by_cases hroot : Canonical data headerBytes
  · obtain ⟨root, hreadRoot, -⟩ := readFelt_of_canonical .root (by omega) hroot
    simp only [hroot, not_true_eq_false, decide_false] at hfault
    rcases hfrontier : firstFault? data (placesFrom .frontierNode depth frontierOffset) with
      _ | early
    · rw [← firstFault?, hfrontier, Option.none_or] at hfault
      have hcanonical := firstFault?_eq_none_iff.1 hfrontier
      obtain ⟨frontier, hreadFrontier, -⟩ := readFelts_of_canonical (by omega) hcanonical
      have hrefused := readFelts_of_fault (by omega) hfault
      rw [ofBytes, if_neg (not_not_intro hmarker), hreadRoot, ok_bind, hreadFrontier, ok_bind,
        hrefused, error_bind]
    · rw [← firstFault?, hfrontier, Option.some_or] at hfault
      cases hfault
      have hrefused := readFelts_of_fault (by omega) hfrontier
      rw [ofBytes, if_neg (not_not_intro hmarker), hreadRoot, ok_bind, hrefused, error_bind]
  · have hplace : (AccountPart.root, headerBytes) = place := by simpa [hroot] using hfault
    subst hplace
    have hrefused := readFelt_of_large .root (by omega) hroot
    rw [ofBytes, if_neg (not_not_intro hmarker), hrefused, error_bind]

end Layout

section Parsing

variable {depth slots : Nat} {data : Bytes} {account : LedgerAccount}

theorem size_eq (hsize : bytesFor depth slots < UInt64.size) :
    size depth slots = .ok (bytesFor depth slots) := if_pos hsize

/-- An account of a layout that has a size, once its bytes are those of one. -/
theorem parse_of_length (hdepth : depth < 64) (hsize : bytesFor depth slots < UInt64.size)
    (hlength : data.length = bytesFor depth slots) :
    parse depth slots data =
      (ofBytes depth slots data).mapError Failure.treeState >>= fun account =>
        if 2 ^ depth < account.nextIndex.toNat then
          .error (.treeState (.beyondCapacity account.nextIndex.toNat (2 ^ depth)))
        else .ok account := by
  have hcapacity : capacity depth = .ok (2 ^ depth) := if_pos hdepth
  rw [parse, size_eq hsize, ok_bind, if_neg (not_not_intro hlength), hcapacity]
  rfl

theorem Malformed.refused {defect : TreeStateDefect} (hdepth : depth < 64)
    (hsize : bytesFor depth slots < UInt64.size)
    (hmalformed : Malformed depth slots data defect) :
    parse depth slots data = .error (.treeState defect) := by
  cases hmalformed with
  | accountLength hlength =>
      rw [parse, size_eq hsize, ok_bind, if_pos hlength]
      rfl
  | discriminator hlength hmarker =>
      rw [parse_of_length hdepth hsize hlength, ofBytes, if_pos hmarker]
      rfl
  | notCanonical hlength hmarker hfault =>
      rw [parse_of_length hdepth hsize hlength, ofBytes_of_fault hlength hmarker hfault]
      rfl
  | beyondCapacity hlength hmarker hcanonical hbeyond =>
      obtain ⟨account, hread, -, -, hcount, -⟩ :=
        ofBytes_of_canonical hlength hmarker hcanonical
      rw [parse_of_length hdepth hsize hlength, hread, mapError_ok, ok_bind, hcount,
        if_pos hbeyond]

theorem WellFormed.parsed (hdepth : depth < 64) (hsize : bytesFor depth slots < UInt64.size)
    (hwell : WellFormed depth slots data) :
    ∃ account, parse depth slots data = .ok account ∧ account.Fits depth slots ∧
      account.toBytes = withoutPadding data := by
  obtain ⟨account, hread, hfrontier, hhistory, hcount, hform⟩ :=
    ofBytes_of_canonical hwell.length_eq hwell.marked hwell.canonical
  have hle : account.nextIndex.toNat ≤ 2 ^ depth := by
    rw [hcount]
    exact hwell.countedLeaves_le
  refine ⟨account, ?_, ⟨hfrontier, hhistory, hle⟩, hform⟩
  rw [parse_of_length hdepth hsize hwell.length_eq, hread, mapError_ok, ok_bind,
    if_neg (Nat.not_lt.2 hle)]

theorem wellFormed_or_malformed (depth slots : Nat) (data : Bytes) :
    WellFormed depth slots data ∨ ∃ defect, Malformed depth slots data defect := by
  by_cases hlength : data.length = bytesFor depth slots
  · by_cases hmarker : data.headD 0 = marker
    · rcases hfault : firstFault? data (feltPlaces depth slots) with _ | place
      · have hcanonical := firstFault?_eq_none_iff.1 hfault
        rcases Nat.lt_or_ge (2 ^ depth) (countedLeaves data) with hbeyond | hwithin
        · exact .inr ⟨_, .beyondCapacity hlength hmarker hcanonical hbeyond⟩
        · exact .inl ⟨hlength, hmarker, hcanonical, hwithin⟩
      · exact .inr ⟨_, .notCanonical hlength hmarker hfault⟩
    · exact .inr ⟨_, .discriminator hlength hmarker⟩
  · exact .inr ⟨_, .accountLength hlength⟩

end Parsing

section Padding

variable {depth slots : Nat} {data : Bytes} {account : LedgerAccount}

theorem length_withoutPadding (hlong : headerBytes + reservedBytes ≤ data.length) :
    (withoutPadding data).length = data.length := by
  have hmiddle : (slice data headerBytes (data.length - (headerBytes + reservedBytes))).length =
      data.length - (headerBytes + reservedBytes) := length_slice (by omega)
  have htwo : 2 ≤ headerBytes := by decide
  have hheader : headerBytes = 2 + 6 := rfl
  simp only [withoutPadding, List.length_append, List.length_take, List.length_replicate, hmiddle]
  omega

/-- Between the padding and the reserve nothing changes. -/
theorem slice_withoutPadding {offset width : Nat} (hstart : headerBytes ≤ offset)
    (hend : offset + width + reservedBytes ≤ data.length) :
    slice (withoutPadding data) offset width = slice data offset width := by
  obtain ⟨inner, rfl⟩ := Nat.exists_eq_add_of_le hstart
  have htwo : 2 ≤ headerBytes := by decide
  have hheader : (data.take 2 ++ List.replicate 6 0 : Bytes).length = headerBytes := by
    simp only [List.length_append, List.length_take, List.length_replicate]
    rw [Nat.min_eq_left (by omega)]
    rfl
  have hmiddle : (slice data headerBytes (data.length - (headerBytes + reservedBytes))).length =
      data.length - (headerBytes + reservedBytes) := length_slice (by omega)
  have hinside : inner + width ≤ data.length - (headerBytes + reservedBytes) := by omega
  have hdrop : (withoutPadding data).drop (headerBytes + inner) =
      (slice data headerBytes (data.length - (headerBytes + reservedBytes))).drop inner ++
        List.replicate reservedBytes 0 := by
    rw [withoutPadding, List.append_assoc, ← List.drop_drop, List.drop_left' hheader,
      List.drop_append_of_le_length (by omega)]
  have htake : slice (withoutPadding data) (headerBytes + inner) width =
      slice (slice data headerBytes (data.length - (headerBytes + reservedBytes))) inner width := by
    rw [slice, hdrop, List.take_append_of_le_length]
    · rfl
    · rw [List.length_drop, hmiddle]
      omega
  rw [htake, slice_slice hinside]

theorem headD_withoutPadding (hlong : 0 < data.length) :
    (withoutPadding data).headD 0 = data.headD 0 := by
  rcases data with _ | ⟨first, rest⟩
  · cases hlong
  · rfl

/-- A row of places ends where its bytes do. -/
theorem placesFrom_bounds {part : AccountPart} {count offset : Nat} {place : AccountPart × Nat}
    (hplace : place ∈ placesFrom part count offset) :
    offset ≤ place.2 ∧ place.2 + residueBytes ≤ offset + residueBytes * count := by
  obtain ⟨i, hi, rfl⟩ := List.mem_map.1 hplace
  have hmul : residueBytes * (i + 1) ≤ residueBytes * count :=
    Nat.mul_le_mul_left residueBytes (List.mem_range.1 hi)
  rw [Nat.mul_succ] at hmul
  exact ⟨Nat.le_add_right _ _, by omega⟩

/-- Every place lies between the header and the reserve. -/
theorem feltPlaces_bounds {place : AccountPart × Nat} (hplace : place ∈ feltPlaces depth slots) :
    headerBytes ≤ place.2 ∧ place.2 + residueBytes + reservedBytes ≤ bytesFor depth slots := by
  have hstart : frontierOffset = headerBytes + residueBytes + 8 := rfl
  rw [feltPlaces, List.mem_append, List.mem_cons] at hplace
  rw [bytesFor]
  rcases hplace with (rfl | hfrontier) | hhistory
  · exact ⟨Nat.le_refl _, by omega⟩
  · have hbounds := placesFrom_bounds hfrontier
    omega
  · have hbounds := placesFrom_bounds hhistory
    omega

theorem wellFormed_withoutPadding (hlength : data.length = bytesFor depth slots) :
    WellFormed depth slots (withoutPadding data) ↔ WellFormed depth slots data := by
  have hroom : headerBytes + residueBytes + 8 + reservedBytes ≤ data.length := by
    rw [hlength, bytesFor, frontierOffset]
    omega
  have hlengths : (withoutPadding data).length = data.length :=
    length_withoutPadding (by omega)
  have hmarker : (withoutPadding data).headD 0 = data.headD 0 :=
    headD_withoutPadding (by omega)
  have hcount : countedLeaves (withoutPadding data) = countedLeaves data := by
    rw [countedLeaves, slice_withoutPadding (by omega) hroom, countedLeaves]
  have hcanonical : ∀ place ∈ feltPlaces depth slots,
      (Canonical (withoutPadding data) place.2 ↔ Canonical data place.2) := by
    intro place hplace
    obtain ⟨hbegin, hend⟩ := feltPlaces_bounds hplace
    rw [← hlength] at hend
    rw [Canonical, slice_withoutPadding hbegin hend, Canonical]
  constructor
  · rintro ⟨hsize, hmarked, hreduced, hwithin⟩
    refine ⟨hlength, hmarker ▸ hmarked, ?_, hcount ▸ hwithin⟩
    intro place hplace
    exact (hcanonical place hplace).1 (hreduced place hplace)
  · rintro ⟨-, hmarked, hreduced, hwithin⟩
    refine ⟨hlengths.trans hlength, hmarker.trans hmarked, ?_, by rwa [hcount]⟩
    intro place hplace
    exact (hcanonical place hplace).2 (hreduced place hplace)

end Padding

section Exactness

variable {depth slots : Nat} (hdepth : depth < 64) (hsize : bytesFor depth slots < UInt64.size)
  {data : Bytes} {account : LedgerAccount}

include hdepth hsize

theorem parse_of_fits (hfits : account.Fits depth slots) :
    parse depth slots account.toBytes = .ok account := by
  rw [parse_toBytes hdepth hfits, size_eq hsize]
  rfl

theorem wellFormed_of_parsed (hparsed : parse depth slots data = .ok account) :
    WellFormed depth slots data := by
  rcases wellFormed_or_malformed depth slots data with hwell | ⟨defect, hmalformed⟩
  · exact hwell
  · rw [hmalformed.refused hdepth hsize] at hparsed
    cases hparsed

theorem exists_parse_iff :
    (∃ account, parse depth slots data = .ok account) ↔ WellFormed depth slots data := by
  constructor
  · rintro ⟨account, hparsed⟩
    exact wellFormed_of_parsed hdepth hsize hparsed
  · intro hwell
    obtain ⟨account, hparsed, -⟩ := hwell.parsed hdepth hsize
    exact ⟨account, hparsed⟩

theorem reads_parse :
    Reads (parse depth slots)
      (fun account data => data.length = bytesFor depth slots ∧ account.Fits depth slots ∧
        account.toBytes = withoutPadding data)
      (fun data failure => ∃ defect, failure = .treeState defect ∧
        Malformed depth slots data defect) where
  accepts := by
    rintro account data ⟨hlength, hfits, hform⟩
    have hread := parse_of_fits hdepth hsize hfits
    have hwell : WellFormed depth slots data := by
      apply (wellFormed_withoutPadding hlength).1
      rw [← hform]
      exact wellFormed_of_parsed hdepth hsize hread
    obtain ⟨account', hparsed, hfits', hform'⟩ := hwell.parsed hdepth hsize
    -- two accounts of one layout that are written alike are the same
    have hread' := parse_of_fits hdepth hsize hfits'
    rw [hform', ← hform, hread] at hread'
    cases hread'
    exact hparsed
  refuses := by
    rintro data failure ⟨defect, rfl, hmalformed⟩
    exact hmalformed.refused hdepth hsize
  covers := by
    intro data
    rcases wellFormed_or_malformed depth slots data with hwell | ⟨defect, hmalformed⟩
    · obtain ⟨account, -, hfits, hform⟩ := hwell.parsed hdepth hsize
      exact .inl ⟨account, hwell.length_eq, hfits, hform⟩
    · exact .inr ⟨_, defect, rfl, hmalformed⟩

end Exactness

/-- In every layout that has a size, the byte strings that are read as accounts are
the well-formed ones, and every other one is refused as a malformed state, for what
is wrong with it.  An account is read from the bytes that are written for it, and
from no others than those with something else for padding and reserve. -/
theorem account_forms_exact {depth slots : Nat} (hdepth : depth ≤ 63)
    (hsize : bytesFor depth slots < UInt64.size) :
    (∀ data, (∃ account, parse depth slots data = .ok account) ↔ WellFormed depth slots data) ∧
    (∀ data failure, parse depth slots data = .error failure ↔
      ∃ defect, failure = .treeState defect ∧ Malformed depth slots data defect) ∧
    (∀ data account, parse depth slots data = .ok account ↔
      data.length = bytesFor depth slots ∧ account.Fits depth slots ∧
        account.toBytes = withoutPadding data) ∧
    (∀ account : LedgerAccount, account.Fits depth slots →
      parse depth slots account.toBytes = .ok account) := by
  have hbits : depth < 64 := Nat.lt_succ_of_le hdepth
  refine ⟨?_, ?_, ?_, ?_⟩
  · intro data
    exact exists_parse_iff hbits hsize
  · intro data failure
    exact (reads_parse hbits hsize).eq_error_iff
  · intro data account
    exact (reads_parse hbits hsize).eq_ok_iff
  · intro account hfits
    exact parse_of_fits hbits hsize hfits

/-- An account of a tree with two levels and a ring of one root, whose padding and
reserve were written over. -/
theorem account_forms_exact_of_overwritten :
    ∃ (account : LedgerAccount) (data : Bytes), account.Fits 2 1 ∧ data ≠ account.toBytes ∧
      parse 2 1 account.toBytes = .ok account ∧ parse 2 1 data = .ok account := by
  let account : LedgerAccount := ⟨254, 11, 4, [7, 9], [5], 0xffffffff⟩
  let data : Bytes := account.toBytes.take 2 ++ List.replicate 6 0xff ++
    (account.toBytes.drop headerBytes).take (bytesFor 2 1 - (headerBytes + reservedBytes)) ++
    List.replicate reservedBytes 0xff
  have hfits : account.Fits 2 1 := ⟨rfl, rfl, by decide⟩
  have hlength : data.length = bytesFor 2 1 := by decide +kernel
  have hform : account.toBytes = withoutPadding data := by decide +kernel
  have hother : data ≠ account.toBytes := by decide +kernel
  obtain ⟨-, -, hforms, hwritten⟩ :=
    @account_forms_exact 2 1 (by decide) (by decide)
  exact ⟨account, data, hfits, hother, hwritten account hfits,
    (hforms data account).2 ⟨hlength, hfits, hform⟩⟩

end ShieldedPool.LedgerAccount
