/-
What a pass over a feed reports.  Every record is looked at alone, at its place
in the feed: a pass gives what is found there, in order, and passes over the
records where nothing is found.
-/
import ShieldedPool.Stealth.Detection

namespace ShieldedPool.Stealth

variable {κ : Type} [ScanKey κ] {protocol : Protocol} {key : κ}

theorem findIn_position {position : Nat} {record : Bytes} {found : Match}
    (hfound : protocol.findIn key position record = some found) :
    found.position = position := by
  rw [Protocol.findIn] at hfound
  rcases hparse : Announcement.parse record with defect | a
  · simp [hparse] at hfound
  · rcases hdetect : protocol.detect key a with refusal | _ | stealthPub
    · simp [hparse, hdetect] at hfound
    · simp [hparse, hdetect] at hfound
    · simp only [hparse, hdetect, Option.some.injEq] at hfound
      rw [← hfound]

theorem findIn_of_detected {position : Nat} {record : Bytes} {a : Announcement}
    {stealthPub : Point} (hparse : Announcement.parse record = .ok a)
    (hdetect : protocol.detect key a = .ok (some stealthPub)) :
    protocol.findIn key position record = some ⟨position, a, stealthPub⟩ := by
  simp only [Protocol.findIn, hparse, hdetect]

theorem findIn_of_unreadable {position : Nat} {record : Bytes} {defect : AnnouncementDefect}
    (hparse : Announcement.parse record = .error defect) :
    protocol.findIn key position record = none := by
  simp only [Protocol.findIn, hparse]

namespace Scanner

theorem toList_of_next_none {scanner : Scanner κ} (hnext : scanner.next = none) :
    scanner.toList = [] := by
  rw [toList]
  split
  · rfl
  · next hsome => simp [hnext] at hsome

theorem toList_of_next_some {scanner after : Scanner κ} {found : Match}
    (hnext : scanner.next = some (found, after)) :
    scanner.toList = found :: after.toList := by
  rw [toList]
  split
  · next hnone => simp [hnext] at hnone
  · next hsome =>
      rw [hnext, Option.some.injEq, Prod.mk.injEq] at hsome
      rw [hsome.1, hsome.2]

variable (position : Nat) (record : Bytes) (records : List Bytes)

/-- The pass goes on behind a record where it has found something. -/
theorem toList_cons_of_found {found : Match}
    (hfound : protocol.findIn key position record = some found) :
    toList ⟨protocol, key, position, record :: records⟩ =
      found :: toList ⟨protocol, key, position + 1, records⟩ := by
  apply toList_of_next_some
  simp only [next, findFrom, hfound, Option.map_some, findIn_position hfound]

theorem toList_cons_of_nothing (hnothing : protocol.findIn key position record = none) :
    toList ⟨protocol, key, position, record :: records⟩ =
      toList ⟨protocol, key, position + 1, records⟩ := by
  have hnext : next ⟨protocol, key, position, record :: records⟩ =
      next ⟨protocol, key, position + 1, records⟩ := by
    simp only [next, findFrom, hnothing]
  rcases hbehind : next ⟨protocol, key, position + 1, records⟩ with _ | ⟨found, after⟩
  · rw [toList_of_next_none hbehind, toList_of_next_none (hnext.trans hbehind)]
  · rw [toList_of_next_some hbehind, toList_of_next_some (hnext.trans hbehind)]

theorem toList_eq_filterMap :
    toList ⟨protocol, key, position, records⟩ =
      (records.zipIdx position).filterMap fun entry =>
        protocol.findIn key entry.2 entry.1 := by
  induction records generalizing position with
  | nil => exact toList_of_next_none rfl
  | cons record records ih =>
      rw [List.zipIdx_cons, List.filterMap_cons]
      rcases hfound : protocol.findIn key position record with _ | found
      · rw [toList_cons_of_nothing position record records hfound]
        exact ih (position + 1)
      · rw [toList_cons_of_found position record records hfound, ih (position + 1)]

end Scanner

/-- A scan reports what is found in the record at its place. -/
theorem mem_scan_iff {records : List Bytes} {found : Match} :
    found ∈ (protocol.scan key records).toList ↔
      ∃ record, records[found.position]? = some record ∧
        protocol.findIn key found.position record = some found := by
  rw [Protocol.scan, Scanner.toList_eq_filterMap, List.mem_filterMap]
  constructor
  · rintro ⟨⟨record, position⟩, hentry, hfound⟩
    rw [findIn_position hfound]
    exact ⟨record, List.mem_zipIdx_iff_getElem?.1 hentry, hfound⟩
  · rintro ⟨record, hrecord, hfound⟩
    exact ⟨⟨record, found.position⟩, List.mem_zipIdx_iff_getElem?.2 hrecord, hfound⟩

end ShieldedPool.Stealth
