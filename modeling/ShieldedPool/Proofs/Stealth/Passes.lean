/-
A pass over a feed as a machine that is called.  Each call takes one payment
off those that are left, so the answers of a pass are its payments in the order
of the feed, and whoever goes on from where a pass stands finds the rest.
-/
import ShieldedPool.Proofs.Stealth.Ownership
import ShieldedPool.Proofs.Stealth.Scanning

namespace ShieldedPool.Stealth

section Calls

variable {κ : Type} [ScanKey κ] {protocol : Protocol} {key : κ}

namespace Scanner

/-- A call takes the first payment off those that are left. -/
theorem call_eq_uncons (scanner : Scanner κ) :
    scanner.call.1 = scanner.toList.head? ∧
      scanner.call.2.toList = scanner.toList.tail := by
  obtain ⟨protocol, key, position, records⟩ := scanner
  induction records generalizing position with
  | nil =>
      have hempty : toList ⟨protocol, key, position, []⟩ = [] := toList_of_next_none rfl
      rw [show call ⟨protocol, key, position, []⟩ = (none, ⟨protocol, key, position, []⟩) from rfl,
        hempty]
      exact ⟨rfl, rfl⟩
  | cons record records ih =>
      rcases hfound : protocol.findIn key position record with _ | found
      · have hcall : call ⟨protocol, key, position, record :: records⟩ =
            call ⟨protocol, key, position + 1, records⟩ := by
          simp only [call, readFrom, hfound]
        rw [hcall, toList_cons_of_nothing position record records hfound]
        exact ih (position + 1)
      · have hcall : call ⟨protocol, key, position, record :: records⟩ =
            (some found, ⟨protocol, key, position + 1, records⟩) := by
          simp only [call, readFrom, hfound]
        rw [hcall, toList_cons_of_found position record records hfound]
        exact ⟨rfl, rfl⟩

theorem calls_succ (scanner : Scanner κ) (count : Nat) :
    scanner.calls (count + 1) =
      (scanner.call.1 :: (scanner.call.2.calls count).1, (scanner.call.2.calls count).2) :=
  rfl

/-- The answers are the payments that were left, in order, and nothing behind the
last one.  As many payments fewer are left. -/
theorem calls_eq (scanner : Scanner κ) (count : Nat) :
    (scanner.calls count).1 = (List.range count).map (scanner.toList[·]?) ∧
      (scanner.calls count).2.toList = scanner.toList.drop count := by
  induction count generalizing scanner with
  | zero => exact ⟨rfl, rfl⟩
  | succ count ih =>
      obtain ⟨hanswer, hleft⟩ := scanner.call_eq_uncons
      obtain ⟨hanswers, hrest⟩ := ih scanner.call.2
      rw [hleft] at hanswers hrest
      rw [calls_succ, hanswer, hanswers, hrest, List.drop_tail]
      refine ⟨?_, rfl⟩
      rw [List.range_succ_eq_map, List.map_cons, List.map_map, List.head?_eq_getElem?]
      simp only [List.getElem?_tail, Function.comp_def]

end Scanner

theorem findIn_eq_some_iff {position : Nat} {record : Bytes} {found : Match} :
    protocol.findIn key position record = some found ↔
      found.position = position ∧ Announcement.parse record = .ok found.announcement ∧
        protocol.detect key found.announcement = .ok (some found.stealthPub) := by
  constructor
  · intro hfound
    refine ⟨findIn_position hfound, ?_⟩
    rw [Protocol.findIn] at hfound
    split at hfound
    · cases hfound
    · next a hparse =>
        split at hfound
        · next stealthPub hdetect =>
            cases hfound
            exact ⟨hparse, hdetect⟩
        · cases hfound
        · cases hfound
  · rintro ⟨rfl, hparse, hdetect⟩
    exact findIn_of_detected hparse hdetect

/-- The places of the payments go up. -/
theorem pairwise_position_scan (records : List Bytes) :
    (protocol.scan key records).toList.Pairwise (·.position < ·.position) := by
  have hplaces : (records.zipIdx.map Prod.snd).Pairwise (· < ·) := by
    rw [List.zipIdx_map_snd]
    exact List.pairwise_lt_range'
  rw [Protocol.scan, Scanner.toList_eq_filterMap, List.pairwise_filterMap]
  refine (List.pairwise_map.1 hplaces).imp ?_
  intro earlier later hlt found hfound other hother
  rw [findIn_position hfound, findIn_position hother]
  exact hlt

end Calls

/-- Both keys hold what detection reads of them. -/
theorem findIn_viewingKey (protocol : Protocol) (keys : Keys) (position : Nat)
    (record : Bytes) :
    protocol.findIn keys.viewingKey position record = protocol.findIn keys position record :=
  rfl

/-- What a recipient gets from a feed. -/
structure Filtered (protocol : Protocol) (keys : Keys) (records : List Bytes)
    (found : List Match) : Prop where
  /-- Each payment is read and detected in the record at its place, and each
  record that is read and detected is a payment. -/
  mem_iff : ∀ payment, payment ∈ found ↔
    ∃ record, records[payment.position]? = some record ∧
      Announcement.parse record = .ok payment.announcement ∧
      protocol.detect keys payment.announcement = .ok (some payment.stealthPub)
  in_order : found.Pairwise (·.position < ·.position)
  answers : ∀ count, ((protocol.scan keys records).calls count).1 =
    (List.range count).map (found[·]?)
  resumed : ∀ count, ((protocol.scan keys records).calls count).2.clone.toList =
    found.drop count
  viewing : (protocol.scan keys.viewingKey records).toList = found

/-- A scan filters the feed: it reports what is found in each record at the
record's place, in order and once each, however it is called and with either key,
and a second pass started anywhere reports the rest. -/
theorem scan_filters (protocol : Protocol) (keys : Keys) (records : List Bytes) :
    Filtered protocol keys records (protocol.scan keys records).toList where
  mem_iff payment := by
    rw [mem_scan_iff]
    constructor
    · rintro ⟨record, hrecord, hfound⟩
      exact ⟨record, hrecord, (findIn_eq_some_iff.1 hfound).2⟩
    · rintro ⟨record, hrecord, hfound⟩
      exact ⟨record, hrecord, findIn_eq_some_iff.2 ⟨rfl, hfound⟩⟩
  in_order := pairwise_position_scan records
  answers count := (Scanner.calls_eq _ count).1
  resumed count := (Scanner.calls_eq _ count).2
  viewing := by
    simp only [Protocol.scan, Scanner.toList_eq_filterMap, findIn_viewingKey]

end ShieldedPool.Stealth
