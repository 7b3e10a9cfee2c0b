/-
What a sender can publish and a recipient can read.  The fields that a payment
computes always pass the reader, and the payload has a limit that only the
reader knows: an announcement with a longer one is made and written like any
other, and every scan passes over its record.
-/
import ShieldedPool.Proofs.Stealth.Agreement
import ShieldedPool.Proofs.Stealth.Scanning

namespace ShieldedPool.Stealth

open Point (mulGenerator)

/-- Wherever the record of the announcement is in a feed, a scan reports the
payment there if its payload is within the limit, and else nothing. -/
def Protocol.ScansTo {κ : Type} [ScanKey κ] (protocol : Protocol) (key : κ) (a : Announcement)
    (stealthPub : Point) : Prop :=
  ∀ (records : List Bytes) (position : Nat), records[position]? = some a.toRecord.encode →
    ∀ found : Match, found.position = position →
      (found ∈ (protocol.scan key records).toList ↔
        a.payload.length ≤ Record.payloadLimit ∧ found = ⟨position, a, stealthPub⟩)

/-- How the record of an announcement is read: as the announcement if its payload
is within the limit, else not at all; and what its recipient's scans report. -/
structure Published (protocol : Protocol) (recipient : MetaAddress) (output : Output)
    (a : Announcement) : Prop where
  parsed : a.payload.length ≤ Record.payloadLimit →
    Announcement.parse a.toRecord.encode = .ok a
  too_long : Record.payloadLimit < a.payload.length → a.payload.length < UInt32.size →
    Announcement.parse a.toRecord.encode =
      .error (.payloadTooLong a.payload.length Record.payloadLimit)
  scanned : ∀ keys : Keys, keys.metaAddress = recipient →
    protocol.ScansTo keys a output.stealthPub ∧
      protocol.ScansTo keys.viewingKey a output.stealthPub

variable {protocol : Protocol} {a : Announcement}

/-- A payment that is sent has a usable public key. -/
theorem validKey_of_send {recipient : MetaAddress} {amount : UInt64} {epoch : Option UInt64}
    {ephemeral : Scalar} {output : Output}
    (hsend : protocol.send recipient amount epoch ephemeral = .ok output) :
    output.ephemeralPub.ValidKey := by
  obtain ⟨⟨⟩, -, hsend⟩ := bind_eq_ok_iff.1 hsend
  by_cases hzero : ephemeral = 0
  · rw [if_pos hzero] at hsend
    cases hsend
  · rw [if_neg hzero] at hsend
    obtain ⟨key, -, houtput⟩ := bind_eq_ok_iff.1 hsend
    cases houtput
    exact Point.validKey_mulGenerator hzero

theorem scansTo_of_detected {κ : Type} [ScanKey κ] {key : κ} {stealthPub : Point}
    (hkey : a.ephemeralPub.ValidKey)
    (hdetect : protocol.detect key a = .ok (some stealthPub)) :
    protocol.ScansTo key a stealthPub := by
  intro records position hrecord found hposition
  rw [mem_scan_iff]
  constructor
  · rintro ⟨record, hthere, hfound⟩
    rw [hposition] at hthere hfound
    obtain rfl := Option.some.inj (hrecord.symm.trans hthere)
    by_cases hpayload : a.payload.length ≤ Record.payloadLimit
    · rw [findIn_of_detected (Announcement.parse_encode hkey hpayload) hdetect] at hfound
      exact ⟨hpayload, (Option.some.inj hfound).symm⟩
    · obtain ⟨defect, hrefused⟩ := Announcement.exists_defect_of_long
        (Nat.lt_of_not_le hpayload)
      rw [findIn_of_unreadable hrefused] at hfound
      cases hfound
  · rintro ⟨hpayload, rfl⟩
    exact ⟨_, hrecord, findIn_of_detected (Announcement.parse_encode hkey hpayload) hdetect⟩

/-- Every payment that is sent is announced readably with a payload within the
limit, and found by every scan of its recipient; a longer payload hides it. -/
theorem sent_payment_published (protocol : Protocol) (recipient : MetaAddress)
    (amount : UInt64) (epoch : Option UInt64) (ephemeral : Scalar) {output : Output}
    (hsend : protocol.send recipient amount epoch ephemeral = .ok output)
    (leafIndex : UInt64) (createdAt : Int64) (payload : Bytes) :
    Published protocol recipient output (output.announcement leafIndex createdAt payload) := by
  have hkey : (output.announcement leafIndex createdAt payload).ephemeralPub.ValidKey :=
    validKey_of_send hsend
  refine ⟨Announcement.parse_encode hkey, ?_, ?_⟩
  · intro hlong hfits
    rw [Announcement.parse_encode_of_long hlong, if_pos hfits]
  · rintro keys rfl
    obtain ⟨hephemeral, x, y, hpoint, rfl⟩ := send_eq_ok_iff.1 hsend
    constructor
    · exact scansTo_of_detected hkey (detect_eq rfl rfl hephemeral hpoint rfl rfl)
    · exact scansTo_of_detected hkey (detect_eq rfl rfl hephemeral hpoint rfl rfl)

section Example

/-- A payment to the secrets two and three with the fresh secret five. -/
theorem exists_payment_of_five :
    ∃ keys output, Keys.ofScalars 2 3 .zeroSecret = .ok keys ∧
      Protocol.standard.send keys.metaAddress 7 none 5 = .ok output := by
  have hsecrets : (2 : Scalar) ≠ 0 ∧ (3 : Scalar) ≠ 0 := by decide
  have hfive : (5 : Scalar) ≠ 0 := by decide
  have hopen : 3 + deriveTweak ((mulGenerator 2).mul 5) Protocol.standard.domainTag ≠ 0 := by
    decide +kernel
  rcases hpoint : mulGenerator
    (3 + deriveTweak ((mulGenerator 2).mul 5) Protocol.standard.domainTag) with _ | ⟨x, y⟩
  · exact absurd (Point.mulGenerator_eq_infinity_iff.1 hpoint) hopen
  · exact ⟨⟨2, 3, _, _, hsecrets.1, hsecrets.2, rfl, rfl⟩, _, dif_pos hsecrets,
      send_eq_ok_iff.2 ⟨hfive, x, y, hpoint, rfl⟩⟩

/-- A payload of two bytes, behind a record that cannot be read. -/
theorem sent_payment_published_short :
    ∃ keys output, Keys.ofScalars 2 3 .zeroSecret = .ok keys ∧
      Protocol.standard.send keys.metaAddress 7 none 5 = .ok output ∧
      let a := output.announcement 4 60 [0x2a, 0x2b]
      Published Protocol.standard keys.metaAddress output a ∧
        ⟨1, a, output.stealthPub⟩ ∈
          (Protocol.standard.scan keys [[], a.toRecord.encode]).toList := by
  obtain ⟨keys, output, hkeys, hsend⟩ := exists_payment_of_five
  have hpublished := sent_payment_published Protocol.standard _ 7 none 5 hsend 4 60 [0x2a, 0x2b]
  have hshort : [0x2a, 0x2b].length ≤ Record.payloadLimit := by decide
  obtain ⟨hscans, -⟩ := hpublished.scanned keys rfl
  exact ⟨keys, output, hkeys, hsend, hpublished, (hscans _ 1 rfl _ rfl).2 ⟨hshort, rfl⟩⟩

/-- One byte over the limit the record is refused, and a scan of it finds nothing. -/
theorem long_payload_unread :
    ∃ keys output, Keys.ofScalars 2 3 .zeroSecret = .ok keys ∧
      Protocol.standard.send keys.metaAddress 7 none 5 = .ok output ∧
      let a := output.announcement 0 0 (List.replicate 1025 0)
      Announcement.parse a.toRecord.encode = .error (.payloadTooLong 1025 1024) ∧
        (Protocol.standard.scan keys [a.toRecord.encode]).toList = [] := by
  obtain ⟨keys, output, hkeys, hsend⟩ := exists_payment_of_five
  refine ⟨keys, output, hkeys, hsend, ?_⟩
  intro a
  have hlength : a.payload.length = 1025 := List.length_replicate
  have hlong : Record.payloadLimit < a.payload.length := by
    rw [hlength]
    decide
  have hfits : a.payload.length < UInt32.size := by
    rw [hlength]
    decide
  have hparse := Announcement.parse_encode_of_long hlong
  rw [if_pos hfits, hlength] at hparse
  refine ⟨hparse, ?_⟩
  rw [Protocol.scan, Scanner.toList_cons_of_nothing _ _ _ (findIn_of_unreadable hparse)]
  exact Scanner.toList_of_next_none rfl

end Example

end ShieldedPool.Stealth
