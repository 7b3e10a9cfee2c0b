/-
What is published is read back.  Every reader takes its own field off the
front of a written record and leaves the rest, so a record with a payload
within the limit decodes to itself, and the record of an announcement that
could be made is parsed to that announcement.
-/
import ShieldedPool.Proofs.Point.Compression
import ShieldedPool.Proofs.Results
import ShieldedPool.Stealth.Announcement

namespace ShieldedPool.Stealth

namespace Record

theorem take_append {count : Nat} (word : ByteWord count) (rest : Bytes) :
    take count (word.bytes ++ rest) = .ok (word, rest) := by
  have hsplit := Bytes.split?_append word.length_eq rest
  unfold take
  split
  · next hnone =>
      rw [hsplit] at hnone
      cases hnone
  · next head tail hsome =>
      rw [hsplit] at hsome
      cases hsome
      rfl

theorem takeWord64_append (word : UInt64) (rest : Bytes) :
    takeWord64 (Bytes.ofWord64 word ++ rest) = .ok (word, rest) := by
  have htake := take_append ⟨Bytes.ofWord64 word, Bytes.length_ofNatLE 8 word.toNat⟩ rest
  rw [takeWord64, htake, Except.map, Bytes.toWord64_ofWord64]

theorem takeOption_append (option : Option UInt64) (rest : Bytes) :
    takeOption (optionBytes option ++ rest) = .ok (option, rest) := by
  rcases option with _ | word
  · rfl
  · have htake := takeWord64_append word rest
    simp [optionBytes, takeOption, htake, Except.map]

theorem ofBody_body {record : Record} (hpayload : record.payload.length < UInt32.size) :
    ofBody record.body = .ok record := by
  have hlength : record.payload.length =
      Bytes.toNatLE (Bytes.ofNatLE 4 record.payload.length) := by
    rw [Bytes.toNatLE_ofNatLE]
    exact (Nat.mod_eq_of_lt hpayload).symm
  have hlengthField := take_append
    ⟨Bytes.ofNatLE 4 record.payload.length, Bytes.length_ofNatLE 4 _⟩ record.payload
  have hpayloadField := take_append ⟨record.payload, hlength⟩ []
  simp only [List.append_nil] at hlengthField hpayloadField
  simp only [body, ofBody, List.append_assoc, take_append, takeWord64_append,
    takeOption_append, hlengthField, ok_bind, hpayloadField, List.isEmpty_nil, if_true]
  rfl

/-- A record that can be written decodes to itself, unless its payload is over
the limit. -/
theorem decode_encode_eq {record : Record} (hfits : record.payload.length < UInt32.size) :
    decode record.encode =
      if payloadLimit < record.payload.length then
        .error (.payloadTooLong record.payload.length payloadLimit)
      else .ok record := by
  rw [encode, if_pos hfits, decode, ofBody_body hfits, if_neg (not_not_intro rfl)]
  simp only [ok_bind]
  split <;> rfl

theorem decode_encode {record : Record} (hpayload : record.payload.length ≤ payloadLimit) :
    decode record.encode = .ok record := by
  have hfits : record.payload.length < UInt32.size :=
    Nat.lt_of_le_of_lt hpayload (by decide)
  rw [decode_encode_eq hfits, if_neg (Nat.not_lt.2 hpayload)]

/-- What cannot be written is cut off behind the version. -/
theorem decode_encode_of_unwritable {record : Record}
    (hlarge : ¬ record.payload.length < UInt32.size) :
    decode record.encode = .error .truncated := by
  rw [encode, if_neg hlarge]
  rfl

end Record

/-- A published announcement is parsed to itself. -/
theorem Announcement.parse_encode {a : Announcement} (hkey : a.ephemeralPub.ValidKey)
    (hpayload : a.payload.length ≤ Record.payloadLimit) :
    parse a.toRecord.encode = .ok a := by
  have hvalid : a.ephemeralPub.validate = .ok () := Point.validate_eq_ok_iff.2 hkey
  have hdecode : Record.decode a.toRecord.encode = .ok a.toRecord :=
    Record.decode_encode hpayload
  rw [parse, hdecode, ok_bind]
  simp only [ofRecord, toRecord, Point.compressed, Point.decompress_compress hkey.2,
    mapError_ok, ok_bind, hvalid, Felt.ofBytes_toBytes]
  rfl

/-- A longer payload is published, and its record is refused by the reader. -/
theorem Announcement.parse_encode_of_long {a : Announcement}
    (hlong : Record.payloadLimit < a.payload.length) :
    parse a.toRecord.encode =
      if a.payload.length < UInt32.size then
        .error (.payloadTooLong a.payload.length Record.payloadLimit)
      else .error .truncated := by
  rw [parse]
  split
  · next hfits =>
      have hdecode : Record.decode a.toRecord.encode =
          if Record.payloadLimit < a.payload.length then _ else _ :=
        Record.decode_encode_eq hfits
      rw [hdecode, if_pos hlong, error_bind]
      rfl
  · next hlarge =>
      have hdecode : Record.decode a.toRecord.encode = .error .truncated :=
        Record.decode_encode_of_unwritable hlarge
      rw [hdecode, error_bind]

theorem Announcement.exists_defect_of_long {a : Announcement}
    (hlong : Record.payloadLimit < a.payload.length) :
    ∃ defect, parse a.toRecord.encode = .error defect := by
  rw [parse_encode_of_long hlong]
  split <;> exact ⟨_, rfl⟩

end ShieldedPool.Stealth
