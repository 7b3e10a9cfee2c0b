/-
The bytes of announcements.  A byte string is the form of one record, or it goes
on behind such a form, is cut short of one, or shows an option with a tag that is
none; a payload over the limit is refused after all of it was read.  An
announcement asks in addition for a usable key and a commitment that is reduced.
-/
import ShieldedPool.Proofs.Point.CompressedForms
import ShieldedPool.Proofs.Stealth.RecordFields

namespace ShieldedPool.Stealth

namespace Record

section Whole

variable {record : Record} {bytes rest : Bytes} {defect : AnnouncementDefect}

theorem encode_of_writable (hwritable : record.payload.length < UInt32.size) :
    record.encode = version :: record.body := if_pos hwritable

theorem ofBody_of_taken (htaken : takeRecord bytes = .ok (record, rest)) :
    ofBody bytes = if rest.isEmpty then .ok record else .error .trailing := by
  rw [ofBody_eq, htaken, ok_bind]

theorem ofBody_of_refused (hread : takeRecord bytes = .error defect) :
    ofBody bytes = .error defect := by
  rw [ofBody_eq, hread, error_bind]

theorem decode_version (bytes : Bytes) :
    decode (version :: bytes) = ofBody bytes >>= fun record =>
      if payloadLimit < record.payload.length then
        .error (.payloadTooLong record.payload.length payloadLimit)
      else .ok record := by
  rw [decode, if_neg (not_not_intro rfl)]
  rfl

end Whole

/-- What is wrong with a byte string that is read as no record.
* `empty`: there is not even a version.
* `version`: it starts with another version.
* `truncated`: it is the beginning of the form of a record, and something is
  missing.
* `optionTag`: the option in front of the commitment starts with a byte that is
  neither zero nor one.
* `trailing`: it goes on after the form of a record.
* `payloadTooLong`: it is the form of a record whose payload is over the limit. -/
inductive Malformed : Bytes → AnnouncementDefect → Prop
  | empty : Malformed [] .empty
  | version {found : UInt8} {rest : Bytes} (hfound : found ≠ Record.version) :
      Malformed (found :: rest) (.version found Record.version)
  | truncated {record : Record} {bytes missing : Bytes}
      (hwritable : record.payload.length < UInt32.size)
      (hcut : Record.version :: bytes ++ missing = record.encode) (hmissing : missing ≠ []) :
      Malformed (Record.version :: bytes) .truncated
  | optionTag {ephemeralPub : ByteWord Point.compressedBytes} {amount : UInt64} {tag : UInt8}
      {rest : Bytes} (htag : tag ≠ 0 ∧ tag ≠ 1) :
      Malformed (Record.version ::
        (ephemeralPub.bytes ++ (Bytes.ofWord64 amount ++ tag :: rest))) (.optionTag tag)
  | trailing {record : Record} {rest : Bytes} (hwritable : record.payload.length < UInt32.size)
      (hrest : rest ≠ []) : Malformed (record.encode ++ rest) .trailing
  | payloadTooLong {record : Record} (hwritable : record.payload.length < UInt32.size)
      (hlong : payloadLimit < record.payload.length) :
      Malformed record.encode (.payloadTooLong record.payload.length payloadLimit)

theorem Malformed.refused {bytes : Bytes} {defect : AnnouncementDefect}
    (hmalformed : Malformed bytes defect) : decode bytes = .error defect := by
  cases hmalformed with
  | empty => rfl
  | version hfound => rw [decode, if_pos hfound, throw_eq_error, error_bind]
  | truncated hwritable hcut hmissing =>
      rw [encode_of_writable hwritable] at hcut
      have hshort := takeRecord_of_cut hwritable (List.cons.inj hcut).2 hmissing
      rw [decode_version, ofBody_of_refused hshort, error_bind]
  | optionTag htag =>
      rw [decode_version, ofBody_of_refused (takeRecord_of_optionTag _ _ htag _), error_bind]
  | @trailing record rest hwritable hrest =>
      have htaken : takeRecord (record.body ++ rest) = .ok (record, rest) :=
        takeRecord_eq_ok_iff.2 ⟨hwritable, rfl⟩
      rw [encode_of_writable hwritable, List.cons_append, decode_version, ofBody_of_taken htaken,
        if_neg (mt List.isEmpty_iff.1 hrest), error_bind]
  | payloadTooLong hwritable hlong => rw [decode_encode_eq hwritable, if_pos hlong]

/-- Every byte string is the form of a record within the limit or malformed. -/
theorem written_or_malformed (bytes : Bytes) :
    (∃ record : Record, record.payload.length ≤ payloadLimit ∧ record.encode = bytes) ∨
      ∃ defect, Malformed bytes defect := by
  rcases bytes with _ | ⟨found, bytes⟩
  · exact .inr ⟨_, .empty⟩
  · by_cases hfound : found = version
    · subst hfound
      rcases hread : takeRecord bytes with defect | ⟨record, rest⟩
      · rcases takeRecord_error hread with rfl | ⟨ephemeralPub, amount, tag, tail, htag, rfl, rfl⟩
        · obtain ⟨missing, record, hcompleted⟩ := sequential_takeRecord.completable hread
          obtain ⟨hwritable, hbody⟩ := takeRecord_eq_ok_iff.1 hcompleted
          rw [List.append_nil] at hbody
          have hcut : version :: bytes ++ missing = record.encode := by
            rw [encode_of_writable hwritable, hbody, List.cons_append]
          have hmissing : missing ≠ [] := by
            rintro rfl
            rw [List.append_nil, hread] at hcompleted
            cases hcompleted
          exact .inr ⟨_, .truncated hwritable hcut hmissing⟩
        · exact .inr ⟨_, .optionTag htag⟩
      · obtain ⟨hwritable, hbody⟩ := takeRecord_eq_ok_iff.1 hread
        have hform : version :: bytes = record.encode ++ rest := by
          rw [encode_of_writable hwritable, List.cons_append, hbody]
        rw [hform]
        by_cases hrest : rest = []
        · subst hrest
          rw [List.append_nil]
          rcases Nat.lt_or_ge payloadLimit record.payload.length with hlong | hwithin
          · exact .inr ⟨_, .payloadTooLong hwritable hlong⟩
          · exact .inl ⟨record, hwithin, rfl⟩
        · exact .inr ⟨_, .trailing hwritable hrest⟩
    · exact .inr ⟨_, .version hfound⟩

theorem reads_decode :
    Reads decode (fun record bytes => record.payload.length ≤ payloadLimit ∧ record.encode = bytes)
      Malformed where
  accepts := by
    rintro record bytes ⟨hwithin, rfl⟩
    exact decode_encode hwithin
  refuses := Malformed.refused
  covers := by
    intro bytes
    exact written_or_malformed bytes

end Record

namespace Announcement

variable {bytes : Bytes}

/-- What is wrong with a byte string that is read as no announcement: it is the
form of no record within the limit, its key is the code of no point or that of
infinity, or its commitment is not reduced. -/
inductive Malformed : Bytes → AnnouncementDefect → Prop
  | record {bytes : Bytes} {defect : AnnouncementDefect}
      (hmalformed : Record.Malformed bytes defect) : Malformed bytes defect
  | ephemeralKey {record : Record} {defect : PointDefect}
      (hwithin : record.payload.length ≤ Record.payloadLimit)
      (hcode : Point.Malformed record.ephemeralPub.bytes defect) :
      Malformed record.encode (.ephemeralKey defect)
  | infiniteKey {record : Record} (hwithin : record.payload.length ≤ Record.payloadLimit)
      (hcode : record.ephemeralPub.bytes = Point.infinity.compress) :
      Malformed record.encode (.ephemeralKey .infiniteKey)
  | commitment {record : Record} {key : Point}
      (hwithin : record.payload.length ≤ Record.payloadLimit) (hkey : key.ValidKey)
      (hcode : record.ephemeralPub.bytes = key.compress)
      (hlarge : Felt.modulus ≤ Bytes.toNatBE record.commitment.bytes) :
      Malformed record.encode
        (.commitment (.notBelowField (Bytes.toNatBE record.commitment.bytes)))

theorem parse_of_decoded {record : Record} (hdecoded : Record.decode bytes = .ok record) :
    parse bytes = ofRecord record := by
  rw [parse, hdecoded, ok_bind]

theorem ofRecord_of_refused {record : Record} {defect : PointDefect}
    (hkey : Point.decompress record.ephemeralPub.bytes = .error defect) :
    ofRecord record = .error (.ephemeralKey defect) := by
  rw [ofRecord, hkey]
  rfl

theorem ofRecord_of_infinity {record : Record}
    (hkey : record.ephemeralPub.bytes = Point.infinity.compress) :
    ofRecord record = .error (.ephemeralKey .infiniteKey) := by
  rw [ofRecord, hkey]
  rfl

theorem ofRecord_of_large {record : Record} {key : Point} (hkey : key.ValidKey)
    (hcode : record.ephemeralPub.bytes = key.compress)
    (hlarge : Felt.modulus ≤ Bytes.toNatBE record.commitment.bytes) :
    ofRecord record =
      .error (.commitment (.notBelowField (Bytes.toNatBE record.commitment.bytes))) := by
  have hvalid : key.validate = .ok () := Point.validate_eq_ok_iff.2 hkey
  rw [ofRecord, hcode, Point.decompress_compress hkey.2,
    Felt.ofBytes_of_modulus_le record.commitment.length_eq hlarge]
  simp only [mapError_ok, ok_bind, hvalid]
  rfl

theorem Malformed.refused {defect : AnnouncementDefect} (hmalformed : Malformed bytes defect) :
    parse bytes = .error defect := by
  cases hmalformed with
  | record hmalformed => rw [parse, hmalformed.refused, error_bind]
  | ephemeralKey hwithin hcode =>
      rw [parse_of_decoded (Record.decode_encode hwithin)]
      exact ofRecord_of_refused hcode.refused
  | infiniteKey hwithin hcode =>
      rw [parse_of_decoded (Record.decode_encode hwithin)]
      exact ofRecord_of_infinity hcode
  | commitment hwithin hkey hcode hlarge =>
      rw [parse_of_decoded (Record.decode_encode hwithin)]
      exact ofRecord_of_large hkey hcode hlarge

/-- The announcement of a record with a usable key and a reduced commitment. -/
theorem exists_toRecord_eq {record : Record} {key : Point} {commitment : Felt}
    (hcode : record.ephemeralPub.bytes = key.compress)
    (hcommitment : record.commitment.bytes = commitment.toBytes) :
    ∃ a : Announcement, a.ephemeralPub = key ∧ a.payload = record.payload ∧
      a.toRecord = record := by
  obtain ⟨⟨code, hlength⟩, amount, epoch, ⟨field, hfield⟩, leafIndex, createdAt, payload⟩ := record
  cases hcode
  cases hcommitment
  exact ⟨⟨key, amount, epoch, commitment, leafIndex, createdAt, payload⟩, rfl, rfl, rfl⟩

theorem written_or_malformed (bytes : Bytes) :
    (∃ a : Announcement, a.ephemeralPub.ValidKey ∧ a.payload.length ≤ Record.payloadLimit ∧
      a.toRecord.encode = bytes) ∨ ∃ defect, Malformed bytes defect := by
  rcases Record.written_or_malformed bytes with ⟨record, hwithin, rfl⟩ | ⟨defect, hmalformed⟩
  · rcases Point.reads_decompress.covers record.ephemeralPub.bytes with
      ⟨key, hcurve, hcode⟩ | ⟨defect, hcode⟩
    · by_cases hinfinity : key = .infinity
      · subst hinfinity
        exact .inr ⟨_, .infiniteKey hwithin hcode.symm⟩
      · have hkey : key.ValidKey := ⟨hinfinity, hcurve⟩
        rcases Residue.exists_toBytes_or_le Felt.modulus_le_bytes record.commitment.length_eq with
          ⟨commitment, hcommitment⟩ | hlarge
        · obtain ⟨a, rfl, hpayload, hrecord⟩ := exists_toRecord_eq hcode.symm hcommitment
          refine .inl ⟨a, hkey, ?_, ?_⟩
          · rwa [hpayload]
          · rw [hrecord]
        · exact .inr ⟨_, .commitment hwithin hkey hcode.symm hlarge⟩
    · exact .inr ⟨_, .ephemeralKey hwithin hcode⟩
  · exact .inr ⟨_, .record hmalformed⟩

theorem reads_parse :
    Reads parse (fun a bytes => a.ephemeralPub.ValidKey ∧
      a.payload.length ≤ Record.payloadLimit ∧ a.toRecord.encode = bytes) Malformed where
  accepts := by
    rintro a bytes ⟨hkey, hwithin, rfl⟩
    exact parse_encode hkey hwithin
  refuses := Malformed.refused
  covers := by
    intro bytes
    exact written_or_malformed bytes

theorem exists_parse_iff :
    (∃ a, parse bytes = .ok a) ↔
      ∃ (record : Record) (key : Point), Record.decode bytes = .ok record ∧ key.ValidKey ∧
        key.compress = record.ephemeralPub.bytes ∧
        Bytes.toNatBE record.commitment.bytes < Felt.modulus := by
  constructor
  · rintro ⟨a, hparsed⟩
    obtain ⟨hkey, hwithin, rfl⟩ := reads_parse.eq_ok_iff.1 hparsed
    refine ⟨a.toRecord, a.ephemeralPub, Record.decode_encode hwithin, hkey, rfl, ?_⟩
    calc Bytes.toNatBE a.commitment.toBytes = a.commitment.val := a.commitment.toNatBE_toBytes
      _ < Felt.modulus := a.commitment.val_lt
  · rintro ⟨record, key, hdecoded, hkey, hcode, hlt⟩
    obtain ⟨hwithin, rfl⟩ := Record.reads_decode.eq_ok_iff.1 hdecoded
    have hcommitment : record.commitment.bytes = (⟨_, hlt⟩ : Felt).toBytes :=
      (Residue.eq_toBytes_iff Felt.modulus_le_bytes).2 ⟨record.commitment.length_eq, rfl⟩
    obtain ⟨a, rfl, hpayload, hrecord⟩ := exists_toRecord_eq hcode.symm hcommitment
    refine ⟨a, reads_parse.eq_ok_iff.2 ⟨hkey, ?_, ?_⟩⟩
    · rwa [hpayload]
    · rw [hrecord]

/-- The byte strings that are read as records are the written forms of the records
within the limit, one of each, and those that are read as announcements are the
forms of announcements with a usable key: the records whose key is the code of a
usable one and whose commitment is reduced.  Every other byte string is refused
for what is wrong with it. -/
theorem announcement_forms_exact :
    (∀ bytes record, Record.decode bytes = .ok record ↔
      record.payload.length ≤ Record.payloadLimit ∧ record.encode = bytes) ∧
    (∀ bytes defect, Record.decode bytes = .error defect ↔ Record.Malformed bytes defect) ∧
    (∀ bytes a, parse bytes = .ok a ↔ a.ephemeralPub.ValidKey ∧
      a.payload.length ≤ Record.payloadLimit ∧ a.toRecord.encode = bytes) ∧
    (∀ bytes, (∃ a, parse bytes = .ok a) ↔
      ∃ (record : Record) (key : Point), Record.decode bytes = .ok record ∧ key.ValidKey ∧
        key.compress = record.ephemeralPub.bytes ∧
        Bytes.toNatBE record.commitment.bytes < Felt.modulus) ∧
    (∀ bytes defect, parse bytes = .error defect ↔ Malformed bytes defect) := by
  refine ⟨?_, ?_, ?_, ?_, ?_⟩
  · intro bytes record
    exact Record.reads_decode.eq_ok_iff
  · intro bytes defect
    exact Record.reads_decode.eq_error_iff
  · intro bytes a
    exact reads_parse.eq_ok_iff
  · intro bytes
    exact exists_parse_iff
  · intro bytes defect
    exact reads_parse.eq_error_iff

end Announcement

end ShieldedPool.Stealth
