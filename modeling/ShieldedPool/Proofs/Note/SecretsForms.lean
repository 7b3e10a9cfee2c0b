/-
The binary form of note secrets.  Eight parts follow one another, and the flags
say which of the last three are there.  A byte string either is the form of some
secrets or goes wrong at a first place: it ends inside a part, holds a version,
a number or flags that no secrets are written with, or goes on after the end.
So no byte string is read in two ways, and every one that is cut short, changed
where only one value is allowed or extended is refused.
-/
import ShieldedPool.Proofs.Note.SecretsCodec

namespace ShieldedPool

namespace SecretsPart

/-- The parts in the order in which they are written. -/
def inOrder : List SecretsPart :=
  [version, amount, privateScalar, auxSecret, flags, leafIndex, commitment, nullifierHash]

theorem takeWhile_inOrder {part : SecretsPart} {pre post : List SecretsPart}
    (horder : inOrder = pre ++ part :: post) : inOrder.takeWhile (· ≠ part) = pre := by
  have hnodup : (pre ++ part :: post).Nodup := horder ▸ (by decide : inOrder.Nodup)
  have hfresh : ∀ earlier ∈ pre, decide (earlier ≠ part) = true := by
    intro earlier hearlier
    have hne := (List.nodup_append.1 hnodup).2.2 earlier hearlier part List.mem_cons_self
    exact decide_eq_true hne
  have hstop : (part :: post).takeWhile (· ≠ part) = [] :=
    List.takeWhile_cons_of_neg (by simp)
  rw [horder, List.takeWhile_append_of_pos hfresh, hstop, List.append_nil]

end SecretsPart

/-- Pieces in a row, cut anywhere, end inside one of them. -/
theorem take_flatMap_of_lt {ι β : Type} {write : ι → List β} :
    ∀ {parts : List ι} {cut : Nat}, cut < (parts.flatMap write).length →
      ∃ pre part post tail, parts = pre ++ part :: post ∧ tail.length < (write part).length ∧
        (parts.flatMap write).take cut = pre.flatMap write ++ tail := by
  intro parts
  induction parts with
  | nil =>
      intro cut hcut
      exact absurd hcut (Nat.not_lt_zero _)
  | cons first parts ih =>
      intro cut hcut
      rw [List.flatMap_cons, List.length_append] at hcut
      rcases Nat.lt_or_ge cut (write first).length with hinside | hpast
      · refine ⟨[], first, parts, (write first).take cut, rfl, ?_, ?_⟩
        · rw [List.length_take]
          exact Nat.lt_of_le_of_lt (Nat.min_le_left _ _) hinside
        · exact List.take_append_of_le_length (Nat.le_of_lt hinside)
      · have hrest : cut - (write first).length < (parts.flatMap write).length := by omega
        obtain ⟨pre, part, post, tail, rfl, hshort, htake⟩ := ih hrest
        refine ⟨first :: pre, part, post, tail, rfl, hshort, ?_⟩
        have hcutAt : cut = (write first).length + (cut - (write first).length) := by omega
        rw [List.flatMap_cons, hcutAt, List.take_length_add_append, htake, List.flatMap_cons,
          List.append_assoc]

namespace NoteSecrets

section Parts

variable (secrets : NoteSecrets)

/-- The bytes of a part; none if the part is absent. -/
def written : SecretsPart → Bytes
  | .version => [secrets.version]
  | .amount => Bytes.ofWord64 secrets.amount
  | .privateScalar => secrets.privateScalar.toBytes
  | .auxSecret => secrets.auxSecret.toBytes
  | .flags => [secrets.flags]
  | .leafIndex => optionalBytes Bytes.ofWord64 secrets.leafIndex
  | .commitment => optionalBytes Residue.toBytes secrets.commitment
  | .nullifierHash => optionalBytes Residue.toBytes secrets.nullifierHash

/-- The bytes in front of a part. -/
def before (part : SecretsPart) : Bytes :=
  (SecretsPart.inOrder.takeWhile (· ≠ part)).flatMap secrets.written

theorem toBytes_eq_flatMap :
    secrets.toBytes = SecretsPart.inOrder.flatMap secrets.written := by
  simp [toBytes, SecretsPart.inOrder, written]

theorem before_eq_flatMap {part : SecretsPart} {pre post : List SecretsPart}
    (horder : SecretsPart.inOrder = pre ++ part :: post) :
    secrets.before part = pre.flatMap secrets.written := by
  rw [before, SecretsPart.takeWhile_inOrder horder]

end Parts

/-- What is wrong with a byte string, at the first place where it is wrong.
* `truncated`: it ends inside a part.
* `version`: it starts with another version.
* `notCanonical`: a field element is written that is not reduced.
* `unknownFlags`: a flag is set that is none of the three.
* `trailing`: it goes on after the form of some secrets. -/
inductive Malformed : Bytes → NoteDefect → Prop
  | truncated {secrets : NoteSecrets} {part : SecretsPart} {tail : Bytes}
      (hversion : secrets.version = currentVersion)
      (hshort : tail.length < (secrets.written part).length) :
      Malformed (secrets.before part ++ tail) (.truncatedBefore part)
  | version {found : UInt8} {rest : Bytes} (hfound : found ≠ currentVersion) :
      Malformed (found :: rest) (.version found)
  | notCanonical {secrets : NoteSecrets} {part : SecretsPart} {field rest : Bytes}
      (hversion : secrets.version = currentVersion)
      (hpart : (secrets.written part).length = residueBytes)
      (hlength : field.length = residueBytes) (hlarge : Felt.modulus ≤ Bytes.toNatBE field) :
      Malformed (secrets.before part ++ (field ++ rest)) (.notCanonical part)
  | unknownFlags {secrets : NoteSecrets} {flags : UInt8} {rest : Bytes}
      (hversion : secrets.version = currentVersion) (hunknown : 8 ≤ flags.toNat) :
      Malformed (secrets.before .flags ++ flags :: rest) (.unknownFlags flags)
  | trailing {secrets : NoteSecrets} {rest : Bytes}
      (hversion : secrets.version = currentVersion) (hrest : rest ≠ []) :
      Malformed (secrets.toBytes ++ rest) (.trailing rest.length)

section Coverage

variable {secrets : NoteSecrets} {part : SecretsPart} {head bytes : Bytes}

/-- The bytes are those of the part in secrets that agree up to there. -/
def Fills (secrets : NoteSecrets) (part : SecretsPart) (head : Bytes) : Prop :=
  ∃ filled : NoteSecrets, filled.version = currentVersion ∧
    filled.before part = secrets.before part ∧ filled.written part = head

/-- Secrets with those optional parts that the flags say are there. -/
def withFlags (secrets : NoteSecrets) (flags : UInt8) : NoteSecrets :=
  { secrets with
    leafIndex := if flags.toNat.testBit 0 then some 0 else none
    commitment := if flags.toNat.testBit 1 then some 0 else none
    nullifierHash := if flags.toNat.testBit 2 then some 0 else none }

theorem flags_withFlags {flags : UInt8} (hknown : flags.toNat < 8) (secrets : NoteSecrets) :
    (secrets.withFlags flags).flags = flags := by
  have hall : ∀ known < 8, (withFlags ⟨0, 0, 0, 0, none, none, none⟩ (UInt8.ofNat known)).flags =
      UInt8.ofNat known := by decide
  have hflags := hall flags.toNat hknown
  rw [UInt8.ofNat_toNat] at hflags
  exact hflags

theorem felt_fills (part : SecretsPart) (hversion : secrets.version = currentVersion)
    (hpart : (secrets.written part).length = residueBytes)
    (hlength : head.length = residueBytes) (hset : ∀ a : Felt, Fills secrets part a.toBytes)
    (rest : Bytes) :
    Fills secrets part head ∨
      ∃ defect, Malformed (secrets.before part ++ (head ++ rest)) defect := by
  rcases Residue.exists_toBytes_or_le Felt.modulus_le_bytes hlength with ⟨a, rfl⟩ | hlarge
  · exact .inl (hset a)
  · exact .inr ⟨_, .notCanonical hversion hpart hlength hlarge⟩

/-- Bytes in the place of a part, as many as the part has, are those of a part or
go wrong there. -/
theorem fills_or_malformed (hversion : secrets.version = currentVersion)
    (hlength : head.length = (secrets.written part).length) (rest : Bytes) :
    Fills secrets part head ∨
      ∃ defect, Malformed (secrets.before part ++ (head ++ rest)) defect := by
  cases part with
  | version =>
      obtain ⟨found, rfl⟩ := List.length_eq_one_iff.1 hlength
      by_cases hfound : found = currentVersion
      · exact .inl ⟨secrets, hversion, rfl, by rw [written, hversion, hfound]⟩
      · exact .inr ⟨_, .version hfound⟩
  | amount =>
      have hword := Bytes.ofWord64_toWord64 (hlength.trans (Bytes.length_ofNatLE 8 _))
      exact .inl ⟨{ secrets with amount := Bytes.toWord64 head }, hversion, rfl, hword⟩
  | privateScalar =>
      have hpart := secrets.privateScalar.length_toBytes
      refine felt_fills .privateScalar hversion hpart (hlength.trans hpart) ?_ rest
      intro a
      exact ⟨{ secrets with privateScalar := a }, hversion, rfl, rfl⟩
  | auxSecret =>
      have hpart := secrets.auxSecret.length_toBytes
      refine felt_fills .auxSecret hversion hpart (hlength.trans hpart) ?_ rest
      intro a
      exact ⟨{ secrets with auxSecret := a }, hversion, rfl, rfl⟩
  | flags =>
      obtain ⟨flags, rfl⟩ := List.length_eq_one_iff.1 hlength
      rcases Nat.lt_or_ge flags.toNat 8 with hknown | hunknown
      · have hflags := flags_withFlags hknown secrets
        exact .inl ⟨secrets.withFlags flags, hversion, rfl, congrArg (fun byte => [byte]) hflags⟩
      · exact .inr ⟨_, .unknownFlags hversion hunknown⟩
  | leafIndex =>
      obtain ⟨version, amount, privateScalar, auxSecret, leafIndex, commitment, hash⟩ := secrets
      rcases leafIndex with _ | index
      · exact .inl ⟨_, hversion, rfl, (List.length_eq_zero_iff.1 hlength).symm⟩
      · have hword := Bytes.ofWord64_toWord64 (hlength.trans (Bytes.length_ofNatLE 8 _))
        exact .inl ⟨⟨version, amount, privateScalar, auxSecret, some (Bytes.toWord64 head),
          commitment, hash⟩, hversion, rfl, hword⟩
  | commitment =>
      obtain ⟨version, amount, privateScalar, auxSecret, leafIndex, commitment, hash⟩ := secrets
      rcases commitment with _ | stored
      · exact .inl ⟨_, hversion, rfl, (List.length_eq_zero_iff.1 hlength).symm⟩
      · have hpart := stored.length_toBytes
        refine felt_fills .commitment hversion hpart (hlength.trans hpart) ?_ rest
        intro a
        exact ⟨⟨version, amount, privateScalar, auxSecret, leafIndex, some a, hash⟩, hversion, rfl,
          rfl⟩
  | nullifierHash =>
      obtain ⟨version, amount, privateScalar, auxSecret, leafIndex, commitment, hash⟩ := secrets
      rcases hash with _ | stored
      · exact .inl ⟨_, hversion, rfl, (List.length_eq_zero_iff.1 hlength).symm⟩
      · have hpart := stored.length_toBytes
        refine felt_fills .nullifierHash hversion hpart (hlength.trans hpart) ?_ rest
        intro a
        exact ⟨⟨version, amount, privateScalar, auxSecret, leafIndex, commitment, some a⟩, hversion,
          rfl, rfl⟩

/-- By induction on the parts that are left: the bytes go on as the form of some
secrets to its end, or go wrong. -/
theorem goes_on_or_malformed {pre post : List SecretsPart} {rest : Bytes}
    (horder : SecretsPart.inOrder = pre ++ post) (hversion : secrets.version = currentVersion)
    (hbytes : bytes = pre.flatMap secrets.written ++ rest) :
    (∃ (last : NoteSecrets) (trailing : Bytes),
      last.version = currentVersion ∧ bytes = last.toBytes ++ trailing) ∨
      ∃ defect, Malformed bytes defect := by
  induction post generalizing pre secrets rest with
  | nil =>
      rw [List.append_nil] at horder
      rw [← horder, ← toBytes_eq_flatMap] at hbytes
      exact .inl ⟨secrets, rest, hversion, hbytes⟩
  | cons part post ih =>
      rw [← secrets.before_eq_flatMap horder] at hbytes
      subst hbytes
      rcases Nat.lt_or_ge rest.length (secrets.written part).length with hshort | henough
      · exact .inr ⟨_, .truncated hversion hshort⟩
      · have hlength : (rest.take (secrets.written part).length).length =
            (secrets.written part).length := List.length_take_of_le henough
        have hsplit := List.take_append_drop (secrets.written part).length rest
        rcases fills_or_malformed hversion hlength (rest.drop (secrets.written part).length) with
          ⟨filled, hfilled, hbefore, hwritten⟩ | hmalformed
        · have hnext : SecretsPart.inOrder = (pre ++ [part]) ++ post := by
            rw [horder, List.append_assoc, List.singleton_append]
          have hreached : secrets.before part ++ rest = (pre ++ [part]).flatMap filled.written ++
              rest.drop (secrets.written part).length := by
            rw [List.flatMap_append, List.flatMap_singleton, hwritten, List.append_assoc,
              ← filled.before_eq_flatMap horder, hbefore, hsplit]
          exact ih hnext hfilled hreached
        · rw [hsplit] at hmalformed
          exact .inr hmalformed

theorem written_or_malformed (bytes : Bytes) :
    (∃ secrets : NoteSecrets, secrets.version = currentVersion ∧ secrets.toBytes = bytes) ∨
      ∃ defect, Malformed bytes defect := by
  have horder : SecretsPart.inOrder = [] ++ SecretsPart.inOrder := rfl
  have hstart : bytes = [].flatMap (written ⟨currentVersion, 0, 0, 0, none, none, none⟩) ++ bytes :=
    rfl
  rcases goes_on_or_malformed horder rfl hstart with
    ⟨secrets, trailing, hversion, rfl⟩ | hmalformed
  · by_cases htrailing : trailing = []
    · exact .inl ⟨secrets, hversion, by rw [htrailing, List.append_nil]⟩
    · exact .inr ⟨_, .trailing hversion htrailing⟩
  · exact .inr hmalformed

end Coverage

section Refusal

variable {secrets : NoteSecrets} {part : SecretsPart} {bytes tail : Bytes} {defect : NoteDefect}

theorem takeWord64_of_short (hshort : bytes.length < 8) :
    takeWord64 part bytes = .error (.truncatedBefore part) := by
  rw [takeWord64, Bytes.split?, if_neg (Nat.not_le.2 hshort)]

theorem takeFelt_of_short (hshort : bytes.length < residueBytes) :
    takeFelt part bytes = .error (.truncatedBefore part) := by
  rw [takeFelt, Bytes.split?, if_neg (Nat.not_le.2 hshort)]

theorem takeFelt_of_large {field : Bytes} (hlength : field.length = residueBytes)
    (hlarge : Felt.modulus ≤ Bytes.toNatBE field) (rest : Bytes) :
    takeFelt part (field ++ rest) = .error (.notCanonical part) := by
  simp only [takeFelt, Bytes.split?_append hlength rest, Felt.ofBytes_of_modulus_le hlength hlarge]

theorem takeByte_cons (byte : UInt8) (rest : Bytes) :
    takeByte part (byte :: rest) = .ok (byte, rest) := rfl

/-- The bytes that the reader takes off for a part of these secrets. -/
def readPart (secrets : NoteSecrets) (part : SecretsPart) (bytes : Bytes) :
    Except NoteDefect Unit :=
  match part with
  | .version | .flags => (takeByte part bytes).map fun _ => ()
  | .amount => (takeWord64 part bytes).map fun _ => ()
  | .privateScalar | .auxSecret => (takeFelt part bytes).map fun _ => ()
  | .leafIndex => (takeIf secrets.leafIndex.isSome (takeWord64 part) bytes).map fun _ => ()
  | .commitment => (takeIf secrets.commitment.isSome (takeFelt part) bytes).map fun _ => ()
  | .nullifierHash => (takeIf secrets.nullifierHash.isSome (takeFelt part) bytes).map fun _ => ()

/-- The reader gets to every part of these secrets, and is done if the part is
refused. -/
theorem ofBytes_of_readPart (hversion : secrets.version = currentVersion)
    (hrefused : secrets.readPart part tail = .error defect) :
    ofBytes (secrets.before part ++ tail) = .error defect := by
  obtain ⟨hleaf, hcommitment, hhash⟩ := secrets.testBit_flags
  have htakeLeaf := fun rest =>
    takeIf_append rest (takeWord64_append .leafIndex rest) secrets.leafIndex
  have htakeCommitment := fun rest =>
    takeIf_append rest (takeFelt_append .commitment rest) secrets.commitment
  -- Every part in front is written as its reader takes it off; the next one is refused.
  cases part <;> have htake := map_eq_error_iff.1 hrefused <;>
    simp only [before, SecretsPart.inOrder, List.takeWhile_cons, ne_eq, reduceCtorEq,
      not_false_eq_true, not_true_eq_false, decide_true, decide_false, if_true,
      Bool.false_eq_true, if_false, List.flatMap_cons, List.flatMap_nil, written,
      List.append_assoc, List.cons_append, List.nil_append, ofBytes, takeByte_cons, ok_bind,
      hversion, takeWord64_append, takeFelt_append, if_neg secrets.flags_known, hleaf,
      hcommitment, hhash, htakeLeaf, htakeCommitment, htake, error_bind]

theorem readPart_of_short (hshort : tail.length < (secrets.written part).length) :
    secrets.readPart part tail = .error (.truncatedBefore part) := by
  cases part with
  | version | flags =>
      rw [List.length_eq_zero_iff.1 (Nat.lt_one_iff.1 hshort)]
      rfl
  | amount =>
      have hword := Nat.lt_of_lt_of_eq hshort (Bytes.length_ofNatLE 8 _)
      exact map_eq_error_iff.2 (takeWord64_of_short hword)
  | privateScalar | auxSecret =>
      have hfelt := Nat.lt_of_lt_of_eq hshort (Residue.length_toBytes _)
      exact map_eq_error_iff.2 (takeFelt_of_short hfelt)
  | leafIndex =>
      obtain ⟨_, _, _, _, _ | index, _, _⟩ := secrets
      · exact absurd hshort (Nat.not_lt_zero _)
      · have hword := Nat.lt_of_lt_of_eq hshort (Bytes.length_ofNatLE 8 _)
        exact map_eq_error_iff.2 (map_eq_error_iff.2 (takeWord64_of_short hword))
  | commitment =>
      obtain ⟨_, _, _, _, _, _ | stored, _⟩ := secrets
      · exact absurd hshort (Nat.not_lt_zero _)
      · have hfelt := Nat.lt_of_lt_of_eq hshort stored.length_toBytes
        exact map_eq_error_iff.2 (map_eq_error_iff.2 (takeFelt_of_short hfelt))
  | nullifierHash =>
      obtain ⟨_, _, _, _, _, _, _ | stored⟩ := secrets
      · exact absurd hshort (Nat.not_lt_zero _)
      · have hfelt := Nat.lt_of_lt_of_eq hshort stored.length_toBytes
        exact map_eq_error_iff.2 (map_eq_error_iff.2 (takeFelt_of_short hfelt))

theorem readPart_of_large {field : Bytes}
    (hpart : (secrets.written part).length = residueBytes)
    (hlength : field.length = residueBytes) (hlarge : Felt.modulus ≤ Bytes.toNatBE field)
    (rest : Bytes) :
    secrets.readPart part (field ++ rest) = .error (.notCanonical part) := by
  have htake : takeFelt part (field ++ rest) = .error (.notCanonical part) :=
    takeFelt_of_large hlength hlarge rest
  cases part with
  | version | flags => exact absurd hpart (by decide : ¬ 1 = residueBytes)
  | amount => exact absurd ((Bytes.length_ofNatLE 8 _).symm.trans hpart) (by decide)
  | privateScalar | auxSecret => exact map_eq_error_iff.2 htake
  | leafIndex =>
      obtain ⟨_, _, _, _, _ | index, _, _⟩ := secrets
      · exact absurd hpart (by decide : ¬ 0 = residueBytes)
      · exact absurd ((Bytes.length_ofNatLE 8 _).symm.trans hpart) (by decide)
  | commitment =>
      obtain ⟨_, _, _, _, _, _ | stored, _⟩ := secrets
      · exact absurd hpart (by decide : ¬ 0 = residueBytes)
      · exact map_eq_error_iff.2 (map_eq_error_iff.2 htake)
  | nullifierHash =>
      obtain ⟨_, _, _, _, _, _, _ | stored⟩ := secrets
      · exact absurd hpart (by decide : ¬ 0 = residueBytes)
      · exact map_eq_error_iff.2 (map_eq_error_iff.2 htake)

/-- A malformed byte string is refused for what is wrong with it. -/
theorem Malformed.refused (hmalformed : Malformed bytes defect) :
    ofBytes bytes = .error defect := by
  cases hmalformed with
  | truncated hversion hshort => exact ofBytes_of_readPart hversion (readPart_of_short hshort)
  | version hfound =>
      simp only [ofBytes, takeByte_cons, ok_bind, if_pos hfound, throw_eq_error, error_bind]
  | notCanonical hversion hpart hlength hlarge =>
      exact ofBytes_of_readPart hversion (readPart_of_large hpart hlength hlarge _)
  | @unknownFlags secrets flags rest hversion hunknown =>
      have hbefore : secrets.before .flags ++ flags :: rest =
          secrets.version :: (Bytes.ofWord64 secrets.amount ++ (secrets.privateScalar.toBytes ++
            (secrets.auxSecret.toBytes ++ flags :: rest))) := by
        simp [before, SecretsPart.inOrder, written]
      simp only [hbefore, ofBytes, takeByte_cons, ok_bind, if_neg (not_not_intro hversion),
        takeWord64_append, takeFelt_append, if_pos hunknown, throw_eq_error, error_bind]
  | @trailing secrets rest hversion hrest =>
      have hmore : ¬ rest.isEmpty = true := by
        rw [List.isEmpty_iff]
        exact hrest
      rw [ofBytes_toBytes_append hversion, if_neg hmore]

end Refusal

theorem reads_ofBytes :
    Reads ofBytes (fun secrets bytes => secrets.version = currentVersion ∧
      secrets.toBytes = bytes) Malformed where
  accepts := by
    rintro secrets bytes ⟨hversion, rfl⟩
    exact ofBytes_toBytes hversion
  refuses := Malformed.refused
  covers := written_or_malformed

/-- A form that is cut short ends inside a part. -/
theorem malformed_take {secrets : NoteSecrets} (hversion : secrets.version = currentVersion)
    {cut : Nat} (hcut : cut < secrets.toBytes.length) :
    ∃ part, Malformed (secrets.toBytes.take cut) (.truncatedBefore part) := by
  rw [toBytes_eq_flatMap] at hcut ⊢
  obtain ⟨pre, part, post, tail, horder, hshort, htake⟩ := take_flatMap_of_lt hcut
  rw [htake, ← secrets.before_eq_flatMap horder]
  exact ⟨part, .truncated hversion hshort⟩

/-- The byte strings that are read as note secrets are the forms of secrets of the
current version, one of each.  Every other byte string is refused for what is
first wrong with it, and a form that is cut short for the part it is cut in. -/
theorem secrets_forms_exact :
    (∀ bytes secrets, ofBytes bytes = .ok secrets ↔
      secrets.version = currentVersion ∧ secrets.toBytes = bytes) ∧
    (∀ bytes defect, ofBytes bytes = .error defect ↔ Malformed bytes defect) ∧
    (∀ secrets : NoteSecrets, secrets.version = currentVersion →
      ∀ cut < secrets.toBytes.length,
        ∃ part, ofBytes (secrets.toBytes.take cut) = .error (.truncatedBefore part)) := by
  refine ⟨?_, ?_, ?_⟩
  · intro bytes secrets
    exact reads_ofBytes.eq_ok_iff
  · intro bytes defect
    exact reads_ofBytes.eq_error_iff
  · intro secrets hversion cut hcut
    obtain ⟨part, hmalformed⟩ := malformed_take hversion hcut
    exact ⟨part, hmalformed.refused⟩

/-- Twenty bytes end inside the private scalar. -/
theorem secrets_form_cut_short :
    let secrets : NoteSecrets := ⟨1, 5, 1, 0, some 7, none, none⟩
    secrets.version = currentVersion ∧ 20 < secrets.toBytes.length ∧
      ∃ part, ofBytes (secrets.toBytes.take 20) = .error (.truncatedBefore part) := by
  intro secrets
  have hcut : 20 < secrets.toBytes.length := by decide
  exact ⟨rfl, hcut, secrets_forms_exact.2.2 secrets rfl 20 hcut⟩

end NoteSecrets

end ShieldedPool
