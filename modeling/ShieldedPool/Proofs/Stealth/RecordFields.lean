/-
Readers of one field after the other.  A reader looks at the front of its input
only: what it took it takes again when more bytes follow, a field that cannot be
read stays unreadable, and an input that ended too early can be completed.  This
passes from the fields to the record, so that a record is taken off exactly the
byte strings that start with its form, and every other input ended too early or
shows an option with a tag that is none.
-/
import ShieldedPool.Proofs.Stealth.RecordCodec

namespace ShieldedPool.Stealth

namespace Record

/-- Takes a value off the front. -/
abbrev Taker (α : Type) := Bytes → Except AnnouncementDefect (α × Bytes)

section Sequences

variable {α β : Type}

/-- Take a value off the front, then another one that may depend on it. -/
def andThen (first : Taker α) (next : α → Taker β) : Taker β := fun bytes => do
  let (a, bytes) ← first bytes
  next a bytes

/-- The reader decides by the front of its input.  What it takes and what it
cannot read do not depend on what follows, and what ended too early can be
completed. -/
structure Sequential (read : Taker α) : Prop where
  onward : ∀ {bytes a rest}, read bytes = .ok (a, rest) →
    ∀ more, read (bytes ++ more) = .ok (a, rest ++ more)
  standing : ∀ {bytes defect}, read bytes = .error defect → defect ≠ .truncated →
    ∀ more, read (bytes ++ more) = .error defect
  completable : ∀ {bytes}, read bytes = .error .truncated →
    ∃ missing a, read (bytes ++ missing) = .ok (a, [])
  possible : ∃ bytes a, read bytes = .ok (a, [])

theorem andThen_eq_error_iff {first : Taker α} {next : α → Taker β} {bytes : Bytes}
    {defect : AnnouncementDefect} :
    andThen first next bytes = .error defect ↔ first bytes = .error defect ∨
      ∃ a rest, first bytes = .ok (a, rest) ∧ next a rest = .error defect := by
  rcases hfirst : first bytes with refusal | ⟨a, rest⟩
  · simp [andThen, hfirst]
  · simp [andThen, hfirst]

theorem andThen_eq_ok_iff {first : Taker α} {next : α → Taker β} {bytes rest : Bytes} {b : β} :
    andThen first next bytes = .ok (b, rest) ↔
      ∃ a between, first bytes = .ok (a, between) ∧ next a between = .ok (b, rest) := by
  rcases hfirst : first bytes with refusal | ⟨a, between⟩
  · simp [andThen, hfirst]
  · simp [andThen, hfirst]

theorem Sequential.andThen {first : Taker α} {next : α → Taker β} (hfirst : Sequential first)
    (hnext : ∀ a, Sequential (next a)) : Sequential (andThen first next) where
  onward := by
    intro bytes b rest hread more
    obtain ⟨a, between, htaken, hrest⟩ := andThen_eq_ok_iff.1 hread
    apply andThen_eq_ok_iff.2
    exact ⟨a, between ++ more, hfirst.onward htaken more, (hnext a).onward hrest more⟩
  standing := by
    intro bytes defect hread hdefect more
    apply andThen_eq_error_iff.2
    rcases andThen_eq_error_iff.1 hread with hrefused | ⟨a, between, htaken, hrefused⟩
    · exact .inl (hfirst.standing hrefused hdefect more)
    · exact .inr ⟨a, between ++ more, hfirst.onward htaken more,
        (hnext a).standing hrefused hdefect more⟩
  completable := by
    intro bytes hread
    rcases andThen_eq_error_iff.1 hread with hshort | ⟨a, between, htaken, hshort⟩
    · obtain ⟨missing, a, hcompleted⟩ := hfirst.completable hshort
      obtain ⟨form, b, hform⟩ := (hnext a).possible
      have htaken := hfirst.onward hcompleted form
      rw [List.append_assoc] at htaken
      exact ⟨missing ++ form, b, andThen_eq_ok_iff.2 ⟨a, form, htaken, hform⟩⟩
    · obtain ⟨missing, b, hcompleted⟩ := (hnext a).completable hshort
      exact ⟨missing, b, andThen_eq_ok_iff.2
        ⟨a, between ++ missing, hfirst.onward htaken missing, hcompleted⟩⟩
  possible := by
    obtain ⟨form, a, hform⟩ := hfirst.possible
    obtain ⟨form', b, hform'⟩ := (hnext a).possible
    exact ⟨form ++ form', b, andThen_eq_ok_iff.2 ⟨a, form', hfirst.onward hform form', hform'⟩⟩

/-- Take nothing and hand a value out. -/
def give (a : α) : Taker α := fun bytes => .ok (a, bytes)

theorem sequential_give (a : α) : Sequential (give a) where
  onward := by
    intro bytes a' rest hread more
    cases hread
    rfl
  standing := by
    intro bytes defect hread
    cases hread
  completable := by
    intro bytes hread
    cases hread
  possible := ⟨[], a, rfl⟩

/-- The reader refuses an input for its end only. -/
def OnlyShort (read : Taker α) : Prop :=
  ∀ bytes defect, read bytes = .error defect → defect = .truncated

theorem OnlyShort.andThen {first : Taker α} {next : α → Taker β} (hfirst : OnlyShort first)
    (hnext : ∀ a, OnlyShort (next a)) : OnlyShort (andThen first next) := by
  intro bytes defect hread
  rcases andThen_eq_error_iff.1 hread with hrefused | ⟨a, between, -, hrefused⟩
  · exact hfirst bytes defect hrefused
  · exact hnext a between defect hrefused

theorem onlyShort_give (a : α) : OnlyShort (give a) := by
  intro bytes defect hread
  cases hread

end Sequences

section Fields

variable {count : Nat} {bytes rest : Bytes}

theorem take_eq_ok_iff {word : ByteWord count} :
    take count bytes = .ok (word, rest) ↔ word.bytes ++ rest = bytes := by
  constructor
  · intro htaken
    unfold take at htaken
    split at htaken
    · cases htaken
    · next head tail hsplit =>
        cases htaken
        exact (Bytes.eq_append_of_split? hsplit).1.symm
  · rintro rfl
    exact take_append word rest

theorem onlyShort_take (count : Nat) : OnlyShort (take count) := by
  intro bytes defect hread
  unfold take at hread
  split at hread
  · cases hread
    rfl
  · cases hread

theorem length_of_take_error {defect : AnnouncementDefect}
    (hread : take count bytes = .error defect) : bytes.length < count := by
  by_contra henough
  have hlength : (bytes.take count).length = count := List.length_take_of_le (Nat.not_lt.1 henough)
  have htaken := take_append ⟨bytes.take count, hlength⟩ (bytes.drop count)
  rw [List.take_append_drop, hread] at htaken
  cases htaken

theorem sequential_take (count : Nat) : Sequential (take count) where
  onward := by
    intro bytes word rest hread more
    rw [take_eq_ok_iff] at hread ⊢
    rw [← hread, List.append_assoc]
  standing := by
    intro bytes defect hread hdefect more
    exact absurd (onlyShort_take count _ _ hread) hdefect
  completable := by
    intro bytes hread
    have hshort := length_of_take_error hread
    have hlength : (bytes ++ List.replicate (count - bytes.length) 0).length = count := by
      rw [List.length_append, List.length_replicate]
      omega
    refine ⟨List.replicate (count - bytes.length) 0, ⟨_, hlength⟩, ?_⟩
    apply take_eq_ok_iff.2
    exact List.append_nil _
  possible := by
    refine ⟨List.replicate count 0, ⟨List.replicate count 0, List.length_replicate⟩, ?_⟩
    apply take_eq_ok_iff.2
    exact List.append_nil _

theorem takeWord64_eq_andThen :
    takeWord64 = andThen (take 8) fun word => give (Bytes.toWord64 word.bytes) := by
  funext bytes
  rcases htaken : take 8 bytes with defect | ⟨word, rest⟩
  · simp [takeWord64, andThen, htaken, Except.map]
  · simp [takeWord64, andThen, htaken, Except.map, give]

theorem sequential_takeWord64 : Sequential takeWord64 := by
  rw [takeWord64_eq_andThen]
  exact (sequential_take 8).andThen fun word => sequential_give _

theorem onlyShort_takeWord64 : OnlyShort takeWord64 := by
  rw [takeWord64_eq_andThen]
  exact (onlyShort_take 8).andThen fun word => onlyShort_give _

theorem takeWord64_eq_ok_iff {word : UInt64} :
    takeWord64 bytes = .ok (word, rest) ↔ Bytes.ofWord64 word ++ rest = bytes := by
  constructor
  · intro htaken
    rw [takeWord64_eq_andThen] at htaken
    obtain ⟨head, between, htaken, hgiven⟩ := andThen_eq_ok_iff.1 htaken
    cases hgiven
    rw [Bytes.ofWord64_toWord64 head.length_eq]
    exact take_eq_ok_iff.1 htaken
  · rintro rfl
    exact takeWord64_append word rest

theorem takeOption_one (rest : Bytes) :
    takeOption (1 :: rest) = andThen takeWord64 (fun word => give (some word)) rest := by
  rcases htaken : takeWord64 rest with defect | ⟨word, rest⟩
  · simp [takeOption, andThen, htaken, Except.map]
  · simp [takeOption, andThen, htaken, Except.map, give]

theorem takeOption_other {tag : UInt8} (htag : tag ≠ 0 ∧ tag ≠ 1) (rest : Bytes) :
    takeOption (tag :: rest) = .error (.optionTag tag) := by
  simp [takeOption, htag]

/-- An input of an option reader, by its first byte. -/
theorem option_cases (bytes : Bytes) :
    bytes = [] ∨ (∃ rest, bytes = 0 :: rest) ∨ (∃ rest, bytes = 1 :: rest) ∨
      ∃ tag rest, (tag ≠ 0 ∧ tag ≠ 1) ∧ bytes = tag :: rest := by
  rcases bytes with _ | ⟨tag, rest⟩
  · exact .inl rfl
  · by_cases hzero : tag = 0
    · exact .inr (.inl ⟨rest, by rw [hzero]⟩)
    · by_cases hone : tag = 1
      · exact .inr (.inr (.inl ⟨rest, by rw [hone]⟩))
      · exact .inr (.inr (.inr ⟨tag, rest, ⟨hzero, hone⟩, rfl⟩))

theorem sequential_takeOption : Sequential takeOption := by
  have hpresent : Sequential (andThen takeWord64 fun word => give (some word)) :=
    sequential_takeWord64.andThen fun word => sequential_give _
  constructor
  · intro bytes option rest hread more
    rcases option_cases bytes with rfl | ⟨tail, rfl⟩ | ⟨tail, rfl⟩ | ⟨tag, tail, htag, rfl⟩
    · cases hread
    · cases hread
      rfl
    · rw [takeOption_one] at hread
      exact (takeOption_one _).trans (hpresent.onward hread more)
    · rw [takeOption_other htag] at hread
      cases hread
  · intro bytes defect hread hdefect more
    rcases option_cases bytes with rfl | ⟨tail, rfl⟩ | ⟨tail, rfl⟩ | ⟨tag, tail, htag, rfl⟩
    · cases hread
      exact absurd rfl hdefect
    · cases hread
    · rw [takeOption_one] at hread
      exact (takeOption_one _).trans (hpresent.standing hread hdefect more)
    · rw [takeOption_other htag] at hread
      exact (takeOption_other htag _).trans hread
  · intro bytes hread
    rcases option_cases bytes with rfl | ⟨tail, rfl⟩ | ⟨tail, rfl⟩ | ⟨tag, tail, htag, rfl⟩
    · exact ⟨[0], none, rfl⟩
    · cases hread
    · rw [takeOption_one] at hread
      obtain ⟨missing, option, hcompleted⟩ := hpresent.completable hread
      exact ⟨missing, option, (takeOption_one _).trans hcompleted⟩
    · rw [takeOption_other htag] at hread
      cases hread
  · exact ⟨[0], none, rfl⟩

theorem takeOption_eq_ok_iff {option : Option UInt64} :
    takeOption bytes = .ok (option, rest) ↔ optionBytes option ++ rest = bytes := by
  constructor
  · intro htaken
    rcases option_cases bytes with rfl | ⟨tail, rfl⟩ | ⟨tail, rfl⟩ | ⟨tag, tail, htag, rfl⟩
    · cases htaken
    · cases htaken
      rfl
    · rw [takeOption_one] at htaken
      obtain ⟨word, between, hword, hgiven⟩ := andThen_eq_ok_iff.1 htaken
      cases hgiven
      exact congrArg (1 :: ·) (takeWord64_eq_ok_iff.1 hword)
    · rw [takeOption_other htag] at htaken
      cases htaken
  · rintro rfl
    exact takeOption_append option rest

theorem takeOption_error {defect : AnnouncementDefect} (hread : takeOption bytes = .error defect) :
    defect = .truncated ∨
      ∃ tag rest, (tag ≠ 0 ∧ tag ≠ 1) ∧ bytes = tag :: rest ∧ defect = .optionTag tag := by
  rcases option_cases bytes with rfl | ⟨tail, rfl⟩ | ⟨tail, rfl⟩ | ⟨tag, tail, htag, rfl⟩
  · cases hread
    exact .inl rfl
  · cases hread
  · rw [takeOption_one] at hread
    exact .inl (onlyShort_takeWord64.andThen (fun word => onlyShort_give _) _ _ hread)
  · rw [takeOption_other htag] at hread
    cases hread
    exact .inr ⟨tag, tail, htag, rfl, rfl⟩

end Fields

section Whole

variable {record : Record} {bytes rest : Bytes} {defect : AnnouncementDefect}

/-- The fields behind the option. -/
def takeTail (ephemeralPub : ByteWord Point.compressedBytes) (amount : UInt64)
    (epoch : Option UInt64) : Taker Record :=
  andThen (take residueBytes) fun commitment =>
  andThen takeWord64 fun leafIndex =>
  andThen takeWord64 fun createdAt =>
  andThen (take 4) fun length =>
  andThen (take (Bytes.toNatLE length.bytes)) fun payload =>
  give {
    ephemeralPub, amount, epoch, commitment, leafIndex
    createdAt := createdAt.toInt64
    payload := payload.bytes }

/-- All fields of a record, in order. -/
def takeRecord : Taker Record :=
  andThen (take Point.compressedBytes) fun ephemeralPub =>
  andThen takeWord64 fun amount =>
  andThen takeOption fun epoch =>
  takeTail ephemeralPub amount epoch

theorem ofBody_eq (bytes : Bytes) :
    ofBody bytes = takeRecord bytes >>= fun taken =>
      if taken.2.isEmpty then .ok taken.1 else .error .trailing := by
  simp only [ofBody, takeRecord, takeTail, andThen, give, bind_assoc, ok_bind]
  rfl

theorem sequential_takeTail (ephemeralPub : ByteWord Point.compressedBytes) (amount : UInt64)
    (epoch : Option UInt64) : Sequential (takeTail ephemeralPub amount epoch) := by
  refine (sequential_take _).andThen fun commitment => ?_
  refine sequential_takeWord64.andThen fun leafIndex => ?_
  refine sequential_takeWord64.andThen fun createdAt => ?_
  refine (sequential_take _).andThen fun length => ?_
  exact (sequential_take _).andThen fun payload => sequential_give _

theorem sequential_takeRecord : Sequential takeRecord := by
  refine (sequential_take _).andThen fun ephemeralPub => ?_
  refine sequential_takeWord64.andThen fun amount => ?_
  exact sequential_takeOption.andThen fun epoch => sequential_takeTail ephemeralPub amount epoch

theorem onlyShort_takeTail (ephemeralPub : ByteWord Point.compressedBytes) (amount : UInt64)
    (epoch : Option UInt64) : OnlyShort (takeTail ephemeralPub amount epoch) := by
  refine (onlyShort_take _).andThen fun commitment => ?_
  refine onlyShort_takeWord64.andThen fun leafIndex => ?_
  refine onlyShort_takeWord64.andThen fun createdAt => ?_
  refine (onlyShort_take _).andThen fun length => ?_
  exact (onlyShort_take _).andThen fun payload => onlyShort_give _

theorem takeRecord_eq_ok_iff :
    takeRecord bytes = .ok (record, rest) ↔
      record.payload.length < UInt32.size ∧ record.body ++ rest = bytes := by
  constructor
  · intro htaken
    obtain ⟨ephemeralPub, bytes₁, hephemeralPub, htaken⟩ := andThen_eq_ok_iff.1 htaken
    obtain ⟨amount, bytes₂, hamount, htaken⟩ := andThen_eq_ok_iff.1 htaken
    obtain ⟨epoch, bytes₃, hepoch, htaken⟩ := andThen_eq_ok_iff.1 htaken
    obtain ⟨commitment, bytes₄, hcommitment, htaken⟩ := andThen_eq_ok_iff.1 htaken
    obtain ⟨leafIndex, bytes₅, hleafIndex, htaken⟩ := andThen_eq_ok_iff.1 htaken
    obtain ⟨createdAt, bytes₆, hcreatedAt, htaken⟩ := andThen_eq_ok_iff.1 htaken
    obtain ⟨length, bytes₇, hlength, htaken⟩ := andThen_eq_ok_iff.1 htaken
    obtain ⟨payload, bytes₈, hpayload, hgiven⟩ := andThen_eq_ok_iff.1 htaken
    cases hgiven
    rw [take_eq_ok_iff] at hephemeralPub hcommitment hlength hpayload
    rw [takeWord64_eq_ok_iff] at hamount hleafIndex hcreatedAt
    rw [takeOption_eq_ok_iff] at hepoch
    have hwritable : payload.bytes.length < UInt32.size := by
      have hlt := Bytes.toNatLE_lt length.bytes
      rw [length.length_eq] at hlt
      rw [payload.length_eq]
      exact hlt
    have hfield : Bytes.ofNatLE 4 payload.bytes.length = length.bytes := by
      have hback := Bytes.ofNatLE_toNatLE length.bytes
      rwa [length.length_eq, ← payload.length_eq] at hback
    refine ⟨hwritable, ?_⟩
    simp only [body, hfield, List.append_assoc, UInt64.toUInt64_toInt64]
    rw [hpayload, hlength, hcreatedAt, hleafIndex, hcommitment, hepoch, hamount, hephemeralPub]
  · rintro ⟨hwritable, rfl⟩
    have hread : takeRecord record.body = .ok (record, []) := by
      have hbody := ofBody_body hwritable
      rw [ofBody_eq] at hbody
      obtain ⟨⟨record', rest'⟩, htaken, hdone⟩ := bind_eq_ok_iff.1 hbody
      by_cases hrest : rest'.isEmpty
      · simp only [hrest, if_true, Except.ok.injEq] at hdone
        rw [htaken, hdone, List.isEmpty_iff.1 hrest]
      · simp [hrest] at hdone
    exact sequential_takeRecord.onward hread rest

/-- What cannot be read ended too early or shows a tag that is none. -/
theorem takeRecord_error (hread : takeRecord bytes = .error defect) :
    defect = .truncated ∨
      ∃ (ephemeralPub : ByteWord Point.compressedBytes) (amount : UInt64) (tag : UInt8)
        (rest : Bytes), (tag ≠ 0 ∧ tag ≠ 1) ∧ defect = .optionTag tag ∧
          bytes = ephemeralPub.bytes ++ (Bytes.ofWord64 amount ++ tag :: rest) := by
  rcases andThen_eq_error_iff.1 hread with hshort | ⟨ephemeralPub, bytes₁, hephemeralPub, hread⟩
  · exact .inl (onlyShort_take _ _ _ hshort)
  · rcases andThen_eq_error_iff.1 hread with hshort | ⟨amount, bytes₂, hamount, hread⟩
    · exact .inl (onlyShort_takeWord64 _ _ hshort)
    · rcases andThen_eq_error_iff.1 hread with hoption | ⟨epoch, bytes₃, -, hshort⟩
      · rcases takeOption_error hoption with hshort | ⟨tag, tail, htag, rfl, rfl⟩
        · exact .inl hshort
        · rw [← take_eq_ok_iff.1 hephemeralPub, ← takeWord64_eq_ok_iff.1 hamount]
          exact .inr ⟨ephemeralPub, amount, tag, tail, htag, rfl, rfl⟩
      · exact .inl (onlyShort_takeTail _ _ _ _ _ hshort)

theorem takeRecord_of_optionTag (ephemeralPub : ByteWord Point.compressedBytes) (amount : UInt64)
    {tag : UInt8} (htag : tag ≠ 0 ∧ tag ≠ 1) (rest : Bytes) :
    takeRecord (ephemeralPub.bytes ++ (Bytes.ofWord64 amount ++ tag :: rest)) =
      .error (.optionTag tag) := by
  simp only [takeRecord, Record.andThen, take_append, takeWord64_append, takeOption_other htag,
    ok_bind, error_bind]

/-- The form of a record, cut short, cannot be read. -/
theorem takeRecord_of_cut {missing : Bytes} (hwritable : record.payload.length < UInt32.size)
    (hcut : bytes ++ missing = record.body) (hmissing : missing ≠ []) :
    takeRecord bytes = .error .truncated := by
  have hwhole : takeRecord (bytes ++ missing) = .ok (record, []) := by
    apply takeRecord_eq_ok_iff.2
    exact ⟨hwritable, by rw [hcut, List.append_nil]⟩
  rcases hread : takeRecord bytes with defect | ⟨record', rest⟩
  · by_cases hdefect : defect = .truncated
    · rw [hdefect]
    · have hstands := sequential_takeRecord.standing hread hdefect missing
      rw [hwhole] at hstands
      cases hstands
  · have honward := sequential_takeRecord.onward hread missing
    rw [hwhole] at honward
    have hnothing : rest ++ missing = [] := (congrArg Prod.snd (Except.ok.inj honward)).symm
    exact absurd (List.append_eq_nil_iff.1 hnothing).2 hmissing

end Whole

end Record

end ShieldedPool.Stealth
