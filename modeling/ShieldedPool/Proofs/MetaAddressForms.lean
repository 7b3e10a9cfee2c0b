/-
Text, bytes and keys of a recipient are one to one.  Two compressed points have
a fixed width, so sixty-six bytes are read as one pair at most; base-58 text and
bytes are one to one; and the marker holds a character that no base-58 text has,
so it is clear whether a text bears it.
-/
import ShieldedPool.MetaAddress
import ShieldedPool.Proofs.Base58
import ShieldedPool.Proofs.Point.CompressedForms
import ShieldedPool.Proofs.Point.Multiples

namespace ShieldedPool.MetaAddress

/-- Both points are usable public keys. -/
structure Usable (address : MetaAddress) : Prop where
  spendPub : address.spendPub.ValidKey
  viewPub : address.viewPub.ValidKey

section Binary

variable {address : MetaAddress} {bytes : Bytes}

theorem validate_eq_ok_iff : address.validate = .ok () ↔ address.Usable := by
  rw [validate]
  rcases hspend : address.spendPub.validate with defect | ⟨⟨⟩⟩
  · constructor
    · intro hok
      cases hok
    · intro husable
      rw [Point.validate_eq_ok_iff.2 husable.spendPub] at hspend
      cases hspend
  · have hvalid := Point.validate_eq_ok_iff.1 hspend
    constructor
    · intro hview
      exact ⟨hvalid, Point.validate_eq_ok_iff.1 hview⟩
    · intro husable
      exact Point.validate_eq_ok_iff.2 husable.viewPub

theorem create_eq_ok_iff {spendPub viewPub : Point} :
    create spendPub viewPub = .ok address ↔ address = ⟨spendPub, viewPub⟩ ∧ address.Usable := by
  rw [create, map_eq_ok_iff]
  constructor
  · rintro ⟨⟨⟩, hvalid, rfl⟩
    exact ⟨rfl, validate_eq_ok_iff.1 hvalid⟩
  · rintro ⟨rfl, husable⟩
    exact ⟨(), validate_eq_ok_iff.2 husable, rfl⟩

theorem length_toBytes (address : MetaAddress) : address.toBytes.length = byteLength := by
  rw [toBytes, List.length_append, Point.length_compress, Point.length_compress, byteLength,
    Nat.two_mul]

theorem ofBytes_of_length_ne (hlength : bytes.length ≠ byteLength) :
    ofBytes bytes = .error (.metaAddress (.length bytes.length byteLength)) := by
  rw [ofBytes, if_pos hlength]
  rfl

/-- The address of the two points that a byte string holds. -/
def ofPoints (bytes : Bytes) : Except PointDefect MetaAddress := do
  let spendPub ← Point.decompress (bytes.take Point.compressedBytes)
  let viewPub ← Point.decompress (bytes.drop Point.compressedBytes)
  create spendPub viewPub

theorem ofBytes_of_length (hlength : bytes.length = byteLength) :
    ofBytes bytes = (ofPoints bytes).mapError .point := by
  rw [ofBytes, if_neg (not_not_intro hlength), ofPoints]
  rcases Point.decompress (bytes.take Point.compressedBytes) with defect | spendPub
  · rfl
  · rcases Point.decompress (bytes.drop Point.compressedBytes) with defect | viewPub <;> rfl

theorem ofPoints_eq_ok_iff :
    ofPoints bytes = .ok address ↔ address.Usable ∧ address.toBytes = bytes := by
  constructor
  · intro hread
    obtain ⟨spendPub, hspend, hread⟩ := bind_eq_ok_iff.1 hread
    obtain ⟨viewPub, hview, hcreate⟩ := bind_eq_ok_iff.1 hread
    obtain ⟨rfl, husable⟩ := create_eq_ok_iff.1 hcreate
    have hspendForm := (Point.reads_decompress.eq_ok_iff.1 hspend).2
    have hviewForm := (Point.reads_decompress.eq_ok_iff.1 hview).2
    exact ⟨husable, by rw [toBytes, hspendForm, hviewForm, List.take_append_drop]⟩
  · rintro ⟨husable, rfl⟩
    have hspend : address.toBytes.take Point.compressedBytes = address.spendPub.compress :=
      List.take_left' address.spendPub.length_compress
    have hview : address.toBytes.drop Point.compressedBytes = address.viewPub.compress :=
      List.drop_left' address.spendPub.length_compress
    rw [ofPoints, hspend, hview, Point.decompress_compress husable.spendPub.2, ok_bind,
      Point.decompress_compress husable.viewPub.2, ok_bind, create_eq_ok_iff.2 ⟨rfl, husable⟩]

theorem ofBytes_eq_ok_iff :
    ofBytes bytes = .ok address ↔ address.Usable ∧ address.toBytes = bytes := by
  by_cases hlength : bytes.length = byteLength
  · rw [ofBytes_of_length hlength, mapError_eq_ok_iff, ofPoints_eq_ok_iff]
  · rw [ofBytes_of_length_ne hlength]
    constructor
    · intro hok
      cases hok
    · rintro ⟨-, rfl⟩
      exact absurd address.length_toBytes hlength

/-- Bytes of the right length are refused for a point of theirs. -/
theorem exists_point_defect (hlength : bytes.length = byteLength)
    (hnone : ∀ address : MetaAddress, address.Usable → address.toBytes ≠ bytes) :
    ∃ defect, ofBytes bytes = .error (.point defect) := by
  rw [ofBytes_of_length hlength]
  rcases hread : ofPoints bytes with defect | address
  · exact ⟨defect, rfl⟩
  · obtain ⟨husable, hform⟩ := ofPoints_eq_ok_iff.1 hread
    exact absurd hform (hnone address husable)

end Binary

section Text

variable {text : String} {bytes : Bytes}

/-- The text is the base-58 text of the bytes, behind the marker or alone. -/
def WrittenAs (bytes : Bytes) (text : String) : Prop :=
  text = textMarker ++ Base58.encode bytes ∨ text = Base58.encode bytes

theorem stripMarker_marked (body : String) : stripMarker (textMarker ++ body) = body := by
  have hprefix : textMarker.toList.isPrefixOf (textMarker ++ body).toList = true := by
    rw [String.toList_append, List.isPrefixOf_iff_prefix]
    exact List.prefix_append _ _
  have hrest : (textMarker ++ body).toList.drop textMarker.length = body.toList := by
    rw [String.toList_append]
    exact List.drop_left' rfl
  rw [stripMarker, if_pos hprefix, hrest, String.ofList_toList]

theorem stripMarker_or (text : String) :
    text = textMarker ++ stripMarker text ∨ stripMarker text = text := by
  by_cases hprefix : textMarker.toList.isPrefixOf text.toList = true
  · obtain ⟨body, hbody⟩ := List.isPrefixOf_iff_prefix.1 hprefix
    have htext : text = textMarker ++ String.ofList body := by
      rw [← String.toList_inj, String.toList_append, String.toList_ofList, hbody]
    left
    rw [htext, stripMarker_marked]
  · right
    rw [stripMarker, if_neg hprefix]

/-- The marker holds a colon, which is no digit. -/
theorem stripMarker_encode (bytes : Bytes) :
    stripMarker (Base58.encode bytes) = Base58.encode bytes := by
  rcases stripMarker_or (Base58.encode bytes) with hmarked | hplain
  · exfalso
    have hcolon : ':' ∈ (Base58.encode bytes).toList := by
      rw [hmarked, String.toList_append]
      exact List.mem_append_left _ (by decide)
    rw [Base58.toList_encode] at hcolon
    obtain ⟨value, hvalue, hdigit⟩ := List.mem_map.1 hcolon
    have hlt : value < 58 := Base58.lt_of_mem_numeral (by decide) hvalue
    have hfound := (Base58.idxOf?_digit hlt).1
    have hnone : Base58.alphabet.idxOf? ':' = none := by decide
    rw [hdigit, hnone] at hfound
    cases hfound
  · exact hplain

theorem decode_stripMarker_eq_ok_iff :
    Base58.decode (stripMarker text) = .ok bytes ↔ WrittenAs bytes text := by
  rw [Base58.decode_eq_ok_iff]
  constructor
  · intro hbody
    rw [WrittenAs, ← hbody]
    exact (stripMarker_or text).imp_right Eq.symm
  · rintro (rfl | rfl)
    · exact stripMarker_marked _
    · exact stripMarker_encode _

theorem ofText_of_writtenAs (hwritten : WrittenAs bytes text) : ofText text = ofBytes bytes := by
  rw [ofText, decode_stripMarker_eq_ok_iff.2 hwritten]

/-- The three kinds of texts: of an address, of bytes that are none, of no bytes
of the right length. -/
theorem text_cases (text : String) :
    (∃ address : MetaAddress, address.Usable ∧ WrittenAs address.toBytes text) ∨
    (∃ bytes, WrittenAs bytes text ∧ bytes.length = byteLength ∧
      ∀ address : MetaAddress, address.Usable → address.toBytes ≠ bytes) ∨
    (∀ bytes, WrittenAs bytes text → bytes.length ≠ byteLength) := by
  by_cases hsized : ∃ bytes, WrittenAs bytes text ∧ bytes.length = byteLength
  · obtain ⟨bytes, hwritten, hlength⟩ := hsized
    by_cases haddress : ∃ address : MetaAddress, address.Usable ∧ address.toBytes = bytes
    · obtain ⟨address, husable, rfl⟩ := haddress
      exact .inl ⟨address, husable, hwritten⟩
    · refine .inr (.inl ⟨bytes, hwritten, hlength, ?_⟩)
      intro address husable hform
      exact haddress ⟨address, husable, hform⟩
  · refine .inr (.inr ?_)
    intro bytes hwritten hlength
    exact hsized ⟨bytes, hwritten, hlength⟩

theorem ofText_eq_ok_iff {address : MetaAddress} :
    ofText text = .ok address ↔ address.Usable ∧ WrittenAs address.toBytes text := by
  constructor
  · intro hok
    rcases hdecode : Base58.decode (stripMarker text) with defect | bytes
    · rw [ofText, hdecode] at hok
      cases hok
    · have hwritten := decode_stripMarker_eq_ok_iff.1 hdecode
      rw [ofText_of_writtenAs hwritten] at hok
      obtain ⟨husable, rfl⟩ := ofBytes_eq_ok_iff.1 hok
      exact ⟨husable, hwritten⟩
  · rintro ⟨husable, hwritten⟩
    rw [ofText_of_writtenAs hwritten]
    exact ofBytes_eq_ok_iff.2 ⟨husable, rfl⟩

theorem ofText_metaAddress_iff :
    (∃ defect, ofText text = .error (.metaAddress defect)) ↔
      ∀ bytes, WrittenAs bytes text → bytes.length ≠ byteLength := by
  constructor
  · rintro ⟨defect, hrefused⟩ bytes hwritten hlength
    rw [ofText_of_writtenAs hwritten, ofBytes_of_length hlength] at hrefused
    rcases hread : ofPoints bytes with defect' | address <;> rw [hread] at hrefused <;>
      cases hrefused
  · intro hnone
    rcases hdecode : Base58.decode (stripMarker text) with defect | bytes
    · exact ⟨.text defect, by rw [ofText, hdecode]⟩
    · have hwritten := decode_stripMarker_eq_ok_iff.1 hdecode
      rw [ofText_of_writtenAs hwritten]
      exact ⟨_, ofBytes_of_length_ne (hnone bytes hwritten)⟩

theorem ofText_point_iff :
    (∃ defect, ofText text = .error (.point defect)) ↔
      ∃ bytes, WrittenAs bytes text ∧ bytes.length = byteLength ∧
        ∀ address : MetaAddress, address.Usable → address.toBytes ≠ bytes := by
  constructor
  · rintro ⟨defect, hrefused⟩
    rcases hdecode : Base58.decode (stripMarker text) with defect' | bytes
    · rw [ofText, hdecode] at hrefused
      cases hrefused
    · have hwritten := decode_stripMarker_eq_ok_iff.1 hdecode
      rw [ofText_of_writtenAs hwritten] at hrefused
      refine ⟨bytes, hwritten, ?_, ?_⟩
      · by_contra hlength
        rw [ofBytes_of_length_ne hlength] at hrefused
        cases hrefused
      · intro address husable hform
        rw [ofBytes_eq_ok_iff.2 ⟨husable, hform⟩] at hrefused
        cases hrefused
  · rintro ⟨bytes, hwritten, hlength, hnone⟩
    rw [ofText_of_writtenAs hwritten]
    exact exists_point_defect hlength hnone

end Text

/-- The byte strings and the texts that are read as addresses are those of two
usable keys: one byte string, and two texts of it.  A text of no sixty-six bytes
is refused as an address, and a text of sixty-six that hold no usable keys is
refused for a point; there is no other text. -/
theorem address_forms_exact :
    (∀ address : MetaAddress,
      create address.spendPub address.viewPub = .ok address ↔ address.Usable) ∧
    (∀ bytes address, ofBytes bytes = .ok address ↔
      address.Usable ∧ address.toBytes = bytes) ∧
    (∀ text address, ofText text = .ok address ↔ address.Usable ∧
      (text = address.toText ∨ text = Base58.encode address.toBytes)) ∧
    (∀ text, (∃ defect, ofText text = .error (.metaAddress defect)) ↔
      ∀ bytes, WrittenAs bytes text → bytes.length ≠ byteLength) ∧
    (∀ text, (∃ defect, ofText text = .error (.point defect)) ↔
      ∃ bytes, WrittenAs bytes text ∧ bytes.length = byteLength ∧
        ∀ address : MetaAddress, address.Usable → address.toBytes ≠ bytes) ∧
    (∀ text, (∃ address, ofText text = .ok address) ∨
      (∃ defect, ofText text = .error (.point defect)) ∨
      ∃ defect, ofText text = .error (.metaAddress defect)) := by
  refine ⟨?_, ?_, ?_, ?_, ?_, ?_⟩
  · intro address
    rw [create_eq_ok_iff]
    exact and_iff_right rfl
  · intro bytes address
    exact ofBytes_eq_ok_iff
  · intro text address
    exact ofText_eq_ok_iff
  · intro text
    exact ofText_metaAddress_iff
  · intro text
    exact ofText_point_iff
  · intro text
    rcases text_cases text with ⟨address, husable, hwritten⟩ | hpoint | hnone
    · exact .inl ⟨address, ofText_eq_ok_iff.2 ⟨husable, hwritten⟩⟩
    · exact .inr (.inl (ofText_point_iff.2 hpoint))
    · exact .inr (.inr (ofText_metaAddress_iff.2 hnone))

/-- The public points of the secrets one and two, read from all that is written
of them. -/
theorem address_forms_exact_of_small_keys :
    ∃ address : MetaAddress, address.Usable ∧ ofBytes address.toBytes = .ok address ∧
      ofText address.toText = .ok address ∧
      ofText (Base58.encode address.toBytes) = .ok address := by
  have hone : (1 : Scalar) ≠ 0 := by decide
  have htwo : (2 : Scalar) ≠ 0 := by decide
  have husable : Usable ⟨Point.mulGenerator 1, Point.mulGenerator 2⟩ :=
    ⟨Point.validKey_mulGenerator hone, Point.validKey_mulGenerator htwo⟩
  obtain ⟨-, hbytes, htext, -⟩ := address_forms_exact
  exact ⟨_, husable, (hbytes _ _).2 ⟨husable, rfl⟩, (htext _ _).2 ⟨husable, .inl rfl⟩,
    (htext _ _).2 ⟨husable, .inr rfl⟩⟩

end ShieldedPool.MetaAddress
