/-
Documents lose nothing.  What the pool writes as a document, it reads back as
the same note secrets, configuration or inclusion proof: numbers over all of
their range, texts with any characters, field elements, and values that are
absent.  An absent value is left out of note secrets, where a missing field
means absent, and written as null in a configuration, where a missing field
means something else.
-/
import ShieldedPool.Config
import ShieldedPool.Merkle.InclusionDocument
import ShieldedPool.Note.Secrets
import ShieldedPool.Proofs.Json.Reading
import ShieldedPool.Proofs.Residue.Hexadecimal

namespace ShieldedPool

namespace Json

namespace Value

/-- A word as a document holds it. -/
def ofWord64 (word : UInt64) : Value := .number (some word.toNat)

def ofByte (byte : UInt8) : Value := .number (some byte.toNat)

def ofFelt (a : Felt) : Value := .text (some a.toHex)

@[simp] theorem word64?_ofWord64 (word : UInt64) : (ofWord64 word).word64? = some word := by
  have hword : word.toNat < UInt64.size := word.toNat_lt
  simp [word64?, natural?, ofWord64, hword]

@[simp] theorem byte?_ofByte (byte : UInt8) : (ofByte byte).byte? = some byte := by
  have hbyte : byte.toNat < UInt8.size := byte.toNat_lt
  simp [byte?, natural?, ofByte, hbyte]

@[simp] theorem felt?_ofFelt (a : Felt) : (ofFelt a).felt? = some a := by
  simp [felt?, text?, ofFelt, Felt.ofHex_toHex, Except.toOption]

@[simp] theorem bool?_bool (b : Bool) : (bool b).bool? = some b := rfl

/-- A value that may be absent, with null for absent. -/
def ofOption {α : Type} (value : α → Value) (a : Option α) : Value :=
  a.elim .null value

variable {α : Type} {value : α → Value} {read : Value → Option α}

theorem nullable?_ofOption (hread : ∀ a, read (value a) = some a) (hnull : ∀ a, value a ≠ .null)
    (a : Option α) : (ofOption value a).nullable? read = some a := by
  cases a with
  | none => rfl
  | some a =>
      show (value a).nullable? read = some (some a)
      unfold nullable?
      split
      · next heq => exact absurd heq (hnull a)
      · rw [hread, Option.map_some]

/-- A field that is left out when its value is absent. -/
theorem optional?_map (hread : ∀ a, read (value a) = some a) (hnull : ∀ a, value a ≠ .null)
    (a : Option α) : optional? read (a.map value) = some a := by
  cases a with
  | none => rfl
  | some a => exact nullable?_ofOption hread hnull (some a)

theorem listOf?_map (hread : ∀ a, read (value a) = some a) (items : List α) :
    (Value.list (items.map value)).listOf? read = some items := by
  have hitems := mapM_eq_some_map (f := fun a => read (value a)) (g := id)
    fun a (_ : a ∈ items) => hread a
  rw [List.map_id] at hitems
  rw [listOf?, List.mapM_map]
  exact hitems

end Value

theorem writes_ofFelt (a : Felt) : Writes (ofFelt a) (.ofFelt a) := writes_quote a.toHex

theorem writes_ofOption {α : Type} {write : α → String} {value : α → Value}
    (hwrite : ∀ a, Writes (write a) (value a)) (a : Option α) :
    Writes (ofOption write a) (.ofOption value a) := by
  cases a with
  | none => exact writes_null
  | some a => exact hwrite a

theorem writes_list {α : Type} {write : α → String} {value : α → Value}
    (hwrite : ∀ a, Writes (write a) (value a)) (items : List α) :
    Writes (compactList (items.map write)) (.list (items.map value)) := by
  apply writes_compactList
  rw [List.forall₂_map_left_iff, List.forall₂_map_right_iff]
  exact List.forall₂_same.2 fun a _ => hwrite a

end Json

namespace NoteSecrets

/-- The fields of the document, with those of the absent values. -/
def fields (secrets : NoteSecrets) : List (String × Option Json.Value) :=
  [("version", some (.ofByte secrets.version)),
   ("amount", some (.ofWord64 secrets.amount)),
   ("private_scalar", some (.ofFelt secrets.privateScalar)),
   ("aux_secret", some (.ofFelt secrets.auxSecret)),
   ("leaf_index", secrets.leafIndex.map .ofWord64),
   ("commitment", secrets.commitment.map .ofFelt),
   ("nullifier_hash", secrets.nullifierHash.map .ofFelt)]

theorem writesFields_optionalField {α : Type} {write : α → String} {value : α → Json.Value}
    (hwrite : ∀ a, Json.Writes (write a) (value a)) (name : String) (a : Option α) :
    List.Forall₂ Json.WritesField (optionalField name write a)
      (Json.present [(name, a.map value)]) := by
  cases a with
  | none => exact .nil
  | some a => exact .cons ⟨rfl, hwrite a⟩ .nil

theorem writes_toJson (secrets : NoteSecrets) :
    Json.Writes secrets.toJson (.record (Json.present secrets.fields)) := by
  have hword : ∀ word : UInt64, Json.Writes (Json.ofNatural word.toNat) (.ofWord64 word) :=
    fun word => Json.writes_ofNatural word.toNat
  have hindex := writesFields_optionalField hword "leaf_index" secrets.leafIndex
  have hcommitment := writesFields_optionalField Json.writes_ofFelt "commitment" secrets.commitment
  have hnullifier :=
    writesFields_optionalField Json.writes_ofFelt "nullifier_hash" secrets.nullifierHash
  have hpresent : Json.present secrets.fields =
      Json.present (secrets.fields.take 4) ++
        Json.present [("leaf_index", secrets.leafIndex.map .ofWord64)] ++
        Json.present [("commitment", secrets.commitment.map .ofFelt)] ++
        Json.present [("nullifier_hash", secrets.nullifierHash.map .ofFelt)] := by
    simp only [← Json.present_append]
    rfl
  rw [hpresent]
  apply Json.writes_prettyRecord
  apply List.rel_append _ hnullifier
  apply List.rel_append _ hcommitment
  apply List.rel_append _ hindex
  exact .cons ⟨rfl, Json.writes_ofNatural secrets.version.toNat⟩
    (.cons ⟨rfl, hword secrets.amount⟩
      (.cons ⟨rfl, Json.writes_ofFelt secrets.privateScalar⟩
        (.cons ⟨rfl, Json.writes_ofFelt secrets.auxSecret⟩ .nil)))

theorem ofValue?_fields (secrets : NoteSecrets) :
    ofValue? (.record (Json.present secrets.fields)) = some secrets := by
  have hfields : (Json.Value.record (Json.present secrets.fields)).fields? fieldNames =
      some (secrets.fields.map Prod.snd) := Json.fields?_present (by decide) rfl
  have hindex := Json.Value.optional?_map Json.Value.word64?_ofWord64
    (fun _ => Json.Value.noConfusion) secrets.leafIndex
  have hfelt := Json.Value.optional?_map Json.Value.felt?_ofFelt fun _ => Json.Value.noConfusion
  rw [ofValue?, hfields]
  simp only [fields, List.map_cons, List.map_nil, Option.bind_eq_bind,
    Option.bind_some, Json.required?, Json.Value.byte?_ofByte, Json.Value.word64?_ofWord64,
    Json.Value.felt?_ofFelt, hindex, hfelt, Option.pure_def]

/-- Reading a written document judges the version and changes nothing. -/
theorem ofJson_toJson (secrets : NoteSecrets) :
    ofJson secrets.toJson =
      if secrets.version = currentVersion then .ok secrets
      else .error (.version secrets.version) := by
  rw [ofJson, Json.parse?_of_writes secrets.writes_toJson, Option.bind_some, ofValue?_fields]

end NoteSecrets

namespace Config

/-- The fields of the document. -/
def fields (config : Config) : List (String × Option Json.Value) :=
  [("tree_depth", some (.ofWord64 config.treeDepth)),
   ("root_history_size", some (.ofWord64 config.rootHistorySize)),
   ("expected_empty_root", some (.ofOption .ofFelt config.expectedEmptyRoot)),
   ("stealth_domain_tag", some (.text config.domainTag))]

theorem writes_toJson (config : Config) :
    Json.Writes config.toJson (.record (Json.present config.fields)) := by
  apply Json.writes_prettyRecord
  exact .cons ⟨rfl, Json.writes_ofNatural config.treeDepth.toNat⟩
    (.cons ⟨rfl, Json.writes_ofNatural config.rootHistorySize.toNat⟩
      (.cons ⟨rfl, Json.writes_ofOption Json.writes_ofFelt config.expectedEmptyRoot⟩
        (.cons ⟨rfl, Json.writes_quote config.domainTag⟩ .nil)))

theorem ofValue?_fields (config : Config) :
    ofValue? (.record (Json.present config.fields)) = some config := by
  have hfields : (Json.Value.record (Json.present config.fields)).fields? fieldNames =
      some (config.fields.map Prod.snd) := Json.fields?_present (by decide) rfl
  have hroot := Json.Value.nullable?_ofOption Json.Value.felt?_ofFelt
    (fun _ => Json.Value.noConfusion) config.expectedEmptyRoot
  rw [ofValue?, hfields]
  simp only [fields, List.map_cons, List.map_nil, Option.bind_eq_bind,
    Option.bind_some, Json.fieldOr?, Json.Value.word64?_ofWord64, hroot, Json.Value.text?,
    Option.pure_def]

/-- Reading a written document validates the configuration and changes nothing. -/
theorem ofJson_toJson (config : Config) :
    ofJson config.toJson = config.validate.map fun _ => config := by
  rw [ofJson, Json.parse?_of_writes config.writes_toJson, Option.bind_some, ofValue?_fields]

end Config

namespace Merkle.Inclusion

/-- The fields of the document. -/
def fields (proof : Inclusion) : List (String × Option Json.Value) :=
  [("leaf_index", some (.ofWord64 proof.leafIndex)),
   ("siblings", some (.list (proof.siblings.map .ofFelt))),
   ("path_bits", some (.list (proof.pathBits.map .bool)))]

theorem writes_toJson (proof : Inclusion) :
    Json.Writes proof.toJson (.record (Json.present proof.fields)) := by
  apply Json.writes_compactRecord
  exact .cons ⟨rfl, Json.writes_ofNatural proof.leafIndex.toNat⟩
    (.cons ⟨rfl, Json.writes_list Json.writes_ofFelt proof.siblings⟩
      (.cons ⟨rfl, Json.writes_list Json.writes_ofBool proof.pathBits⟩ .nil))

theorem ofJson?_toJson (proof : Inclusion) : ofJson? proof.toJson = some proof := by
  have hfields : (Json.Value.record (Json.present proof.fields)).fields? fieldNames =
      some (proof.fields.map Prod.snd) := Json.fields?_present (by decide) rfl
  have hsiblings := Json.Value.listOf?_map Json.Value.felt?_ofFelt proof.siblings
  have hbits := Json.Value.listOf?_map Json.Value.bool?_bool proof.pathBits
  rw [ofJson?, Json.parse?_of_writes proof.writes_toJson, Option.bind_some, ofValue?, hfields]
  simp only [fields, List.map_cons, List.map_nil, Option.bind_eq_bind,
    Option.bind_some, Json.required?, Json.Value.word64?_ofWord64, hsiblings, hbits,
    Option.pure_def]

end Merkle.Inclusion

/-- Documents lose nothing: note secrets come back as they were unless their
version is refused, a configuration unless its validation refuses it, and an
inclusion proof always. -/
theorem documents_lose_nothing :
    (∀ secrets : NoteSecrets, NoteSecrets.ofJson secrets.toJson =
      if secrets.version = NoteSecrets.currentVersion then .ok secrets
      else .error (.version secrets.version)) ∧
    (∀ config : Config, Config.ofJson config.toJson = config.validate.map fun _ => config) ∧
    ∀ proof : Merkle.Inclusion, Merkle.Inclusion.ofJson? proof.toJson = some proof :=
  ⟨NoteSecrets.ofJson_toJson, Config.ofJson_toJson, Merkle.Inclusion.ofJson?_toJson⟩

end ShieldedPool
