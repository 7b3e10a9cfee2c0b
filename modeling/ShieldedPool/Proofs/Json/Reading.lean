/-
Documents read back.  Every value has its words, and the machine reads the words
of a value as that value inside any lists and records that are still open.  A
text writes a value when its words are those of the value; the written lists and
records do so as soon as their parts do.
-/
import Mathlib.Data.List.Forall2
import ShieldedPool.Proofs.Json.Words

namespace ShieldedPool.Json

section Machine

mutual

/-- The words of a value. -/
def Value.words : Value → List Token
  | .null => [.null]
  | .bool b => [.bool b]
  | .number n => [.number n]
  | .text content => [.text content]
  | .list [] => [.openList, .closeList]
  | .list (v :: items) => .openList :: v.words ++ itemWords items ++ [.closeList]
  | .record [] => [.openRecord, .closeRecord]
  | .record ((key, v) :: fields) =>
      .openRecord :: .text key :: .colon :: v.words ++ fieldWords fields ++ [.closeRecord]

/-- The words of further items of a list. -/
def itemWords : List Value → List Token
  | [] => []
  | v :: items => .comma :: v.words ++ itemWords items

/-- The words of further fields of a record. -/
def fieldWords : List (Content × Value) → List Token
  | [] => []
  | (key, v) :: fields => .comma :: .text key :: .colon :: v.words ++ fieldWords fields

end

/-- No value starts with the word that ends a list. -/
theorem readValue_firstItem (v : Value) (frames : List Frame) (rest : List Token) :
    readValue .firstItem frames (v.words ++ rest) = readValue .value frames (v.words ++ rest) := by
  rcases v with _ | b | n | content | ⟨_ | ⟨v, items⟩⟩ | ⟨_ | ⟨⟨key, v⟩, fields⟩⟩ <;>
    simp only [Value.words, List.cons_append, readValue]

mutual

-- One induction over a value and the items and fields inside it.  Behind an
-- item, the open list holds the items before it, reversed.

/-- The machine reads the words of a value as that value. -/
theorem readValue_words (v : Value) (frames : List Frame) (rest : List Token) :
    readValue .value frames (v.words ++ rest) = readValue (.after v) frames rest := by
  match v with
  | .null | .bool b | .number n | .text content | .list [] | .record [] =>
      simp only [Value.words, List.cons_append, List.nil_append, readValue, List.reverse_nil]
  | .list (v :: items) =>
      simp only [Value.words, List.cons_append, List.append_assoc, List.nil_append, readValue]
      rw [readValue_firstItem, readValue_words v]
      exact readValue_itemWords items [] v frames rest
  | .record ((key, v) :: fields) =>
      simp only [Value.words, List.cons_append, List.append_assoc, List.nil_append, readValue]
      rw [readValue_words v]
      exact readValue_fieldWords fields [] key v frames rest

theorem readValue_itemWords (items read : List Value) (v : Value) (frames : List Frame)
    (rest : List Token) :
    readValue (.after v) (.list read :: frames) (itemWords items ++ .closeList :: rest) =
      readValue (.after (.list (read.reverse ++ v :: items))) frames rest := by
  match items with
  | [] =>
      rw [itemWords, List.nil_append, readValue, List.reverse_cons]
  | w :: items =>
      rw [itemWords, List.cons_append, List.cons_append, List.append_assoc, readValue,
        readValue_words w, readValue_itemWords items (v :: read) w, List.reverse_cons,
        List.append_assoc]
      rfl

theorem readValue_fieldWords (fields read : List (Content × Value)) (key : Content) (v : Value)
    (frames : List Frame) (rest : List Token) :
    readValue (.after v) (.record read key :: frames)
        (fieldWords fields ++ .closeRecord :: rest) =
      readValue (.after (.record (read.reverse ++ (key, v) :: fields))) frames rest := by
  match fields with
  | [] =>
      rw [fieldWords, List.nil_append, readValue, List.reverse_cons]
  | (name, w) :: fields =>
      simp only [fieldWords, List.cons_append, List.append_assoc, readValue]
      rw [readValue_words w, readValue_fieldWords fields ((key, v) :: read) name w,
        List.reverse_cons, List.append_assoc]
      rfl

end

end Machine

section Joined

theorem intercalate_comma (part : List Token) (parts : List (List Token)) :
    [Token.comma].intercalate (part :: parts) = part ++ parts.flatMap (.comma :: ·) := by
  induction parts generalizing part with
  | nil => rw [List.intercalate_singleton, List.flatMap_nil, List.append_nil]
  | cons next parts ih =>
      rw [List.intercalate_cons_cons, ih, List.flatMap_cons, List.append_assoc]
      rfl

theorem itemWords_eq_flatMap (items : List Value) :
    itemWords items = (items.map Value.words).flatMap (.comma :: ·) := by
  induction items with
  | nil => rw [itemWords, List.map_nil, List.flatMap_nil]
  | cons v items ih => rw [itemWords, ih, List.map_cons, List.flatMap_cons]

/-- The words of a field. -/
def wordsOfField (field : Content × Value) : List Token :=
  .text field.1 :: .colon :: field.2.words

theorem fieldWords_eq_flatMap (fields : List (Content × Value)) :
    fieldWords fields = (fields.map wordsOfField).flatMap (.comma :: ·) := by
  induction fields with
  | nil => rw [fieldWords, List.map_nil, List.flatMap_nil]
  | cons field fields ih =>
      rw [fieldWords, ih, List.map_cons, List.flatMap_cons]
      rfl

theorem words_list (items : List Value) :
    (Value.list items).words =
      .openList :: ([.comma].intercalate (items.map Value.words) ++ [.closeList]) := by
  cases items with
  | nil =>
      rw [Value.words]
      rfl
  | cons v items =>
      rw [Value.words, itemWords_eq_flatMap, List.map_cons, intercalate_comma]
      rfl

theorem words_record (fields : List (Content × Value)) :
    (Value.record fields).words =
      .openRecord :: ([.comma].intercalate (fields.map wordsOfField) ++ [.closeRecord]) := by
  cases fields with
  | nil =>
      rw [Value.words]
      rfl
  | cons field fields =>
      rw [Value.words, fieldWords_eq_flatMap, List.map_cons, intercalate_comma]
      rfl

/-- Parts with a comma and blanks between them, before what closes them. -/
theorem lexes_joined {gap closing : List Char} {closingWords : List Token}
    (hgap : ∀ c ∈ gap, isBlank c = true) (hclosing : Lexes closing closingWords)
    (hends : Ends closing) {parts : List (List Char)} {words : List (List Token)}
    (hparts : List.Forall₂ Lexes parts words) :
    Lexes ((',' :: gap).intercalate parts ++ closing)
      ([.comma].intercalate words ++ closingWords) := by
  induction hparts with
  | nil => exact hclosing
  | @cons part word parts words hpart hparts ih =>
      cases hparts with
      | nil =>
          rw [List.intercalate_singleton, List.intercalate_singleton]
          exact hpart.append hclosing hends
      | cons hnext hparts =>
          rw [List.intercalate_cons_cons, List.intercalate_cons_cons, List.append_assoc,
            List.append_assoc, List.append_assoc, List.append_assoc]
          have hcomma : signToken? ',' = some .comma := rfl
          exact hpart.append ((ih.blanks hgap).sign hcomma) (ends_cons (by decide) _)

end Joined

section Writing

/-- The words of the text are those of the value. -/
def Writes (text : String) (v : Value) : Prop := Lexes text.toList v.words

variable {text : String} {v : Value}

theorem parse?_of_writes (hwrites : Writes text v) : parse? text = some v := by
  have hend : Ends [] := fun c hc => by cases hc
  have hwords : tokens? text = some v.words := by
    have hcollect := hwrites [] [] hend
    rw [List.append_nil, List.append_nil, collectTokens, List.reverse_reverse] at hcollect
    exact hcollect
  have hread := readValue_words v [] []
  rw [List.append_nil, readValue] at hread
  rw [parse?, hwords, Option.bind_some, hread]

theorem writes_ofNatural (n : Nat) : Writes (ofNatural n) (.number (some n)) :=
  lexes_word fun _ hrest => nextToken?_ofNatural n hrest

theorem writes_quote (text : String) : Writes (quote text) (.text (some text)) :=
  lexes_word fun rest _ => nextToken?_quote text rest

theorem writes_ofBool (b : Bool) : Writes (ofBool b) (.bool b) := by
  refine lexes_word fun _ hrest => nextToken?_name ?_ hrest
  cases b <;> rfl

theorem writes_null : Writes "null" .null :=
  lexes_word fun _ hrest => nextToken?_name rfl hrest

theorem writes_compactList {texts : List String} {items : List Value}
    (hitems : List.Forall₂ Writes texts items) : Writes (compactList texts) (.list items) := by
  have hopen : signToken? '[' = some .openList := rfl
  have hclose : signToken? ']' = some .closeList := rfl
  have hparts : List.Forall₂ Lexes (texts.map String.toList) (items.map Value.words) := by
    rw [List.forall₂_map_left_iff, List.forall₂_map_right_iff]
    exact hitems
  have hjoined := lexes_joined (List.forall_mem_nil _) (lexes_nil.sign hclose)
    (ends_cons (by decide) []) hparts
  have hchars : (compactList texts).toList =
      '[' :: ([','].intercalate (texts.map String.toList) ++ [']']) := by
    simp [compactList]
  rw [Writes, hchars, words_list]
  exact hjoined.sign hopen

/-- A field that reads back as a key with its value. -/
def WritesField (field : String × String) (read : Content × Value) : Prop :=
  read.1 = some field.1 ∧ Writes field.2 read.2

/-- A record with blanks before its keys, its values and its end. -/
def recordText (lead indent gap trail : String) (fields : List (String × String)) : String :=
  "\x7b" ++ lead ++ ("," ++ lead).intercalate
      (fields.map fun field => indent ++ quote field.1 ++ ":" ++ gap ++ field.2)
    ++ trail ++ "\x7d"

theorem compactRecord_eq_recordText (fields : List (String × String)) :
    compactRecord fields = recordText "" "" "" "" fields := by
  simp [compactRecord, recordText]

theorem prettyRecord_eq_recordText (fields : List (String × String)) :
    prettyRecord fields = recordText "\n" "  " " " "\n" fields := by
  apply String.toList_inj.1
  simp [prettyRecord, recordText, Function.comp_def]

/-- The text is blanks only. -/
def Blank (text : String) : Prop := ∀ c ∈ text.toList, isBlank c = true

theorem lexes_field {indent gap : String} (hindent : Blank indent) (hgap : Blank gap)
    {field : String × String} {read : Content × Value} (hfield : WritesField field read) :
    Lexes (indent ++ quote field.1 ++ ":" ++ gap ++ field.2).toList (wordsOfField read) := by
  obtain ⟨key, v⟩ := read
  obtain ⟨rfl, hvalue⟩ := hfield
  have hcolon : signToken? ':' = some .colon := rfl
  have hchars : (indent ++ quote field.1 ++ ":" ++ gap ++ field.2).toList =
      indent.toList ++ ((quote field.1).toList ++ ':' :: (gap.toList ++ field.2.toList)) := by
    simp
  rw [hchars]
  exact (((Lexes.blanks hgap hvalue).sign hcolon).quote field.1).blanks hindent

theorem writes_recordText {lead indent gap trail : String} (hlead : Blank lead)
    (hindent : Blank indent) (hgap : Blank gap) (htrail : Blank trail)
    {fields : List (String × String)} {read : List (Content × Value)}
    (hfields : List.Forall₂ WritesField fields read) :
    Writes (recordText lead indent gap trail fields) (.record read) := by
  have hopen : signToken? '\x7b' = some .openRecord := rfl
  have hclose : signToken? '\x7d' = some .closeRecord := rfl
  have hclosing : Lexes (trail.toList ++ ['\x7d']) [.closeRecord] :=
    (lexes_nil.sign hclose).blanks htrail
  have hends : Ends (trail.toList ++ ['\x7d']) :=
    (ends_blanks htrail).append (ends_cons (by decide) [])
  have hparts : List.Forall₂ Lexes
      (fields.map fun field => (indent ++ quote field.1 ++ ":" ++ gap ++ field.2).toList)
      (read.map wordsOfField) := by
    rw [List.forall₂_map_left_iff, List.forall₂_map_right_iff]
    exact hfields.imp fun _ _ hfield => lexes_field hindent hgap hfield
  have hjoined := lexes_joined hlead hclosing hends hparts
  have hchars : (recordText lead indent gap trail fields).toList =
      '\x7b' :: (lead.toList ++ ((',' :: lead.toList).intercalate
        (fields.map fun field => (indent ++ quote field.1 ++ ":" ++ gap ++ field.2).toList) ++
          (trail.toList ++ ['\x7d']))) := by
    simp [recordText, Function.comp_def]
  rw [Writes, hchars, words_record]
  exact (hjoined.blanks hlead).sign hopen

theorem writes_compactRecord {fields : List (String × String)} {read : List (Content × Value)}
    (hfields : List.Forall₂ WritesField fields read) :
    Writes (compactRecord fields) (.record read) := by
  have hnone : Blank "" := by simp [Blank]
  rw [compactRecord_eq_recordText]
  exact writes_recordText hnone hnone hnone hnone hfields

theorem writes_prettyRecord {fields : List (String × String)} {read : List (Content × Value)}
    (hfields : List.Forall₂ WritesField fields read) :
    Writes (prettyRecord fields) (.record read) := by
  have hline : Blank "\n" := by simp [Blank, isBlank]
  have hone : Blank " " := by simp [Blank, isBlank]
  have htwo : Blank "  " := by simp [Blank, isBlank]
  rw [prettyRecord_eq_recordText]
  exact writes_recordText hline htwo hone hline hfields

end Writing

section Fields

/-- Fields with the values they have, without those that have none. -/
def named (fields : List (String × Option Value)) : List (String × Value) :=
  fields.filterMap fun field => field.2.map (field.1, ·)

/-- The same fields as they are read. -/
def present (fields : List (String × Option Value)) : List (Content × Value) :=
  (named fields).map fun field => (some field.1, field.2)

theorem present_append (fields more : List (String × Option Value)) :
    present (fields ++ more) = present fields ++ present more := by
  rw [present, named, List.filterMap_append, List.map_append]
  rfl

theorem mapM_eq_some_map {α β : Type} {f : α → Option β} {g : α → β} {items : List α}
    (hitems : ∀ item ∈ items, f item = some (g item)) :
    items.mapM f = some (items.map g) := by
  induction items with
  | nil => rfl
  | cons item items ih =>
      have hrest := ih fun next hnext => hitems next (List.mem_cons_of_mem item hnext)
      rw [List.mapM_cons, hitems item List.mem_cons_self, hrest]
      rfl

variable {fields : List (String × Option Value)} {name : String}

theorem filter_named_of_notMem (hname : name ∉ fields.map Prod.fst) :
    (named fields).filter (·.1 = name) = [] := by
  apply List.filter_eq_nil_iff.2
  intro field hfield
  obtain ⟨source, hsource, hvalue⟩ := List.mem_filterMap.1 hfield
  obtain ⟨v, -, rfl⟩ := Option.map_eq_some_iff.1 hvalue
  have hne : source.1 ≠ name := by
    rintro rfl
    exact hname (List.mem_map_of_mem hsource)
  simpa using hne

theorem filter_named_of_mem (hnames : (fields.map Prod.fst).Nodup) {v : Option Value}
    (hmem : (name, v) ∈ fields) :
    (named fields).filter (·.1 = name) = (v.map (name, ·)).toList := by
  induction fields with
  | nil => cases hmem
  | cons field fields ih =>
      rw [List.map_cons, List.nodup_cons] at hnames
      have hsplit : named (field :: fields) =
          (field.2.map (field.1, ·)).toList ++ named fields := by
        rcases field with ⟨key, _ | w⟩ <;> rfl
      rw [hsplit, List.filter_append]
      rcases List.mem_cons.1 hmem with rfl | hmem
      · rw [filter_named_of_notMem hnames.1, List.append_nil]
        cases v with
        | none => rfl
        | some w => simp
      · have hname : name ∈ fields.map Prod.fst := List.mem_map.2 ⟨(name, v), hmem, rfl⟩
        have hne : field.1 ≠ name := fun heq => hnames.1 (heq ▸ hname)
        have hother : (field.2.map (field.1, ·)).toList.filter (·.1 = name) = [] := by
          rcases field with ⟨key, _ | w⟩
          · rfl
          · simpa using hne
        rw [hother, ih hnames.2 hmem, List.nil_append]

/-- A field is found under its name, present or not. -/
theorem onlyField?_named (hnames : (fields.map Prod.fst).Nodup) {v : Option Value}
    (hmem : (name, v) ∈ fields) : onlyField? name (named fields) = some v := by
  rw [onlyField?, filter_named_of_mem hnames hmem]
  cases v <;> rfl

/-- A record that leaves out what is absent is read under all of its names. -/
theorem fields?_present {names : List String} (hnames : names.Nodup)
    (hfields : fields.map Prod.fst = names) :
    (Value.record (present fields)).fields? names = some (fields.map Prod.snd) := by
  subst hfields
  have hkeys : (present fields).mapM (fun field => field.1.map (·, field.2)) =
      some (named fields) := by
    have hread := mapM_eq_some_map (g := id) fun field (_ : field ∈ named fields) =>
      show (some field.1).map (·, field.2) = some (id field) from rfl
    rw [List.map_id] at hread
    rw [present, List.mapM_map]
    exact hread
  have hvalues : (fields.map Prod.fst).mapM (onlyField? · (named fields)) =
      some (fields.map Prod.snd) := by
    rw [List.mapM_map]
    exact mapM_eq_some_map fun field hfield => onlyField?_named hnames hfield
  simp only [Value.fields?, hkeys, hvalues, Option.bind_eq_bind, Option.bind_some]

end Fields

end ShieldedPool.Json
