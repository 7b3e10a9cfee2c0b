/-
The words that written parts read back as.  A part is read in front of whatever
follows it, as long as that does not go on with a character that a number or a
name could still take in; signs, blanks and quotes never are such characters.
So the words of a document are found one part after the other.
-/
import Mathlib.Data.List.TakeWhile
import ShieldedPool.Json.Document

namespace ShieldedPool.Json

section Texts

/-- The piece is one of these that come out as the character `c`. -/
def Piece.StandsFor (piece : Piece) (c : Char) : Prop :=
  ∀ rest, joinPieces (piece :: rest) = (joinPieces rest).map (c :: ·)

theorem standsFor_char (c : Char) : (Piece.char c).StandsFor c := by
  intro rest
  rw [joinPieces]

/-- A code unit below the blank is no half of a pair. -/
theorem standsFor_unit {c : Char} (hcontrol : c.toNat < 32) :
    (Piece.unit c.toNat).StandsFor c := by
  have hopens : opensPair c.toNat = false := by
    simp only [opensPair, Bool.and_eq_false_iff, decide_eq_false_iff_not]
    omega
  have hcloses : closesPair c.toNat = false := by
    simp only [closesPair, Bool.and_eq_false_iff, decide_eq_false_iff_not]
    omega
  intro rest
  rcases rest with _ | ⟨⟨d⟩ | ⟨low⟩, rest⟩ <;>
    simp only [joinPieces, hopens, hcloses, Bool.false_and, Bool.or_self, Bool.false_eq_true,
      if_false, Char.ofNat_toNat]

/-- The unit escape of a control character gives back its code. -/
theorem unit?_control : ∀ code < 32,
    unit? '0' '0' (Hex.digit (code / 16)) (Hex.digit (code % 16)) = some code := by
  decide

theorem readText_of_plain {c : Char} (hquote : c ≠ '"') (hbackslash : c ≠ '\\')
    (hplain : ¬ c.toNat < 32) (pieces : List Piece) (rest : List Char) :
    readText pieces (c :: rest) = readText (.char c :: pieces) rest := by
  rw [readText.eq_def]
  split
  · next heq => exact absurd (List.cons.inj heq).1 hquote
  · next heq => exact absurd (List.cons.inj heq).1 hbackslash
  · next heq => exact absurd (List.cons.inj heq).1 hbackslash
  · next heq =>
      obtain ⟨rfl, rfl⟩ := List.cons.inj heq
      exact if_neg hplain
  · next heq => cases heq

theorem readText_escapeChar (c : Char) :
    ∃ piece : Piece, piece.StandsFor c ∧ ∀ pieces rest,
      readText pieces (escapeChar c ++ rest) = readText (piece :: pieces) rest := by
  unfold escapeChar
  split
  case h_8 hquote hbackslash _ _ _ _ _ =>
    split
    · next hcontrol =>
        refine ⟨.unit c.toNat, standsFor_unit hcontrol, fun pieces rest => ?_⟩
        simp only [List.cons_append, List.nil_append, readText, unit?_control c.toNat hcontrol]
    · next hplain =>
        exact ⟨.char c, standsFor_char c, readText_of_plain hquote hbackslash hplain⟩
  -- The seven characters with an escape of one letter.
  all_goals exact ⟨.char _, standsFor_char _, fun _ _ => rfl⟩

theorem readText_quoted (text : List Char) (pieces : List Piece) (rest : List Char) :
    ∃ found, readText pieces (text.flatMap escapeChar ++ '"' :: rest)
        = some (found.reverse ++ pieces, rest) ∧
      joinPieces found = some text := by
  induction text generalizing pieces with
  | nil => exact ⟨[], by rw [List.flatMap_nil, List.nil_append, readText]; rfl, rfl⟩
  | cons c text ih =>
      obtain ⟨piece, hpiece, hread⟩ := readText_escapeChar c
      obtain ⟨found, hfound, hjoin⟩ := ih (piece :: pieces)
      refine ⟨piece :: found, ?_, ?_⟩
      · rw [List.flatMap_cons, List.append_assoc, hread, hfound, List.reverse_cons,
          List.append_assoc]
        rfl
      · rw [hpiece, hjoin, Option.map_some]

/-- A quoted text is one word, whatever its characters are. -/
theorem nextToken?_quote (text : String) (rest : List Char) :
    nextToken? ((quote text).toList ++ rest) = some (.text (some text), rest) := by
  obtain ⟨found, hread, hjoin⟩ := readText_quoted text.toList [] rest
  have hchars : (quote text).toList ++ rest =
      '"' :: (text.toList.flatMap escapeChar ++ '"' :: rest) := by
    simp [quote]
  have hsign : signToken? '"' = none := rfl
  rw [List.append_nil] at hread
  rw [hchars]
  simp only [nextToken?, hsign, if_true, hread, Option.map_some, List.reverse_reverse,
    contentOf, hjoin, String.ofList_toList]

end Texts

section Numbers

/-- What follows a number or a name ends it. -/
def Ends (rest : List Char) : Prop :=
  ∀ c ∈ rest.head?, isNumberChar c = false ∧ c.isAlpha = false

theorem takeWhile_append_of_ends {p : Char → Bool} {cs rest : List Char}
    (hcs : ∀ c ∈ cs, p c = true) (hrest : ∀ c ∈ rest.head?, p c = false) :
    (cs ++ rest).takeWhile p = cs ∧ (cs ++ rest).dropWhile p = rest := by
  have hends : rest.takeWhile p = [] ∧ rest.dropWhile p = rest := by
    cases rest with
    | nil => exact ⟨rfl, rfl⟩
    | cons c rest =>
        have hc : p c = false := hrest c rfl
        simp [hc]
  constructor
  · rw [List.takeWhile_append_of_pos hcs, hends.1, List.append_nil]
  · rw [List.dropWhile_append_of_pos hcs, hends.2]

theorem isNumberChar_of_isDigit {c : Char} (hc : c.isDigit = true) : isNumberChar c = true := by
  simp [isNumberChar, hc]

theorem isDigit_of_mem_toDigits {n : Nat} {c : Char} (hc : c ∈ Nat.toDigits 10 n) :
    c.isDigit = true :=
  Nat.isDigit_of_mem_toDigits (by decide) (by decide) hc

theorem decimalValue_toDigits (n : Nat) : decimalValue (Nat.toDigits 10 n) = n := by
  have hcore := Nat.ofDigitChars_ten_toDigits (n := n)
  rw [Nat.ofDigitChars_eq_foldl] at hcore
  exact hcore

/-- Only zero is written with a zero in front. -/
theorem head?_toDigits_ne_zero {n : Nat} (hn : 0 < n) :
    (Nat.toDigits 10 n).head? ≠ some '0' := by
  induction n using Nat.strongRecOn with
  | ind n ih =>
      rcases Nat.lt_or_ge n 10 with hsmall | hlarge
      · rw [Nat.toDigits_of_lt_base hsmall]
        have hdigit : ∀ k < 10, 0 < k → Nat.digitChar k ≠ '0' := by decide
        simpa using hdigit n hsmall hn
      · have hhead := ih (n / 10) (by omega) (by omega)
        rw [Nat.toDigits_of_base_le (by decide) hlarge]
        rcases hchars : Nat.toDigits 10 (n / 10) with _ | ⟨d, ds⟩
        · exact absurd hchars Nat.toDigits_ne_nil
        · rw [hchars] at hhead
          exact hhead

theorem skipInteger?_toDigits (n : Nat) : skipInteger? (Nat.toDigits 10 n) = some [] := by
  rcases Nat.eq_zero_or_pos n with rfl | hn
  · rfl
  · have hhead := head?_toDigits_ne_zero hn
    have hdigits := fun c => isDigit_of_mem_toDigits (n := n) (c := c)
    rcases hchars : Nat.toDigits 10 n with _ | ⟨d, ds⟩
    · exact absurd hchars Nat.toDigits_ne_nil
    · rw [hchars] at hhead hdigits
      have hd : d.isDigit = true := hdigits d List.mem_cons_self
      have hds : ds.dropWhile Char.isDigit = [] :=
        List.dropWhile_eq_nil_iff.2 fun c hc => hdigits c (List.mem_cons_of_mem d hc)
      rw [skipInteger?, if_pos hd, hds]
      rintro rfl
      exact hhead rfl

theorem signToken?_of_isDigit {c : Char} (hc : c.isDigit = true) : signToken? c = none := by
  unfold signToken?
  split
  case h_7 => rfl
  all_goals exact absurd hc (by decide)

/-- The digits of a number are one word. -/
theorem nextToken?_ofNatural (n : Nat) {rest : List Char} (hrest : Ends rest) :
    nextToken? ((ofNatural n).toList ++ rest) = some (.number (some n), rest) := by
  have hdigits := fun c => isDigit_of_mem_toDigits (n := n) (c := c)
  have hskip := skipInteger?_toDigits n
  have hvalue := decimalValue_toDigits n
  rw [ofNatural, String.toList_ofList]
  rcases hchars : Nat.toDigits 10 n with _ | ⟨d, ds⟩
  · exact absurd hchars Nat.toDigits_ne_nil
  · rw [hchars] at hdigits hskip hvalue
    have hd : d.isDigit = true := hdigits d List.mem_cons_self
    have hquote : d ≠ '"' := by
      rintro rfl
      exact absurd hd (by decide)
    have hminus : skipMinus (d :: ds) = d :: ds := by
      rw [skipMinus]
      intro rest heq
      cases heq
      exact absurd hd (by decide)
    have hnumber : isNumber (d :: ds) = true := by
      rw [isNumber, hminus, hskip]
      rfl
    obtain ⟨htake, hdrop⟩ := takeWhile_append_of_ends (p := isNumberChar)
      (fun c hc => isNumberChar_of_isDigit (hdigits c (List.mem_cons_of_mem d hc)))
      (fun c hc => (hrest c hc).1)
    have hall : (d :: ds).all Char.isDigit = true := List.all_eq_true.2 hdigits
    rw [List.cons_append, nextToken?, signToken?_of_isDigit hd]
    simp only [hquote, if_false, hd, Bool.true_or, if_true, htake, hdrop, numberToken?, hnumber,
      hall, hvalue, Option.map_some]

/-- Every name starts with a letter of its own and goes on with letters. -/
theorem nameToken?_letters {cs : List Char} {token : Token} (hname : nameToken? cs = some token) :
    ∃ c name, cs = c :: name ∧ (c = 'n' ∨ c = 't' ∨ c = 'f') ∧ ∀ d ∈ name, d.isAlpha = true := by
  unfold nameToken? at hname
  split at hname
  · next hcs => exact ⟨_, _, hcs, by simp, by simp⟩
  · split at hname
    · next hcs => exact ⟨_, _, hcs, by simp, by simp⟩
    · split at hname
      · next hcs => exact ⟨_, _, hcs, by simp, by simp⟩
      · cases hname

/-- A name is one word. -/
theorem nextToken?_name {cs : List Char} {token : Token} (hname : nameToken? cs = some token)
    {rest : List Char} (hrest : Ends rest) : nextToken? (cs ++ rest) = some (token, rest) := by
  obtain ⟨c, name, rfl, hc, hletters⟩ := nameToken?_letters hname
  have hfirst : signToken? c = none ∧ c ≠ '"' ∧ ¬ (c.isDigit = true ∨ c = '-') := by
    rcases hc with rfl | rfl | rfl <;> decide
  obtain ⟨hsign, hquote, hdigit⟩ := hfirst
  obtain ⟨htake, hdrop⟩ := takeWhile_append_of_ends hletters fun c hc => (hrest c hc).2
  simp only [List.cons_append, nextToken?, hsign, hquote, if_false, Bool.or_eq_true,
    decide_eq_true_eq, hdigit, htake, hdrop, hname, Option.map_some]

end Numbers

section Lexing

theorem collectTokens_blank {c : Char} (hc : isBlank c = true) (found : List Token)
    (rest : List Char) : collectTokens found (c :: rest) = collectTokens found rest := by
  rw [collectTokens, if_pos hc]

/-- A blank starts no word and is no part of a number or a name. -/
theorem of_isBlank {c : Char} (hc : isBlank c = true) :
    (signToken? c = none ∧ c ≠ '"' ∧ ¬ (c.isDigit = true ∨ c = '-') ∧ c ∉ ['n', 't', 'f']) ∧
      isNumberChar c = false ∧ c.isAlpha = false := by
  simp only [isBlank, Bool.or_eq_true, beq_iff_eq] at hc
  rcases hc with ((rfl | rfl) | rfl) | rfl <;> decide

theorem nextToken?_blank {c : Char} (hc : isBlank c = true) (rest : List Char) :
    nextToken? (c :: rest) = none := by
  obtain ⟨hsign, hquote, hdigit, hname⟩ := (of_isBlank hc).1
  simp only [List.mem_cons, List.not_mem_nil, or_false, not_or] at hname
  simp only [nextToken?, hsign, hquote, if_false, Bool.or_eq_true, decide_eq_true_eq, hdigit,
    nameToken?, List.cons.injEq, hname.1, hname.2.1, hname.2.2, false_and, Option.map_none]

theorem collectTokens_word {cs rest : List Char} {word : Token}
    (hword : nextToken? cs = some (word, rest)) (found : List Token) :
    collectTokens found cs = collectTokens (word :: found) rest := by
  rcases cs with _ | ⟨c, cs⟩
  · cases hword
  · have hc : ¬ isBlank c = true := by
      intro hc
      rw [nextToken?_blank hc] at hword
      cases hword
    rw [collectTokens, if_neg hc]
    split
    · next hnone =>
        rw [hnone] at hword
        cases hword
    · next token rest' hsome =>
        rw [hsome] at hword
        cases hword
        rfl

/-- The characters are these words, in front of whatever ends a number or a name. -/
def Lexes (cs : List Char) (words : List Token) : Prop :=
  ∀ found rest, Ends rest →
    collectTokens found (cs ++ rest) = collectTokens (words.reverse ++ found) rest

variable {cs ds : List Char} {words more : List Token}

theorem lexes_nil : Lexes [] [] := fun _ _ _ => rfl

theorem lexes_word {word : Token}
    (hword : ∀ rest, Ends rest → nextToken? (cs ++ rest) = some (word, rest)) :
    Lexes cs [word] :=
  fun found rest hrest => collectTokens_word (hword rest hrest) found

/-- What a sign starts ends a number or a name. -/
theorem ends_cons {c : Char} (hc : isNumberChar c = false ∧ c.isAlpha = false)
    (rest : List Char) : Ends (c :: rest) := by
  intro d hd
  cases hd
  exact hc

theorem ends_blanks {gap : List Char} (hgap : ∀ c ∈ gap, isBlank c = true) : Ends gap := by
  cases gap with
  | nil =>
      intro c hc
      cases hc
  | cons c gap => exact ends_cons (of_isBlank (hgap c List.mem_cons_self)).2 gap

theorem Ends.append (hds : Ends ds) {rest : List Char} (hrest : Ends rest) :
    Ends (ds ++ rest) := by
  cases ds with
  | nil => exact hrest
  | cons d ds => exact hds

theorem Lexes.append (hcs : Lexes cs words) (hds : Lexes ds more) (hends : Ends ds) :
    Lexes (cs ++ ds) (words ++ more) := by
  intro found rest hrest
  rw [List.append_assoc, hcs found (ds ++ rest) (hends.append hrest), hds _ rest hrest,
    List.reverse_append, List.append_assoc]

theorem Lexes.blank {c : Char} (hc : isBlank c = true) (hcs : Lexes cs words) :
    Lexes (c :: cs) words := by
  intro found rest hrest
  rw [List.cons_append, collectTokens_blank hc, hcs found rest hrest]

theorem Lexes.blanks {gap : List Char} (hgap : ∀ c ∈ gap, isBlank c = true)
    (hcs : Lexes cs words) : Lexes (gap ++ cs) words := by
  induction gap with
  | nil => exact hcs
  | cons c gap ih =>
      exact (ih fun d hd => hgap d (List.mem_cons_of_mem c hd)).blank (hgap c List.mem_cons_self)

/-- A word that needs no end, in front of further words. -/
theorem Lexes.word {head : List Char} {word : Token}
    (hword : ∀ rest, nextToken? (head ++ rest) = some (word, rest)) (hcs : Lexes cs words) :
    Lexes (head ++ cs) (word :: words) := by
  intro found rest hrest
  rw [List.append_assoc, collectTokens_word (hword (cs ++ rest)), hcs _ rest hrest,
    List.reverse_cons, List.append_assoc]
  rfl

theorem Lexes.sign {c : Char} {word : Token} (hc : signToken? c = some word)
    (hcs : Lexes cs words) : Lexes (c :: cs) (word :: words) := by
  have hword : ∀ rest, nextToken? ([c] ++ rest) = some (word, rest) := by
    intro rest
    simp only [List.cons_append, List.nil_append, nextToken?, hc]
  exact hcs.word hword

theorem Lexes.quote (text : String) (hcs : Lexes cs words) :
    Lexes ((quote text).toList ++ cs) (.text (some text) :: words) :=
  Lexes.word (nextToken?_quote text) hcs

end Lexing

end ShieldedPool.Json
