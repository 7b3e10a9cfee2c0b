/-
The words of a JSON text.  Blanks separate words and are dropped.  A text is
read as pieces, characters and escaped code units, which are joined into
characters afterwards: two units that form a surrogate pair are one character,
and a unit that is half a pair leaves the text without content.
-/
import ShieldedPool.Hex
import ShieldedPool.Json.Value

namespace ShieldedPool.Json

/-- A word of a JSON text. -/
inductive Token
  | openList
  | closeList
  | openRecord
  | closeRecord
  | comma
  | colon
  | null
  | bool (value : Bool)
  | number (natural : Option Nat)
  | text (content : Content)
deriving DecidableEq

def isBlank (c : Char) : Bool := c == ' ' || c == '\n' || c == '\t' || c == '\r'

/-- A piece of a text: a character, or a code unit written as an escape. -/
inductive Piece
  | char (c : Char)
  | unit (code : Nat)

def opensPair (code : Nat) : Bool := 0xD800 ≤ code && code < 0xDC00

def closesPair (code : Nat) : Bool := 0xDC00 ≤ code && code < 0xE000

/-- The characters that pieces stand for. -/
def joinPieces : List Piece → Option (List Char)
  | [] => some []
  | .char c :: rest => (joinPieces rest).map (c :: ·)
  | .unit high :: .unit low :: rest =>
      if opensPair high && closesPair low then
        (joinPieces rest).map
          (Char.ofNat (0x10000 + 0x400 * (high - 0xD800) + (low - 0xDC00)) :: ·)
      else if opensPair high || closesPair high then none
      else (joinPieces (.unit low :: rest)).map (Char.ofNat high :: ·)
  | .unit code :: rest =>
      if opensPair code || closesPair code then none
      else (joinPieces rest).map (Char.ofNat code :: ·)

/-- The content of a text with these pieces. -/
def contentOf (pieces : List Piece) : Content := (joinPieces pieces).map String.ofList

/-- The character of a one-letter escape. -/
def shortEscape? (c : Char) : Option Char :=
  match c with
  | '"' => some '"'
  | '\\' => some '\\'
  | '/' => some '/'
  | 'b' => some '\x08'
  | 'f' => some '\x0c'
  | 'n' => some '\n'
  | 'r' => some '\r'
  | 't' => some '\t'
  | _ => none

/-- The code unit of four hexadecimal digits. -/
def unit? (a b c d : Char) : Option Nat := Hex.valueFrom? 0 [a, b, c, d]

/-- Read a text up to its closing quote.  The pieces come out reversed, before
what follows the quote. -/
def readText (pieces : List Piece) : List Char → Option (List Piece × List Char)
  | '"' :: rest => some (pieces, rest)
  | '\\' :: 'u' :: a :: b :: c :: d :: rest =>
      match unit? a b c d with
      | some code => readText (.unit code :: pieces) rest
      | none => none
  | '\\' :: c :: rest =>
      match shortEscape? c with
      | some c => readText (.char c :: pieces) rest
      | none => none
  | c :: rest =>
      if c.toNat < 32 then none else readText (.char c :: pieces) rest
  | [] => none

theorem readText_length {pieces found : List Piece} {cs rest : List Char}
    (hread : readText pieces cs = some (found, rest)) : rest.length < cs.length := by
  fun_induction readText pieces cs <;> simp_all <;> omega

/-- The rest behind the integer part of a number, which has no leading zero. -/
def skipInteger? : List Char → Option (List Char)
  | [] => none
  | '0' :: rest => some rest
  | c :: rest => if c.isDigit then some (rest.dropWhile Char.isDigit) else none

/-- The rest behind a run of at least one digit. -/
def skipDigits? : List Char → Option (List Char)
  | [] => none
  | c :: rest => if c.isDigit then some (rest.dropWhile Char.isDigit) else none

def skipFraction? : List Char → Option (List Char)
  | '.' :: rest => skipDigits? rest
  | rest => some rest

def skipSign : List Char → List Char
  | '+' :: rest => rest
  | '-' :: rest => rest
  | rest => rest

def skipExponent? : List Char → Option (List Char)
  | 'e' :: rest => skipDigits? (skipSign rest)
  | 'E' :: rest => skipDigits? (skipSign rest)
  | rest => some rest

def skipMinus : List Char → List Char
  | '-' :: rest => rest
  | rest => rest

/-- The characters are one number: integer part, fraction, exponent. -/
def isNumber (cs : List Char) : Bool :=
  match (skipInteger? (skipMinus cs)).bind skipFraction? |>.bind skipExponent? with
  | some [] => true
  | _ => false

/-- The number that decimal digits write. -/
def decimalValue (digits : List Char) : Nat :=
  digits.foldl (fun high c => 10 * high + (c.toNat - 48)) 0

def numberToken? (cs : List Char) : Option Token :=
  if isNumber cs then
    some (.number (if cs.all Char.isDigit then some (decimalValue cs) else none))
  else none

def nameToken? (cs : List Char) : Option Token :=
  if cs = ['n', 'u', 'l', 'l'] then some .null
  else if cs = ['t', 'r', 'u', 'e'] then some (.bool true)
  else if cs = ['f', 'a', 'l', 's', 'e'] then some (.bool false)
  else none

def signToken? (c : Char) : Option Token :=
  match c with
  | '[' => some .openList
  | ']' => some .closeList
  | '{' => some .openRecord
  | '}' => some .closeRecord
  | ',' => some .comma
  | ':' => some .colon
  | _ => none

def isNumberChar (c : Char) : Bool :=
  c.isDigit || c == '+' || c == '-' || c == '.' || c == 'e' || c == 'E'

/-- One word at the front of a text without leading blanks, and what follows. -/
def nextToken? : List Char → Option (Token × List Char)
  | [] => none
  | c :: rest =>
      match signToken? c with
      | some token => some (token, rest)
      | none =>
          if c = '"' then
            (readText [] rest).map fun found =>
              (.text (contentOf found.1.reverse), found.2)
          else if c.isDigit || c = '-' then
            (numberToken? (c :: rest.takeWhile isNumberChar)).map
              (·, rest.dropWhile isNumberChar)
          else
            (nameToken? (c :: rest.takeWhile Char.isAlpha)).map
              (·, rest.dropWhile Char.isAlpha)

theorem nextToken?_length {cs rest : List Char} {token : Token}
    (hnext : nextToken? cs = some (token, rest)) : rest.length < cs.length := by
  cases cs with
  | nil => simp [nextToken?] at hnext
  | cons c tail =>
      have hdrop : ∀ p : Char → Bool, (tail.dropWhile p).length < tail.length + 1 :=
        fun p => Nat.lt_succ_of_le (List.dropWhile_suffix p).length_le
      simp only [nextToken?] at hnext
      split at hnext
      · simp only [Option.some.injEq, Prod.mk.injEq] at hnext
        simp [← hnext.2]
      · split at hnext
        · obtain ⟨found, hfound, heq⟩ := Option.map_eq_some_iff.1 hnext
          have hlength := readText_length hfound
          simp only [Prod.mk.injEq] at heq
          simp only [← heq.2, List.length_cons]
          omega
        · split at hnext <;>
          · obtain ⟨_, _, heq⟩ := Option.map_eq_some_iff.1 hnext
            simp only [Prod.mk.injEq] at heq
            simpa only [← heq.2, List.length_cons] using hdrop _

/-- Collect words up to the end of the text, behind those already `found`. -/
def collectTokens (found : List Token) (cs : List Char) : Option (List Token) :=
  match cs with
  | [] => some found.reverse
  | c :: rest =>
      if isBlank c then collectTokens found rest
      else
        match _hnext : nextToken? (c :: rest) with
        | none => none
        | some (token, rest) => collectTokens (token :: found) rest
termination_by cs.length
decreasing_by
  · simp
  · exact nextToken?_length _hnext

def tokens? (text : String) : Option (List Token) := collectTokens [] text.toList

end ShieldedPool.Json
