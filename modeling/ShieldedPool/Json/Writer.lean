/-
Writing JSON.  The parts of a document are texts that are written already, and
the functions here join them: on one line without blanks, or one field a line
with an indent of two.
-/
import ShieldedPool.Hex

namespace ShieldedPool.Json

/-- A character inside a quoted text.  Only quotes, backslashes and control
characters below the blank are escaped. -/
def escapeChar (c : Char) : List Char :=
  match c with
  | '"' => ['\\', '"']
  | '\\' => ['\\', '\\']
  | '\n' => ['\\', 'n']
  | '\r' => ['\\', 'r']
  | '\t' => ['\\', 't']
  | '\x08' => ['\\', 'b']
  | '\x0c' => ['\\', 'f']
  | c =>
      if c.toNat < 32 then
        ['\\', 'u', '0', '0', Hex.digit (c.toNat / 16), Hex.digit (c.toNat % 16)]
      else [c]

def quote (text : String) : String :=
  String.ofList ('"' :: text.toList.flatMap escapeChar ++ ['"'])

def ofNatural (n : Nat) : String := String.ofList (Nat.toDigits 10 n)

def ofBool (b : Bool) : String := if b then "true" else "false"

def ofOption {α : Type} (write : α → String) : Option α → String
  | none => "null"
  | some a => write a

def compactList (items : List String) : String :=
  "[" ++ ",".intercalate items ++ "]"

def compactRecord (fields : List (String × String)) : String :=
  "\x7b" ++ ",".intercalate (fields.map fun field => quote field.1 ++ ":" ++ field.2)
    ++ "\x7d"

/-- A record with one field a line. -/
def prettyRecord (fields : List (String × String)) : String :=
  "\x7b\n" ++ ",\n".intercalate
      (fields.map fun field => "  " ++ quote field.1 ++ ": " ++ field.2)
    ++ "\n\x7d"

end ShieldedPool.Json
