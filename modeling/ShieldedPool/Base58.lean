/-
Base-58 text.  The bytes are one big-endian number written with fifty-eight
digits; since that forgets leading zero bytes, each of them is written as a
leading `1`.
-/
import ShieldedPool.Bytes

namespace ShieldedPool.Base58

/-- The digits of a number in a base above one, least significant first; zero
has none. -/
def digitsLE (base : Nat) (hbase : 1 < base) : Nat → List Nat
  | 0 => []
  | n + 1 => (n + 1) % base :: digitsLE base hbase ((n + 1) / base)
decreasing_by exact Nat.div_lt_self (Nat.succ_pos n) hbase

/-- The number of a list of digits, most significant first. -/
def valueBE (base : Nat) (digits : List Nat) : Nat :=
  digits.foldl (fun high low => base * high + low) 0

/-- The digits: no zero, no capital o or i, no small l. -/
def alphabet : List Char :=
  "123456789ABCDEFGHJKLMNPQRSTUVWXYZabcdefghijkmnopqrstuvwxyz".toList

/-- A character that is no digit of the alphabet, by its place in bytes. -/
inductive Defect
  | badCharacter (c : Char) (index : Nat)
  | notAscii (index : Nat)
deriving DecidableEq

/-- A character of the ASCII range between quotes, with escapes for a quote, a
backslash and what does not print. -/
def quoted (c : Char) : String :=
  let body :=
    match c.toNat with
    | 0 => "\\0"
    | 9 => "\\t"
    | 10 => "\\n"
    | 13 => "\\r"
    | 39 => "\\'"
    | 92 => "\\\\"
    | code =>
        if code < 32 ∨ code = 127 then
          "\\u\x7b" ++ String.ofList (Nat.toDigits 16 code) ++ "\x7d"
        else c.toString
  "'" ++ body ++ "'"

namespace Defect

def reason : Defect → String
  | badCharacter c index =>
      s!"provided string contained invalid character {quoted c} at byte {index}"
  | notAscii index =>
      s!"provided string contained non-ascii character starting at byte {index}"

end Defect

def digit (value : Nat) : Char := alphabet.getD value '1'

def encode (bytes : Bytes) : String :=
  let zeros := (bytes.takeWhile (· == 0)).length
  String.ofList
    (List.replicate zeros '1'
      ++ ((digitsLE 58 (by decide) (Bytes.toNatBE bytes)).map digit).reverse)

/-- The values of the digits of a text.  All characters before the first bad
one are single bytes, so `index` counts bytes. -/
def digitValues (index : Nat) : List Char → Except Defect (List Nat)
  | [] => .ok []
  | c :: rest =>
      if 128 ≤ c.toNat then .error (.notAscii index)
      else
        match alphabet.idxOf? c with
        | none => .error (.badCharacter c index)
        | some value => (digitValues (index + 1) rest).map (value :: ·)

def decode (text : String) : Except Defect Bytes :=
  (digitValues 0 text.toList).map fun values =>
    let zeros := (values.takeWhile (· == 0)).length
    List.replicate zeros 0
      ++ ((digitsLE 256 (by decide) (valueBE 58 values)).map UInt8.ofNat).reverse

end ShieldedPool.Base58
