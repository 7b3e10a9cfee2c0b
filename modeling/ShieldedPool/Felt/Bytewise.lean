/-
Residues read byte by byte.  A strict reader sets 32 bytes against those of the
modulus, and the first difference decides.  Text is filled up with zeros to full
width before its digits are read in pairs.  Bytes that are read become a residue
from the left, reduced after every byte, so no number above the modulus is kept.
-/
import ShieldedPool.Felt

namespace ShieldedPool

namespace Hex

/-- The bytes that characters are in a text. -/
def utf8 (chars : List Char) : Bytes := chars.flatMap String.utf8EncodeChar

/-- Read bytes of text as pairs of digits.  A byte of a character that is not
ASCII is no digit. -/
def decodeBytes? (bytes : Bytes) : Option Bytes := decodeDigits? (bytes.map Char.ofUInt8)

/-- Read a text into `width` bytes.  The digits after an optional `0x` are limited
by their bytes and filled up by their characters. -/
def fill? (width : Nat) (text : String) : Option Bytes :=
  let digits := stripMark text.toList
  if digits.isEmpty || 2 * width < (utf8 digits).length then none
  else
    let filled := utf8 (digits.leftpad (2 * width) '0')
    if filled.length = 2 * width then decodeBytes? filled else none

end Hex

/-- The residue of a byte string of any length, most significant byte first. -/
def Residue.gather (n : Nat) [NeZero n] (bytes : Bytes) : Residue n :=
  bytes.foldl (fun high byte => high * 256 + ofNat n byte.toNat) 0

/-- What strict reading needs to know of a number system: the bytes of its modulus,
and what a number that is not below it is refused with. -/
structure StrictReader (n : Nat) where
  bound : ByteWord residueBytes
  bound_eq : Bytes.toNatBE bound.bytes = n
  tooLarge : Nat → ResidueDefect

namespace StrictReader

variable {n : Nat} [NeZero n] (reader : StrictReader n)

/-- Read 32 bytes that come before those of the modulus. -/
def ofWord (word : ByteWord residueBytes) : Except ResidueDefect (Residue n) :=
  if word.bytes < reader.bound.bytes then .ok (Residue.gather n word.bytes)
  else .error (reader.tooLarge (Bytes.toNatBE word.bytes))

def ofBytes (bytes : Bytes) : Except ResidueDefect (Residue n) :=
  if hlength : bytes.length = residueBytes then reader.ofWord ⟨bytes, hlength⟩
  else .error (.length bytes.length)

def ofHex (text : String) : Except ResidueDefect (Residue n) :=
  match Hex.fill? residueBytes text with
  | some bytes => reader.ofBytes bytes
  | none => .error (.unreadable text)

end StrictReader

def Felt.strict : StrictReader Felt.modulus where
  bound := ⟨[
    0x30, 0x64, 0x4e, 0x72, 0xe1, 0x31, 0xa0, 0x29,
    0xb8, 0x50, 0x45, 0xb6, 0x81, 0x81, 0x58, 0x5d,
    0x28, 0x33, 0xe8, 0x48, 0x79, 0xb9, 0x70, 0x91,
    0x43, 0xe1, 0xf5, 0x93, 0xf0, 0x00, 0x00, 0x01], rfl⟩
  bound_eq := by decide
  tooLarge := .notBelowField

def Scalar.strict : StrictReader Scalar.modulus where
  bound := ⟨[
    0x30, 0x64, 0x4e, 0x72, 0xe1, 0x31, 0xa0, 0x29,
    0xb8, 0x50, 0x45, 0xb6, 0x81, 0x81, 0x58, 0x5d,
    0x97, 0x81, 0x6a, 0x91, 0x68, 0x71, 0xca, 0x8d,
    0x3c, 0x20, 0x8c, 0x16, 0xd8, 0x7c, 0xfd, 0x47], rfl⟩
  bound_eq := by decide
  tooLarge := .notBelowOrder

end ShieldedPool
