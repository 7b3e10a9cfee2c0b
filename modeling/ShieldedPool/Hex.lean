/-
Hexadecimal text.  Bytes are written in lower case, two digits a byte; digits
are read in either case.
-/
import ShieldedPool.Bytes

namespace ShieldedPool.Hex

/-- The lower-case digit of a number below sixteen. -/
def digit (value : Nat) : Char :=
  if value < 10 then Char.ofNat (48 + value) else Char.ofNat (87 + value)

/-- The value of a digit of either case. -/
def digitValue? (c : Char) : Option Nat :=
  if '0' ≤ c ∧ c ≤ '9' then some (c.toNat - 48)
  else if 'a' ≤ c ∧ c ≤ 'f' then some (c.toNat - 87)
  else if 'A' ≤ c ∧ c ≤ 'F' then some (c.toNat - 55)
  else none

theorem digitValue?_digit : ∀ value < 16, digitValue? (digit value) = some value := by
  decide

/-- The digits of a byte, high half first. -/
def byteDigits (byte : UInt8) : List Char :=
  [digit (byte.toNat / 16), digit (byte.toNat % 16)]

def encode (bytes : Bytes) : String := String.ofList (bytes.flatMap byteDigits)

/-- The bytes that pairs of digits write. -/
def decodeDigits? : List Char → Option Bytes
  | [] => some []
  | [_] => none
  | high :: low :: rest => do
      let high ← digitValue? high
      let low ← digitValue? low
      let rest ← decodeDigits? rest
      return UInt8.ofNat (16 * high + low) :: rest

def decode? (text : String) : Option Bytes := decodeDigits? text.toList

theorem decodeDigits?_byteDigits (bytes : Bytes) :
    decodeDigits? (bytes.flatMap byteDigits) = some bytes := by
  induction bytes with
  | nil => rfl
  | cons byte rest ih =>
      have hbyte : byte.toNat < 256 := byte.toNat_lt
      have hback : UInt8.ofNat (16 * (byte.toNat / 16) + byte.toNat % 16) = byte := by
        rw [Nat.div_add_mod]
        simp
      have hhigh := digitValue?_digit (byte.toNat / 16) (by omega)
      have hlow := digitValue?_digit (byte.toNat % 16) (by omega)
      show decodeDigits? (digit (byte.toNat / 16) :: digit (byte.toNat % 16) ::
        rest.flatMap byteDigits) = _
      simp only [decodeDigits?, hhigh, hlow, ih, hback, Option.bind_eq_bind,
        Option.bind_some, Option.pure_def]

theorem decode?_encode (bytes : Bytes) : decode? (encode bytes) = some bytes := by
  simp [decode?, encode, decodeDigits?_byteDigits]

/-- The number that digits write after what has been read so far. -/
def valueFrom? (high : Nat) : List Char → Option Nat
  | [] => some high
  | c :: rest =>
      match digitValue? c with
      | some low => valueFrom? (16 * high + low) rest
      | none => none

/-- The digits after an optional `0x`, which is in lower case and stands once. -/
def stripMark : List Char → List Char
  | '0' :: 'x' :: digits => digits
  | digits => digits

/-- The number of a text of one to `limit` digits after an optional `0x`. -/
def number? (limit : Nat) (text : String) : Option Nat :=
  let digits := stripMark text.toList
  if digits.isEmpty || limit < digits.length then none else valueFrom? 0 digits

end ShieldedPool.Hex
