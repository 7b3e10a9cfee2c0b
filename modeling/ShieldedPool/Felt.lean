/-
The two number systems of the pool and how they are written.  Field elements
are residues modulo `p`: hash inputs, tree nodes and curve coordinates.
Scalars are residues modulo `q`, the order of the curve: private keys and
tweaks.  Since `p < q`, a field element is a scalar as it stands, and a scalar
becomes a field element only by reduction.
-/
import ShieldedPool.Residue
import ShieldedPool.Hex

namespace ShieldedPool

/-- Bytes of a written field element or scalar. -/
def residueBytes : Nat := 32

/-- The field modulus `p`. -/
def Felt.modulus : Nat :=
  0x30644e72e131a029b85045b68181585d2833e84879b9709143e1f593f0000001

/-- The order `q` of the curve group. -/
def Scalar.modulus : Nat :=
  0x30644e72e131a029b85045b68181585d97816a916871ca8d3c208c16d87cfd47

instance : NeZero Felt.modulus := ⟨by decide⟩

instance : NeZero Scalar.modulus := ⟨by decide⟩

abbrev Felt := Residue Felt.modulus

abbrev Scalar := Residue Scalar.modulus

theorem feltModulus_lt_scalarModulus : Felt.modulus < Scalar.modulus := by decide

/-- Why a text or byte string is not a field element or scalar. -/
inductive ResidueDefect
  /-- The text is no hexadecimal number of at most 64 digits. -/
  | unreadable (text : String)
  | length (count : Nat)
  | notBelowField (value : Nat)
  | notBelowOrder (value : Nat)
deriving DecidableEq, Repr

/-- A number as `0x` and 64 digits. -/
def hexWord (value : Nat) : String :=
  "0x" ++ Hex.encode (Bytes.ofNatBE residueBytes value)

namespace ResidueDefect

/-- What was wrong, as it is quoted in messages. -/
def shown : ResidueDefect → String
  | unreadable text => text
  | length count => s!"{count} bytes (expected {residueBytes})"
  | notBelowField value => hexWord value
  | notBelowOrder value => s!"scalar {hexWord value} is not below the group order"

def message (defect : ResidueDefect) : String :=
  s!"Invalid field element - value {defect.shown} is not below the BN254 scalar modulus"

end ResidueDefect

namespace Residue

variable {n : Nat}

/-- The 32 big-endian bytes of a residue. -/
def toBytes (a : Residue n) : Bytes := Bytes.ofNatBE residueBytes a.val

/-- A residue as `0x` and 64 lower-case digits. -/
def toHex (a : Residue n) : String := hexWord a.val

@[simp] theorem length_toBytes (a : Residue n) : a.toBytes.length = residueBytes := by
  simp [toBytes]

/-- The residue that a number below the modulus is. -/
def ofNat? (n value : Nat) : Option (Residue n) :=
  if h : value < n then some ⟨value, h⟩ else none

theorem ofNat?_val (a : Residue n) : ofNat? n a.val = some a := by
  simp [ofNat?, a.val_lt]

theorem ofNat?_eq_some_iff {value : Nat} {a : Residue n} :
    ofNat? n value = some a ↔ a.val = value := by
  unfold ofNat?
  split
  · next h =>
      constructor
      · rintro ⟨⟩
        rfl
      · rintro rfl
        rfl
  · next h =>
      constructor
      · simp
      · rintro rfl
        exact absurd a.val_lt h

/-- Sixty-four random bytes at a time, little-endian and reduced, until the
residue is not zero.  `none` when the bytes run out first. -/
def draw? (n : Nat) [NeZero n] (random : Bytes) : Option (Residue n) :=
  match _hsplit : Bytes.split? 64 random with
  | none => none
  | some (head, rest) =>
      let value := ofNat n (Bytes.toNatLE head)
      if value = 0 then draw? n rest else some value
termination_by random.length
decreasing_by
  obtain ⟨rfl, hhead⟩ := Bytes.eq_append_of_split? _hsplit
  simp [hhead]

end Residue

namespace Felt

def ofWord64 (word : UInt64) : Felt := Residue.ofNat _ word.toNat

/-- Big-endian bytes of any length, reduced modulo `p`. -/
def reduce (bytes : Bytes) : Felt := Residue.ofNat _ (Bytes.toNatBE bytes)

def ofNatStrict (value : Nat) : Except ResidueDefect Felt :=
  match Residue.ofNat? Felt.modulus value with
  | some a => .ok a
  | none => .error (.notBelowField value)

/-- Read 32 big-endian bytes; nothing is reduced. -/
def ofBytes (bytes : Bytes) : Except ResidueDefect Felt :=
  if bytes.length = residueBytes then ofNatStrict (Bytes.toNatBE bytes)
  else .error (.length bytes.length)

/-- Read a hexadecimal text; nothing is reduced. -/
def ofHex (text : String) : Except ResidueDefect Felt :=
  match Hex.number? (2 * residueBytes) text with
  | some value => ofNatStrict value
  | none => .error (.unreadable text)

end Felt

namespace Scalar

def ofWord64 (word : UInt64) : Scalar := Residue.ofNat _ word.toNat

def reduce (bytes : Bytes) : Scalar := Residue.ofNat _ (Bytes.toNatBE bytes)

def ofNatStrict (value : Nat) : Except ResidueDefect Scalar :=
  match Residue.ofNat? Scalar.modulus value with
  | some k => .ok k
  | none => .error (.notBelowOrder value)

def ofBytes (bytes : Bytes) : Except ResidueDefect Scalar :=
  if bytes.length = residueBytes then ofNatStrict (Bytes.toNatBE bytes)
  else .error (.length bytes.length)

def ofHex (text : String) : Except ResidueDefect Scalar :=
  match Hex.number? (2 * residueBytes) text with
  | some value => ofNatStrict value
  | none => .error (.unreadable text)

/-- A field element as a scalar, with the same representative. -/
def ofFelt (a : Felt) : Scalar :=
  ⟨a.val, Nat.lt_trans a.val_lt feltModulus_lt_scalarModulus⟩

/-- A scalar reduced modulo `p`: the form in which a private key is hashed. -/
def toFelt (k : Scalar) : Felt := Residue.ofNat _ k.val

theorem toFelt_ofFelt (a : Felt) : toFelt (ofFelt a) = a := Residue.ofNat_val a

end Scalar

end ShieldedPool
