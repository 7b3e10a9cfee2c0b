/-
Compressed points.  A tag says which of the two points over a first
coordinate is meant, by the parity of the second one; the coordinate follows
in 32 bytes.  Infinity is written as zeros throughout.
-/
import ShieldedPool.Felt.SquareRoot
import ShieldedPool.Point

namespace ShieldedPool.Point

/-- Bytes of a compressed point. -/
def compressedBytes : Nat := 1 + residueBytes

/-- The tag of a second coordinate. -/
def parityTag (y : Felt) : UInt8 := if y.isOdd then 3 else 2

def compress : Point → Bytes
  | infinity => List.replicate compressedBytes 0
  | affine x y => parityTag y :: x.toBytes

@[simp] theorem length_compress (p : Point) : p.compress.length = compressedBytes := by
  cases p <;> simp [compress, compressedBytes, Nat.add_comm]

/-- The compressed point as a word of its fixed length. -/
def compressed (p : Point) : ByteWord compressedBytes := ⟨p.compress, p.length_compress⟩

/-- The point over a first coordinate whose second one has the given parity. -/
def lift (x : Felt) (odd : Bool) : Except PointDefect Point :=
  (curveRight x).sqrt?.elim (.error (.noPoint x)) fun y =>
    ofCoordinates x (if y.isOdd = odd then y else -y)

/-- Read a compressed point.  Every point has exactly one form that is read. -/
def decompress : Bytes → Except PointDefect Point
  | [] => .error (.length 0)
  | tag :: payload =>
      if payload.length ≠ residueBytes then .error (.length (payload.length + 1))
      else if tag = 0 then
        if payload.all (· == 0) then .ok infinity else .error .infinityPayload
      else if tag = 2 ∨ tag = 3 then
        match Felt.ofBytes payload with
        | .error _ => .error .coordinateTooLarge
        | .ok x => lift x (tag == 3)
      else .error (.unknownTag tag)

end ShieldedPool.Point
