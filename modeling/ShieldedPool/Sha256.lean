/-
SHA-256 over byte strings.  A message is padded to whole blocks of 64 bytes;
every block stretches to 64 schedule words, which stir eight running words.
-/
import ShieldedPool.Bytes

namespace ShieldedPool.Sha256

/-- The eight running words. -/
structure Digest where
  a : UInt32
  b : UInt32
  c : UInt32
  d : UInt32
  e : UInt32
  f : UInt32
  g : UInt32
  h : UInt32
deriving DecidableEq

/-- The running words at the start: square roots of the first eight primes. -/
def initial : Digest :=
  ⟨0x6a09e667, 0xbb67ae85, 0x3c6ef372, 0xa54ff53a,
   0x510e527f, 0x9b05688c, 0x1f83d9ab, 0x5be0cd19⟩

/-- The round constants: cube roots of the first sixty-four primes. -/
def roundConstants : List UInt32 :=
  [0x428a2f98, 0x71374491, 0xb5c0fbcf, 0xe9b5dba5, 0x3956c25b, 0x59f111f1,
   0x923f82a4, 0xab1c5ed5, 0xd807aa98, 0x12835b01, 0x243185be, 0x550c7dc3,
   0x72be5d74, 0x80deb1fe, 0x9bdc06a7, 0xc19bf174, 0xe49b69c1, 0xefbe4786,
   0x0fc19dc6, 0x240ca1cc, 0x2de92c6f, 0x4a7484aa, 0x5cb0a9dc, 0x76f988da,
   0x983e5152, 0xa831c66d, 0xb00327c8, 0xbf597fc7, 0xc6e00bf3, 0xd5a79147,
   0x06ca6351, 0x14292967, 0x27b70a85, 0x2e1b2138, 0x4d2c6dfc, 0x53380d13,
   0x650a7354, 0x766a0abb, 0x81c2c92e, 0x92722c85, 0xa2bfe8a1, 0xa81a664b,
   0xc24b8b70, 0xc76c51a3, 0xd192e819, 0xd6990624, 0xf40e3585, 0x106aa070,
   0x19a4c116, 0x1e376c08, 0x2748774c, 0x34b0bcb5, 0x391c0cb3, 0x4ed8aa4a,
   0x5b9cca4f, 0x682e6ff3, 0x748f82ee, 0x78a5636f, 0x84c87814, 0x8cc70208,
   0x90befffa, 0xa4506ceb, 0xbef9a3f7, 0xc67178f2]

/-- Rotate a word right. -/
def rotate (word : UInt32) (places : UInt32) : UInt32 :=
  word >>> places ||| word <<< (32 - places)

/-- The mixing of a schedule word fifteen places back. -/
def smallSigma0 (x : UInt32) : UInt32 := rotate x 7 ^^^ rotate x 18 ^^^ x >>> 3

/-- The mixing of a schedule word two places back. -/
def smallSigma1 (x : UInt32) : UInt32 := rotate x 17 ^^^ rotate x 19 ^^^ x >>> 10

/-- The mixing of the first running word. -/
def bigSigma0 (x : UInt32) : UInt32 := rotate x 2 ^^^ rotate x 13 ^^^ rotate x 22

/-- The mixing of the fifth running word. -/
def bigSigma1 (x : UInt32) : UInt32 := rotate x 6 ^^^ rotate x 11 ^^^ rotate x 25

/-- The message, a one bit, zeros to the next block end but eight bytes, and
the length in bits. -/
def pad (message : Bytes) : Bytes :=
  let zeros := (119 - message.length % 64) % 64
  message ++ 0x80 :: List.replicate zeros 0 ++ Bytes.ofNatBE 8 (8 * message.length)

/-- Four bytes at a time, as big-endian words. -/
def wordsOf : Bytes → List UInt32
  | a :: b :: c :: d :: rest =>
      UInt32.ofNat (Bytes.toNatBE [a, b, c, d]) :: wordsOf rest
  | _ => []

/-- The next `count` schedule words after a window of the last sixteen. -/
def stretch : (count : Nat) → (window : List UInt32) → List UInt32
  | 0, _ => []
  | count + 1, window =>
      let word := fun i => window.getD i 0
      let next := smallSigma1 (word 14) + word 9 + smallSigma0 (word 1) + word 0
      next :: stretch count (window.drop 1 ++ [next])

/-- The sixty-four schedule words of a block of sixteen words. -/
def schedule (block : List UInt32) : List UInt32 := block ++ stretch 48 block

/-- One round, with the sum of its constant and its schedule word. -/
def round (s : Digest) (input : UInt32) : Digest :=
  let choice := (s.e &&& s.f) ^^^ (~~~s.e &&& s.g)
  let majority := (s.a &&& s.b) ^^^ (s.a &&& s.c) ^^^ (s.b &&& s.c)
  let t₁ := s.h + bigSigma1 s.e + choice + input
  let t₂ := bigSigma0 s.a + majority
  ⟨t₁ + t₂, s.a, s.b, s.c, s.d + t₁, s.e, s.f, s.g⟩

def Digest.add (s t : Digest) : Digest :=
  ⟨s.a + t.a, s.b + t.b, s.c + t.c, s.d + t.d,
   s.e + t.e, s.f + t.f, s.g + t.g, s.h + t.h⟩

/-- Stir one block into the running words. -/
def compress (s : Digest) (block : List UInt32) : Digest :=
  s.add ((List.zipWith (· + ·) roundConstants (schedule block)).foldl round s)

/-- Stir `count` blocks of sixteen words. -/
def compressBlocks : (count : Nat) → Digest → List UInt32 → Digest
  | 0, s, _ => s
  | count + 1, s, words =>
      compressBlocks count (compress s (words.take 16)) (words.drop 16)

def Digest.toBytes (s : Digest) : Bytes :=
  [s.a, s.b, s.c, s.d, s.e, s.f, s.g, s.h].flatMap
    fun word => Bytes.ofNatBE 4 word.toNat

def hash (message : Bytes) : Bytes :=
  let words := wordsOf (pad message)
  (compressBlocks (words.length / 16) initial words).toBytes

end ShieldedPool.Sha256
