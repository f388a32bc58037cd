import MailMerge.Text.Hex

/-!
# The secure hash algorithm with 256 bits

A message is filled up to whole blocks of 64 bytes. Each block is mixed into eight registers in 64
rounds, one for each constant, with a window of 16 words that slides over the words of the block and
those derived from them.
-/

namespace MailMerge.Sha256

/-- The constants of the rounds: the first bits of the fractional parts of cube roots of primes. -/
def constants : List UInt32 :=
  [0x428a2f98, 0x71374491, 0xb5c0fbcf, 0xe9b5dba5, 0x3956c25b, 0x59f111f1, 0x923f82a4, 0xab1c5ed5,
   0xd807aa98, 0x12835b01, 0x243185be, 0x550c7dc3, 0x72be5d74, 0x80deb1fe, 0x9bdc06a7, 0xc19bf174,
   0xe49b69c1, 0xefbe4786, 0x0fc19dc6, 0x240ca1cc, 0x2de92c6f, 0x4a7484aa, 0x5cb0a9dc, 0x76f988da,
   0x983e5152, 0xa831c66d, 0xb00327c8, 0xbf597fc7, 0xc6e00bf3, 0xd5a79147, 0x06ca6351, 0x14292967,
   0x27b70a85, 0x2e1b2138, 0x4d2c6dfc, 0x53380d13, 0x650a7354, 0x766a0abb, 0x81c2c92e, 0x92722c85,
   0xa2bfe8a1, 0xa81a664b, 0xc24b8b70, 0xc76c51a3, 0xd192e819, 0xd6990624, 0xf40e3585, 0x106aa070,
   0x19a4c116, 0x1e376c08, 0x2748774c, 0x34b0bcb5, 0x391c0cb3, 0x4ed8aa4a, 0x5b9cca4f, 0x682e6ff3,
   0x748f82ee, 0x78a5636f, 0x84c87814, 0x8cc70208, 0x90befffa, 0xa4506ceb, 0xbef9a3f7, 0xc67178f2]

/-- The eight registers. -/
structure Registers where
  a : UInt32
  b : UInt32
  c : UInt32
  d : UInt32
  e : UInt32
  f : UInt32
  g : UInt32
  h : UInt32

/-- The registers at the beginning: the same of square roots of primes. -/
def initial : Registers :=
  ⟨0x6a09e667, 0xbb67ae85, 0x3c6ef372, 0xa54ff53a, 0x510e527f, 0x9b05688c, 0x1f83d9ab, 0x5be0cd19⟩

/-- Rotates a word to the right. -/
def rotate (x : UInt32) (n : UInt32) : UInt32 := (x >>> n) ||| (x <<< (32 - n))

/-- Mixes a constant and a word into the registers. -/
def round (r : Registers) (k w : UInt32) : Registers :=
  let s := rotate r.e 6 ^^^ rotate r.e 11 ^^^ rotate r.e 25
  let choice := (r.e &&& r.f) ^^^ (~~~r.e &&& r.g)
  let x := r.h + s + choice + k + w
  let t := rotate r.a 2 ^^^ rotate r.a 13 ^^^ rotate r.a 22
  let majority := (r.a &&& r.b) ^^^ (r.a &&& r.c) ^^^ (r.b &&& r.c)
  ⟨x + t + majority, r.a, r.b, r.c, r.d + x, r.e, r.f, r.g⟩

/-- The word that enters a window when its first word leaves. -/
def entering (first : UInt32) (rest : List UInt32) : UInt32 :=
  let x := rest.getD 0 0
  let y := rest.getD 13 0
  (rotate y 17 ^^^ rotate y 19 ^^^ (y >>> 10)) + rest.getD 8 0 +
    (rotate x 7 ^^^ rotate x 18 ^^^ (x >>> 3)) + first

/-- Runs the rounds for the given constants over a sliding window. -/
def rounds (r : Registers) : List UInt32 → List UInt32 → Registers
  | k :: later, first :: rest =>
    rounds (round r k first) later (rest ++ [entering first rest])
  | _, _ => r

/-- Adds registers one by one. -/
def sum (r s : Registers) : Registers :=
  ⟨r.a + s.a, r.b + s.b, r.c + s.c, r.d + s.d, r.e + s.e, r.f + s.f, r.g + s.g, r.h + s.h⟩

/-- The words of a sequence of bytes, the highest byte first. -/
def words : List UInt8 → List UInt32
  | a :: b :: c :: d :: rest =>
    ((a.toUInt32 <<< 24) ||| (b.toUInt32 <<< 16) ||| (c.toUInt32 <<< 8) ||| d.toUInt32) ::
      words rest
  | _ => []

/-- Mixes a number of blocks into the registers. -/
def blocks : Nat → Registers → List UInt8 → Registers
  | 0, r, _ => r
  | count + 1, r, bytes =>
    blocks count (sum r (rounds r constants (words (bytes.take 64)))) (bytes.drop 64)

/-- The lowest bytes of a number, the highest of them first. -/
def bigEndian (count : Nat) (n : Nat) : List UInt8 :=
  (List.range count).reverse.map fun i => UInt8.ofNat (n >>> (8 * i))

/-- A message filled up to whole blocks: a one bit, zeros, and the length in bits. -/
def padded (message : List UInt8) : List UInt8 :=
  message ++ 0x80 :: List.replicate ((119 - message.length % 64) % 64) 0 ++
    bigEndian 8 (8 * message.length)

/-- The hash of a message. -/
def hash (message : List UInt8) : List UInt8 :=
  let bytes := padded message
  let r := blocks (bytes.length / 64) initial bytes
  [r.a, r.b, r.c, r.d, r.e, r.f, r.g, r.h].flatMap fun w => bigEndian 4 w.toNat

end MailMerge.Sha256
