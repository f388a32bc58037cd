/-!
# Numbers in bytes

Binary formats store numbers in several bytes, with the highest or the lowest byte first. A reading
step answers what it read and the bytes after it, or nothing when there are too few.
-/

namespace MailMerge.Image

/-- A sequence of bytes. -/
abbrev Bytes := List UInt8

namespace Bytes

/-- The number in bytes of which the first is the highest. -/
def bigEndian (bs : Bytes) : Nat := bs.foldl (fun n b => 256 * n + b.toNat) 0

/-- The number in bytes of which the first is the lowest. -/
def littleEndian (bs : Bytes) : Nat := bigEndian bs.reverse

/-- Takes off a number of bytes. -/
def take? (count : Nat) (bs : Bytes) : Option (Bytes × Bytes) :=
  if bs.length < count then none else some (bs.take count, bs.drop count)

/-- Drops a number of bytes. -/
def skip? (count : Nat) (bs : Bytes) : Option Bytes := (take? count bs).map Prod.snd

/-- Reads a number with its highest byte first. -/
def big? (count : Nat) (bs : Bytes) : Option (Nat × Bytes) :=
  (take? count bs).map fun (head, rest) => (bigEndian head, rest)

/-- Reads a number with its lowest byte first. -/
def little? (count : Nat) (bs : Bytes) : Option (Nat × Bytes) :=
  (take? count bs).map fun (head, rest) => (littleEndian head, rest)

/-- A number of four bytes as a signed one. -/
def signed32 (n : Nat) : Int := if n < 0x80000000 then n else (n : Int) - 0x100000000

end Bytes

end MailMerge.Image
