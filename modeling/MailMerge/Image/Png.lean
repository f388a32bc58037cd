import MailMerge.Image.Bytes
import MailMerge.Image.Deflate

/-!
# Headers of PNG images

A PNG image is a signature and a sequence of chunks, each with a length, a type of four letters, its
data and a checksum. The size stands in the first chunk; an image counts as readable when all chunks
up to the first one with pixels are, and a row of its pixels can be unpacked in the memory that is
left by what these chunks take.

A chunk whose type begins with a small letter can be done without: one with a wrong checksum or a
wrong length is passed over. Only some must be as they should, such as the frames of an animation.
-/

namespace MailMerge.Image.Png

open Bytes

/-- The bytes that every PNG image begins with. -/
def signature : Bytes := [0x89, 0x50, 0x4E, 0x47, 0x0D, 0x0A, 0x1A, 0x0A]

/-- One bit of the checksum: division by the polynomial of degree 32, lowest bit first. -/
def checksumBit (n : Nat) : Nat :=
  if n % 2 = 1 then (n / 2) ^^^ 0xEDB88320 else n / 2

/-- One byte of the checksum. -/
def checksumByte (n : Nat) (b : UInt8) : Nat :=
  Nat.repeat checksumBit 8 (n ^^^ b.toNat)

/-- The checksum of a sequence of bytes. -/
def checksum (bs : Bytes) : Nat := bs.foldl checksumByte 0xFFFFFFFF ^^^ 0xFFFFFFFF

/-- The type of a chunk, from its letters. -/
def chunkType (name : String) : Bytes := name.toList.map fun c => c.toUInt8

/-- A chunk whose type begins with a small letter can be done without. -/
def isOptional (kind : Bytes) : Bool := kind.head?.any fun b => b.toNat / 32 % 2 = 1

/-- The shortest and the longest data of the chunks that have such bounds. -/
def lengthBounds : List (String × Nat × Nat) :=
  [("PLTE", 3, 768), ("sBIT", 1, 4), ("tRNS", 1, 256), ("pHYs", 9, 9), ("gAMA", 4, 4),
    ("acTL", 8, 8), ("fcTL", 26, 26), ("cHRM", 32, 32), ("sRGB", 1, 1), ("cICP", 4, 4),
    ("mDCV", 24, 24), ("cLLI", 8, 8), ("bKGD", 1, 6)]

/-- The types of the other chunks that are read. -/
def unboundedTypes : List String := ["eXIf", "iCCP", "tEXt", "zTXt", "iTXt"]

/-- A chunk of the type is read if its data have the length. -/
def lengthFits (kind : Bytes) (length : Nat) : Bool :=
  match lengthBounds.find? fun (name, _) => kind = chunkType name with
  | some (_, shortest, longest) => shortest ≤ length && length ≤ longest
  | none => unboundedTypes.any (kind = chunkType ·) && length ≤ 0x7FFFFFFF

/-- The pairs of pixel format and bit depth that exist. -/
def validFormat (depth color : Nat) : Bool :=
  match color with
  | 0 => [1, 2, 4, 8, 16].contains depth
  | 3 => [1, 2, 4, 8].contains depth
  | 2 | 4 | 6 => [8, 16].contains depth
  | _ => false

/-- What the first chunk tells of the pixels. -/
structure Header where
  width : Nat
  height : Nat
  depth : Nat
  color : Nat
deriving DecidableEq, Repr

/-- Reads the data of the first chunk. -/
def header? (data : Bytes) : Option Header := do
  let (width, data) ← big? 4 data
  let (height, data) ← big? 4 data
  let (depth, data) ← big? 1 data
  let (color, data) ← big? 1 data
  let (compression, data) ← big? 1 data
  let (filter, data) ← big? 1 data
  let (interlace, _) ← big? 1 data
  if width = 0 || height = 0 || !validFormat depth color || compression ≠ 0 || filter ≠ 0 ||
      1 < interlace then none
  else some ⟨width, height, depth, color⟩

/-- What the chunks between the first one and the pixels tell. -/
structure Preamble where
  /-- A table of colours was given. -/
  palette : Bool
  /-- It was told which colours are transparent. -/
  opacity : Bool
  /-- The meaning of the colours was given by numbers. -/
  codePoints : Bool
  /-- A description of the colours was given. -/
  profile : Bool
  /-- The number of frames announced. -/
  frames : Nat
  /-- The number of bytes that the data of a chunk can have without more memory. -/
  room : Nat
  /-- The number of bytes taken of the memory. -/
  taken : Nat
deriving DecidableEq, Repr

/-- The number of bytes that an image may take while it is read. -/
def memoryLimit : Nat := 0x20000000

/-- The room that the data of a chunk need: what there is, doubled as often as necessary. -/
def roomFor (length room : Nat) : Nat :=
  ((List.range 32).map (room <<< ·)).find? (length ≤ ·) |>.getD length

/-- The bytes of a description of colours: a name of up to 80 bytes, a zero, the number of the way
of packing, and the bytes packed. -/
def profile? (data : Bytes) : Option (Array UInt8) :=
  let name := data.takeWhile (· ≠ 0)
  match data.drop name.length with
  | 0 :: 0 :: packed =>
    if name.isEmpty || 80 < name.length then none else Deflate.inflate? packed
  | _ => none

namespace Preamble

/-- Nothing is known yet. -/
def empty : Preamble := ⟨false, false, false, false, 0, 128, 0⟩

/-- Takes memory. -/
def take (count : Nat) (preamble : Preamble) : Preamble :=
  { preamble with taken := preamble.taken + count }

/-- Makes room for the data of a chunk. -/
def makeRoom (length : Nat) (preamble : Preamble) : Preamble :=
  let room := roomFor length preamble.room
  { preamble.take (room - preamble.room) with room }

/-- Keeps a description of the colours, if it is the first and there is memory for it. -/
def addProfile (data : Bytes) (preamble : Preamble) : Preamble :=
  if preamble.profile then preamble
  else
    let size := ((profile? data).map Array.size).getD 0
    let preamble := { preamble with profile := true }
    if preamble.taken + size ≤ memoryLimit then preamble.take size else preamble

/-- The data of a frame: its number in order, size and position, a time, and how it is disposed of
and blended. A frame before the pixels covers the whole image. -/
def validFrame (header : Header) (number : Nat) (data : Bytes) : Bool :=
  let word := fun i => bigEndian ((data.drop (4 * i)).take 4)
  let mode := fun i => bigEndian ((data.drop i).take 1)
  word 0 = number && word 1 = header.width && word 2 = header.height && word 3 = 0 && word 4 = 0 &&
    mode 24 ≤ 2 && mode 25 ≤ 1

/-- Transparent colours can be told for pixels of this format. -/
def takesOpacity (preamble : Preamble) (header : Header) (length : Nat) : Bool :=
  match header.color with
  | 0 => 2 ≤ length
  | 2 => 6 ≤ length
  | 3 => preamble.palette
  | _ => false

/-- Adds what an undamaged chunk tells, which can be wrong. -/
def add? (preamble : Preamble) (header : Header) (kind data : Bytes) : Option Preamble :=
  if kind = chunkType "PLTE" then
    if preamble.palette then none else some { preamble with palette := true }
  else if kind = chunkType "tRNS" then
    if preamble.takesOpacity header data.length then some { preamble with opacity := true }
    else some preamble
  else if kind = chunkType "bKGD" then
    if header.color = 3 && !preamble.palette then none else some preamble
  else if kind = chunkType "iCCP" then some (preamble.addProfile data)
  else if ["tEXt", "zTXt", "iTXt"].any (kind = chunkType ·) then some (preamble.take data.length)
  else if kind = chunkType "fcTL" then
    if validFrame header preamble.frames data then
      some { preamble with frames := preamble.frames + 1 }
    else none
  else if kind = chunkType "cICP" && !preamble.palette && !preamble.codePoints then
    if data[2]?.any (· = 0) && data[3]?.any (· ≤ 1) then
      some { preamble with codePoints := true }
    else none
  else some preamble

/-- The number of values of an unpacked pixel. -/
def samples (preamble : Preamble) (header : Header) : Nat :=
  match header.color with
  | 0 => if preamble.opacity then 2 else 1
  | 4 => 2
  | 6 => 4
  | _ => if preamble.opacity then 4 else 3

/-- The number of bytes of an unpacked row of pixels. -/
def rowLength (preamble : Preamble) (header : Header) : Nat :=
  header.width * preamble.samples header * (if header.depth = 16 then 2 else 1)

end Preamble

/-- Reads the chunks up to the first one with pixels; `fuel` bounds their number. -/
def preamble? (header : Header) : Nat → Preamble → Bytes → Option Preamble
  | 0, _, _ => none
  | fuel + 1, preamble, bs => do
    let (length, bs) ← big? 4 bs
    let (kind, bs) ← take? 4 bs
    let fits := lengthFits kind length
    if kind = chunkType "IDAT" then some preamble
    else if kind = chunkType "fdAT" || (!isOptional kind && kind ≠ chunkType "PLTE") then none
    else if !fits && (!isOptional kind || kind = chunkType "fcTL") then none
    else
      let (data, bs) ← take? length bs
      let (sum, bs) ← big? 4 bs
      let preamble := if fits then preamble.makeRoom length else preamble
      if sum = checksum (kind ++ data) then
        let preamble ← if fits then preamble.add? header kind data else some preamble
        preamble? header fuel preamble bs
      else if isOptional kind then preamble? header fuel preamble bs
      else none

/-- The width and height of an image. -/
def size? (bs : Bytes) : Option (Nat × Nat) := do
  let (head, bs) ← take? 8 bs
  let (length, bs) ← big? 4 bs
  let (kind, bs) ← take? 4 bs
  let (data, bs) ← take? length bs
  let (sum, bs) ← big? 4 bs
  if head ≠ signature || kind ≠ chunkType "IHDR" || length ≠ 13 ||
      sum ≠ checksum (kind ++ data) then none
  else
    let header ← header? data
    let preamble ← preamble? header (bs.length + 1) .empty bs
    if preamble.taken + preamble.rowLength header ≤ memoryLimit then
      some (header.width, header.height)
    else none

end MailMerge.Image.Png
