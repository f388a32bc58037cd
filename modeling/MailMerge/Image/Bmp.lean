import MailMerge.Image.Bytes

/-!
# Headers of BMP images

A BMP image has a file header and one of several versions of a bitmap header, told apart by their
length, which give size, bit depth and compression; a table of colours or of bit masks follows where
the pixels need one. A negative height means that the rows come from the top.
-/

namespace MailMerge.Image.Bmp

open Bytes

/-- Where the bits of one colour are in a pixel: a mask of adjacent bits, within the pixel's
width. An absent mask has no bits. -/
def validMask (width mask : Nat) : Bool :=
  if mask = 0 then true
  else
    let low := (List.range 32).find? fun i => (mask >>> i) % 2 = 1
    match low with
    | none => false
    | some low =>
      let shifted := mask >>> low
      (shifted &&& (shifted + 1)) = 0 && mask < 1 <<< width

/-- The masks of a pixel are all valid, and none of the three colours is absent. -/
def validMasks (width red green blue alpha : Nat) : Bool :=
  [red, green, blue, alpha].all (validMask width) && red ≠ 0 && green ≠ 0 && blue ≠ 0

/-- The size in a header of the shortest version, with the bit depth. -/
def coreHeader? (bs : Bytes) : Option ((Nat × Nat) × Nat) := do
  let (width, bs) ← little? 2 bs
  let (height, bs) ← little? 2 bs
  let (planes, bs) ← little? 2 bs
  let (depth, _) ← little? 2 bs
  if width ≠ 0 && height ≠ 0 && planes = 1 && [1, 4, 8, 24].contains depth then
    some ((width, height), depth)
  else none

/-- What a header of the longer versions tells. -/
structure Info where
  size : Nat × Nat
  depth : Nat
  compression : Nat
  colors : Nat
deriving Repr, DecidableEq

/-- The depths that go with a compression. -/
def validDepth (compression depth : Nat) : Bool :=
  match compression with
  | 0 => [1, 2, 4, 8, 16, 24, 32].contains depth
  | 1 => depth = 8
  | 2 => depth = 4
  | 3 => depth = 16 || depth = 32
  | _ => false

/-- Reads a header of the longer versions. Answers the bytes after its first 36, too. -/
def infoHeader? (bs : Bytes) : Option (Info × Bytes) := do
  let (width, bs) ← little? 4 bs
  let (height, bs) ← little? 4 bs
  let width := signed32 width
  let height := signed32 height
  let (planes, bs) ← little? 2 bs
  let (depth, bs) ← little? 2 bs
  let (compression, bs) ← little? 4 bs
  let bs ← skip? 12 bs
  let (colors, bs) ← little? 4 bs
  let bs ← skip? 4 bs
  if width ≤ 0 || 0xFFFF < width || height = 0 || 0xFFFF < height || height = -0x80000000 ||
      planes ≠ 1 ||
      (height < 0 && compression ≠ 0 && compression ≠ 3) || !validDepth compression depth then none
  else some (⟨(width.toNat, height.natAbs), depth, compression, colors⟩, bs)

/-- The pixels are numbers of colours in a table. -/
def Info.hasTable (info : Info) : Bool :=
  info.compression = 1 || info.compression = 2 || (info.compression = 0 && info.depth ≤ 8)

/-- The table of colours is within the bytes; each entry takes `entry` bytes, and at most 256
entries count. -/
def hasTable (colors depth entry : Nat) (bs : Bytes) : Bool :=
  let count := if colors = 0 then 1 <<< depth else colors
  count ≤ 1 <<< depth && min count 256 * entry ≤ bs.length

/-- The bit masks after the header are valid. Longer headers have a mask of opacity, too. -/
def hasMasks (length depth : Nat) (bs : Bytes) : Option Bool := do
  let (red, bs) ← little? 4 bs
  let (green, bs) ← little? 4 bs
  let (blue, bs) ← little? 4 bs
  let alpha ← if 56 ≤ length then (little? 4 bs).map Prod.fst else some 0
  return validMasks depth red green blue alpha

/-- The width and height of an image. -/
def size? (file : Bytes) : Option (Nat × Nat) := do
  let (mark, bs) ← take? 2 file
  let bs ← skip? 12 bs
  let (length, bs) ← little? 4 bs
  if mark ≠ [0x42, 0x4D] then none
  else if length = 12 then
    let (size, depth) ← coreHeader? bs
    if depth = 24 || hasTable 0 depth 3 (file.drop 26) then some size else none
  else if [40, 52, 56, 108, 124].contains length then
    let (info, bs) ← infoHeader? bs
    if info.compression = 3 then
      let valid ← hasMasks length info.depth bs
      if valid then some info.size else none
    else if !info.hasTable || hasTable info.colors info.depth 4 (file.drop (14 + length)) then
      some info.size
    else none
  else none

end MailMerge.Image.Bmp
