import MailMerge.Image.Bytes

/-!
# Headers of JPEG images

A JPEG image is a sequence of segments, each with a marker, a length and data. The size stands in
the frame segment; an image counts as readable when all segments up to the start of the first scan
are valid and the scan is one of components of the frame.
-/

namespace MailMerge.Image.Jpeg

open Bytes

/-- What a frame segment tells. -/
structure Frame where
  size : Nat × Nat
  /-- The identifiers of the components. -/
  components : List UInt8
deriving DecidableEq, Repr

/-- The identifiers of the components of a frame, each of which has sampling factors of at most
four, where three is none across, and one of four quantization tables. -/
def components? : Bytes → Option (List UInt8)
  | [] => some []
  | id :: sampling :: table :: rest =>
    let across := sampling.toNat / 16
    let down := sampling.toNat % 16
    if [1, 2, 4].contains across && [1, 2, 3, 4].contains down && table < 4 then
      (components? rest).map (id :: ·)
    else none
  | _ => none

/-- Reads a frame segment: eight bits a sample, a size, and up to four components. -/
def frame? (data : Bytes) : Option Frame := do
  let (precision, rest) ← big? 1 data
  let (height, rest) ← big? 2 rest
  let (width, rest) ← big? 2 rest
  let (count, rest) ← big? 1 rest
  if precision = 8 && width ≠ 0 && height ≠ 0 && 1 ≤ count && count ≤ 4 &&
      rest.length = 3 * count then
    let components ← components? rest
    return ⟨(width, height), components⟩
  else none

/-- A scan names components of the frame, none twice. -/
def validSelectors (frame : Frame) : List UInt8 → Bytes → Bool
  | _, [] => true
  | seen, id :: _ :: rest =>
    !seen.contains id && frame.components.contains id && validSelectors frame (id :: seen) rest
  | _, _ => false

/-- The data of a scan segment are valid: between one and four components, a range of coefficients,
and the bits to be refined. -/
def validScan (frame : Frame) (data : Bytes) : Bool :=
  match data with
  | [] => false
  | count :: rest =>
    1 ≤ count && count ≤ 4 && rest.length = 3 + 2 * count.toNat &&
      validSelectors frame [] (rest.take (2 * count.toNat)) &&
      (match rest.drop (2 * count.toNat) with
        | [first, last, bits] =>
          first ≤ 63 && last ≤ 63 && bits.toNat / 16 ≤ 13 && bits.toNat % 16 ≤ 13
        | _ => false)

/-- The data of a segment of quantization tables: each has 64 numbers of one or two bytes, and one
of four places. -/
def validQuantization (data : Bytes) : Bool :=
  match data with
  | [] => true
  | info :: rest =>
    let precision := info.toNat / 16
    let length := 64 * (precision + 1)
    precision ≤ 1 && info.toNat % 16 < 4 && length ≤ rest.length &&
      validQuantization (rest.drop length)
termination_by data.length
decreasing_by simp only [List.length_drop, List.length_cons]; omega

/-- A code can be made with the given numbers of words of each length, starting from `code` words
of `bound` possible ones, so that no word is a beginning of another and none has only ones. -/
def isPrefixCode : Nat → Nat → Bytes → Bool
  | _, _, [] => true
  | code, bound, count :: rest =>
    let code := 2 * code + count.toNat
    let bound := 2 * bound
    code < bound && isPrefixCode code bound rest

/-- The sum of bytes. -/
def total (bs : Bytes) : Nat := bs.foldl (fun n b => n + b.toNat) 0

/-- The data of a segment of Huffman tables: each has one of four places, the numbers of its words
of each length up to 16, and their symbols, which are at most 15 in a table of the first class. -/
def validHuffman (data : Bytes) : Bool :=
  match data with
  | [] => true
  | info :: rest =>
    let counts := rest.take 16
    let symbols := rest.drop 16
    16 ≤ rest.length && info.toNat / 16 ≤ 1 && info.toNat % 16 < 4 && total counts ≤ 256 &&
      total counts ≤ symbols.length && isPrefixCode 0 1 counts &&
      (info.toNat / 16 = 1 || (symbols.take (total counts)).all (· ≤ 15)) &&
      validHuffman (symbols.drop (total counts))
termination_by data.length
decreasing_by simp only [List.length_drop, List.length_cons]; omega

/-- The bytes of letters. -/
def letters (text : String) : Bytes := text.toList.map fun c => c.toUInt8

/-- What marks the data of a segment as a portion of extended metadata. -/
def extensionMark : Bytes := letters "http://ns.adobe.com/xmp/extension/" ++ [0]

/-- A portion of extended metadata begins with 32 digits and two numbers, if there is any of it. -/
def validMetadata (data : Bytes) : Bool :=
  !extensionMark.isPrefixOf data || data.length = extensionMark.length ||
    extensionMark.length + 40 ≤ data.length

/-- The segment that tells of the colours has a mark, even where it is too short for that and the
mark is in the bytes `after` it. A marked one has twelve bytes, and one of three kinds. -/
def validColors (data after : Bytes) : Bool :=
  !(letters "Adobe").isPrefixOf (data ++ after) || data[11]?.any (· ≤ 2)

/-- The data of a segment before the scan are valid, as far as its marker tells what they are. The
end of the image, arithmetic coding and a later number of lines cannot come there. -/
def validSegment (marker : UInt8) (data after : Bytes) : Bool :=
  match marker with
  | 0xC4 => validHuffman data
  | 0xDB => validQuantization data
  | 0xDD => data.length = 2
  | 0xE1 => validMetadata data
  | 0xEE => validColors data after
  | 0xCC | 0xD9 | 0xDC => false
  | _ => true

/-- The markers of the frames that can be decoded: two sequential ones and the progressive one.
Other frames are passed over. -/
def isFrame (marker : UInt8) : Bool := 0xC0 ≤ marker && marker ≤ 0xC2

/-- Drops everything up to the next marker; answers the marker and the bytes after it. -/
def nextMarker? : Bytes → Option (UInt8 × Bytes)
  | [] => none
  | [_] => none
  | a :: b :: rest =>
    if a = 0xFF && b ≠ 0xFF && b ≠ 0x00 then some (b, rest) else nextMarker? (b :: rest)

/-- Takes off the length of a segment, which counts itself, and its data. The first segment of
applications has a mark of five bytes, which is read also where the data have only four. -/
def segment? (marker : UInt8) (bs : Bytes) : Option (Bytes × Bytes) := do
  let (length, bs) ← big? 2 bs
  if length < 2 then none
  else take? (if marker = 0xE0 && length = 6 then 5 else length - 2) bs

/-- Passes over segments up to the first scan; `fuel` bounds their number. -/
def scanSize? : Nat → Option Frame → Bytes → Option (Nat × Nat)
  | 0, _, _ => none
  | fuel + 1, frame, bs => do
    let (marker, bs) ← nextMarker? bs
    let (data, bs) ← segment? marker bs
    if marker = 0xDA then
      let frame ← frame
      if validScan frame data then some frame.size else none
    else if isFrame marker then
      if frame.isSome then none
      else
        let frame ← frame? data
        scanSize? fuel frame bs
    else if validSegment marker data bs then scanSize? fuel frame bs
    else none

/-- The width and height of an image. -/
def size? (bs : Bytes) : Option (Nat × Nat) := do
  let (mark, bs) ← take? 2 bs
  if mark = [0xFF, 0xD8] then scanSize? (bs.length + 1) none bs else none

end MailMerge.Image.Jpeg
