import MailMerge.Image.Bytes

/-!
# Deflated data

Data are deflated as a stream of bits, in blocks of three kinds: bytes as they are, and bytes and
repetitions in a fixed code or in one that comes with the block. A code gives each symbol a word of
bits, so that no word begins another; it is known from the lengths of its words alone. The stream
has a header of two bytes and ends in a checksum.
-/

namespace MailMerge.Image.Deflate

open Bytes

/-- A sequence of bits. -/
abbrev Bits := List Bool

/-- The bits of bytes, the lowest of each byte first. -/
def bits (bs : Bytes) : Bits :=
  bs.flatMap fun b => (List.range 8).map fun i => (b.toNat >>> i) % 2 = 1

/-- Reads a number of so many bits, the lowest first. -/
def number? : Nat → Bits → Option (Nat × Bits)
  | 0, bits => some (0, bits)
  | _ + 1, [] => none
  | width + 1, bit :: bits =>
    (number? width bits).map fun (n, bits) => (2 * n + bit.toNat, bits)

/-! ## Codes -/

/-- A code: the number of words of each length from one on, and the symbols in the order of their
words. -/
structure Code where
  counts : List Nat
  symbols : List Nat
deriving DecidableEq, Repr

namespace Code

/-- The greatest length of a word. -/
def longest : Nat := 15

/-- The code in which each symbol, from zero on, has a word of the given length; a symbol of length
zero has none. -/
def ofLengths (lengths : List Nat) : Code :=
  let widths := List.range' 1 longest
  ⟨widths.map fun width => lengths.count width,
    widths.flatMap fun width => (lengths.zipIdx.filter (·.1 = width)).map Prod.snd⟩

/-- Every sequence of bits of the greatest length begins with just one word. -/
def isComplete (code : Code) : Bool :=
  code.counts.foldl (fun used count => 2 * used + count) 0 = 1 <<< longest

/-- Reads a word. The words of the present length are numbered from `first` on, and `symbols` are
those of this length and the longer ones. -/
def symbolFrom? : List Nat → Nat → Nat → List Nat → Bits → Option (Nat × Bits)
  | [], _, _, _, _ => none
  | _, _, _, _, [] => none
  | count :: counts, word, first, symbols, bit :: bits =>
    let word := 2 * word + bit.toNat
    let first := 2 * first
    if word < first + count then symbols[word - first]?.map (·, bits)
    else symbolFrom? counts word (first + count) (symbols.drop count) bits

/-- Reads a word; answers its symbol. -/
def symbol? (code : Code) (bits : Bits) : Option (Nat × Bits) :=
  symbolFrom? code.counts 0 0 code.symbols bits

end Code

/-- The codes of a block: of the bytes and lengths, and of the distances. -/
structure Codes where
  lengths : Code
  distances : Code
deriving DecidableEq, Repr

/-- The fixed codes. -/
def fixedCodes : Codes :=
  ⟨.ofLengths (List.replicate 144 8 ++ List.replicate 112 9 ++ List.replicate 24 7 ++
      List.replicate 8 8),
    .ofLengths (List.replicate 32 5)⟩

/-- The order in which the lengths of the words for lengths of words are given. -/
def widthOrder : List Nat := [16, 17, 18, 0, 8, 7, 9, 6, 10, 5, 11, 4, 12, 3, 13, 2, 14, 1, 15]

/-- Reads so many lengths of words, given in a code: a number up to 15 is a length, the next three
repeat the one before it and zeros. The lengths known are in reverse. -/
def widths? (code : Code) (total : Nat) : Nat → List Nat → Bits → Option (List Nat × Bits)
  | 0, _, _ => none
  | fuel + 1, known, bits =>
    if known.length = total then some (known.reverse, bits)
    else if total < known.length then none
    else do
      let (symbol, bits) ← code.symbol? bits
      let (width, least, spare) ← match symbol with
        | 16 => known.head?.map (·, 3, 2)
        | 17 => some (0, 3, 3)
        | 18 => some (0, 11, 7)
        | width => some (width, 1, 0)
      let (more, bits) ← number? spare bits
      widths? code total fuel (List.replicate (least + more) width ++ known) bits

/-- The codes with the given lengths of words. The first code has all words it can have, and one for
the end of the block; the second can also have none, or one of length one. -/
def Codes.ofWidths? (lengths distances : List Nat) : Option Codes :=
  let codes : Codes := ⟨.ofLengths lengths, .ofLengths distances⟩
  let few := distances.all (· ≤ 1) && distances.count 1 ≤ 1
  if lengths[256]?.any (0 < ·) && codes.lengths.isComplete && (few || codes.distances.isComplete)
    then some codes
  else none

/-- Reads the codes of a block. -/
def codes? (bits : Bits) : Option (Codes × Bits) := do
  let (lengths, bits) ← number? 5 bits
  let (distances, bits) ← number? 5 bits
  let (given, bits) ← number? 4 bits
  let (lengths, distances) := (lengths + 257, distances + 1)
  if 286 < lengths || 30 < distances then none
  else
    let (widths, bits) ← (List.range (given + 4)).foldlM
      (fun (widths, bits) _ => (number? 3 bits).map fun (n, bits) => (widths ++ [n], bits))
      (([] : List Nat), bits)
    let code := Code.ofLengths <| (List.range 19).map fun symbol =>
      (widths[widthOrder.idxOf symbol]?).getD 0
    if !code.isComplete then none
    else
      let (widths, bits) ← widths? code (lengths + distances) (bits.length + 1) [] bits
      let codes ← Codes.ofWidths? (widths.take lengths) (widths.drop lengths)
      return (codes, bits)

/-! ## Blocks -/

/-- The shortest length and the number of further bits, for each symbol of a length. -/
def lengthSteps : List (Nat × Nat) :=
  [(3, 0), (4, 0), (5, 0), (6, 0), (7, 0), (8, 0), (9, 0), (10, 0), (11, 1), (13, 1), (15, 1),
    (17, 1), (19, 2), (23, 2), (27, 2), (31, 2), (35, 3), (43, 3), (51, 3), (59, 3), (67, 4),
    (83, 4), (99, 4), (115, 4), (131, 5), (163, 5), (195, 5), (227, 5), (258, 0)]

/-- The shortest distance and the number of further bits, for each symbol of a distance. -/
def distanceSteps : List (Nat × Nat) :=
  [(1, 0), (2, 0), (3, 0), (4, 0), (5, 1), (7, 1), (9, 2), (13, 2), (17, 3), (25, 3), (33, 4),
    (49, 4), (65, 5), (97, 5), (129, 6), (193, 6), (257, 7), (385, 7), (513, 8), (769, 8),
    (1025, 9), (1537, 9), (2049, 10), (3073, 10), (4097, 11), (6145, 11), (8193, 12), (12289, 12),
    (16385, 13), (24577, 13)]

/-- Reads the further bits of a length or a distance. -/
def step? (steps : List (Nat × Nat)) (symbol : Nat) (bits : Bits) : Option (Nat × Bits) := do
  let (least, spare) ← steps[symbol]?
  let (more, bits) ← number? spare bits
  return (least + more, bits)

/-- Repeats the bytes from a distance back on. -/
def copy (distance : Nat) : Nat → Array UInt8 → Array UInt8
  | 0, found => found
  | length + 1, found => copy distance length (found.push (found[found.size - distance]?.getD 0))

/-- Reads the symbols of a block up to its end; `found` are the bytes so far. -/
def symbols? (codes : Codes) : Nat → Array UInt8 → Bits → Option (Array UInt8 × Bits)
  | 0, _, _ => none
  | fuel + 1, found, bits => do
    let (symbol, bits) ← codes.lengths.symbol? bits
    if symbol < 256 then symbols? codes fuel (found.push symbol.toUInt8) bits
    else if symbol = 256 then some (found, bits)
    else
      let (length, bits) ← step? lengthSteps (symbol - 257) bits
      let (symbol, bits) ← codes.distances.symbol? bits
      let (distance, bits) ← step? distanceSteps symbol bits
      if found.size < distance then none
      else symbols? codes fuel (copy distance length found) bits

/-- Reads a block of bytes as they are: from the next whole byte on, their number, its complement,
and the bytes. -/
def stored? (found : Array UInt8) (bits : Bits) : Option (Array UInt8 × Bits) := do
  let (length, bits) ← number? 16 (bits.drop (bits.length % 8))
  let (complement, bits) ← number? 16 bits
  if length + complement ≠ 0xFFFF then none
  else
    (List.range length).foldlM
      (fun (found, bits) _ => (number? 8 bits).map fun (n, bits) => (found.push n.toUInt8, bits))
      (found, bits)

/-- Reads blocks up to the last one. -/
def blocks? : Nat → Array UInt8 → Bits → Option (Array UInt8 × Bits)
  | 0, _, _ => none
  | fuel + 1, found, bits => do
    let (last, bits) ← number? 1 bits
    let (kind, bits) ← number? 2 bits
    let (found, bits) ← match kind with
      | 0 => stored? found bits
      | 1 => symbols? fixedCodes (bits.length + 1) found bits
      | 2 => do
        let (codes, bits) ← codes? bits
        symbols? codes (bits.length + 1) found bits
      | _ => none
    if last = 1 then some (found, bits) else blocks? fuel found bits

/-! ## The stream -/

/-- The checksum of bytes: their sum, and the sum of all the sums on the way. -/
def checksum (bs : Array UInt8) : Nat :=
  let (low, high) := bs.foldl
    (fun (low, high) b =>
      let low := (low + b.toNat) % 65521
      (low, (high + low) % 65521))
    (1, 0)
  0x10000 * high + low

/-- The data of a stream. What follows its checksum does not count. -/
def inflate? (bs : Bytes) : Option (Array UInt8) := do
  let (header, rest) ← big? 2 bs
  let method := header / 256
  if method % 16 ≠ 8 || 0x7F < method || header / 32 % 2 = 1 || header % 31 ≠ 0 then none
  else
    let bits := bits rest
    let (found, bits) ← blocks? (bits.length + 1) #[] bits
    let (sum, _) ← big? 4 (rest.drop (rest.length - bits.length / 8))
    if sum = checksum found then some found else none

end MailMerge.Image.Deflate
