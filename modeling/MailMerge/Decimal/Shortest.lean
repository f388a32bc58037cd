/-!
# The shortest decimal form of a floating-point number

A finite number is written with the fewest digits that read back as the same number; of several such
forms the nearest to it is taken, and the greater one of two that are equally near. The digits are
written out positionally, with no exponent and no trailing zero after the point.
-/

namespace MailMerge.Decimal

/-- A positive binary fraction `mantissa * 2 ^ exponent` with the bounds of the reals that round to
it. Bounds count quarters of the last place, and belong to the range when `closed` holds. -/
structure Binary where
  mantissa : Nat
  exponent : Int
  below : Nat
  above : Nat
  closed : Bool
deriving Repr, DecidableEq

/-- The sign of a number and, unless it is zero or not finite, its magnitude. -/
inductive Decoded where
  /-- Not a number. -/
  | nan
  /-- An infinite number. -/
  | infinite (negative : Bool)
  /-- Zero. -/
  | zero (negative : Bool)
  /-- Any other number. -/
  | finite (negative : Bool) (magnitude : Binary)
deriving Repr, DecidableEq

/-- The bit above the 52 bits of a fraction. -/
def hiddenBit : Nat := 0x10000000000000

/-- Decodes the 64 bits of a number: sign, eleven bits of exponent, 52 bits of fraction. -/
def decode (x : Float) : Decoded :=
  let bits : Nat := x.toBits.toNat
  let negative := bits >>> 63 = 1
  let biased : Nat := (bits >>> 52) % 0x800
  let fraction : Nat := bits % hiddenBit
  if biased = 2047 then
    if fraction = 0 then .infinite negative else .nan
  else if biased = 0 then
    if fraction = 0 then .zero negative
    else .finite negative ⟨fraction, -1074, 2, 2, fraction % 2 = 0⟩
  else
    let below := if fraction = 0 ∧ biased ≠ 1 then 1 else 2
    .finite negative
      ⟨hiddenBit + fraction, (biased : Int) - 1075, below, 2, fraction % 2 = 0⟩

/-- The quotient of two numbers, each with a power of two and a power of ten. -/
structure Ratio where
  num : Nat
  den : Nat
deriving Repr, DecidableEq

/-- The value `n * 2 ^ twos * 10 ^ tens` as a quotient of whole numbers. -/
def Ratio.scaled (n : Nat) (twos tens : Int) : Ratio :=
  ⟨n * Nat.pow 2 twos.toNat * Nat.pow 10 tens.toNat,
    Nat.pow 2 (-twos).toNat * Nat.pow 10 (-tens).toNat⟩

/-- The number `digits * 10 ^ place` rounds to the given binary fraction. -/
def Binary.admits (b : Binary) (digits : Nat) (place : Int) : Bool :=
  let low := Ratio.scaled (4 * b.mantissa - b.below) (b.exponent - 2) (-place)
  let high := Ratio.scaled (4 * b.mantissa + b.above) (b.exponent - 2) (-place)
  if b.closed then low.num ≤ digits * low.den && digits * high.den ≤ high.num
  else low.num < digits * low.den && digits * high.den < high.num

/-- The better of the two neighbours of a binary fraction on the grid of multiples of
`10 ^ place`, if one of them rounds to it. -/
def Binary.neighbour? (b : Binary) (place : Int) : Option Nat :=
  let exact := Ratio.scaled b.mantissa b.exponent (-place)
  let low := exact.num / exact.den
  let lowHit := b.admits low place
  let highHit := b.admits (low + 1) place
  if lowHit && highHit then
    some (if 2 * (exact.num % exact.den) < exact.den then low else low + 1)
  else if lowHit then some low
  else if highHit then some (low + 1)
  else none

/-- The first grid that has a number rounding to the binary fraction, from `place` on downwards. -/
def Binary.firstGrid (b : Binary) : Nat → Int → Nat × Int
  | 0, place => ((b.neighbour? place).getD 0, place)
  | fuel + 1, place =>
    match b.neighbour? place with
    | some digits => (digits, place)
    | none => b.firstGrid fuel (place - 1)

/-- The digits of a whole number in base ten. -/
def digits (n : Nat) : List Char := Nat.toDigits 10 n

/-- The decimal place of the leading digit of a quotient below one, counted down from `place`. -/
def leadingPlaceBelow (num den : Nat) : Nat → Int → Int
  | 0, place => place
  | fuel + 1, place =>
    if den ≤ num then place else leadingPlaceBelow (num * 10) den fuel (place - 1)

/-- The decimal place of the leading digit. -/
def Binary.leadingPlace (b : Binary) : Int :=
  let exact := Ratio.scaled b.mantissa b.exponent 0
  if exact.den ≤ exact.num then ((digits (exact.num / exact.den)).length : Int) - 1
  else leadingPlaceBelow exact.num exact.den 400 0

/-- The digits of the shortest form and the place of the last one. -/
def Binary.shortest (b : Binary) : Nat × Int := b.firstGrid 20 b.leadingPlace

/-- Writes `n * 10 ^ place` positionally. -/
def positional (n : Nat) (place : Int) : String :=
  if 0 ≤ place then String.ofList (digits n ++ List.replicate place.toNat '0')
  else
    let count := (-place).toNat
    let ds := digits n
    let padded := List.replicate (count + 1 - ds.length) '0' ++ ds
    let whole := padded.take (padded.length - count)
    let part := ((padded.drop (padded.length - count)).reverse.dropWhile (· = '0')).reverse
    String.ofList (if part.isEmpty then whole else whole ++ '.' :: part)

/-- The decimal form of a number. Zero keeps its sign. -/
def toText (x : Float) : String :=
  match decode x with
  | .nan => "NaN"
  | .infinite negative => if negative then "-inf" else "inf"
  | .zero negative => if negative then "-0" else "0"
  | .finite negative b =>
    let (n, place) := b.shortest
    (if negative then "-" else "") ++ positional n place

end MailMerge.Decimal
