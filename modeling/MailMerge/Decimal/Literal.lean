/-!
# Numbers from text

Whole numbers of 64 bits and floating-point numbers, as they are written in arguments and
attributes: an optional sign and digits; a floating-point number may also have a point and an
exponent, or be one of the words for infinity and for what is not a number.
-/

namespace MailMerge.Decimal

/-- A decimal digit. -/
def isDigit (c : Char) : Bool := '0' ≤ c ∧ c ≤ '9'

/-- The number that digits stand for. -/
def ofDigits (cs : List Char) : Nat := cs.foldl (fun n c => 10 * n + (c.toNat - '0'.toNat)) 0

/-- Splits off a sign: whether it is a minus, and the rest. -/
def takeSign : List Char → Bool × List Char
  | '+' :: rest => (false, rest)
  | '-' :: rest => (true, rest)
  | cs => (false, cs)

/-- A non-empty sequence of digits as a number. -/
def natural? (cs : List Char) : Option Nat :=
  if cs.isEmpty || !cs.all isDigit then none else some (ofDigits cs)

/-- Reads a whole number with an optional sign. -/
def signed? (cs : List Char) : Option Int :=
  let (negative, ds) := takeSign cs
  (natural? ds).map fun n => if negative then -n else n

/-- The number after the greatest unsigned number of 64 bits. -/
def endOfWords : Nat := 0x10000000000000000

/-- The number after the greatest signed number of 64 bits. -/
def endOfPositive : Nat := 0x8000000000000000

/-- A signed number of 64 bits. -/
def isWord (n : Int) : Bool := -endOfPositive ≤ n ∧ n < endOfPositive

/-- Reads a signed number of 64 bits. -/
def integer? (cs : List Char) : Option Int := (signed? cs).filter isWord

/-- The floating-point number nearest to `n * 10 ^ exponent`. -/
def nearest (n : Nat) (exponent : Int) : Float :=
  if n = 0 then 0.0
  else
    let size : Int := (Nat.toDigits 10 n).length
    if 400 < size + exponent then 1.0 / 0.0
    else if size + exponent < -400 then 0.0
    else if 0 ≤ exponent then Float.ofScientific n false exponent.toNat
    else Float.ofScientific n true (-exponent).toNat

/-- An exponent: nothing, or the letter `e` in either case with a signed number. -/
def exponent? : List Char → Option Int
  | [] => some 0
  | c :: rest =>
    if c = 'e' ∨ c = 'E' then
      let (negative, ds) := takeSign rest
      (natural? ds).map fun n => if negative then -n else n
    else none

/-- An unsigned floating-point number: digits with at most one point, at least one digit in all, and
an exponent. -/
def unsigned? (cs : List Char) : Option Float :=
  let (whole, rest) := cs.span isDigit
  let (part, rest) := match rest with
    | '.' :: rest => rest.span isDigit
    | _ => ([], rest)
  if whole.isEmpty && part.isEmpty then none
  else (exponent? rest).map fun e => nearest (ofDigits (whole ++ part)) (e - part.length)

/-- A floating-point number. -/
def real? (cs : List Char) : Option Float :=
  let (negative, body) := takeSign cs
  let magnitude :=
    match String.ofList (body.map Char.toLower) with
    | "inf" | "infinity" => some (1.0 / 0.0)
    | "nan" => some (0.0 / 0.0)
    | _ => unsigned? body
  magnitude.map fun x => if negative then -x else x

end MailMerge.Decimal
