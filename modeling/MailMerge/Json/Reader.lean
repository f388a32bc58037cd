import MailMerge.Json.Basic
import MailMerge.Decimal.Literal

/-!
# Reading JSON

A text is read as one JSON value with blanks around it, or refused. Arrays and objects nest at most
127 deep. A whole number that fits neither a signed nor an unsigned word of 64 bits becomes a
floating-point number, as does minus zero.

A reader may be interested in some members of an object only. What it is not interested in has to
have the form of a value, but need not be one: its numbers can be too large, its strings can have
escapes that make no characters, and it can nest as deep as it will.
-/

namespace MailMerge.Json

/-- The characters that may stand between the parts of a value. -/
def isSpace (c : Char) : Bool := c = ' ' || c = '\n' || c = '\t' || c = '\r'

/-- Drops the space in front. -/
def skip (cs : List Char) : List Char := cs.dropWhile isSpace

/-! ## Numbers -/

/-- The power of ten, as the nearest floating-point number. -/
def powerOfTen (n : Nat) : Float := Float.ofScientific 1 false n

/-- Scales a significand by a power of ten: one multiplication or division by the nearest power,
after divisions by `1e308` as long as the exponent is below that. Too large a result is refused. -/
def scale : Nat → Float → Int → Option Float
  | 0, f, _ => some f
  | fuel + 1, f, exponent =>
    if exponent.natAbs ≤ 308 then
      if 0 ≤ exponent then
        let scaled := f * powerOfTen exponent.toNat
        if scaled.isInf then none else some scaled
      else some (f / powerOfTen exponent.natAbs)
    else if f == 0.0 then some f
    else if 0 ≤ exponent then none
    else scale fuel (f / powerOfTen 308) (exponent + 308)

/-- The significand of a sequence of digits: as many as fit a word of 64 bits, and the number of
those left over. -/
def significand : Nat → List Char → Nat × Nat
  | n, [] => (n, 0)
  | n, c :: rest =>
    let next := 10 * n + (c.toNat - '0'.toNat)
    if next < Decimal.endOfWords then significand next rest else (n, rest.length + 1)

/-- The exponents that are told apart; a greater one only matters by its sign. -/
def exponentLimit : Nat := 0x7FFFFFFF

/-- The floating-point number with the given digits before and after the point. -/
def floating (negative : Bool) (whole part : List Char) (exponent : Int) : Option Float :=
  let (n, dropped) := significand 0 whole
  let (n, unused) := significand n part
  let places : Int := (dropped : Int) - ((part.length - unused : Nat) : Int)
  let signed (x : Float) : Float := if negative then -x else x
  if exponentLimit < exponent.natAbs then
    if n ≠ 0 && 0 < exponent then none else some (signed 0.0)
  else
    let total := places + exponent
    (scale 64 n.toUInt64.toFloat (if total < -20000 then -20000 else total)).map signed

/-- A number without its sign, as it is written: the digits before and after the point, and the
exponent. -/
structure Numeral where
  whole : List Char
  part? : Option (List Char)
  exponent? : Option Int

/-- Reads the digits, point and exponent of a number after its sign. -/
def numeral (cs : List Char) : Option (Numeral × List Char) := do
  let (whole, rest) := cs.span Decimal.isDigit
  if whole.isEmpty || (whole.head? = some '0' && 1 < whole.length) then none
  else
    let (part?, rest) ←
      match rest with
      | '.' :: rest =>
        let (part, rest) := rest.span Decimal.isDigit
        if part.isEmpty then none else some (some part, rest)
      | _ => some (none, rest)
    match rest with
    | c :: rest' =>
      if c = 'e' || c = 'E' then
        let (minus, ds) := Decimal.takeSign rest'
        let (ds, rest) := ds.span Decimal.isDigit
        let n : Int := Decimal.ofDigits ds
        if ds.isEmpty then none else some (⟨whole, part?, some (if minus then -n else n)⟩, rest)
      else some (⟨whole, part?, none⟩, rest)
    | [] => some (⟨whole, part?, none⟩, rest)

/-- The value of a number. -/
def Numeral.value? (negative : Bool) (numeral : Numeral) : Option Json :=
  let n := Decimal.ofDigits numeral.whole
  let small := if negative then 0 < n && n ≤ Decimal.endOfPositive else n < Decimal.endOfWords
  if numeral.part?.isNone && numeral.exponent?.isNone && small then
    some (integer (if negative then -n else n))
  else
    (floating negative numeral.whole (numeral.part?.getD []) (numeral.exponent?.getD 0)).map real

/-- Reads a number after its sign. -/
def number (negative : Bool) (cs : List Char) : Option (Json × List Char) := do
  let (numeral, rest) ← numeral cs
  let value ← numeral.value? negative
  return (value, rest)

/-! ## Strings -/

/-- The value of four digits in base sixteen, and the rest. -/
def hex4 (cs : List Char) : Option (Nat × List Char) :=
  match cs with
  | a :: b :: c :: d :: rest =>
    match Text.hexValue? a, Text.hexValue? b, Text.hexValue? c, Text.hexValue? d with
    | some a, some b, some c, some d => some (((a * 16 + b) * 16 + c) * 16 + d, rest)
    | _, _, _, _ => none
  | _ => none

/-- The character of a number escape after its letter, and the rest. Two escapes make one character
beyond the sixteen bits; half of such a pair alone is refused. -/
def unicodeEscape (cs : List Char) : Option (Char × List Char) :=
  match hex4 cs with
  | none => none
  | some (n, rest) =>
    if 0xDC00 ≤ n ∧ n ≤ 0xDFFF then none
    else if 0xD800 ≤ n ∧ n ≤ 0xDBFF then
      match rest with
      | '\\' :: 'u' :: rest =>
        match hex4 rest with
        | none => none
        | some (m, rest) =>
          if 0xDC00 ≤ m ∧ m ≤ 0xDFFF then
            some (Char.ofNat (0x10000 + (n - 0xD800) * 0x400 + (m - 0xDC00)), rest)
          else none
      | _ => none
    else some (Char.ofNat n, rest)

/-- The character of an escape after its backslash, and the rest. -/
def escape (cs : List Char) : Option (Char × List Char) :=
  match cs with
  | '"' :: rest => some ('"', rest)
  | '\\' :: rest => some ('\\', rest)
  | '/' :: rest => some ('/', rest)
  | 'b' :: rest => some (Char.ofNat 8, rest)
  | 'f' :: rest => some (Char.ofNat 12, rest)
  | 'n' :: rest => some ('\n', rest)
  | 'r' :: rest => some ('\r', rest)
  | 't' :: rest => some ('\t', rest)
  | 'u' :: rest => unicodeEscape rest
  | _ => none

/-- Reads a string after its opening quote; `seen` holds its characters, the last one first. -/
def stringRest : Nat → List Char → List Char → Option (String × List Char)
  | 0, _, _ => none
  | _ + 1, _, [] => none
  | fuel + 1, seen, c :: rest =>
    if c = '"' then some (String.ofList seen.reverse, rest)
    else if c = '\\' then
      match escape rest with
      | none => none
      | some (d, rest) => stringRest fuel (d :: seen) rest
    else if c.toNat < 32 then none
    else stringRest fuel (c :: seen) rest

/-- Passes over a string after its opening quote. -/
def afterString? : Nat → List Char → Option (List Char)
  | 0, _ => none
  | fuel + 1, cs =>
    match cs with
    | [] => none
    | '"' :: rest => some rest
    | '\\' :: 'u' :: rest => (hex4 rest).bind fun (_, rest) => afterString? fuel rest
    | '\\' :: rest => (escape rest).bind fun (_, rest) => afterString? fuel rest
    | c :: rest => if c.toNat < 32 then none else afterString? fuel rest

/-! ## Values -/

/-- What of a value is read. All else is passed over, and nothing stands in its place. -/
inductive Interest where
  /-- All of it. -/
  | whole
  /-- Nothing. -/
  | nothing
  /-- Of each item of an array the same. -/
  | items (item : Interest)
  /-- Of an object the members of a record, which may also be written as an array in their order. -/
  | record (members : List (String × Interest))
deriving Inhabited

/-- What is read of a member of an object. -/
def Interest.member (name : String) : Interest → Interest
  | record members => ((members.find? (·.1 == name)).map Prod.snd).getD nothing
  | _ => whole

/-- What is read of an item of an array. -/
def Interest.item (index : Nat) : Interest → Interest
  | items item => item
  | record members => (members[index]?.map Prod.snd).getD whole
  | _ => whole

/-- The rest after a word. -/
def afterWord? (word : String) (cs : List Char) : Option (List Char) :=
  if word.toList.isPrefixOf cs then some (cs.drop word.toList.length) else none

mutual

/-- Passes over a value. -/
def afterValue? : Nat → List Char → Option (List Char)
  | 0, _ => none
  | fuel + 1, cs =>
    match skip cs with
    | [] => none
    | c :: rest =>
      if c = 'n' then afterWord? "ull" rest
      else if c = 't' then afterWord? "rue" rest
      else if c = 'f' then afterWord? "alse" rest
      else if c = '"' then afterString? (rest.length + 1) rest
      else if c = '-' then (numeral rest).map Prod.snd
      else if c = '[' then
        match skip rest with
        | ']' :: rest => some rest
        | rest => afterItems? fuel rest
      else if c = '\x7b' then
        match skip rest with
        | '\x7d' :: rest => some rest
        | rest => afterMembers? fuel rest
      else (numeral (c :: rest)).map Prod.snd

/-- Passes over the items of an array up to its closing bracket. -/
def afterItems? : Nat → List Char → Option (List Char)
  | 0, _ => none
  | fuel + 1, cs => do
    let rest ← afterValue? fuel cs
    match skip rest with
    | ',' :: rest => afterItems? fuel rest
    | ']' :: rest => some rest
    | _ => none

/-- Passes over the members of an object up to its closing brace. -/
def afterMembers? : Nat → List Char → Option (List Char)
  | 0, _ => none
  | fuel + 1, cs =>
    match skip cs with
    | '"' :: rest => do
      let rest ← afterString? (rest.length + 1) rest
      match skip rest with
      | ':' :: rest =>
        let rest ← afterValue? fuel rest
        match skip rest with
        | ',' :: rest => afterMembers? fuel rest
        | '\x7d' :: rest => some rest
        | _ => none
      | _ => none
    | _ => none

end

mutual

/-- Reads what is of interest of a value; `depth` levels of arrays and objects may still open. -/
def value : Nat → Nat → Interest → List Char → Option (Json × List Char)
  | 0, _, _, _ => none
  | fuel + 1, _, .nothing, cs => (afterValue? fuel cs).map (null, ·)
  | fuel + 1, depth, interest, cs =>
    match skip cs with
    | [] => none
    | c :: rest =>
      if c = 'n' then (afterWord? "ull" rest).map (null, ·)
      else if c = 't' then (afterWord? "rue" rest).map (bool true, ·)
      else if c = 'f' then (afterWord? "alse" rest).map (bool false, ·)
      else if c = '"' then
        (stringRest (rest.length + 1) [] rest).map fun (s, rest) => (string s, rest)
      else if c = '-' then number true rest
      else if c = '[' then
        if depth ≤ 1 then none
        else
          match skip rest with
          | ']' :: rest => some (array [], rest)
          | rest =>
            (items fuel (depth - 1) interest 0 rest).map fun (xs, rest) => (array xs, rest)
      else if c = '\x7b' then
        if depth ≤ 1 then none
        else
          match skip rest with
          | '\x7d' :: rest => some (object [], rest)
          | rest =>
            (members fuel (depth - 1) interest rest).map fun (xs, rest) => (object xs, rest)
      else number false (c :: rest)

/-- Reads the items of an array up to its closing bracket; the next has the given index. -/
def items : Nat → Nat → Interest → Nat → List Char → Option (List Json × List Char)
  | 0, _, _, _, _ => none
  | fuel + 1, depth, interest, index, cs =>
    match value fuel depth (interest.item index) cs with
    | none => none
    | some (x, rest) =>
      match skip rest with
      | ',' :: rest =>
        (items fuel depth interest (index + 1) rest).map fun (xs, rest) => (x :: xs, rest)
      | ']' :: rest => some ([x], rest)
      | _ => none

/-- Reads the members of an object up to its closing brace. -/
def members : Nat → Nat → Interest → List Char → Option (List (String × Json) × List Char)
  | 0, _, _, _ => none
  | fuel + 1, depth, interest, cs =>
    match skip cs with
    | '"' :: rest =>
      match stringRest (rest.length + 1) [] rest with
      | none => none
      | some (name, rest) =>
        match skip rest with
        | ':' :: rest =>
          match value fuel depth (interest.member name) rest with
          | none => none
          | some (x, rest) =>
            match skip rest with
            | ',' :: rest =>
              (members fuel depth interest rest).map fun (xs, rest) => ((name, x) :: xs, rest)
            | '\x7d' :: rest => some ([(name, x)], rest)
            | _ => none
        | _ => none
    | _ => none

end

/-- Reads what is of interest of a text that is one value. -/
def parseFor? (interest : Interest) (s : String) : Option Json :=
  let cs := s.toList
  match value (2 * cs.length + 2) 128 interest cs with
  | some (x, rest) => if (skip rest).isEmpty then some x else none
  | none => none

/-- Reads a text as one value. -/
def parse? (s : String) : Option Json := parseFor? .whole s

end MailMerge.Json
