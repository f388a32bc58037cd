import MailMerge.Xml.Error

/-!
# References

Characters that would be read as markup are written as references, and references are resolved when
a text is read. Only the five predefined names and character numbers are known.
-/

namespace MailMerge.Xml

/-- The written form of a character of a text. -/
def escapeTextChar (c : Char) : List Char :=
  if c = '<' then "&lt;".toList
  else if c = '>' then "&gt;".toList
  else if c = '&' then "&amp;".toList
  else [c]

/-- The written form of a character of an attribute value. -/
def escapeValueChar (c : Char) : List Char :=
  if c = '\'' then "&apos;".toList
  else if c = '"' then "&quot;".toList
  else escapeTextChar c

/-- The written form of a text: angle brackets and ampersands are references. -/
def escapeText (s : String) : String := String.ofList (s.toList.flatMap escapeTextChar)

/-- The written form of an attribute value: quotes are references too. -/
def escapeValue (s : String) : String := String.ofList (s.toList.flatMap escapeValueChar)

namespace Reference

/-- The value of a digit in bases up to sixteen. -/
def digit? (base : Nat) (c : Char) : Option Nat :=
  let value :=
    if '0' ≤ c ∧ c ≤ '9' then c.toNat - '0'.toNat
    else if 'a' ≤ c ∧ c ≤ 'f' then c.toNat - 'a'.toNat + 10
    else if 'A' ≤ c ∧ c ≤ 'F' then c.toNat - 'A'.toNat + 10
    else base
  if value < base then some value else none

/-- Reads digits after the number read so far, which must stay within 32 bits. -/
def digits (base : Nat) : Nat → List Char → Except NumberFault Nat
  | n, [] => .ok n
  | n, c :: rest =>
    match digit? base c with
    | none => .error .badDigit
    | some d => if base * n + d < 0x100000000 then digits base (base * n + d) rest
      else .error .tooLarge

/-- Reads an unsigned number of 32 bits; only digits are allowed. -/
def number (base : Nat) (cs : List Char) : Except ReferenceFault Nat :=
  match cs with
  | [] => .error (.badNumber .noDigits)
  | '+' :: _ | '-' :: _ => .error .signedNumber
  | cs => (digits base 0 cs).mapError .badNumber

/-- The character of a number written after `#`: hexadecimal after a small `x`, else decimal. -/
def character (cs : List Char) : Except ReferenceFault Char :=
  let code := match cs with
    | 'x' :: hex => number 16 hex
    | _ => number 10 cs
  match code with
  | .error fault => .error fault
  | .ok n =>
    if n = 0 then .error .zero
    else if n.isValidChar then .ok (Char.ofNat n)
    else .error (.notAScalar n)

/-- The character of a predefined name. -/
def predefined? (name : String) : Option Char :=
  match name with
  | "lt" => some '<'
  | "gt" => some '>'
  | "amp" => some '&'
  | "apos" => some '\''
  | "quot" => some '"'
  | _ => none

/-- The character that a reference stands for; `start` is the offset of its ampersand and `cs` the
text between ampersand and semicolon. -/
def resolve (start : Nat) (cs : List Char) : Except ReferenceFault Char :=
  match cs with
  | '#' :: rest => character rest
  | _ =>
    match predefined? (String.ofList cs) with
    | some c => .ok c
    | none =>
      .error (.unknownName (start + 1) (start + 1 + Text.byteLength cs) (String.ofList cs))

end Reference

/-- Resolves the references of a text from a byte offset on. An open reference is given by the
offset of its ampersand and the characters after it, the last one first; `total` is the length of
the whole text in bytes. -/
def unescapeFrom (total : Nat) :
    Nat → Option (Nat × List Char) → List Char → Except ReferenceFault (List Char)
  | _, none, [] => .ok []
  | _, some (start, _), [] => .error (.unterminated start total)
  | offset, none, c :: rest =>
    if c = '&' then unescapeFrom total (offset + 1) (some (offset, [])) rest
    else (unescapeFrom total (offset + c.utf8Size) none rest).map (c :: ·)
  | offset, some (start, seen), c :: rest =>
    if c = ';' then
      match Reference.resolve start seen.reverse with
      | .error fault => .error fault
      | .ok d => (unescapeFrom total (offset + 1) none rest).map (d :: ·)
    else if c = '&' then .error (.unterminated start total)
    else unescapeFrom total (offset + c.utf8Size) (some (start, c :: seen)) rest

/-- Resolves all references of a text. -/
def unescape (cs : List Char) : Except ReferenceFault String :=
  (unescapeFrom (Text.byteLength cs) 0 none cs).map String.ofList

end MailMerge.Xml
