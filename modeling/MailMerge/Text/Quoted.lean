import MailMerge.Text.Case
import MailMerge.Text.UnprintableTable

/-!
# Quoted texts

A text in double quotes, for people to read: quotes, backslashes and everything that would not be
shown by itself are escaped.
-/

namespace MailMerge.Text

/-- A character is shown by itself. -/
def isPrintable (c : Char) : Bool := !inRanges unprintableRanges c.toNat

/-- The quoted form of a character. -/
def quoteChar (c : Char) : List Char :=
  if c.toNat = 0 then ['\\', '0']
  else if c = '\t' then ['\\', 't']
  else if c = '\r' then ['\\', 'r']
  else if c = '\n' then ['\\', 'n']
  else if c = '\\' then ['\\', '\\']
  else if c = '"' then ['\\', '"']
  else if isPrintable c then [c]
  else ['\\', 'u', '\x7b'] ++ Nat.toDigits 16 c.toNat ++ ['\x7d']

/-- The quoted form of a text. -/
def quoted (s : String) : String :=
  String.ofList ('"' :: (s.toList.flatMap quoteChar ++ ['"']))

end MailMerge.Text
