import MailMerge.Text.CaseTable

/-!
# Capital and small letters

Texts in capital and in small letters, by the full mappings of Unicode: a letter may become several,
and a capital sigma at the end of a word has a small form of its own.
-/

namespace MailMerge.Text

open CaseTable

/-- A number lies in one of the ranges. -/
def inRanges (ranges : Array (Nat × Nat)) (n : Nat) : Bool :=
  ranges.any fun (low, high) => low ≤ n && n ≤ high

/-- Maps a character by the first span or sequence that has it. -/
def mapCase (spans : Array Span) (sequences : Array (Nat × List Nat)) (c : Char) : List Char :=
  let n := c.toNat
  match spans.find? fun s => s.first ≤ n && n ≤ s.last && (n - s.first) % s.step == 0 with
  | some s => [Char.ofNat ((n : Int) + s.shift).toNat]
  | none =>
    match sequences.find? (·.1 == n) with
    | some (_, codes) => codes.map Char.ofNat
    | none => [c]

/-- The capital form of a character. -/
def upperChar (c : Char) : List Char :=
  if c.toNat < 128 then [c.toUpper] else mapCase upperSpans upperSequences c

/-- The small form of a character, wherever it stands. -/
def lowerChar (c : Char) : List Char :=
  if c.toNat < 128 then [c.toLower] else mapCase lowerSpans lowerSequences c

/-- The text in capital letters. -/
def upcase (s : String) : String := String.ofList (s.toList.flatMap upperChar)

/-- The first character that is not passed over has a case. -/
def meetsCased (cs : List Char) : Bool :=
  match cs.dropWhile fun c => inRanges ignorable c.toNat with
  | [] => false
  | c :: _ => inRanges cased c.toNat

/-- The small form of a text, after the characters `before`, the last one first. -/
def lowerFrom (before : List Char) : List Char → List Char
  | [] => []
  | c :: rest =>
    let small :=
      if c = 'Σ' then [if meetsCased before && !meetsCased rest then 'ς' else 'σ']
      else lowerChar c
    small ++ lowerFrom (c :: before) rest

/-- The text in small letters. -/
def downcase (s : String) : String := String.ofList (lowerFrom [] s.toList)

end MailMerge.Text
