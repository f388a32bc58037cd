import MailMerge.Decimal.Literal
import MailMerge.Text.Hex

/-!
# Settings files

A settings file holds one setting on each line: a name, an equals sign, and a text or a whole
number. This is the part of TOML without tables, and without the values that are no settings here; a
file with anything else is refused. Comments begin with a number sign.
-/

namespace MailMerge.Toml

/-- The value of a setting. -/
inductive Setting where
  /-- A text. -/
  | text (s : String)
  /-- A whole number. -/
  | integer (n : Int)
deriving DecidableEq, Repr

/-! ## Space, comments and ends of lines -/

/-- Space within a line. -/
def isSpace (c : Char) : Bool := c = ' ' || c = '\t'

/-- A character that may stand in comments and texts of one line. -/
def isPlain (c : Char) : Bool := c = '\t' || (32 ≤ c.toNat && c.toNat ≠ 127)

/-- Drops space in front. -/
def skip (cs : List Char) : List Char := cs.dropWhile isSpace

/-- The rest after the end of a line. -/
def afterNewline? : List Char → Option (List Char)
  | '\n' :: rest => some rest
  | '\r' :: '\n' :: rest => some rest
  | _ => none

/-- Drops a comment in front. -/
def skipComment (cs : List Char) : List Char :=
  match cs with
  | '#' :: rest => rest.dropWhile isPlain
  | _ => cs

/-- The rest after what may stand behind a setting: space, a comment, and the end of the line or of
the file. -/
def afterLine? (cs : List Char) : Option (List Char) :=
  match skipComment (skip cs) with
  | [] => some []
  | rest => afterNewline? rest

/-! ## Texts -/

/-- The character of the given number, if there is one. -/
def character? (n : Nat) : Option Char :=
  if n.isValidChar then some (Char.ofNat n) else none

/-- The character whose number has the given count of digits in base sixteen, and the rest. -/
def numbered? (count : Nat) (cs : List Char) : Option (Char × List Char) := do
  let digits ← (cs.take count).mapM Text.hexValue?
  if digits.length = count then
    let c ← character? (digits.foldl (fun n d => 16 * n + d) 0)
    return (c, cs.drop count)
  else none

/-- The character of an escape after its backslash, and the rest. -/
def escape? : List Char → Option (Char × List Char)
  | 'b' :: rest => some (Char.ofNat 8, rest)
  | 't' :: rest => some ('\t', rest)
  | 'n' :: rest => some ('\n', rest)
  | 'f' :: rest => some (Char.ofNat 12, rest)
  | 'r' :: rest => some ('\r', rest)
  | '"' :: rest => some ('"', rest)
  | '\\' :: rest => some ('\\', rest)
  | 'u' :: rest => numbered? 4 rest
  | 'U' :: rest => numbered? 8 rest
  | _ => none

/-- Drops space and ends of lines in front. -/
def skipLines : List Char → List Char
  | [] => []
  | '\n' :: rest => skipLines rest
  | '\r' :: '\n' :: rest => skipLines rest
  | c :: rest => if isSpace c then skipLines rest else c :: rest

/-- The rest after an escaped end of a line and all space and ends of lines behind it. -/
def afterEscapedLine? (cs : List Char) : Option (List Char) :=
  (afterNewline? (skip cs)).map skipLines

/-- How the end of a text is written, and whether it has escapes. -/
structure Quotes where
  mark : Char
  isLong : Bool
deriving DecidableEq, Repr

/-- Backslashes are escapes in texts with double quotes. -/
def Quotes.hasEscapes (q : Quotes) : Bool := q.mark = '"'

/-- Reads a text after its opening quotes; `seen` holds its characters, the last one first. The
quotes that close a long text may follow one or two quotes that belong to it. -/
def textRest (q : Quotes) : Nat → List Char → List Char → Option (String × List Char)
  | 0, _, _ => none
  | _ + 1, _, [] => none
  | fuel + 1, seen, c :: rest =>
    if c = q.mark then
      if !q.isLong then some (String.ofList seen.reverse, rest)
      else
        let more := rest.takeWhile (· = q.mark)
        let after := rest.drop more.length
        if more.length < 2 then textRest q fuel (c :: more ++ seen) after
        else
          let kept := min (more.length - 2) 2
          some (String.ofList (seen.reverse ++ List.replicate kept c), rest.drop (2 + kept))
    else if c = '\\' && q.hasEscapes then
      match escape? rest with
      | some (d, rest) => textRest q fuel (d :: seen) rest
      | none => if q.isLong then (afterEscapedLine? rest).bind (textRest q fuel seen) else none
    else if isPlain c then textRest q fuel (c :: seen) rest
    else if q.isLong then (afterNewline? (c :: rest)).bind (textRest q fuel ('\n' :: seen))
    else none

/-- Reads a text on one line. -/
def lineText? (cs : List Char) : Option (String × List Char) :=
  match cs with
  | '"' :: rest => textRest ⟨'"', false⟩ cs.length [] rest
  | '\'' :: rest => textRest ⟨'\'', false⟩ cs.length [] rest
  | _ => none

/-- Reads a text. The end of the line right after long quotes does not belong to it. -/
def text? (cs : List Char) : Option (String × List Char) :=
  match cs with
  | '"' :: '"' :: '"' :: rest =>
    textRest ⟨'"', true⟩ cs.length [] ((afterNewline? rest).getD rest)
  | '\'' :: '\'' :: '\'' :: rest =>
    textRest ⟨'\'', true⟩ cs.length [] ((afterNewline? rest).getD rest)
  | _ => lineText? cs

/-! ## Whole numbers -/

/-- The value of digits in a base; single underscores may stand between two digits. -/
def digits? (base : Nat) : Nat → List Char → Option Nat
  | _, [] => none
  | n, [c] => ((Text.hexValue? c).filter (· < base)).map (base * n + ·)
  | n, c :: '_' :: rest =>
    ((Text.hexValue? c).filter (· < base)).bind fun d => digits? base (base * n + d) rest
  | n, c :: rest =>
    ((Text.hexValue? c).filter (· < base)).bind fun d => digits? base (base * n + d) rest

/-- A number in base ten, which does not begin with a zero unless it is zero. -/
def decimal? : List Char → Option Nat
  | ['0'] => some 0
  | '0' :: _ => none
  | cs => digits? 10 0 cs

/-- A whole number of 64 bits: in base ten with an optional sign, or in another base after the mark
of the base. -/
def integer? (cs : List Char) : Option Int :=
  let value : Option Int :=
    match cs with
    | '0' :: 'x' :: rest => (digits? 16 0 rest).map Int.ofNat
    | '0' :: 'o' :: rest => (digits? 8 0 rest).map Int.ofNat
    | '0' :: 'b' :: rest => (digits? 2 0 rest).map Int.ofNat
    | '+' :: rest => (decimal? rest).map Int.ofNat
    | '-' :: rest => (decimal? rest).map fun n => -n
    | _ => (decimal? cs).map Int.ofNat
  value.filter Decimal.isWord

/-! ## Settings -/

/-- A character of a name without quotes. -/
def isBare (c : Char) : Bool := c.isAlphanum || c = '-' || c = '_'

/-- Reads the name of a setting. -/
def name? (cs : List Char) : Option (String × List Char) :=
  match cs.takeWhile isBare with
  | [] => lineText? cs
  | bare => some (String.ofList bare, cs.drop bare.length)

/-- A character that ends a whole number. -/
def endsNumber (c : Char) : Bool := isSpace c || c = '\n' || c = '\r' || c = '#'

/-- Reads the value of a setting. -/
def value? (cs : List Char) : Option (Setting × List Char) :=
  match text? cs with
  | some (s, rest) => some (.text s, rest)
  | none =>
    let token := cs.takeWhile (!endsNumber ·)
    (integer? token).map fun n => (.integer n, cs.drop token.length)

/-- Reads a setting with the line that it stands on. -/
def setting? (cs : List Char) : Option ((String × Setting) × List Char) := do
  let (name, rest) ← name? cs
  match skip rest with
  | '=' :: rest =>
    let (value, rest) ← value? (skip rest)
    return ((name, value), ← afterLine? rest)
  | _ => none

/-- Reads settings line by line. -/
def lines? : Nat → List Char → Option (List (String × Setting))
  | 0, _ => none
  | _ + 1, [] => some []
  | fuel + 1, cs =>
    match afterLine? cs with
    | some rest => lines? fuel rest
    | none => do
      let (setting, rest) ← setting? (skip cs)
      return setting :: (← lines? fuel rest)

/-- Drops the mark of the byte order, which may stand in front of a file. -/
def skipMark (cs : List Char) : List Char :=
  match cs with
  | c :: rest => if c.toNat = 0xFEFF then rest else cs
  | [] => []

/-- Reads a settings file. -/
def parse? (s : String) : Option (List (String × Setting)) :=
  let cs := skipMark s.toList
  lines? (cs.length + 1) cs

end MailMerge.Toml
