import MailMerge.Xml.Tag

/-!
# Pieces of markup

A text is read as a sequence of pieces, each at a byte position: tags, texts, CDATA sections,
declarations and pieces that carry no content. Reading keeps the names of the open elements only to
check end tags; how the pieces nest to a tree is the concern of `Document`.
-/

namespace MailMerge.Xml

/-- A piece of markup. -/
inductive Event where
  /-- A start tag. -/
  | start (tag : Element)
  /-- An end tag, with its name. -/
  | stop (name : String)
  /-- A tag that is start and end at once. -/
  | empty (tag : Element)
  /-- A text between two tags. -/
  | text (content : String)
  /-- A CDATA section. -/
  | cdata (content : String)
  /-- A declaration, with its body. -/
  | declaration (body : String)
  /-- A comment, an instruction or a document type. -/
  | aside
deriving DecidableEq, Repr

/-- The kinds of markup between angle brackets. -/
inductive Bracket where
  /-- A comment. -/
  | comment
  /-- A CDATA section. -/
  | cdata
  /-- A document type. -/
  | doctype
  /-- An instruction or a declaration. -/
  | instruction
  /-- An end tag. -/
  | endTag
  /-- A start tag or an empty tag. -/
  | startTag
deriving DecidableEq, Repr

namespace Bracket

/-- The kind of markup, told by the characters after its opening bracket. An exclamation mark opens
three kinds and nothing else. -/
def ofChars : List Char → Except Fault Bracket
  | [] => .error .unclosedTag
  | '!' :: '-' :: _ => .ok comment
  | '!' :: '[' :: _ => .ok cdata
  | '!' :: 'D' :: _ | '!' :: 'd' :: _ => .ok doctype
  | '!' :: _ => .error .unknownBang
  | '/' :: _ => .ok endTag
  | '?' :: _ => .ok instruction
  | _ => .ok startTag

/-- The quote that is open after the given characters, the last one first. -/
def openQuote : List Char → Option Char
  | [] => none
  | c :: before =>
    match openQuote before with
    | none => if c = '"' || c = '\'' then some c else none
    | some quote => if c = quote then none else some quote

/-- A closing bracket ends the markup that has the given characters, the last one first. A comment
needs two hyphens besides the opening ones, a document type balanced brackets, and quotes in a tag
protect the bracket. -/
def closes (seen : List Char) : Bracket → Bool
  | comment => 4 < seen.length && seen.take 2 = ['-', '-']
  | cdata => seen.take 2 = [']', ']']
  | doctype => seen.count '<' = seen.count '>'
  | instruction => seen.head? = some '?'
  | endTag | startTag => (openQuote seen).isNone

/-- The fault of markup that is not closed, or whose opening is not the full one. -/
def unclosed : Bracket → Fault
  | comment => .unclosedComment
  | cdata => .unclosedCData
  | doctype => .unclosedDoctype
  | instruction => .unclosedInstruction
  | endTag | startTag => .unclosedTag

/-- Splits at the closing bracket; `seen` holds the characters before, the last one first. -/
def split (kind : Bracket) (seen : List Char) : List Char → Option (List Char × List Char)
  | [] => none
  | c :: rest =>
    if c = '>' && kind.closes seen then some (seen.reverse, rest)
    else kind.split (c :: seen) rest

end Bracket

/-- The pieces of a text with their positions, up to its end or to an unreadable piece. -/
structure Reading where
  events : List (Nat × Event)
  fault : Option Error
deriving DecidableEq, Repr

namespace Reading

/-- A text that has no more pieces. -/
def done : Reading := ⟨[], none⟩

/-- A text that goes on unreadably. -/
def failed (e : Error) : Reading := ⟨[], some e⟩

/-- Adds a piece in front. -/
def cons (position : Nat) (event : Event) (rest : Reading) : Reading :=
  { rest with events := (position, event) :: rest.events }

/-- The given characters begin with those of `word`, a word in capitals, in capitals or small
letters. -/
def beginsWith (word : String) (cs : List Char) : Bool :=
  (cs.take word.toList.length).map Char.toUpper = word.toList

/-- The name of an end tag: spaces after it do not count, unless there is nothing else. -/
def endName (cs : List Char) : String :=
  let trimmed := (cs.reverse.dropWhile isTagSpace).reverse
  String.ofList (if trimmed.isEmpty then cs else trimmed)

/-- An end tag must close the innermost open element, which is the first one given. -/
def readEnd (position : Nat) (opened : List String) (name : String) :
    Except Error (Event × List String) :=
  match opened with
  | [] => .error (.ofFault (.strayEnd name) (some position))
  | expected :: outer =>
    if name = expected then .ok (.stop name, outer)
    else .error (.ofFault (.wrongEnd expected name) (some position))

/-- A tag whose last character is a slash is closed at once. -/
def readStart (position : Nat) (opened : List String) (body : List Char) :
    Except Error (Event × List String) :=
  let closed := body.getLast? = some '/'
  match Element.ofChars (if closed then body.dropLast else body) with
  | .error (.badValue fault) => .error (.ofFault (.badValue fault) (some position))
  | .error fault => .error (.ofFault fault none)
  | .ok tag => .ok (if closed then (.empty tag, opened) else (.start tag, tag.name :: opened))

/-- An instruction named `xml` is a declaration. -/
def readInstruction (position : Nat) (body : List Char) : Except Error Event :=
  if body.length < 2 then .error (.ofFault .unclosedInstruction (some position))
  else
    let inner := (body.drop 1).dropLast
    if inner.take 3 = "xml".toList && (inner.drop 3).head?.all isTagSpace then
      match declarationBody inner with
      | .error fault => .error (.ofFault fault none)
      | .ok text => .ok (.declaration text)
    else .ok .aside

/-- Interprets markup from the characters between its brackets. Answers the piece and the open
elements after it. -/
def interpret (position : Nat) (opened : List String) (body : List Char) :
    Bracket → Except Error (Event × List String)
  | .comment =>
    if body.take 3 = "!--".toList then .ok (.aside, opened)
    else .error (.ofFault .unclosedComment (some position))
  | .cdata =>
    if body.take 8 = "![CDATA[".toList then
      .ok (.cdata (String.ofList ((body.drop 8).take (body.length - 10))), opened)
    else .error (.ofFault .unclosedCData (some position))
  | .doctype =>
    if !beginsWith "!DOCTYPE" body then .error (.ofFault .unclosedDoctype (some position))
    else if (body.drop 8).all isTagSpace then
      .error (.ofFault .namelessDoctype (some (position + 1 + Text.byteLength body)))
    else .ok (.aside, opened)
  | .instruction => (readInstruction position body).map (·, opened)
  | .endTag => readEnd position opened (endName (body.drop 1))
  | .startTag => readStart position opened body

/-- Reads the markup after an opening bracket at `position`. Answers the piece, the open elements
and the position after it, and the rest of the text. -/
def readMarkup (position : Nat) (opened : List String) (cs : List Char) :
    Except Error (Event × List String × Nat × List Char) :=
  match Bracket.ofChars cs with
  | .error fault => .error (.ofFault fault (some position))
  | .ok kind =>
    match kind.split [] cs with
    | none => .error (.ofFault kind.unclosed (some position))
    | some (body, rest) =>
      (interpret position opened body kind).map fun (event, opened) =>
        (event, opened, position + Text.byteLength body + 2, rest)

/-- Reads the pieces of a text from a position on. Every piece takes at least one character, so the
number of characters is fuel enough. -/
def read : Nat → Nat → List String → List Char → Reading
  | 0, _, _, _ => done
  | _ + 1, _, _, [] => done
  | fuel + 1, position, opened, '<' :: cs =>
    match readMarkup position opened cs with
    | .error e => failed e
    | .ok (event, opened, next, rest) => cons position event (read fuel next opened rest)
  | fuel + 1, position, opened, cs =>
    let (raw, rest) := cs.span (· ≠ '<')
    match unescape raw with
    | .error fault => failed (.ofFault (.badText fault) (some position))
    | .ok content =>
      cons position (.text content) (read fuel (position + Text.byteLength raw) opened rest)

/-- Reads the pieces of a text. A byte order mark in front is no part of the text. -/
def ofString (s : String) : Reading :=
  let cs := match s.toList with
    | c :: rest => if c = Char.ofNat 0xFEFF then rest else c :: rest
    | [] => []
  read (cs.length + 1) 0 [] cs

end Reading

end MailMerge.Xml
