import MailMerge.Text.Blank

/-!
# Why a text is no document

`Fault` and its parts name what is wrong with a piece of markup; `Error` says why a text as a whole
is no document or no fragment, and where.
-/

namespace MailMerge.Xml

/-- What is wrong with the list of attributes of a tag. Offsets count bytes from the tag's name. -/
inductive AttributeFault where
  /-- A name is not followed by an equals sign. -/
  | missingEquals (offset : Nat)
  /-- Nothing follows the equals sign. -/
  | missingValue (offset : Nat)
  /-- The value does not start with a quote. -/
  | unquotedValue (offset : Nat)
  /-- The value does not end with its quote. -/
  | missingQuote (offset : Nat) (quote : Char)
  /-- The name stands at an earlier offset too. -/
  | duplicate (offset earlier : Nat)
deriving DecidableEq, Repr

/-- What is wrong with the number of a character reference. -/
inductive NumberFault where
  /-- There are no digits. -/
  | noDigits
  /-- A character is no digit. -/
  | badDigit
  /-- The number needs more than 32 bits. -/
  | tooLarge
deriving DecidableEq, Repr

/-- What is wrong with a reference. Offsets count bytes from the start of the text it stands in. -/
inductive ReferenceFault where
  /-- No semicolon ends the reference. -/
  | unterminated (start stop : Nat)
  /-- The name is none of the five predefined ones. -/
  | unknownName (start stop : Nat) (name : String)
  /-- The number has a sign. -/
  | signedNumber
  /-- The number cannot be read. -/
  | badNumber (fault : NumberFault)
  /-- The number is no Unicode scalar value. -/
  | notAScalar (code : Nat)
  /-- The number is zero. -/
  | zero
deriving DecidableEq, Repr

/-- What is wrong with a piece of markup. -/
inductive Fault where
  /-- An exclamation mark opens neither a comment nor a CDATA section nor a document type. -/
  | unknownBang
  /-- An instruction or declaration is not closed. -/
  | unclosedInstruction
  /-- A comment is not closed. -/
  | unclosedComment
  /-- A document type is not closed. -/
  | unclosedDoctype
  /-- A CDATA section is not closed. -/
  | unclosedCData
  /-- A tag is not closed. -/
  | unclosedTag
  /-- A document type has no name. -/
  | namelessDoctype
  /-- A declaration does not start with a version; the name it starts with, if any. -/
  | missingVersion (found : Option String)
  /-- An end tag closes no element. -/
  | strayEnd (name : String)
  /-- An end tag closes an element of another name. -/
  | wrongEnd (expected found : String)
  /-- The first attribute of a declaration is unreadable. -/
  | declarationStart (fault : AttributeFault)
  /-- An attribute is unreadable. -/
  | badAttribute (fault : AttributeFault)
  /-- A reference in an attribute value is unreadable. -/
  | badValue (fault : ReferenceFault)
  /-- A reference in a text is unreadable. -/
  | badText (fault : ReferenceFault)
deriving DecidableEq, Repr

/-- The wording of a fault. -/
def AttributeFault.message : AttributeFault → String
  | missingEquals offset =>
    s!"position {offset}: attribute key must be directly followed by `=` or space"
  | missingValue offset => s!"position {offset}: `=` must be followed by an attribute value"
  | unquotedValue offset =>
    s!"position {offset}: attribute value must be enclosed in `\"` or `'`"
  | missingQuote offset quote =>
    s!"position {offset}: missing closing quote `{quote}` in attribute value"
  | duplicate offset earlier =>
    s!"position {offset}: duplicated attribute, previous declaration at position {earlier}"

/-- The wording of a fault. -/
def NumberFault.message : NumberFault → String
  | noDigits => "cannot parse integer from empty string"
  | badDigit => "invalid digit found in string"
  | tooLarge => "number too large to fit in target type"

/-- The wording of a fault. -/
def ReferenceFault.message : ReferenceFault → String
  | unterminated start stop =>
    s!"Error while escaping character at range {start}..{stop}: Cannot find ';' after '&'"
  | unknownName start stop name => s!"at {start}..{stop}: unrecognized entity `{name}`"
  | signedNumber => "invalid character reference: unexpected number sign"
  | badNumber fault => "invalid character reference: " ++ fault.message
  | notAScalar code => s!"invalid character reference: `{code}` is not a valid codepoint"
  | zero => "invalid character reference: 0x0 character is not permitted in XML"

/-- The wording of a fault. -/
def Fault.message : Fault → String
  | unknownBang => "syntax error: unknown or missed symbol in markup"
  | unclosedInstruction =>
    "syntax error: processing instruction or xml declaration not closed: " ++
      "`?>` not found before end of input"
  | unclosedComment => "syntax error: comment not closed: `-->` not found before end of input"
  | unclosedDoctype => "syntax error: DOCTYPE not closed: `>` not found before end of input"
  | unclosedCData => "syntax error: CDATA not closed: `]]>` not found before end of input"
  | unclosedTag => "syntax error: tag not closed: `>` not found before end of input"
  | namelessDoctype =>
    "ill-formed document: `<!DOCTYPE>` declaration does not contain a name of a document type"
  | missingVersion none =>
    "ill-formed document: an XML declaration does not contain `version` attribute"
  | missingVersion (some found) =>
    "ill-formed document: an XML declaration must start with `version` attribute, " ++
      s!"but in starts with `{found}`"
  | strayEnd name => s!"ill-formed document: close tag `</{name}>` does not match any open tag"
  | wrongEnd expected found =>
    s!"ill-formed document: expected `</{expected}>`, but `</{found}>` was found"
  | declarationStart fault => "error while parsing attribute: " ++ fault.message
  | badAttribute fault => "Attribute error: " ++ fault.message
  | badValue fault => "Invalid attribute value: " ++ fault.message
  | badText fault => "Invalid text content: " ++ fault.message

/-- Why a text is no document or no fragment. Positions count bytes from the start of the text. -/
inductive Error where
  /-- A piece of markup is unreadable. -/
  | malformed (message : String) (position : Option Nat)
  /-- The text ends too early. -/
  | unexpectedEnd (expected : String)
  /-- An end tag closes an element of another name. -/
  | mismatchedEnd (expected found : String) (position : Option Nat)
  /-- The pieces of markup do not nest to a document. -/
  | badStructure (message : String) (position : Option Nat)
  /-- There is no root element. -/
  | noRoot
  /-- There is more than one root element. -/
  | manyRoots (position : Option Nat)
deriving DecidableEq, Repr

namespace Error

/-- The wording of an error; a position is told for unreadable markup only. -/
def message : Error → String
  | malformed text none => "XML syntax error: " ++ text
  | malformed text (some position) => s!"XML syntax error: {text} at byte {position}"
  | unexpectedEnd expected => "Unexpected end of input, expected " ++ expected
  | mismatchedEnd expected found _ =>
    s!"Mismatched end tag: expected </{expected}>, found </{found}>"
  | badStructure text _ => "Invalid XML structure: " ++ text
  | noRoot => "Empty XML document: no root element found"
  | manyRoots _ => "Invalid XML: multiple root elements"

/-- Where the error is, if it has a place. -/
def position? : Error → Option Nat
  | malformed _ position | mismatchedEnd _ _ position | badStructure _ position
  | manyRoots position => position
  | unexpectedEnd _ | noRoot => none

/-- A piece of unreadable markup at a position. -/
def ofFault (fault : Fault) (position : Option Nat) : Error := malformed fault.message position

end Error

end MailMerge.Xml
