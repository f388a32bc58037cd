import MailMerge.Xml.Node
import MailMerge.Xml.Reference

/-!
# Inside a tag

What stands between the angle brackets of a start tag: a name up to the first space, then
attributes. A list of attributes is read lazily, so that the attributes before an unreadable one
are still known.
-/

namespace MailMerge.Xml

/-- The characters that separate the parts of a tag. -/
def isTagSpace (c : Char) : Bool := c = ' ' || c = '\t' || c = '\n' || c = '\r'

/-- An attribute as written, with the offset of its name. -/
structure RawAttribute where
  offset : Nat
  name : List Char
  value : List Char
deriving DecidableEq, Repr

/-- The attributes up to the first unreadable one. -/
structure AttributeList where
  attributes : List RawAttribute
  fault : Option AttributeFault
deriving DecidableEq, Repr

namespace AttributeList

/-- A list that ends well. -/
def done : AttributeList := ⟨[], none⟩

/-- A list that ends with an unreadable attribute. -/
def failed (fault : AttributeFault) : AttributeList := ⟨[], some fault⟩

/-- Adds an attribute in front. -/
def cons (a : RawAttribute) (rest : AttributeList) : AttributeList :=
  { rest with attributes := a :: rest.attributes }

/-- Skips the separating characters; answers the offset after them and the rest. -/
def skipSpace (offset : Nat) : List Char → Nat × List Char
  | [] => (offset, [])
  | c :: rest => if isTagSpace c then skipSpace (offset + 1) rest else (offset, c :: rest)

/-- Splits off the characters of a name: all up to an equals sign or a separating character. -/
def nameRest (cs : List Char) : List Char × List Char :=
  cs.span fun c => !(c = '=' || isTagSpace c)

/-- Reads a quoted value. Answers the value, the offset after its closing quote and the rest. -/
def quoted (offset : Nat) (cs : List Char) :
    Except AttributeFault (List Char × Nat × List Char) :=
  match skipSpace offset cs with
  | (offset, []) => .error (.missingValue offset)
  | (offset, quote :: rest) =>
    if quote = '"' || quote = '\'' then
      let (value, after) := rest.span (· ≠ quote)
      let stop := offset + 1 + Text.byteLength value
      match after with
      | [] => .error (.missingQuote stop quote)
      | _ :: rest => .ok (value, stop + 1, rest)
    else .error (.unquotedValue offset)

/-- Reads the attributes from an offset on. The first character of a name is taken as it is. When
`unique` holds, a name that is in `known` with its offset must not come again. -/
def read (unique : Bool) :
    Nat → List (List Char × Nat) → Nat → List Char → AttributeList
  | 0, _, _, _ => done
  | fuel + 1, known, offset, cs =>
    match skipSpace offset cs with
    | (_, []) => done
    | (start, first :: rest) =>
      let (more, rest) := nameRest rest
      let name := first :: more
      match skipSpace (start + Text.byteLength name) rest with
      | (offset, '=' :: rest) =>
        match if unique then known.find? (·.1 = name) else none with
        | some (_, earlier) => failed (.duplicate start earlier)
        | none =>
          match quoted (offset + 1) rest with
          | .error fault => failed fault
          | .ok (value, offset, rest) =>
            cons ⟨start, name, value⟩ (read unique fuel (known ++ [(name, start)]) offset rest)
      | (offset, _) => failed (.missingEquals offset)

/-- Reads all attributes after a tag's name, which has `offset` bytes. -/
def ofChars (unique : Bool) (offset : Nat) (cs : List Char) : AttributeList :=
  read unique (cs.length + 1) [] offset cs

end AttributeList

namespace Element

/-- Resolves the values of attributes, the first unreadable thing in source order winning. -/
def resolveAttributes (fault : Option AttributeFault) :
    List RawAttribute → Except Fault (List Attribute)
  | [] =>
    match fault with
    | none => .ok []
    | some fault => .error (.badAttribute fault)
  | a :: rest =>
    match unescape a.value with
    | .error fault => .error (.badValue fault)
    | .ok value => (resolveAttributes fault rest).map (⟨String.ofList a.name, value⟩ :: ·)

/-- Reads the element of a start tag from the text between its angle brackets. -/
def ofChars (cs : List Char) : Except Fault Element :=
  let (name, rest) := cs.span (!isTagSpace ·)
  let list := AttributeList.ofChars true (Text.byteLength name) rest
  (resolveAttributes list.fault list.attributes).map fun attributes =>
    ⟨String.ofList name, attributes⟩

end Element

/-- The body of a declaration, built anew from its version and, if given, its encoding and its
standalone mark; `cs` is the text between its question marks. Values stay as written. -/
def declarationBody (cs : List Char) : Except Fault String :=
  let list := AttributeList.ofChars false 3 (cs.drop 3)
  match list.attributes with
  | [] =>
    match list.fault with
    | none => .error (.missingVersion none)
    | some fault => .error (.declarationStart fault)
  | first :: _ =>
    if first.name ≠ "version".toList then
      .error (.missingVersion (some (String.ofList first.name)))
    else do
      let part (name : String) : Except Fault String :=
        match list.attributes.find? (·.name = name.toList), list.fault with
        | some a, _ => .ok (" " ++ name ++ "=\"" ++ String.ofList a.value ++ "\"")
        | none, some fault => .error (.badAttribute fault)
        | none, none => .ok ""
      let encoding ← part "encoding"
      let standalone ← part "standalone"
      return "xml version=\"" ++ String.ofList first.value ++ "\"" ++ encoding ++ standalone

end MailMerge.Xml
