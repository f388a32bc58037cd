import MailMerge.Content
import MailMerge.Decimal.Literal
import MailMerge.Decimal.Shortest
import MailMerge.Json.Basic
import MailMerge.Keyed
import MailMerge.MergeError
import MailMerge.Text.Blank
import MailMerge.Text.Quoted

/-!
# Values

The values that directives work on: data read from JSON, bytes, content, and objects and callables
of the host. A name after a value is a key of a record or else a question about the value.
-/

namespace MailMerge

/-- A value. -/
inductive Value where
  /-- No value. -/
  | null
  /-- A truth value. -/
  | bool (b : Bool)
  /-- A whole number of 64 bits. -/
  | integer (n : Int)
  /-- A floating-point number. -/
  | real (x : Float)
  /-- A text. -/
  | string (s : String)
  /-- A list. -/
  | list (items : List Value)
  /-- A record, with its entries in the order of their keys. -/
  | record (entries : List (String × Value))
  /-- Bytes. -/
  | bytes (data : Image.Bytes)
  /-- An object of the host, told from others by its identity, with a table of its members. -/
  | object (identity : Nat) (description : String) (members : List (String × Value))
  /-- A function of the host, known by its name and told from others by its identity. -/
  | callable (identity : Nat) (name : String)
  /-- Content. -/
  | content (c : Content)
deriving Inhabited

namespace Value

/-! ## Questions about values -/

/-- A list is true unless it is empty, and any other value unless it is `false` or null. -/
def isTruthy : Value → Bool
  | list items => !items.isEmpty
  | bool b => b
  | null => false
  | _ => true

/-- Null, `false`, blank texts and empty collections are blank. -/
def isBlank : Value → Bool
  | null => true
  | bool b => !b
  | string s => Text.allBlank s
  | list items => items.isEmpty
  | record entries => entries.isEmpty
  | bytes data => data.isEmpty
  | _ => false

/-- The text of a plain value. -/
def toText? : Value → Option String
  | string s => some s
  | integer n => some (toString n)
  | real x => some (Decimal.toText x)
  | bool b => some (if b then "true" else "false")
  | _ => none

mutual

/-- A short form for people to read. -/
def describe : Value → String
  | null => "nil"
  | bool b => if b then "true" else "false"
  | integer n => toString n
  | real x => Decimal.toText x
  | string s => Text.quoted s
  | list items => "[" ++ ", ".intercalate (describeItems items) ++ "]"
  | record entries => "\x7b" ++ ", ".intercalate (describeEntries entries) ++ "\x7d"
  | bytes data => s!"<{data.length} bytes>"
  | object _ description _ => description
  | callable _ _ => "<callable>"
  | content c => s!"<{c.kindName} content>"

/-- The short forms of the items of a list. -/
def describeItems : List Value → List String
  | [] => []
  | item :: rest => item.describe :: describeItems rest

/-- The short forms of the entries of a record. -/
def describeEntries : List (String × Value) → List String
  | [] => []
  | (key, value) :: rest => (key ++ ": " ++ value.describe) :: describeEntries rest

end

mutual

/-- Equality of values. Numbers of the two kinds differ, what is not a number differs from itself,
and objects and callables are equal when they are the same. -/
def equals : Value → Value → Bool
  | null, null => true
  | bool a, bool b => a == b
  | integer a, integer b => a == b
  | real a, real b => a == b
  | string a, string b => a == b
  | list a, list b => equalItems a b
  | record a, record b => equalEntries a b
  | bytes a, bytes b => a == b
  | object a _ _, object b _ _ => a == b
  | callable a _, callable b _ => a == b
  | content a, content b => a = b
  | _, _ => false

/-- Equality of lists, item by item. -/
def equalItems : List Value → List Value → Bool
  | [], [] => true
  | a :: as, b :: bs => a.equals b && equalItems as bs
  | _, _ => false

/-- Equality of records, entry by entry. -/
def equalEntries : List (String × Value) → List (String × Value) → Bool
  | [], [] => true
  | (k, a) :: as, (l, b) :: bs => k == l && a.equals b && equalEntries as bs
  | _, _ => false

end

/-! ## Members -/

/-- The questions that every value answers, and those of its kind, apart from those that can fail. -/
def question? (value : Value) (name : String) : Option Value :=
  match name with
  | "nil?" => some (bool (match value with | null => true | _ => false))
  | "blank?" => some (bool value.isBlank)
  | "present?" => some (bool !value.isBlank)
  | "to_s" => value.toText?.map string
  | _ =>
    match value, name with
    | string s, "length" | string s, "size" => some (integer s.length)
    | string s, "upcase" => some (string (Text.upcase s))
    | string s, "downcase" => some (string (Text.downcase s))
    | string s, "strip" => some (string (Text.trim s))
    | string s, "empty?" => some (bool s.isEmpty)
    | list items, "length" | list items, "size" | list items, "count" =>
      some (integer items.length)
    | list items, "first" => items.head?
    | list items, "last" => items.getLast?
    | list items, "empty?" => some (bool items.isEmpty)
    | list items, "any?" => some (bool (items.any isTruthy))
    | record entries, "length" | record entries, "size" | record entries, "count" =>
      some (integer entries.length)
    | record entries, "empty?" => some (bool entries.isEmpty)
    | record entries, "any?" => some (bool !entries.isEmpty)
    | integer n, "zero?" => some (bool (n = 0))
    | integer n, "positive?" => some (bool (0 < n))
    | integer n, "negative?" => some (bool (n < 0))
    | real x, "abs" => some (real x.abs)
    | real x, "zero?" => some (bool (x == 0.0))
    | real x, "positive?" => some (bool (0.0 < x))
    | real x, "negative?" => some (bool (x < 0.0))
    | _, _ => none

/-- The absolute value of a whole number. That of the smallest number of 64 bits is too large. -/
def absolute (n : Int) : Except MergeError Value :=
  if n.natAbs < Decimal.endOfPositive then .ok (integer n.natAbs) else .error .overflow

/-- Puts a question to a value. An object of the host answers from its own table only. -/
def dispatch? (value : Value) (name : String) : Except MergeError (Option Value) :=
  match value, name with
  | object _ _ members, _ => .ok (Keyed.find? name members)
  | integer n, "abs" => some <$> absolute n
  | _, _ => .ok (value.question? name)

/-- Resolves a name after a value: a key of a record, or else a question. -/
def member? (value : Value) (name : String) : Except MergeError (Option Value) :=
  match value with
  | record entries => .ok (Keyed.find? name entries)
  | _ => value.dispatch? name

/-! ## Values from data -/

/-- The record with the given entries. -/
def ofEntries (entries : List (String × Value)) : Value := record (Keyed.ofList entries)

mutual

/-- The value of JSON data. A whole number that does not fit a signed word becomes a floating-point
number. -/
def ofJson : Json → Value
  | .null => null
  | .bool b => bool b
  | .integer n => if n < Decimal.endOfPositive then integer n else real n.toNat.toUInt64.toFloat
  | .real x => real x
  | .string s => string s
  | .array items => list (ofJsonItems items)
  | .object members => ofEntries (ofJsonMembers members)

/-- The values of the items of an array. -/
def ofJsonItems : List Json → List Value
  | [] => []
  | item :: rest => ofJson item :: ofJsonItems rest

/-- The values of the members of an object. -/
def ofJsonMembers : List (String × Json) → List (String × Value)
  | [] => []
  | (name, value) :: rest => (name, ofJson value) :: ofJsonMembers rest

end

end Value

namespace Content

/-- The content that a value stands for. Lists, records, objects, callables, null and bytes that are
no image stand for none. -/
def wrap (value : Value) : Except MergeError Content :=
  match value with
  | .content c => .ok c
  | .string s => .ok (text s)
  | .bytes data =>
    match Picture.ofBytes? data with
    | some picture => .ok (image picture)
    | none => .error (.unsupportedContent value.describe)
  | _ =>
    match value.toText? with
    | some s => .ok (text s)
    | none => .error (.unsupportedContent value.describe)

end Content

end MailMerge
