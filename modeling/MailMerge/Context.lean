import MailMerge.Value

/-!
# Contexts and expressions

A context binds names to values. An expression is a name, optionally followed by members; there are
no operators and no literals. An inner binding hides an outer one of the same name, and a null value
counts as absent.
-/

namespace MailMerge

/-- Bindings, the innermost first. -/
structure Context where
  bindings : List (String × Value) := []
deriving Inhabited

namespace Context

/-- Binds a name; whoever holds the context without the binding does not see it. -/
def bind (context : Context) (name : String) (value : Value) : Context :=
  ⟨(name, value) :: context.bindings⟩

/-- The value of a name. -/
def find? (context : Context) (name : String) : Option Value := Keyed.find? name context.bindings

/-- A binding hides an earlier one of its own name and no other. -/
theorem find?_bind (context : Context) (name wanted : String) (value : Value) :
    (context.bind name value).find? wanted =
      if name = wanted then some value else context.find? wanted := by
  by_cases h : name = wanted <;> simp [bind, find?, Keyed.find?, h]

/-- What JSON data are, for messages. -/
def kindOf : Json → String
  | .null => "null"
  | .bool _ => "a boolean"
  | .integer _ | .real _ => "a number"
  | .string _ => "a string"
  | .array _ => "an array"
  | .object _ => "an object"

/-- The context with a binding for each member of an object. -/
def ofJson (data : Json) : Except MergeError Context :=
  match Value.ofJson data with
  | .record entries => .ok ⟨entries⟩
  | _ => .error (.invalidContext (kindOf data))

end Context

/-- An expression: a name and the members asked for after it. -/
inductive Expression where
  /-- A name alone. -/
  | name (text : String)
  /-- A name followed by members. -/
  | lookup (receiver : String) (path : List String)
deriving DecidableEq, Repr, Inhabited

namespace Expression

/-- Reads an expression: points part the name and the members, each of which may be empty. -/
def parse (s : String) : Expression :=
  match s.toList.splitOn '.' with
  | [] | [_] => name s
  | receiver :: path => lookup (String.ofList receiver) (path.map String.ofList)

/-- The written form of an expression. -/
def toText : Expression → String
  | name text => text
  | lookup receiver path => ".".intercalate (receiver :: path)

/-- A value that is not null. -/
def present? : Value → Option Value
  | .null => none
  | value => some value

/-- Follows members from a value. -/
def follow? (value : Value) : List String → Except MergeError (Option Value)
  | [] => .ok (some value)
  | member :: rest => do
    match (← value.member? member).bind present? with
    | none => return none
    | some next => follow? next rest

/-- The value of an expression, unless a part of it is absent or null. -/
def evaluate? (context : Context) : Expression → Except MergeError (Option Value)
  | name text => .ok ((context.find? text).bind present?)
  | lookup receiver path =>
    match (context.find? receiver).bind present? with
    | none => .ok none
    | some value => follow? value path

end Expression

end MailMerge
