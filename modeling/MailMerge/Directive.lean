import MailMerge.Context
import MailMerge.Text.Pattern

/-!
# Directives

The text in a field says what the field does. `=path` is an insertion. A block is opened by
`path:each(name)`, `path:if`, `path:if(question)`, `path:call`, `path:call(arguments)` or `comment`,
and closed by a field with a fixed text that belongs to it. All other texts do nothing by
themselves.
-/

namespace MailMerge

/-- What opens a block. -/
inductive Opening where
  /-- A loop over a list, which binds each item to a name. -/
  | each (path : String) (name : String)
  /-- A condition on a value, or on the answer to a question put to it. -/
  | condition (path : String) (question? : Option String)
  /-- A call of a callable. -/
  | call (path : String) (arguments? : Option String)
  /-- A comment. -/
  | comment
deriving DecidableEq, Repr

namespace Opening

/-- The characters of a path, which may be any but a space. -/
def path : Text.Part := .keep (· ≠ ' ')

/-- The form of a loop. -/
def eachPattern : List Text.Part :=
  [path, .exactly ":each(", .keep fun c => c ≠ ' ' ∧ c ≠ ')', .exactly ")"]

/-- The form of a condition with a question. -/
def questionPattern : List Text.Part :=
  [path, .exactly ":if(", .keep (· ≠ ')'), .exactly ")"]

/-- The form of a condition without a question. -/
def conditionPattern : List Text.Part := [path, .exactly ":if"]

/-- The form of a call with arguments. -/
def argumentsPattern : List Text.Part :=
  [path, .exactly ":call(", .keepAny (· ≠ ')'), .exactly ")"]

/-- The form of a call without arguments. -/
def callPattern : List Text.Part := [path, .exactly ":call"]

/-- Reads a loop. -/
def each? (s : String) : Option Opening :=
  match Text.match? eachPattern s with
  | some [path, name] => some (each path name)
  | _ => none

/-- Reads a condition. -/
def condition? (s : String) : Option Opening :=
  match Text.match? questionPattern s, Text.match? conditionPattern s with
  | some [path, question], _ => some (condition path (some question))
  | _, some [path] => some (condition path none)
  | _, _ => none

/-- Reads a call. -/
def call? (s : String) : Option Opening :=
  match Text.match? argumentsPattern s, Text.match? callPattern s with
  | some [path, arguments], _ => some (call path (some arguments))
  | _, some [path] => some (call path none)
  | _, _ => none

/-- Reads what opens a block. Loops come before conditions, and these before calls. -/
def ofText? (s : String) : Option Opening :=
  (each? s).or <| (condition? s).or <| if s = "comment" then some comment else call? s

/-- The text of the field that closes the block. -/
def endText : Opening → String
  | each path _ => path ++ ":endEach"
  | condition path _ => path ++ ":endIf"
  | call path _ => path ++ ":endCall"
  | comment => "endComment"

end Opening

/-- What a field does. -/
inductive Directive where
  /-- It displays the value of an expression. -/
  | insertion (expression : Expression)
  /-- It opens a block. -/
  | opening (o : Opening)
  /-- It does nothing by itself. -/
  | other
deriving DecidableEq, Repr

/-- Reads a directive. -/
def Directive.ofText (s : String) : Directive :=
  match s.toList with
  | '=' :: rest => insertion (Expression.parse (String.ofList rest))
  | _ =>
    match Opening.ofText? s with
    | some o => opening o
    | none => other

end MailMerge
