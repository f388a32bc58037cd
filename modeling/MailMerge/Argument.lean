import MailMerge.Context
import MailMerge.Decimal.Literal

/-!
# Arguments of calls

The text in the brackets of a call is a list of arguments, parted by commas outside quotes. An
argument is a number, a truth value, null, a quoted text, or an expression after an equals sign.
-/

namespace MailMerge.Argument

/-- Splits a text at the commas outside quotes. A quote is closed by the same character. -/
def split (quote : Option Char) : List Char → List Char × List (List Char)
  | [] => ([], [])
  | c :: rest =>
    match quote with
    | some q =>
      let (first, more) := split (if c = q then none else quote) rest
      (c :: first, more)
    | none =>
      if c = ',' then
        let (first, more) := split none rest
        ([], first :: more)
      else
        let (first, more) := split (if c = '"' ∨ c = '\'' then some c else none) rest
        (c :: first, more)

/-- The pieces between the commas outside quotes. -/
def pieces (s : String) : List String :=
  let (first, more) := split none s.toList
  (first :: more).map String.ofList

/-- The text between two quotes of the given kind at the ends. -/
def unquote? (quote : Char) (cs : List Char) : Option String :=
  match cs with
  | c :: rest =>
    if c = quote && rest.getLast? = some quote then some (String.ofList rest.dropLast) else none
  | [] => none

/-- The characters that numbers are written with. -/
def isNumeric (c : Char) : Bool := Decimal.isDigit c || "+-.eE_".toList.contains c

/-- A number. Underscores may stand anywhere; what is no whole number of 64 bits is a floating-point
number. -/
def number? (cs : List Char) : Option Value :=
  if cs.isEmpty || !cs.all isNumeric then none
  else
    let digits := cs.filter (· ≠ '_')
    match Decimal.integer? digits with
    | some n => some (.integer n)
    | none => (Decimal.real? digits).map .real

/-- The value of an argument without blanks around it. -/
def value (context : Context) (s : String) : Except MergeError Value :=
  match s.toList with
  | '=' :: rest =>
    let expression := Expression.parse (Text.trim (String.ofList rest))
    (·.getD .null) <$> expression.evaluate? context
  | cs =>
    match s with
    | "true" => .ok (.bool true)
    | "false" => .ok (.bool false)
    | "nil" | "null" => .ok .null
    | _ =>
      match (unquote? '"' cs).or (unquote? '\'' cs) with
      | some text => .ok (.string text)
      | none =>
        match number? cs with
        | some n => .ok n
        | none => .error (.invalidCallArgument s)

/-- The values of a list of arguments; a blank list has none. -/
def parse (context : Context) (arguments : Option String) : Except MergeError (List Value) :=
  match arguments with
  | none => .ok []
  | some s =>
    if Text.allBlank s then .ok []
    else (pieces s).mapM fun piece => value context (Text.trim piece)

end MailMerge.Argument
