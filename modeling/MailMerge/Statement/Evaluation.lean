import MailMerge.Argument
import MailMerge.Statement

/-!
# Evaluation of statements

A statement puts something in the place of its field or block. Loops and true conditions render
copies of the body, and a callable gets the body itself. What copies are rendered by is a parameter,
so that the meaning of a single statement does not depend on how deep blocks are nested.
-/

namespace MailMerge

open Xml

/-- How the nodes below a given one are rendered in a context. -/
abbrev Renderer := Context → NodeId → Merge Unit

/-- What a callable sees of the call: the context of the block, and how to render nodes with an
additional value. -/
structure CallScope where
  context : Context
  render : NodeId → Value → Merge Unit

/-- What the host of a merge provides: a converter of HTML, and what its callables do. A callable is
given the scope of the call, the nodes of the body and the arguments, and answers nodes of the
document. -/
structure Host where
  convert? : Option Converter := none
  call : String → CallScope → List NodeId → List Value → Merge (List NodeId) :=
    fun _ _ _ _ => return []

namespace CallScope

/-- The name to which the additional value of a call is bound. -/
def additional : String := "call_context"

/-- The scope of a call in a context. -/
def ofContext (renderBelow : Renderer) (context : Context) : CallScope :=
  ⟨context, fun x value => renderBelow (context.bind additional value) x⟩

end CallScope

namespace Statement

/-- Puts the value of an expression in the place of a field, which an absent or false value
removes. -/
def evaluateInsertion (host : Host) (context : Context) (expression : Expression) (field : Field) :
    Merge Unit := do
  match ← ofExcept (expression.evaluate? context) with
  | none | some (.bool false) => Merge.edit field.remove
  | some value =>
    let content ← ofExcept (Content.wrap value)
    field.replace host.convert? content

/-- Renders a copy of the body for each item of a list. -/
def evaluateLoop (renderBelow : Renderer) (context : Context) (path name : String) (b : Block) :
    Merge Unit := do
  let list := Expression.parse path
  match ← ofExcept (list.evaluate? context) with
  | some (.list items) =>
    let rows ← items.mapM fun item => b.render renderBelow (context.bind name item)
    b.replace rows.flatten
  | other => throw (.notEnumerable list.toText (other.getD .null).describe)

/-- The value on which a condition depends: that of its path, or the answer to the question put to
it. -/
def deciding? (context : Context) (path : String) (question? : Option String) :
    Except MergeError (Option Value) := do
  let value ← (Expression.parse path).evaluate? context
  match question? with
  | none => return value
  | some question => (value.getD .null).dispatch? question

/-- Keeps a rendered copy of the body if a condition holds. -/
def evaluateCondition (renderBelow : Renderer) (context : Context) (path : String)
    (question? : Option String) (b : Block) : Merge Unit := do
  if (← ofExcept (deciding? context path question?)).any Value.isTruthy then
    b.replace (← b.render renderBelow context)
  else b.replace []

/-- Hands the body to a callable and keeps the nodes that it answers. -/
def evaluateCall (host : Host) (renderBelow : Renderer) (context : Context) (path : String)
    (arguments? : Option String) (b : Block) : Merge Unit := do
  let callable := Expression.parse path
  match ← ofExcept (callable.evaluate? context) with
  | some (.callable _ name) =>
    let arguments ← ofExcept (Argument.parse context arguments?)
    let body := b.body (← Merge.document)
    b.replace (← host.call name (.ofContext renderBelow context) body arguments)
  | other => throw (.notCallable callable.toText (other.getD .null).describe)

/-- Evaluates a block. Its body is what stands between its anchors at the beginning. -/
def evaluateBlock (host : Host) (renderBelow : Renderer) (context : Context) (opening : Opening)
    (b : Block) : Merge Unit := do
  let b := b.settle (← Merge.document)
  match opening with
  | .each path name => evaluateLoop renderBelow context path name b
  | .condition path question? => evaluateCondition renderBelow context path question? b
  | .call path arguments? => evaluateCall host renderBelow context path arguments? b
  | .comment => b.replace []

/-- Evaluates a statement. -/
def evaluate (host : Host) (renderBelow : Renderer) (context : Context) : Statement → Merge Unit
  | insertion expression field => evaluateInsertion host context expression field
  | block opening b => evaluateBlock host renderBelow context opening b

/-- Evaluates the statements that fields make, one after the other. -/
def evaluateFields (host : Host) (renderBelow : Renderer) (context : Context)
    (fields : List Field) : Merge Unit := do
  let statements ← ofExcept (ofFields (← Merge.document) fields)
  statements.forM (evaluate host renderBelow context)

end Statement

end MailMerge
