import MailMerge.Statement.Evaluation

/-!
# Rendering

The directives at and below a node are rendered by evaluating the statements that its fields make.
Copies of bodies are rendered in the same way. How deep blocks can be nested is bounded by the field
markers of the document, as far as values do not bring in markers of their own.
-/

namespace MailMerge

open Xml

namespace Rendering

/-- Renders the directives at and below a node, with at most `depth` blocks inside one another. -/
def renderBelow (host : Host) : Nat → Renderer
  | 0, _, _ => throw .nestedTooDeep
  | depth + 1, context, x => do
    let fields := Field.discover (← Merge.document) x
    Statement.evaluateFields host (renderBelow host depth) context fields

/-- The number of markers that can begin a field, in and outside the tree of a document. -/
def markers (d : Document) : Nat :=
  (d.allRows.flatMap Forest.nodes).countP fun (_, node) =>
    node.isNamed "w:fldSimple" || Field.isMarker "begin" node

/-- How deep blocks can be nested where values bring in markers, which may be anew in each copy of a
body that is rendered. -/
def growth : Nat := 0x100000000

/-- How deep blocks can be nested: once for each marker of the document, and further by what values
bring in. -/
def depth (d : Document) : Nat := markers d + growth

/-- Renders fields that are known already. -/
def renderFields (host : Host) (context : Context) (fields : List Field) : Merge Unit := do
  let bound := depth (← Merge.document)
  Statement.evaluateFields host (renderBelow host bound) context fields

/-- Renders the directives at and below a node. -/
def renderNode (host : Host) (context : Context) (x : NodeId) : Merge Unit := do
  renderFields host context (Field.discover (← Merge.document) x)

end Rendering

end MailMerge
