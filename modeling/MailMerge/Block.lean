import MailMerge.Context
import MailMerge.Field.Replacement

/-!
# Blocks

A block is what stands between two fields. When the fields are in different table rows, whole rows
belong to the block; when they are in different paragraphs, whole paragraphs do; otherwise only what
is between the two fields themselves. The body of a block are the elements between its two anchors,
as they are when it is first asked for.
-/

namespace MailMerge

open Xml

/-- What the unit of a block is. -/
inductive BlockKind where
  /-- Table rows. -/
  | row
  /-- Paragraphs. -/
  | paragraph
  /-- Runs within a paragraph. -/
  | inline
deriving DecidableEq, Repr

/-- A block between two fields. The nodes of the body stand after the first anchor and before the
last one; a settled body does not change any more. -/
structure Block where
  kind : BlockKind
  start : Field
  stop : Field
  first : NodeId
  last : NodeId
  settled? : Option (List NodeId) := none
deriving DecidableEq, Repr

namespace Block

/-- Both fields are inside elements of the given name, and not inside the same one. -/
def inDifferent (d : Document) (start stop : Field) (name : String) : Bool :=
  match start.ancestor? d name, stop.ancestor? d name with
  | some a, some b => a ≠ b
  | _, _ => false

/-- The unit of the block between two fields. -/
def classify (d : Document) (start stop : Field) : BlockKind :=
  if inDifferent d start stop "w:tr" then .row
  else if inDifferent d start stop "w:p" then .paragraph
  else .inline

/-- The node that stands for a field at the border of a block of the given kind. -/
def anchor (d : Document) (kind : BlockKind) (field : Field) (inner : NodeId) : NodeId :=
  match kind with
  | .row => (field.ancestor? d "w:tr").getD inner
  | .paragraph => (field.ancestor? d "w:p").getD inner
  | .inline => inner

/-- The block between two fields. -/
def between (d : Document) (start stop : Field) : Block :=
  let kind := classify d start stop
  { kind, start, stop
    first := anchor d kind start start.stop
    last := anchor d kind stop stop.start }

/-- The elements after the first anchor, up to the last anchor or to the end of the row. -/
def span (d : Document) (block : Block) : List NodeId :=
  (d.followingElements block.first).takeWhile (· ≠ block.last)

/-- The nodes of the body. -/
def body (d : Document) (block : Block) : List NodeId := block.settled?.getD (block.span d)

/-- Fixes the nodes of the body. -/
def settle (d : Document) (block : Block) : Block := { block with settled? := some (block.body d) }

/-- The name of the element in which copies of a body are rendered. -/
def containerName : String := "tmp"

/-- Puts copies of nodes into a new element without a parent. Answers that element. -/
def copyAll (nodes : List NodeId) : Merge NodeId := do
  let container ← Merge.create (·.createElement containerName)
  nodes.forM fun x => do
    let copied ← Merge.create (·.copy x)
    Merge.move (·.appendChild container copied)
  return container

/-- Renders a copy of the body. Answers the nodes that the copy has become. -/
def render (renderBelow : Context → NodeId → Merge Unit) (context : Context) (block : Block) :
    Merge (List NodeId) := do
  let container ← copyAll (block.body (← Merge.document))
  renderBelow context container
  return (← Merge.document).children container

/-- Takes out what has opened and closed the block. -/
def removeFrame (block : Block) (d : Document) : Document :=
  match block.kind with
  | .row | .paragraph => (d.detach block.first).detach block.last
  | .inline => block.stop.remove (block.start.remove d)

/-- Puts nodes in the place of the block. -/
def replace (block : Block) (nodes : List NodeId) : Merge Unit := do
  let body := block.body (← Merge.document)
  Merge.insertAllAfter block.first nodes
  Merge.edit fun d => block.removeFrame (d.detachAll body)

end Block

end MailMerge
