import MailMerge.MergeError
import MailMerge.Numbering
import MailMerge.Resources
import MailMerge.Xml.Document.Build

/-!
# The state of a merge

A merge works on one document and on the registries that its parts share. A step that fails keeps
what has been changed before it.
-/

namespace MailMerge

open Xml

/-- The document being merged, with the resources and the list definitions made so far. -/
structure Workspace where
  document : Document
  resources : Resources
  numbering : Numbering
deriving Inhabited

/-- A step of a merge, which can fail. -/
abbrev Merge := EStateM MergeError Workspace

namespace Merge

/-- The document as it is now. -/
def document : Merge Document := return (← get).document

/-- Changes the document. -/
def edit (f : Document → Document) : Merge Unit :=
  modify fun w => { w with document := f w.document }

/-- Adds a new node, or a copy of one. -/
def create (f : Document → NodeId × Document) : Merge NodeId :=
  modifyGet fun w =>
    let (x, d) := f w.document
    (x, { w with document := d })

/-- Moves a node, which fails when the node would have to be its own ancestor or sibling. -/
def move (f : Document → Option Document) : Merge Unit := fun w =>
  match f w.document with
  | some d => .ok () { w with document := d }
  | none => .error .misplacedNode w

/-- Puts nodes in their order right after another one. -/
def insertAllAfter (anchor : NodeId) (nodes : List NodeId) : Merge Unit :=
  nodes.reverse.forM fun x => move (·.insertAfter anchor x)

/-- Puts new nodes made from markup right after another one. -/
def insertMarkupAfter (anchor : NodeId) (markup : String) : Merge Unit := do
  match (← document).parseFragment markup with
  | .error e => throw (.xml e)
  | .ok (nodes, d) =>
    edit fun _ => d
    insertAllAfter anchor nodes

/-- Adds an image to the resources. Answers its identifier. -/
def addImage (picture : Picture) : Merge String := fun w =>
  match w.resources.addImage? picture with
  | some (id, resources) => .ok id { w with resources }
  | none => .error .overflow w

/-- Runs a step that only sees the numbering. -/
def onNumbering {α : Type} (step : EStateM MergeError Numbering α) : Merge α := fun w =>
  match step w.numbering with
  | .ok a numbering => .ok a { w with numbering }
  | .error e numbering => .error e { w with numbering }

end Merge

/-- Makes markup from HTML and styles, and a list definition for each list in it. -/
abbrev Converter := String → Option String → EStateM MergeError Numbering String

end MailMerge
