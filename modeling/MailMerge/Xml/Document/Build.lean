import MailMerge.Xml.Document.Edit
import MailMerge.Xml.Event

/-!
# From pieces of markup to documents

The pieces of a text nest to a row of trees. A document needs exactly one tree, and only blank text
around it; a fragment may have any number of trees and keeps the text between them unless it is
blank.
-/

namespace MailMerge.Xml

/-- What a text is read as. -/
inductive Scope where
  /-- A document: one root, nothing around it. -/
  | document
  /-- A fragment: any row of nodes. -/
  | fragment
deriving DecidableEq, Repr

/-- An element whose end tag has not come yet, with its children so far, the last one first. -/
structure OpenElement where
  id : NodeId
  tag : Element
  children : Forest
deriving Repr

/-- How far a text has been built: the open elements, innermost first, and the finished top-level
nodes, the last one first. -/
structure Builder where
  next : NodeId
  opened : List OpenElement
  top : Forest
  declaration : Option String
deriving Repr

namespace Builder

/-- Nothing has been built; identities are counted from `next` on. -/
def begin (next : NodeId) : Builder := ⟨next, [], .nil, none⟩

/-- Puts a finished node at the end of the innermost open element, or at the top. -/
def put (b : Builder) (id : NodeId) (node : Node) (children : Forest) : Builder :=
  match b.opened with
  | [] => { b with top := .cons id node children b.top }
  | parent :: outer =>
    { b with opened := { parent with children := .cons id node children parent.children } :: outer }

/-- At the top of a document only one element may begin. -/
def admitsElement (b : Builder) (scope : Scope) : Bool :=
  !(scope = .document && b.opened.isEmpty && b.top ≠ .nil)

/-- Adds a text. Blank text at the top is dropped. -/
def addText (b : Builder) (scope : Scope) (position : Nat) (node : Node) : Except Error Builder :=
  if !b.opened.isEmpty then .ok { b.put b.next node .nil with next := b.next + 1 }
  else if Text.allBlank node.characters then .ok b
  else
    match scope with
    | .fragment => .ok { b.put b.next node .nil with next := b.next + 1 }
    | .document =>
      .error (.badStructure "Text content outside of the root element" (some position))

/-- Adds a piece of markup. -/
def step (scope : Scope) (b : Builder) (position : Nat) : Event → Except Error Builder
  | .start tag =>
    if b.admitsElement scope then
      .ok { b with opened := ⟨b.next, tag, .nil⟩ :: b.opened, next := b.next + 1 }
    else .error (.manyRoots (some position))
  | .empty tag =>
    if b.admitsElement scope then
      .ok { b.put b.next (.element tag) .nil with next := b.next + 1 }
    else .error (.manyRoots (some position))
  | .stop name =>
    match b.opened with
    | [] => .error (.badStructure s!"Unexpected closing tag </{name}>" (some position))
    | inner :: outer =>
      if inner.tag.name = name then
        .ok ({ b with opened := outer }.put inner.id (.element inner.tag) inner.children.reverse)
      else .error (.mismatchedEnd inner.tag.name name (some position))
  | .text content => b.addText scope position (.text content)
  | .cdata content => b.addText scope position (.cdata content)
  | .declaration body => .ok { b with declaration := some body }
  | .aside => .ok b

/-- Adds pieces of markup one after the other. -/
def run (scope : Scope) (b : Builder) : List (Nat × Event) → Except Error Builder
  | [] => .ok b
  | (position, event) :: rest =>
    match b.step scope position event with
    | .error e => .error e
    | .ok b => b.run scope rest

/-- Builds all pieces of a reading. What the builder refuses comes before what could not be read,
and an element left open is refused last. -/
def build (scope : Scope) (next : NodeId) (reading : Reading) : Except Error Builder :=
  match (begin next).run scope reading.events with
  | .error e => .error e
  | .ok b =>
    match reading.fault, b.opened with
    | some e, _ => .error e
    | none, [] => .ok b
    | none, inner :: _ => .error (.unexpectedEnd s!"closing tag </{inner.tag.name}>")

end Builder

namespace Document

/-- The document made of the pieces of a reading. -/
def ofReading (reading : Reading) : Except Error Document :=
  match Builder.build .document 0 reading with
  | .error e => .error e
  | .ok b =>
    match b.top.reverse with
    | .nil => .error .noRoot
    | .cons id node children .nil =>
      .ok ⟨[.single id node children], [], id, b.next, b.declaration⟩
    | _ => .error (.manyRoots none)

/-- Reads a document. -/
def parse (s : String) : Except Error Document := ofReading (Reading.ofString s)

/-- Reads a fragment into new nodes without parents. Answers its top-level nodes. -/
def parseFragment (d : Document) (s : String) : Except Error (List NodeId × Document) :=
  match Builder.build .fragment d.next (Reading.ofString s) with
  | .error e => .error e
  | .ok b =>
    let row := b.top.reverse
    .ok (row.tops.map Prod.fst, d.adopt row.trees b.next)

end Document

end MailMerge.Xml
