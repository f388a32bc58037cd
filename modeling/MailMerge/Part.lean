import MailMerge.FieldCache
import MailMerge.Options
import MailMerge.Part.Cleanup
import MailMerge.Rendering

/-!
# Parts

A part is a document that is rendered as a whole. Its fields can come from a cache as long as the
document is what its text says. Only the main part of a package is cleaned up after rendering.
-/

namespace MailMerge

open Xml

/-- The role of a part in a package. -/
inductive PartKind where
  /-- The main part. -/
  | document
  /-- A header or a footer. -/
  | headerFooter
deriving DecidableEq, Repr, Inhabited

/-- A part, with its text as long as the document has not been changed. -/
structure Part where
  kind : PartKind
  document : Document
  source? : Option String
deriving Inhabited

namespace Part

/-- Reads a part. -/
def parse (kind : PartKind) (text : String) : Except MergeError Part :=
  match Document.parse text with
  | .ok d => .ok ⟨kind, d, some text⟩
  | .error e => .error (.xml e)

/-- The part when its document may have been changed. -/
def touched (part : Part) : Part := { part with source? := none }

/-- The fields of a part, in document order. A cache is asked only for an unchanged part. -/
def fields (part : Part) (cache? : Option FieldCache) : List Field × Option FieldCache :=
  match cache?, part.source? with
  | some cache, some source =>
    let (found, cache) := cache.discover source part.document
    (found, some cache)
  | _, _ => (Field.discover part.document part.document.root, cache?)

/-- The written form of a part. -/
def markup (part : Part) : String := part.document.markup

end Part

/-- A part that is being rendered, with the registries that the parts of a package share, and the
cache if there is one. -/
structure Session where
  part : Part
  resources : Resources := []
  numbering : Numbering := {}
  cache? : Option FieldCache := none
deriving Inhabited

namespace Session

/-- What is done to a part after its directives. -/
def cleanUp (kind : PartKind) (startPage? : Option Nat) (d : Document) : Document :=
  match kind, startPage? with
  | .headerFooter, _ => d
  | .document, none => Cleanup.fillCells d
  | .document, some n => Cleanup.setStartPage n (Cleanup.fillCells d)

/-- The session when its part has been changed. -/
def after (s : Session) (cache? : Option FieldCache) (w : Workspace) : Session :=
  { part := { s.part with document := w.document, source? := none }
    resources := w.resources
    numbering := w.numbering
    cache? }

/-- Renders the part. A failure leaves it partly rendered, and not cleaned up. -/
def render (host : Host) (context : Context) (startPage? : Option Nat) :
    EStateM MergeError Session Unit := fun s =>
  let (fields, cache?) := s.part.fields s.cache?
  let step : Merge Unit := do
    Rendering.renderFields host context fields
    Merge.edit (cleanUp s.part.kind startPage?)
  match step ⟨s.part.document, s.resources, s.numbering⟩ with
  | .ok () w => .ok () (s.after cache? w)
  | .error e w => .error e (s.after cache? w)

end Session

end MailMerge
