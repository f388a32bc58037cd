import MailMerge.Content.Insertion
import MailMerge.Field
import MailMerge.Image.Source
import MailMerge.Placement.Drawing

/-!
# Replacement of fields

A field is replaced by content, or removed with the text that it displays. An image field takes only
images, and stays in its place when it is removed.
-/

namespace MailMerge.Field

open Xml

/-- Puts content in the place of the text displayed below a node. -/
def replaceDisplay (convert? : Option Converter) (x : NodeId) (content : Content) :
    Merge Unit := do
  let d ← Merge.document
  match display? d x with
  | none => return ()
  | some display =>
    content.insert convert? (d.ancestor? x "w:p") display
    Merge.edit (·.detach display)

/-- Gives a node that displays nothing an empty run. -/
def ensureDisplay (x : NodeId) : Merge Unit := do
  if (display? (← Merge.document) x).isNone then
    let run ← Merge.create (·.createElement "w:r")
    let text ← Merge.create (·.createElement "w:t")
    Merge.move (·.appendChild run text)
    Merge.move (·.appendChild x run)

/-- Places an image in a drawing, under a new identifier. -/
def placeImage (drawing : NodeId) (picture : Picture) : Merge Unit := do
  let size ← ofExcept picture.size
  let id ← Merge.addImage picture
  Merge.edit fun d =>
    let linked :=
      match d.find? drawing "a:blip" with
      | none => d
      | some blip => d.setAttribute blip "r:embed" id
    Placement.apply linked drawing size

/-- Puts content in the place of the text that a field displays, and takes the field out. -/
def replace (convert? : Option Converter) (field : Field) (content : Content) : Merge Unit := do
  match field.shape with
  | .simple x =>
    ensureDisplay x
    replaceDisplay convert? x content
    Merge.edit (·.unwrap x)
  | .complex first others after =>
    if let some x := after then
      replaceDisplay convert? x content
    Merge.edit (·.detachAll ((first :: others).filter fun x => some x ≠ after))
  | .image drawing =>
    match content with
    | .image picture => placeImage drawing picture
    | _ => return ()

/-- Takes a field out with the text that it displays. -/
def remove (field : Field) (d : Document) : Document :=
  match field.shape with
  | .simple x => d.detach x
  | .complex first others _ => d.detachAll (first :: others)
  | .image _ => d

end MailMerge.Field
