import MailMerge.Decimal.Literal
import MailMerge.Placement
import MailMerge.Xml.Document.Edit

/-!
# Placement in a drawing

The first `wp:extent` below a drawing declares the frame, the description of the first `pic:cNvPr`
the sizing. A drawing without a frame of positive size is left alone. The extent of the image is
written where the frame was declared and to the transformation, and what is cut off to the rectangle
that follows the image reference.
-/

namespace MailMerge.Placement

open Xml

/-- The extent that an element declares, if both of its sides are positive. -/
def declaredExtent? (d : Document) (x : NodeId) : Option Extent := do
  let cx ← Decimal.integer? (← d.attribute? x "cx").toList
  let cy ← Decimal.integer? (← d.attribute? x "cy").toList
  if 0 < cx ∧ 0 < cy then some ⟨cx, cy⟩ else none

/-- The sizing that the description of the picture asks for. -/
def sizing (d : Document) (drawing : NodeId) : Sizing :=
  match (d.find? drawing "pic:cNvPr").bind (d.attribute? · "descr") with
  | none => .fit
  | some description => Sizing.parse description

/-- Writes an extent to an element. -/
def writeExtent (extent : Extent) (d : Document) (x : NodeId) : Document :=
  (d.setAttribute x "cx" (toString extent.cx)).setAttribute x "cy" (toString extent.cy)

/-- Writes how much is cut off at a side; nothing is written for zero. -/
def writeSide (d : Document) (x : NodeId) (side : String × Int) : Document :=
  if side.2 = 0 then d.removeAttribute x side.1 else d.setAttribute x side.1 (toString side.2)

/-- The rectangle that follows the image reference; a new one is added where there is none. -/
def rectangle (d : Document) (blip : NodeId) : NodeId × Document :=
  match (d.nextElement? blip).filter (d.isNamed · "a:srcRect") with
  | some x => (x, d)
  | none =>
    let (x, created) := d.createElement "a:srcRect"
    (x, (created.insertAfter blip x).getD created)

/-- Writes what is cut off to the rectangle after the first image reference. -/
def writeCrop (crop : Crop) (d : Document) (drawing : NodeId) : Document :=
  match d.find? drawing "a:blip" with
  | none => d
  | some blip =>
    let (x, d) := rectangle d blip
    [("l", crop.left), ("t", crop.top), ("r", crop.right), ("b", crop.bottom)].foldl
      (writeSide · x) d

/-- Places an image of the given size in a drawing. -/
def apply (d : Document) (drawing : NodeId) (size : ImageSize) : Document :=
  match d.find? drawing "wp:extent" with
  | none => d
  | some x =>
    match declaredExtent? d x with
    | none => d
    | some frame =>
      let use := sizing d drawing
      let placed := extent frame size use
      let resized := writeExtent placed d x
      let transformed :=
        match (resized.find? drawing "a:xfrm").bind (resized.find? · "a:ext") with
        | none => resized
        | some ext => writeExtent placed resized ext
      match use with
      | .rect horizontal vertical =>
        writeCrop (crop frame size horizontal vertical) transformed drawing
      | _ => transformed

end MailMerge.Placement
