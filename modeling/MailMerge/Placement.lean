import MailMerge.Image.Basic
import MailMerge.Text.Case
import MailMerge.Text.Blank

/-!
# Placement of images

An image takes the place of a picture in the template, whose extent is the frame of the image. The
words of the picture's description say how the frame is used: an image is scaled to fit into it
(which is the default), or takes its width with the height that follows (`auto`), or is cropped to
its shape (`rect`), where further words choose the part that stays visible.
-/

namespace MailMerge

/-- The size of a shape, in English metric units. -/
structure Extent where
  cx : Int
  cy : Int
deriving DecidableEq, Repr

/-- Which part of a side stays visible. -/
inductive Align where
  /-- The left or upper part. -/
  | first
  /-- The part in the middle. -/
  | center
  /-- The right or lower part. -/
  | last
deriving DecidableEq, Repr

/-- How an image uses its frame. -/
inductive Sizing where
  /-- Scaled to fit into the frame. -/
  | fit
  /-- As wide as the frame. -/
  | auto
  /-- Cropped to the shape of the frame. -/
  | rect (horizontal vertical : Align)
deriving DecidableEq, Repr

/-- How much of an image is cut off at each side, in thousandths of a percent. -/
structure Crop where
  left : Int := 0
  top : Int := 0
  right : Int := 0
  bottom : Int := 0
deriving DecidableEq, Repr

namespace Align

/-- The part chosen by one of two opposite words; neither or both choose the middle. -/
def ofChoice (toFirst toLast : Bool) : Align :=
  match toFirst, toLast with
  | true, false => first
  | false, true => last
  | _, _ => center

/-- Divides what is cut off among the two ends. -/
def divide (cut : Int) : Align → Int × Int
  | first => (0, cut)
  | last => (cut, 0)
  | center => (cut.tdiv 2, cut - cut.tdiv 2)

end Align

namespace Sizing

/-- The words of a description, in lower case. -/
def words (description : String) : List String :=
  (description.toList.splitOnP fun c => Text.isBlank c || c = ',').map fun w =>
    Text.downcase (String.ofList w)

/-- Reads a description. Other words are ignored. -/
def parse (description : String) : Sizing :=
  let found := words description
  if found.contains "rect" then
    rect (.ofChoice (found.contains "left") (found.contains "right"))
      (.ofChoice (found.contains "top") (found.contains "bottom"))
  else if found.contains "auto" then auto
  else fit

end Sizing

namespace Placement

/-- The floating-point number nearest to a whole number of 64 bits. -/
def toReal (n : Int) : Float := (Int64.ofInt n).toFloat

/-- The whole number nearest to a floating-point number, with halves away from zero, and within 64
bits. -/
def rounded (x : Float) : Int := x.round.toInt64.toInt

/-- The smaller of two numbers. -/
def smaller (x y : Float) : Float := if y < x then y else x

/-- The extent of an image in a frame. -/
def extent (frame : Extent) (size : ImageSize) (sizing : Sizing) : Extent :=
  if size.width = 0 ∨ size.height = 0 then frame
  else
    let w := size.width.toUInt64.toFloat
    let h := size.height.toUInt64.toFloat
    match sizing with
    | .rect _ _ => frame
    | .auto => ⟨frame.cx, rounded (toReal frame.cx * h / w)⟩
    | .fit =>
      let scale := smaller (toReal frame.cx / w) (toReal frame.cy / h)
      ⟨rounded (w * scale), rounded (h * scale)⟩

/-- What is cut off an image when a part of the whole is left out. -/
def cut (visible : Float) : Int := rounded ((1.0 - visible) * 100000.0)

/-- What is cut off an image so that it has the shape of the frame. -/
def crop (frame : Extent) (size : ImageSize) (horizontal vertical : Align) : Crop :=
  if size.width = 0 ∨ size.height = 0 ∨ frame.cx ≤ 0 ∨ frame.cy ≤ 0 then {}
  else
    let shape := size.width.toUInt64.toFloat / size.height.toUInt64.toFloat
    let wanted := toReal frame.cx / toReal frame.cy
    if wanted < shape then
      let (left, right) := horizontal.divide (cut (wanted / shape))
      { left, right }
    else if shape < wanted then
      let (top, bottom) := vertical.divide (cut (shape / wanted))
      { top, bottom }
    else {}

end Placement

end MailMerge
