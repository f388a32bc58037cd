import MailMerge.Image.Basic
import MailMerge.MergeError

/-!
# Where images come from

The bytes of an image are given directly or read from a file. Bytes that do not begin like an image
are refused.
-/

namespace MailMerge.Picture

/-- The image with the given bytes. -/
def ofBytes (bytes : Image.Bytes) : Except MergeError Picture :=
  match ofBytes? bytes with
  | some picture => .ok picture
  | none => .error .notAnImage

/-- The image in a file, whose content is given if the file exists. -/
def ofFile (path : String) (content? : Option Image.Bytes) : Except MergeError Picture :=
  match content? with
  | none => .error (.io .missing)
  | some bytes =>
    match ofBytes? bytes with
    | some picture => .ok picture
    | none => .error (.notAnImageFile path)

/-- The size of an image, if its header can be read. -/
def size (picture : Picture) : Except MergeError ImageSize :=
  match picture.size? with
  | some size => .ok size
  | none => .error .unreadableImage

end MailMerge.Picture
