import MailMerge.Image.Png
import MailMerge.Image.Gif
import MailMerge.Image.Bmp
import MailMerge.Image.Jpeg

/-!
# Images

An image is a sequence of bytes that begins with the mark of one of four formats. Its size is only
known after its header has been read, which can fail.
-/

namespace MailMerge

/-- The image formats that can be placed. -/
inductive ImageFormat where
  /-- Portable network graphics. -/
  | png
  /-- Joint photographic experts group. -/
  | jpeg
  /-- Windows bitmap. -/
  | bmp
  /-- Graphics interchange format. -/
  | gif
deriving DecidableEq, Repr

namespace ImageFormat

/-- The part of the media type after `image/`, which is the file extension, too. -/
def extension : ImageFormat → String
  | png => "png"
  | jpeg => "jpeg"
  | bmp => "bmp"
  | gif => "gif"

/-- The media type. -/
def mediaType (format : ImageFormat) : String := "image/" ++ format.extension

/-- The bytes at offset 60 that make a file an electronic book, whatever it begins with. -/
def bookMark : Image.Bytes := [0x42, 0x4F, 0x4F, 0x4B, 0x4D, 0x4F, 0x42, 0x49]

/-- The format told by the first bytes. -/
def ofBytes? (bs : Image.Bytes) : Option ImageFormat :=
  if (bs.drop 60).take 8 = bookMark then none
  else
    match bs with
    | 0xFF :: 0xD8 :: 0xFF :: _ => some jpeg
    | 0x89 :: 0x50 :: 0x4E :: 0x47 :: _ => some png
    | 0x47 :: 0x49 :: 0x46 :: _ => some gif
    | 0x42 :: 0x4D :: _ => some bmp
    | _ => none

end ImageFormat

/-- A sequence of bytes that begins like an image. -/
structure Picture where
  bytes : Image.Bytes
  format : ImageFormat
  recognised : ImageFormat.ofBytes? bytes = some format
deriving DecidableEq

/-- The size of an image in pixels. -/
structure ImageSize where
  width : Nat
  height : Nat
deriving DecidableEq, Repr

namespace Picture

/-- The bytes as an image, if their beginning is that of one. -/
def ofBytes? (bytes : Image.Bytes) : Option Picture :=
  match h : ImageFormat.ofBytes? bytes with
  | none => none
  | some format => some ⟨bytes, format, h⟩

/-- Reads the size from the header. -/
def size? (picture : Picture) : Option ImageSize :=
  let size := match picture.format with
    | .png => Image.Png.size? picture.bytes
    | .jpeg => Image.Jpeg.size? picture.bytes
    | .bmp => Image.Bmp.size? picture.bytes
    | .gif => Image.Gif.size? picture.bytes
  size.map fun (width, height) => ⟨width, height⟩

end Picture

end MailMerge
