import MailMerge.Image.Bytes

/-!
# Headers of GIF images

A GIF image begins with its version and the size of its screen, and may go on with a table of
colours and extensions. The image counts as readable when a further block begins, be it a picture
or the end of the file.
-/

namespace MailMerge.Image.Gif

open Bytes

/-- The versions of the format. -/
def versions : List Bytes :=
  [[0x47, 0x49, 0x46, 0x38, 0x37, 0x61], [0x47, 0x49, 0x46, 0x38, 0x39, 0x61]]

/-- The kinds of extensions: a plain text, the control of a picture, a comment, and one of an
application. -/
def isExtension (kind : UInt8) : Bool := [0x01, 0xF9, 0xFE, 0xFF].contains kind

/-- Reads sub-blocks up to the empty one; answers the length of the one before it, which is `last`
if there is none, and what follows. -/
def subBlocks? : Nat → UInt8 → Bytes → Option (UInt8 × Bytes)
  | 0, _, _ => none
  | fuel + 1, last, bs =>
    match bs with
    | [] => none
    | length :: rest =>
      if length = 0 then some (last, rest)
      else (skip? length.toNat rest).bind (subBlocks? fuel length)

/-- A block that is no extension begins, with the given kind; `fuel` bounds the number of extensions
before it. The kind takes a byte, and something has to follow it. Only the end of the file can come
last, after an extension. The control of a picture has four bytes in its last sub-block. -/
def reachesBlock : Nat → UInt8 → Bytes → Bool
  | 0, _, _ => false
  | fuel + 1, kind, bs =>
    match bs with
    | [] => false
    | extension :: bs =>
      if kind ≠ 0x21 then true
      else if !isExtension extension then false
      else
        match subBlocks? (bs.length + 1) 0 bs with
        | none => false
        | some (last, bs) =>
          if extension = 0xF9 && last ≠ 4 then false
          else
            match bs with
            | [] => false
            | kind :: bs => kind = 0x3B || reachesBlock fuel kind bs

/-- The width and height of an image. -/
def size? (bs : Bytes) : Option (Nat × Nat) := do
  let (version, bs) ← take? 6 bs
  let (width, bs) ← little? 2 bs
  let (height, bs) ← little? 2 bs
  let (flags, bs) ← big? 1 bs
  let bs ← skip? 2 bs
  let bs ← if flags / 128 = 1 then skip? (3 * (2 <<< (flags % 8))) bs else some bs
  match bs with
  | [] => none
  | kind :: rest =>
    if versions.contains version && reachesBlock (bs.length + 1) kind rest then some (width, height)
    else none

end MailMerge.Image.Gif
