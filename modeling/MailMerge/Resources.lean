import MailMerge.Decimal.Literal
import MailMerge.Image.Basic
import MailMerge.Keyed
import MailMerge.Text.Case

/-!
# Resources of a part

A part refers to other files by relationship identifiers. The resources of a part are the
relationships that its template declares and the images placed by the merge. A new image gets an
identifier of the form `rId7` whose number is above all others.
-/

namespace MailMerge

/-- What a relationship identifier stands for. -/
inductive Resource where
  /-- A relationship that the template declares. -/
  | relationship (kind target : String)
  /-- An image placed by the merge. -/
  | image (picture : Picture)
deriving DecidableEq

/-- The image of a resource that is one. -/
def Resource.picture? : Resource → Option Picture
  | relationship _ _ => none
  | image picture => some picture

/-- What each relationship identifier of a part stands for. -/
abbrev Resources := Keyed Resource

namespace Resources

/-- The number in an identifier: `rId` and decimal digits for an unsigned number of 64 bits. -/
def number? (id : String) : Option Nat :=
  match id.toList with
  | 'r' :: 'I' :: 'd' :: digits => (Decimal.natural? digits).filter (· < Decimal.endOfWords)
  | _ => none

/-- The highest number in an identifier. -/
def highest (resources : Resources) : Nat :=
  (resources.filterMap fun (id, _) => number? id).foldl max 0

/-- The identifier that is written with a number. -/
def idOf (n : Nat) : String := s!"rId{n}"

/-- The identifier that the next image will get, as long as its number fits 64 bits. -/
def nextId? (resources : Resources) : Option String :=
  if resources.highest + 1 < Decimal.endOfWords then some (idOf (resources.highest + 1)) else none

/-- Adds an image under a new identifier. -/
def addImage? (resources : Resources) (picture : Picture) : Option (String × Resources) :=
  resources.nextId?.map fun id => (id, Keyed.insert id (.image picture) resources)

/-- Identifiers without a number come first, the others in the order of their numbers. -/
def precedes (a b : String × Picture) : Bool :=
  match number? a.1, number? b.1 with
  | none, _ => true
  | some _, none => false
  | some m, some n => m ≤ n

/-- The images in the order of the numbers in their identifiers. -/
def images (resources : Resources) : List (String × Picture) :=
  (resources.filterMap fun (id, resource) => resource.picture?.map (id, ·)).mergeSort precedes

/-- Where the file of an image stands, seen from the part. -/
def mediaTarget (id : String) (picture : Picture) : String :=
  s!"media/auto{Text.downcase id}.{picture.format.extension}"

/-- The files of all images, with their paths in the package. -/
def media (resources : Resources) : List (String × Picture) :=
  resources.images.map fun (id, picture) => ("word/" ++ mediaTarget id picture, picture)

end Resources

end MailMerge
