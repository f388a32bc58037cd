import MailMerge.Resources
import MailMerge.Xml.Document.Edit

/-!
# Relationships and content types in markup

The resources of a part are read from the markup of its relationships, and the images placed by the
merge are added there. A package also has to declare the media types of the images in it.
-/

namespace MailMerge

open Xml

namespace Resources

/-- The kind of the relationship between a part and an image. -/
def imageRelationship : String :=
  "http://schemas.openxmlformats.org/officeDocument/2006/relationships/image"

/-- The declared relationships: identifiers with the kind and the target of each. -/
def declared (d : Document) : List (String × Resource) :=
  (d.findAll d.root "Relationship").filterMap fun x =>
    (d.attribute? x "Id").map fun id =>
      (id, .relationship ((d.attribute? x "Type").getD "") ((d.attribute? x "Target").getD ""))

/-- Reads the resources that a template declares. Of several with one identifier the last counts. -/
def ofRelationships (d : Document) : Resources := Keyed.ofList (declared d)

/-- Adds a new element with the given attributes at the end of the children of the root. -/
def addToRoot (d : Document) (name : String) (attributes : List Attribute) : Document :=
  let (x, created) := d.create (.element ⟨name, attributes⟩)
  (created.appendChild d.root x).getD d

/-- Adds the relationship of an image. -/
def declareImage (d : Document) (image : String × Picture) : Document :=
  addToRoot d "Relationship" [⟨"Id", image.1⟩, ⟨"Type", imageRelationship⟩,
    ⟨"Target", mediaTarget image.1 image.2⟩]

/-- Adds a relationship for each image that has none yet. -/
def writeRelationships (resources : Resources) (d : Document) : Document :=
  let known := (declared d).map Prod.fst
  (resources.images.filter fun (id, _) => !known.contains id).foldl declareImage d

end Resources

/-! ## Content types -/

namespace ImageFormat

/-- The formats in the order in which they are declared. -/
def all : List ImageFormat := [jpeg, png, bmp, gif]

/-- A child of the root declares the media type of a format. -/
def isDeclared (d : Document) (format : ImageFormat) : Bool :=
  (d.elementChildren d.root).any fun x => d.attribute? x "ContentType" == some format.mediaType

/-- Declares the media type of a format for its extension, unless it is declared already. -/
def declare (d : Document) (format : ImageFormat) : Document :=
  if isDeclared d format then d
  else Resources.addToRoot d "Default" [⟨"Extension", format.extension⟩,
    ⟨"ContentType", format.mediaType⟩]

/-- Declares the media types of all formats. -/
def declareAll (d : Document) : Document := all.foldl declare d

end ImageFormat

end MailMerge
