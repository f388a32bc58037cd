import MailMerge.Xml.Document.Edit

/-!
# Clean-up of a rendered part

Every table cell needs a paragraph, and the section of the body may get a first page number, which
has its place among the properties of the section.
-/

namespace MailMerge.Cleanup

open Xml

/-- Adds a new element at the end of the children of a node. -/
def addChild (d : Document) (parent : NodeId) (name : String) : NodeId × Document :=
  let (x, created) := d.createElement name
  (x, (created.appendChild parent x).getD created)

/-- Gives a cell an empty paragraph, unless it has one. -/
def fillCell (d : Document) (cell : NodeId) : Document :=
  match d.childNamed? cell "w:p" with
  | some _ => d
  | none => (addChild d cell "w:p").2

/-- Gives every table cell without a paragraph an empty one. -/
def fillCells (d : Document) : Document := (d.findAll d.root "w:tc").foldl fillCell d

/-- The properties of a section that come after its page number. -/
def laterProperties : List String :=
  ["w:cols", "w:formProt", "w:vAlign", "w:noEndnote", "w:titlePg", "w:textDirection", "w:bidi",
    "w:rtlGutter", "w:docGrid", "w:printerSettings", "w:sectPrChange"]

/-- The properties of the last section of a body; new ones are added at its end. -/
def lastSection (d : Document) (body : NodeId) : NodeId × Document :=
  match (d.elementChildren body).filter (d.isNamed · "w:sectPr") |>.getLast? with
  | some x => (x, d)
  | none => addChild d body "w:sectPr"

/-- The first property of a section that comes after the page number. -/
def laterProperty? (d : Document) (properties : NodeId) : Option NodeId :=
  (d.elementChildren properties).find? fun x => laterProperties.any (d.isNamed x ·)

/-- The page number among the properties of a section; a new one is added in its place. -/
def pageNumber (d : Document) (properties : NodeId) : NodeId × Document :=
  match d.childNamed? properties "w:pgNumType" with
  | some x => (x, d)
  | none =>
    match laterProperty? d properties with
    | none => addChild d properties "w:pgNumType"
    | some later =>
      let (x, created) := d.createElement "w:pgNumType"
      (x, (created.insertBefore later x).getD created)

/-- Sets the first page number of the body, if there is a body. -/
def setStartPage (n : Nat) (d : Document) : Document :=
  match d.childNamed? d.root "w:body" with
  | none => d
  | some body =>
    let (properties, d) := lastSection d body
    let (x, d) := pageNumber d properties
    d.setAttribute x "w:start" (toString n)

end MailMerge.Cleanup
