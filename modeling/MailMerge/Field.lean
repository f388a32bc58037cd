import MailMerge.Text.Blank
import MailMerge.Text.Pattern
import MailMerge.Xml.Document

/-!
# Fields

A field is a marker in a part that can carry a directive. There are three shapes. A simple field is
one element with an instruction. A complex field is a row of runs from a begin marker to an end
marker, between which stand the instruction, a separator and the displayed text. An image field is a
drawing whose picture is named after an expression.
-/

namespace MailMerge

open Xml

/-- The shape of a field, with its nodes. -/
inductive FieldShape where
  /-- A single element. -/
  | simple (node : NodeId)
  /-- A row of runs and the node after the separator, which holds the displayed text. -/
  | complex (first : NodeId) (others : List NodeId) (display? : Option NodeId)
  /-- A drawing. -/
  | image (drawing : NodeId)
deriving DecidableEq, Repr

/-- The names of the shapes. -/
inductive FieldKind where
  /-- A single element. -/
  | simple
  /-- A row of runs. -/
  | complex
  /-- A drawing. -/
  | image
deriving DecidableEq, Repr

/-- A field with its instruction as written and the directive in it, which is empty if there is
none. -/
structure Field where
  shape : FieldShape
  instruction : String
  expression : String
deriving DecidableEq, Repr

/-- The kind of a shape. -/
def FieldShape.kind : FieldShape → FieldKind
  | simple _ => .simple
  | complex _ _ _ => .complex
  | image _ => .image

namespace Field

/-! ## What an instruction says -/

/-- The form of an instruction with a directive. -/
def instructionPattern : List Text.Part :=
  [.any Text.isBlank, .exactly "MERGEFIELD", .some Text.isBlank, .keep (· ≠ ' '),
    .some Text.isBlank, .exactly "\\*", .some Text.isBlank, .exactly "MERGEFORMAT",
    .any Text.isBlank]

/-- The directive in an instruction. -/
def directive (instruction : String) : String :=
  match Text.match? instructionPattern instruction with
  | some [found] => found
  | _ => ""

/-- The directive in the name of a picture: an equals sign and all up to the first space. -/
def pictureDirective (name : String) : String :=
  match name.toList with
  | '=' :: rest =>
    match rest.takeWhile (· ≠ ' ') with
    | [] => ""
    | found => String.ofList ('=' :: found)
  | _ => ""

/-! ## What nodes hold -/

/-- The name of the first picture below a drawing. -/
def pictureName? (d : Document) (drawing : NodeId) : Option String :=
  (d.find? drawing "pic:cNvPr").bind (d.attribute? · "name")

/-- A node is a field marker of the given type. -/
def isMarker (kind : String) (node : Node) : Bool :=
  node.isNamed "w:fldChar" && node.attribute? "w:fldCharType" == some kind

/-- A field marker of the given type stands at or below a node. -/
def holdsMarker (d : Document) (kind : String) (x : NodeId) : Bool :=
  (d.tree x).nodes.any fun (_, node) => isMarker kind node

/-- The node that displays text: the first `w:t` below a node, or else the first `w:instrText`. -/
def display? (d : Document) (x : NodeId) : Option NodeId :=
  (d.find? x "w:t").or (d.find? x "w:instrText")

/-! ## Fields from nodes -/

/-- The simple field of a node. -/
def ofSimple (d : Document) (x : NodeId) : Field :=
  let instruction := (d.attribute? x "w:instr").getD ""
  ⟨.simple x, instruction, directive instruction⟩

/-- The instruction in a row of runs: their instruction texts, joined. -/
def joinedInstruction (d : Document) (nodes : List NodeId) : String :=
  String.join ((nodes.flatMap (d.findAll · "w:instrText")).map d.text)

/-- The node after the first run that holds the separator. -/
def afterSeparator? (d : Document) (nodes : List NodeId) : Option NodeId :=
  (nodes.find? (holdsMarker d "separate")).bind d.nextElement?

/-- The complex field of a row of runs. It carries a directive only if some text is displayed. -/
def ofRuns (d : Document) (first : NodeId) (others : List NodeId) : Field :=
  let nodes := first :: others
  let instruction := joinedInstruction d nodes
  let after := afterSeparator? d nodes
  let expression := if (after.bind (display? d)).isSome then directive instruction else ""
  ⟨.complex first others after, instruction, expression⟩

/-- The image field of a drawing. -/
def ofDrawing (d : Document) (drawing : NodeId) : Field :=
  let name := Text.trim ((pictureName? d drawing).getD "")
  ⟨.image drawing, name, pictureDirective name⟩

/-- The field of the given kind over known nodes; there must be at least one. -/
def ofNodes? (d : Document) (kind : FieldKind) : List NodeId → Option Field
  | [] => none
  | first :: others =>
    some <| match kind with
      | .simple => ofSimple d first
      | .complex => ofRuns d first others
      | .image => ofDrawing d first

/-! ## Parts of a field -/

/-- The kind of a field. -/
def kind (field : Field) : FieldKind := field.shape.kind

/-- The first node of a field. -/
def start (field : Field) : NodeId :=
  match field.shape with
  | .simple x | .image x => x
  | .complex first _ _ => first

/-- The nodes of a field, in document order. -/
def nodes (field : Field) : List NodeId :=
  match field.shape with
  | .simple x | .image x => [x]
  | .complex first others _ => first :: others

/-- The last node of a field. -/
def stop (field : Field) : NodeId := field.nodes.getLastD field.start

/-- A field carries a directive. -/
def isValid (field : Field) : Bool := !field.expression.isEmpty

/-- The directive in the form in which a field displays it. -/
def label (field : Field) : String := s!"«{field.expression}»"

/-- The nearest element of the given name around the first node of a field. -/
def ancestor? (d : Document) (field : Field) (name : String) : Option NodeId :=
  d.ancestor? field.start name

/-! ## Discovery -/

/-- The runs of the complex field that begins at a run: the siblings up to the first that holds an
end marker, or all of them. -/
def runsAfter (d : Document) (first : NodeId) : List NodeId :=
  if holdsMarker d "end" first then []
  else
    let siblings := d.followingElements first
    let before := siblings.takeWhile fun x => !holdsMarker d "end" x
    before ++ (siblings.drop before.length).take 1

/-- The field that a node begins, if it begins one. -/
def ofNode? (d : Document) (x : NodeId) (node : Node) : Option Field :=
  if node.isNamed "w:fldSimple" then some (ofSimple d x)
  else if isMarker "begin" node then
    (d.parent? x).map fun first => ofRuns d first (runsAfter d first)
  else if node.isNamed "w:drawing" &&
      ((pictureName? d x).map Text.trim).any (·.toList.head? == some '=') then
    some (ofDrawing d x)
  else none

/-- The fields at and below a node that carry a directive, in document order. -/
def discover (d : Document) (x : NodeId) : List Field :=
  (d.tree x).nodes.filterMap fun (y, node) => (ofNode? d y node).filter isValid

end Field

end MailMerge
