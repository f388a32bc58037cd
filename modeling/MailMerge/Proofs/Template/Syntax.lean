import MailMerge.Proofs.Xml.Bare
import MailMerge.Statement.Evaluation

/-!
# Templates and what they mean

A template is a row of elements: elements that stay as they are, paragraphs that display values, and
blocks between two paragraphs. It is written as a row without identities, and in a context it means
another such row, which is said by recursion over the template. `meaning` is the reference for
rendering.
-/

namespace MailMerge

open Xml

/-! ## Markup of fields -/

namespace Xml.Forest

/-- Some node of the row satisfies a condition. -/
def holds (p : Node → Bool) (f : Forest) : Bool := (f.nodes.map Prod.snd).any p

/-- The first sibling that holds a node with a property is the last one. -/
def holdsLast (p : Node → Bool) : Forest → Bool
  | nil => false
  | cons id node children rest =>
    if (single id node children).holds p then rest.tops.isEmpty else rest.holdsLast p

/-- The name of the first picture of the row is an expression. -/
def displaysPicture (f : Forest) : Bool :=
  ((((f.nodes.map Prod.snd).find? (·.isNamed "pic:cNvPr")).bind (·.attribute? "name")).map
    Text.trim).any (·.toList.head? == some '=')

/-- No field begins in the row. -/
def fieldless : Forest → Bool
  | nil => true
  | cons _ node children rest =>
    !node.isNamed "w:fldSimple" && !Field.isMarker "begin" node &&
      !(node.isNamed "w:drawing" && children.displaysPicture) &&
      children.fieldless && rest.fieldless

/-- Exactly one field begins in the row, at one of the siblings. -/
def opensBelow : Forest → Bool
  | nil => false
  | cons id node children rest =>
    if Field.isMarker "begin" node then children.fieldless && rest.fieldless
    else (single id node children).fieldless && rest.opensBelow

/-- A field begins right below the first sibling, which is a run, and nowhere else. -/
def opens : Forest → Bool
  | nil => false
  | cons _ node children rest =>
    node.isNamed "w:r" && children.opensBelow && rest.fieldless

/-- The texts of the elements of a name, in document order. -/
def textsOf (name : String) : Forest → List String
  | nil => []
  | cons _ node children rest =>
    (if node.isNamed name then [node.characters ++ children.text] else []) ++
      (children.textsOf name ++ rest.textsOf name)

/-- The instruction texts below the siblings of a row. -/
def instructions : Forest → List String
  | nil => []
  | cons _ _ children rest => children.textsOf "w:instrText" ++ rest.instructions

end Xml.Forest

namespace Template

/-- The run that displays a field: a text after what says how it looks. -/
structure DisplayRun where
  tag : Element
  look : Forest
  display : Element
  shown : Forest
  isRun : tag.name = "w:r"
  isText : display.name = "w:t"
  isFirst : look.holds (·.isNamed "w:t") = false
  quietLook : look.fieldless = true
  quietShown : shown.fieldless = true

namespace DisplayRun

/-- The run with a row in the place of its text. -/
def around (run : DisplayRun) (row : Forest) : Forest :=
  .single 0 (.element run.tag) (run.look ++ row)

/-- The run as it is written. -/
def forest (run : DisplayRun) : Forest :=
  run.around (.single 0 (.element run.display) run.shown)

/-- The node for a piece of text, made after the text that was displayed. -/
def piece (run : DisplayRun) (cs : List Char) : Forest :=
  if cs.any Content.isBreak then .single 0 (.element ⟨"w:br", []⟩) .nil
  else
    let tag :=
      if Content.hasBlankEnd cs then run.display.setAttribute "xml:space" "preserve"
      else run.display
    .single 0 (.element tag) (.single 0 (.text (String.ofList cs)) .nil)

/-- The run when it displays another text. -/
def filled (run : DisplayRun) (s : String) : Forest :=
  run.around (.join ((Content.pieces s).map run.piece))

end DisplayRun

/-- The runs of a complex field: those up to the separator, the one that displays it, and those up
to its end. -/
structure FieldRuns where
  opening : Forest
  run : DisplayRun
  closing : Forest
  opens : opening.opens = true
  separated : opening.holdsLast (Field.isMarker "separate") = true
  unended : (opening ++ run.forest).holds (Field.isMarker "end") = false
  ended : closing.holdsLast (Field.isMarker "end") = true
  quiet : closing.fieldless = true
  elements : (opening ++ closing).tops.all (·.2.isElement) = true

/-- The runs as they are written. -/
def FieldRuns.forest (runs : FieldRuns) : Forest :=
  runs.opening ++ (runs.run.forest ++ runs.closing)

/-- The markup of a field with a directive, simple or complex. -/
inductive FieldMarkup (directive : String) where
  /-- An element with the instruction around the displaying run. -/
  | simple (tag : Element) (run : DisplayRun) (isField : tag.name = "w:fldSimple")
      (states : Field.directive ((tag.attribute? "w:instr").getD "") = directive)
  /-- A row of runs. -/
  | complex (runs : FieldRuns)
      (states : Field.directive (String.join runs.forest.instructions) = directive)

namespace FieldMarkup

variable {directive : String}

/-- The field as it is written. -/
def forest : FieldMarkup directive → Forest
  | simple tag run _ _ => .single 0 (.element tag) run.forest
  | complex runs _ => runs.forest

/-- The run that displays the field. -/
def run : FieldMarkup directive → DisplayRun
  | simple _ run _ _ => run
  | complex runs _ => runs.run

end FieldMarkup

/-- A paragraph with one field. -/
structure Marker (directive : String) where
  tag : Element
  before : Forest
  field : FieldMarkup directive
  after : Forest
  isParagraph : tag.name = "w:p"
  quietBefore : before.fieldless = true
  quietAfter : after.fieldless = true

namespace Marker

variable {directive : String}

/-- The paragraph with a row in the place of its field. -/
def around (marker : Marker directive) (row : Forest) : Forest :=
  .single 0 (.element marker.tag) (marker.before ++ (row ++ marker.after))

/-- The paragraph as it is written. -/
def forest (marker : Marker directive) : Forest := marker.around marker.field.forest

end Marker

/-- A word of a directive, without the characters that part the words. -/
structure Word where
  text : String
  nonempty : text ≠ ""
  unparted : ∀ c ∈ text.toList, c ∉ [' ', ':', '(', ')', '=']

/-- What opens a block. -/
inductive Head where
  /-- A loop over a list, which binds each item to a name. -/
  | loop (path name : Word)
  /-- A condition on a value, or on the answer to a question put to it. -/
  | condition (path : Word) (question? : Option Word)
  /-- A comment. -/
  | comment

namespace Head

/-- The directive that opens the block. -/
def opening : Head → Opening
  | loop path name => .each path.text name.text
  | condition path question? => .condition path.text (question?.map Word.text)
  | comment => .comment

/-- The text of the directive. -/
def text : Head → String
  | loop path name => path.text ++ ":each(" ++ name.text ++ ")"
  | condition path none => path.text ++ ":if"
  | condition path (some question) => path.text ++ ":if(" ++ question.text ++ ")"
  | comment => "comment"

/-- The contexts in which the body of the block is repeated: one for each item of a list, and the
given one for a true condition. -/
def contexts (context : Context) : Head → Except MergeError (List Context)
  | loop path name => do
    let list := Expression.parse path.text
    match ← list.evaluate? context with
    | some (.list items) => return items.map (context.bind name.text)
    | other => throw (.notEnumerable list.toText (other.getD .null).describe)
  | condition path question? => do
    let value ← (Expression.parse path.text).evaluate? context
    let deciding ←
      match question? with
      | none => pure value
      | some question => (value.getD .null).dispatch? question.text
    return if deciding.any Value.isTruthy then [context] else []
  | comment => return []

end Head

end Template

open Template in
/-- A row of elements and blocks. -/
inductive Template where
  /-- The end of the row. -/
  | nil
  /-- An element without fields. -/
  | still (tag : Element) (children : Forest)
      (quiet : (Forest.single 0 (.element tag) children).fieldless = true) (rest : Template)
  /-- A paragraph that displays a value. -/
  | insertion (path : Word) (marker : Marker ("=" ++ path.text)) (rest : Template)
  /-- A block between two paragraphs. -/
  | block (head : Head) (start : Marker head.text) (body : Template)
      (stop : Marker head.opening.endText) (rest : Template)

namespace Template

/-- The template as it is written. -/
def forest : Template → Forest
  | nil => .nil
  | still tag children _ rest => .single 0 (.element tag) children ++ rest.forest
  | insertion _ marker rest => marker.forest ++ rest.forest
  | block _ start body stop rest => start.forest ++ (body.forest ++ (stop.forest ++ rest.forest))

/-- What a paragraph becomes that displays a value: an absent or false value leaves no field. -/
def display {directive : String} (marker : Marker directive) :
    Option Value → Except MergeError Forest
  | none | some (.bool false) => .ok (marker.around .nil)
  | some value =>
    match value.toText? with
    | some s => .ok (marker.around (marker.field.run.filled s))
    | none => .error (.unsupportedContent value.describe)

/-- What a template means in a context, or why it means nothing there: a value has no text, what a loop
is about is no list, or a path asks for a number that is too large. -/
def meaning : Template → Context → Except MergeError Forest
  | nil, _ => .ok .nil
  | still tag children _ rest, context => do
    return .single 0 (.element tag) children ++ (← rest.meaning context)
  | insertion path marker rest, context => do
    let paragraph ← display marker (← (Expression.parse path.text).evaluate? context)
    return paragraph ++ (← rest.meaning context)
  | block head _ body _ rest, context => do
    let rows ← (← head.contexts context).mapM fun inner => body.meaning inner
    return Forest.join rows ++ (← rest.meaning context)

end Template

end MailMerge
