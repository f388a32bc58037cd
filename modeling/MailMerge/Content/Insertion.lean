import MailMerge.Content
import MailMerge.Text.Blank
import MailMerge.Workspace

/-!
# Insertion of content

Content is put next to the node that displays a field. Block content takes the place of the whole
paragraph, if there is one. The displaying node itself stays; whoever inserts the content takes it
out afterwards.
-/

namespace MailMerge.Content

open Xml

/-- A line break. -/
def isBreak (c : Char) : Bool := c = '\n' ∨ c = '\r'

/-- Cuts a text into its longest pieces of line breaks and of other characters. -/
def pieces (s : String) : List (List Char) :=
  s.toList.splitBy fun a b => isBreak a == isBreak b

/-- Blanks at an end of a text have to be kept explicitly. -/
def hasBlankEnd (cs : List Char) : Bool :=
  cs.head?.any Text.isBlank || cs.getLast?.any Text.isBlank

/-- Makes a copy of the displaying node with another text. -/
def displayCopy (display : NodeId) (cs : List Char) : Merge NodeId := do
  let x ← Merge.create (·.copy display)
  Merge.edit (·.setText x (String.ofList cs))
  if hasBlankEnd cs then
    Merge.edit (·.setAttribute x "xml:space" "preserve")
  return x

/-- Makes the node for a piece of text: line breaks, however many, become one break element. -/
def pieceNode (display : NodeId) (cs : List Char) : Merge NodeId :=
  if cs.any isBreak then Merge.create (·.createElement "w:br") else displayCopy display cs

/-- Puts the nodes for a text after the displaying node. -/
def insertText (display : NodeId) (s : String) : Merge Unit :=
  (pieces s).reverse.forM fun cs => do
    let x ← pieceNode display cs
    Merge.move (·.insertAfter display x)

/-- Puts markup in the place of the paragraph, or after the displaying node where there is none. -/
def insertBlock (paragraph? : Option NodeId) (display : NodeId) (markup : String) : Merge Unit :=
  match paragraph? with
  | some paragraph => do
    Merge.insertMarkupAfter paragraph markup
    Merge.edit (·.detach paragraph)
  | none => Merge.insertMarkupAfter display markup

/-- Puts markup after the displaying node. -/
def insertInline (display : NodeId) (markup : String) : Merge Unit :=
  Merge.insertMarkupAfter display markup

/-- Puts markup in the place of the run around the displaying node, or of that node itself. -/
def replaceRun (display : NodeId) (markup : String) : Merge Unit := do
  let anchor := ((← Merge.document).ancestor? display "w:r").getD display
  Merge.insertMarkupAfter anchor markup
  Merge.edit (·.detach anchor)

/-- Inserts content. HTML needs a converter, and an image is not inserted next to a text. -/
def insert (convert? : Option Converter) (paragraph? : Option NodeId) (display : NodeId) :
    Content → Merge Unit
  | text s => insertText display s
  | wordMl markup => insertBlock paragraph? display markup
  | inlineWordMl markup true => replaceRun display markup
  | inlineWordMl markup false => insertInline display markup
  | html source styles =>
    match convert? with
    | none => throw (.unsupportedContent "HTML content (no HTML converter configured)")
    | some convert => do
      let markup ← Merge.onNumbering (convert source styles)
      insertBlock paragraph? display markup
  | image _ => return ()

end MailMerge.Content
