import MailMerge.FileFault
import MailMerge.Xml.Error

/-!
# Why a merge fails

Every failure of reading a template, of building its context and of rendering it, with its wording.
-/

namespace MailMerge

/-- Why a merge fails. -/
inductive MergeError where
  /-- The markup of a part or of inserted content is unreadable. -/
  | xml (cause : Xml.Error)
  /-- The data are no context. -/
  | invalidContext (found : String)
  /-- A block is opened but not closed. -/
  | unmatchedBlock (start expectedEnd : String)
  /-- The source of a loop is no list. -/
  | notEnumerable (expression value : String)
  /-- The target of a call cannot be called. -/
  | notCallable (expression value : String)
  /-- An argument is neither a literal nor an expression. -/
  | invalidCallArgument (argument : String)
  /-- A value cannot be content. -/
  | unsupportedContent (value : String)
  /-- Bytes do not begin like an image. -/
  | notAnImage
  /-- The bytes of a file do not begin like an image. -/
  | notAnImageFile (path : String)
  /-- The header of an image is unreadable. -/
  | unreadableImage
  /-- A callable or a converter has failed. -/
  | callback (message : String)
  /-- A file cannot be read. -/
  | io (fault : FileFault)
  /-- A node was to be moved below or next to itself or a node below it. -/
  | misplacedNode
  /-- A number is too large for its type. -/
  | overflow
  /-- Blocks are nested deeper than a render follows them. -/
  | nestedTooDeep
deriving DecidableEq, Repr

namespace MergeError

/-- The program ends with such a failure at once. -/
def endsProgram : MergeError → Bool
  | misplacedNode | overflow => true
  | _ => false

/-- The wording of a failure. -/
def message : MergeError → String
  | xml cause => "XML error: " ++ cause.message
  | invalidContext found => "Invalid context: expected a JSON object, found " ++ found
  | unmatchedBlock start expectedEnd =>
    s!"Could not find end field for «{start}». Was looking for «{expectedEnd}»"
  | notEnumerable expression value =>
    s!"The expression «{expression}» should evaluate to an enumerable but was: {value}"
  | notCallable expression value =>
    s!"The expression «{expression}» should evaluate to a callable but was: {value}"
  | invalidCallArgument argument => "Invalid call argument: " ++ argument
  | unsupportedContent value => "Could not find content type to wrap " ++ value
  | notAnImage => "Image error: data is not a recognised image format"
  | notAnImageFile path => s!"Image error: {path} is not a recognised image"
  | unreadableImage => "Image error: the header cannot be read"
  | callback text => text
  | io fault => "I/O error: " ++ fault.message
  | misplacedNode => "A node cannot be moved below or next to itself"
  | overflow => "A number is too large"
  | nestedTooDeep => "The blocks of the part are nested too deep"

/-- The wording of a failure, and of the one that it comes from. -/
def causes (e : MergeError) : List String :=
  match e with
  | xml cause => [e.message, cause.message]
  | io fault => [e.message, fault.message]
  | _ => [e.message]

end MergeError

end MailMerge
