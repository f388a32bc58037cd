import MailMerge.Image.Basic

/-!
# Content

What can be put in the place of a field. Values that are content already are inserted as they are;
this is how markup, HTML and images get into a part.
-/

namespace MailMerge

/-- Content for the place of a field. -/
inductive Content where
  /-- Plain text, in which line breaks become break elements. -/
  | text (content : String)
  /-- Markup that takes the place of the paragraph. -/
  | wordMl (markup : String)
  /-- Markup that is put next to the displayed text, or in the place of the run around it. -/
  | inlineWordMl (markup : String) (replaceRun : Bool)
  /-- HTML for a converter, with styles in the form that the converter knows. -/
  | html (source : String) (styles : Option String)
  /-- An image for a picture placeholder. -/
  | image (picture : Picture)
deriving DecidableEq

namespace Content

/-- The name of the kind of content in messages. -/
def kindName : Content → String
  | text _ => "text"
  | wordMl _ => "word_ml"
  | inlineWordMl _ _ => "inline_word_ml"
  | html _ _ => "html"
  | image _ => "image"

end Content

end MailMerge
