/-!
# What a node of a document holds

An element has a qualified name as written (`w:p`) and attributes in source order. Names are never
resolved to namespaces: office documents use fixed prefixes.
-/

namespace MailMerge.Xml

/-- An attribute with its name as written and its value with all references resolved. -/
structure Attribute where
  name : String
  value : String
deriving DecidableEq, Repr, Inhabited

/-- A qualified name with attributes in source order. -/
structure Element where
  name : String
  attributes : List Attribute := []
deriving DecidableEq, Repr, Inhabited

/-- What a single node holds, apart from its children. -/
inductive Node where
  /-- An element. -/
  | element (tag : Element)
  /-- Character data with all references resolved. -/
  | text (content : String)
  /-- A CDATA section, kept verbatim. -/
  | cdata (content : String)
deriving DecidableEq, Repr, Inhabited

namespace Element

/-- The part of the name before its first colon. -/
def qualifier? (tag : Element) : Option String :=
  let head := tag.name.toList.takeWhile (· ≠ ':')
  if head.length < tag.name.toList.length then some (String.ofList head) else none

/-- The name without the part up to its first colon. -/
def localName (tag : Element) : String :=
  match tag.name.toList.dropWhile (· ≠ ':') with
  | [] => tag.name
  | _ :: rest => String.ofList rest

/-- The value of the first attribute of the given name. -/
def attribute? (tag : Element) (name : String) : Option String :=
  (tag.attributes.find? (·.name = name)).map Attribute.value

/-- Overwrites the first attribute of the given name in a list, or adds one at its end. -/
def assign (name value : String) : List Attribute → List Attribute
  | [] => [⟨name, value⟩]
  | a :: rest => if a.name = name then ⟨name, value⟩ :: rest else a :: assign name value rest

/-- Overwrites the first attribute of the given name, or adds one at the end. -/
def setAttribute (tag : Element) (name value : String) : Element :=
  { tag with attributes := assign name value tag.attributes }

/-- A value that was set is read back, and other attributes keep theirs. -/
theorem attribute?_setAttribute (tag : Element) (name wanted value : String) :
    (tag.setAttribute name value).attribute? wanted =
      if name = wanted then some value else tag.attribute? wanted := by
  obtain ⟨_, attributes⟩ := tag
  simp only [setAttribute, attribute?]
  induction attributes with
  | nil => by_cases h : name = wanted <;> simp [assign, h]
  | cons a rest ih =>
    rw [assign]
    split
    next heq =>
      subst heq
      by_cases h : a.name = wanted <;> simp [h]
    next hne =>
      by_cases h : a.name = wanted
      · simp [h, show name ≠ wanted from fun hname => hne (h.trans hname.symm)]
      · simpa [h] using ih

/-- Removes the first attribute of the given name. -/
def removeAttribute (tag : Element) (name : String) : Element :=
  { tag with attributes := tag.attributes.eraseP (·.name = name) }

end Element

namespace Node

/-- The element, if the node is one. -/
def element? : Node → Option Element
  | element tag => some tag
  | _ => none

/-- The characters of a text or CDATA node; an element has none of its own. -/
def characters : Node → String
  | element _ => ""
  | text content | cdata content => content

/-- The qualified name of an element. -/
def name? (node : Node) : Option String := node.element?.map Element.name

/-- The node is an element. -/
def isElement (node : Node) : Bool := node.element?.isSome

/-- The node is an element of the given name. -/
def isNamed (name : String) (node : Node) : Bool := node.name? == some name

/-- The value of an attribute; a text has none. -/
def attribute? (node : Node) (name : String) : Option String :=
  node.element?.bind (·.attribute? name)

/-- Changes the element; a text stays as it is. -/
def mapElement (f : Element → Element) : Node → Node
  | element tag => element (f tag)
  | node => node

end Node

end MailMerge.Xml
