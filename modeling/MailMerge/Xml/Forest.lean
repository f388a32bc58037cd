import MailMerge.Xml.Node
import MailMerge.Xml.Reference

/-!
# Rows of sibling nodes

A forest is an ordered row of siblings, each with the row of its own children. Every node carries an
identity, so that it can be found again wherever it is moved; in a document no two nodes share one.
All operations follow the shape of the forest, and a search answers with the first node in document
order.
-/

namespace MailMerge.Xml

/-- The identity of a node: its number in the order of creation. -/
abbrev NodeId := Nat

/-- An ordered row of siblings. -/
inductive Forest where
  /-- The empty row. -/
  | nil
  /-- A first sibling, the row of its children and the siblings after it. -/
  | cons (id : NodeId) (node : Node) (children : Forest) (rest : Forest)
deriving DecidableEq, Repr, Inhabited

namespace Forest

/-- A single node with the given children. -/
def single (id : NodeId) (node : Node) (children : Forest) : Forest := cons id node children nil

/-- The siblings of one row after those of another. -/
def append : Forest → Forest → Forest
  | nil, more => more
  | cons id node children rest, more => cons id node children (rest.append more)

instance : Append Forest := ⟨append⟩

@[simp] theorem nil_append (f : Forest) : nil ++ f = f := rfl

@[simp] theorem cons_append (id : NodeId) (node : Node) (children rest more : Forest) :
    cons id node children rest ++ more = cons id node children (rest ++ more) := rfl

@[simp] theorem append_nil (f : Forest) : f ++ nil = f := by
  induction f with
  | nil => rfl
  | cons id node children rest _ ih => simp [ih]

theorem append_assoc (f g h : Forest) : f ++ g ++ h = f ++ (g ++ h) := by
  induction f with
  | nil => rfl
  | cons id node children rest _ ih => simp [ih]

/-- The siblings in opposite order, before those of another row; children keep their order. -/
def reverseOnto : Forest → Forest → Forest
  | nil, done => done
  | cons id node children rest, done => rest.reverseOnto (cons id node children done)

/-- The siblings in opposite order; children keep their order. -/
def reverse (f : Forest) : Forest := f.reverseOnto nil

/-- The siblings of the row itself, each with its payload. -/
def tops : Forest → List (NodeId × Node)
  | nil => []
  | cons id node _ rest => (id, node) :: rest.tops

/-- The row cut into single nodes with their children. -/
def trees : Forest → List Forest
  | nil => []
  | cons id node children rest => single id node children :: rest.trees

/-- All nodes in document order: a node, then what stands below it, then its later siblings. -/
def nodes : Forest → List (NodeId × Node)
  | nil => []
  | cons id node children rest => (id, node) :: (children.nodes ++ rest.nodes)

/-- The identities of all nodes in document order. -/
def ids (f : Forest) : List NodeId := f.nodes.map Prod.fst

/-- The number of nodes. -/
def size : Forest → Nat
  | nil => 0
  | cons _ _ children rest => children.size + rest.size + 1

/-- A node is in the forest. -/
def contains (x : NodeId) : Forest → Bool
  | nil => false
  | cons id _ children rest => id == x || children.contains x || rest.contains x

/-- A node with what stands below it. -/
def tree? (x : NodeId) : Forest → Option Forest
  | nil => none
  | cons id node children rest =>
    if id = x then some (single id node children)
    else (children.tree? x).or (rest.tree? x)

/-- The siblings after a node. -/
def following? (x : NodeId) : Forest → Option Forest
  | nil => none
  | cons id _ children rest =>
    if id = x then some rest else (children.following? x).or (rest.following? x)

/-- The nodes that enclose a node, the nearest first. -/
def ancestors? (x : NodeId) : Forest → Option (List (NodeId × Node))
  | nil => none
  | cons id node children rest =>
    if id = x then some []
    else ((children.ancestors? x).map (· ++ [(id, node)])).or (rest.ancestors? x)

/-- The characters of all texts in document order. -/
def text : Forest → String
  | nil => ""
  | cons _ node children rest => node.characters ++ (children.text ++ rest.text)

/-- Takes a node out of the forest. Answers the node with what stands below it, and what is left. -/
def extract? (x : NodeId) : Forest → Option (Forest × Forest)
  | nil => none
  | cons id node children rest =>
    if id = x then some (single id node children, rest)
    else
      match children.extract? x with
      | some (tree, left) => some (tree, cons id node left rest)
      | none => (rest.extract? x).map fun (tree, left) => (tree, cons id node children left)

/-- Puts a row right after a node. -/
def insertAfter? (anchor : NodeId) (row : Forest) : Forest → Option Forest
  | nil => none
  | cons id node children rest =>
    if id = anchor then some (cons id node children (row ++ rest))
    else
      match insertAfter? anchor row children with
      | some children => some (cons id node children rest)
      | none => (insertAfter? anchor row rest).map (cons id node children)

/-- Puts a row right before a node. -/
def insertBefore? (anchor : NodeId) (row : Forest) : Forest → Option Forest
  | nil => none
  | cons id node children rest =>
    if id = anchor then some (row ++ cons id node children rest)
    else
      match insertBefore? anchor row children with
      | some children => some (cons id node children rest)
      | none => (insertBefore? anchor row rest).map (cons id node children)

/-- Puts a row at the end of the children of a node. -/
def appendChild? (parent : NodeId) (row : Forest) : Forest → Option Forest
  | nil => none
  | cons id node children rest =>
    if id = parent then some (cons id node (children ++ row) rest)
    else
      match appendChild? parent row children with
      | some children => some (cons id node children rest)
      | none => (appendChild? parent row rest).map (cons id node children)

/-- Puts the children of a node in its place. Answers the childless node and what is left. -/
def dissolve? (x : NodeId) : Forest → Option (Forest × Forest)
  | nil => none
  | cons id node children rest =>
    if id = x then some (single id node nil, children ++ rest)
    else
      match children.dissolve? x with
      | some (tree, left) => some (tree, cons id node left rest)
      | none => (rest.dissolve? x).map fun (tree, left) => (tree, cons id node children left)

/-- Changes the payload of a node. -/
def update (x : NodeId) (f : Node → Node) : Forest → Forest
  | nil => nil
  | cons id node children rest =>
    cons id (if id = x then f node else node) (children.update x f) (rest.update x f)

/-- The same forest with new identities, counted from `next` on in document order. -/
def relabel (next : NodeId) : Forest → Forest
  | nil => nil
  | cons _ node children rest =>
    cons next node (children.relabel (next + 1)) (rest.relabel (next + 1 + children.size))

/-- The written form of an attribute. -/
def attributeMarkup (a : Attribute) : String :=
  " " ++ a.name ++ "=\"" ++ escapeValue a.value ++ "\""

/-- The written form of the start of a tag: its name and its attributes. -/
def tagMarkup (tag : Element) : String :=
  "<" ++ tag.name ++ String.join (tag.attributes.map attributeMarkup)

/-- The written form of a row. An element without children is closed at once, there is no
indentation, and what stands below a text is not written. -/
def markup : Forest → String
  | nil => ""
  | cons _ (.text content) _ rest => escapeText content ++ rest.markup
  | cons _ (.cdata content) _ rest => "<![CDATA[" ++ content ++ "]]>" ++ rest.markup
  | cons _ (.element tag) nil rest => tagMarkup tag ++ "/>" ++ rest.markup
  | cons _ (.element tag) children rest =>
    tagMarkup tag ++ ">" ++ children.markup ++ "</" ++ tag.name ++ ">" ++ rest.markup

end Forest

end MailMerge.Xml
