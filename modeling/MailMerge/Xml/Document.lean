import MailMerge.Xml.Forest

/-!
# Documents

A document is a set of rows of siblings without a parent. One of them holds the root; the others
hold what has been created, copied or taken out and is not part of the written document, but can be
looked at and put back. A row without a parent can have several siblings, because a node can be put
next to one that has no parent. What has been taken out is kept apart, so that it is only searched
for what cannot be found elsewhere.
-/

namespace MailMerge.Xml

/-- All nodes of a document part, in and outside its tree. Identities from `next` on are unused. -/
structure Document where
  rows : List Forest
  /-- The rows of what has been taken out. -/
  aside : List Forest
  root : NodeId
  next : NodeId
  declaration : Option String
deriving Repr, Inhabited

namespace Document

/-- All rows. -/
def allRows (d : Document) : List Forest := d.rows ++ d.aside

/-- Searches the rows for something. -/
def search {α : Type} (d : Document) (f : Forest → Option α) : Option α :=
  (d.rows.findSome? f).or (d.aside.findSome? f)

theorem search_eq_findSome? {α : Type} (d : Document) (f : Forest → Option α) :
    d.search f = d.allRows.findSome? f := by
  simp [search, allRows, List.findSome?_append]

/-! ## Looking at nodes -/

/-- A node with what stands below it; an unknown node has nothing. -/
def tree (d : Document) (x : NodeId) : Forest := (d.search (·.tree? x)).getD .nil

/-- What a node holds. -/
def node? (d : Document) (x : NodeId) : Option Node :=
  match d.tree x with
  | .nil => none
  | .cons _ node _ _ => some node

/-- The qualified name of an element. -/
def name? (d : Document) (x : NodeId) : Option String := (d.node? x).bind Node.name?

/-- The node is an element of the given name. -/
def isNamed (d : Document) (x : NodeId) (name : String) : Bool := d.name? x == some name

/-- The value of an attribute of an element. -/
def attribute? (d : Document) (x : NodeId) (name : String) : Option String :=
  (d.node? x).bind (·.attribute? name)

/-- The row of the children of a node. -/
def below (d : Document) (x : NodeId) : Forest :=
  match d.tree x with
  | .nil => .nil
  | .cons _ _ children _ => children

/-- The children of a node. -/
def children (d : Document) (x : NodeId) : List NodeId := (d.below x).tops.map Prod.fst

/-- The children of a node that are elements. -/
def elementChildren (d : Document) (x : NodeId) : List NodeId :=
  ((d.below x).tops.filter (·.2.isElement)).map Prod.fst

/-- The first child of a node that is an element of the given name. -/
def childNamed? (d : Document) (x : NodeId) (name : String) : Option NodeId :=
  ((d.below x).tops.find? (·.2.isNamed name)).map Prod.fst

/-- The siblings after a node. -/
def following (d : Document) (x : NodeId) : Forest :=
  (d.search (·.following? x)).getD .nil

/-- The sibling right after a node. -/
def nextSibling? (d : Document) (x : NodeId) : Option NodeId :=
  (d.following x).tops.head?.map Prod.fst

/-- The siblings after a node that are elements. -/
def followingElements (d : Document) (x : NodeId) : List NodeId :=
  ((d.following x).tops.filter (·.2.isElement)).map Prod.fst

/-- The next sibling that is an element. -/
def nextElement? (d : Document) (x : NodeId) : Option NodeId := (d.followingElements x).head?

/-- The enclosing nodes with their payload, the nearest first. -/
def enclosing (d : Document) (x : NodeId) : List (NodeId × Node) :=
  (d.search (·.ancestors? x)).getD []

/-- The enclosing nodes, the nearest first. -/
def ancestors (d : Document) (x : NodeId) : List NodeId := (d.enclosing x).map Prod.fst

/-- The node right above. -/
def parent? (d : Document) (x : NodeId) : Option NodeId := (d.ancestors x).head?

/-- The nearest enclosing element of the given name; never the node itself. -/
def ancestor? (d : Document) (x : NodeId) (name : String) : Option NodeId :=
  ((d.enclosing x).find? (·.2.isNamed name)).map Prod.fst

/-- A node and all nodes below it in document order. -/
def descendants (d : Document) (x : NodeId) : List NodeId := (d.tree x).ids

/-- All elements of the given name below a node, in document order. -/
def findAll (d : Document) (x : NodeId) (name : String) : List NodeId :=
  ((d.below x).nodes.filter (·.2.isNamed name)).map Prod.fst

/-- The first element of the given name below a node. -/
def find? (d : Document) (x : NodeId) (name : String) : Option NodeId :=
  ((d.below x).nodes.find? (·.2.isNamed name)).map Prod.fst

/-- The characters of all texts at and below a node. -/
def text (d : Document) (x : NodeId) : String := (d.tree x).text

/-- A node is attached when the root is the node itself or encloses it. -/
def isAttached (d : Document) (x : NodeId) : Bool := x == d.root || (d.ancestors x).contains d.root

/-- The written form of a node. -/
def nodeMarkup (d : Document) (x : NodeId) : String := (d.tree x).markup

/-- The written form of the document. -/
def markup (d : Document) : String :=
  match d.declaration with
  | none => d.nodeMarkup d.root
  | some body => "<?" ++ body ++ "?>\n" ++ d.nodeMarkup d.root

end Document

end MailMerge.Xml
