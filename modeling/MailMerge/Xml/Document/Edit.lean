import MailMerge.Xml.Document

/-!
# Edits of documents

Nodes are created and taken out, and put below or next to others. Nothing is ever lost: a node that
is taken out stands in a row of its own. A move is refused when its target is the moved node or
stands below it, because the node would then be its own ancestor or sibling.
-/

namespace MailMerge.Xml.Document

/-- Applies a partial change to the first row that admits it. -/
def changeRow (f : Forest → Option Forest) : List Forest → Option (List Forest)
  | [] => none
  | row :: rows =>
    match f row with
    | some row => some (row :: rows)
    | none => (changeRow f rows).map (row :: ·)

/-- Takes a piece out of the first row that has it. A row that becomes empty vanishes. -/
def takeFrom (f : Forest → Option (Forest × Forest)) : List Forest → Option (Forest × List Forest)
  | [] => none
  | row :: rows =>
    match f row with
    | some (tree, .nil) => some (tree, rows)
    | some (tree, left) => some (tree, left :: rows)
    | none => (takeFrom f rows).map fun (tree, rows) => (tree, row :: rows)

/-- Takes a piece out of the row that has it. -/
def takeOut (d : Document) (f : Forest → Option (Forest × Forest)) : Option (Forest × Document) :=
  match takeFrom f d.rows with
  | some (tree, rows) => some (tree, { d with rows })
  | none => (takeFrom f d.aside).map fun (tree, aside) => (tree, { d with aside })

/-- Applies a partial change to the row that admits it. -/
def change (d : Document) (f : Forest → Option Forest) : Option Document :=
  match changeRow f d.rows with
  | some rows => some { d with rows }
  | none => (changeRow f d.aside).map fun aside => { d with aside }

/-- Keeps a tree apart. -/
def setAside (d : Document) (tree : Forest) : Document := { d with aside := tree :: d.aside }

theorem changeRow_append (f : Forest → Option Forest) (rows more : List Forest) :
    changeRow f (rows ++ more) =
      ((changeRow f rows).map (· ++ more)).or ((changeRow f more).map (rows ++ ·)) := by
  induction rows with
  | nil => cases h : changeRow f more <;> simp [changeRow, h]
  | cons row rows ih =>
    cases h : f row with
    | some row => simp [changeRow, h]
    | none =>
      simp only [List.cons_append, changeRow, h, ih]
      cases changeRow f rows <;> cases changeRow f more <;> simp

theorem takeFrom_append (f : Forest → Option (Forest × Forest)) (rows more : List Forest) :
    takeFrom f (rows ++ more) =
      ((takeFrom f rows).map fun (tree, rows) => (tree, rows ++ more)).or
        ((takeFrom f more).map fun (tree, more) => (tree, rows ++ more)) := by
  induction rows with
  | nil => cases h : takeFrom f more <;> simp [takeFrom, h]
  | cons row rows ih =>
    match h : f row with
    | some (tree, .nil) => simp [takeFrom, h]
    | some (tree, .cons id node children rest) => simp [takeFrom, h]
    | none =>
      simp only [List.cons_append, takeFrom, h, ih]
      cases takeFrom f rows <;> cases takeFrom f more <;> simp

/-- A change is one of all rows together. -/
theorem change_allRows (d : Document) (f : Forest → Option Forest) :
    (d.change f).map allRows = changeRow f d.allRows := by
  simp only [change, allRows, changeRow_append]
  cases changeRow f d.rows <;> cases changeRow f d.aside <;> simp [allRows]

/-- A piece is taken out of all rows together. -/
theorem takeOut_allRows (d : Document) (f : Forest → Option (Forest × Forest)) :
    ((d.takeOut f).map fun (tree, d) => (tree, d.allRows)) = takeFrom f d.allRows := by
  simp only [takeOut, allRows, takeFrom_append]
  cases takeFrom f d.rows <;> cases takeFrom f d.aside <;> simp

/-- Adds a new node without parent and children. -/
def create (d : Document) (node : Node) : NodeId × Document :=
  (d.next, { d with rows := .single d.next node .nil :: d.rows, next := d.next + 1 })

/-- Adds a new element without attributes. -/
def createElement (d : Document) (name : String) : NodeId × Document :=
  d.create (.element ⟨name, []⟩)

/-- Adds a new text. -/
def createText (d : Document) (content : String) : NodeId × Document := d.create (.text content)

/-- Changes the payload of a node. -/
def update (d : Document) (x : NodeId) (f : Node → Node) : Document :=
  { d with rows := d.rows.map (·.update x f), aside := d.aside.map (·.update x f) }

/-- Gives an attribute of an element a value; a text has no attributes. -/
def setAttribute (d : Document) (x : NodeId) (name value : String) : Document :=
  d.update x (·.mapElement (·.setAttribute name value))

/-- Removes an attribute of an element. -/
def removeAttribute (d : Document) (x : NodeId) (name : String) : Document :=
  d.update x (·.mapElement (·.removeAttribute name))

/-- Takes a node out of its row, into a row of its own. -/
def detach (d : Document) (x : NodeId) : Document :=
  match d.takeOut (·.extract? x) with
  | none => d
  | some (tree, d) => d.setAside tree

/-- Takes several nodes out, one after the other. -/
def detachAll (d : Document) (xs : List NodeId) : Document := xs.foldl detach d

/-- Moves a node to where `place` puts its tree; `none` when the target stands in that tree. -/
def move (d : Document) (place : Forest → Forest → Option Forest) (target x : NodeId) :
    Option Document :=
  match d.takeOut (·.extract? x) with
  | none => none
  | some (tree, d) => if tree.contains target then none else d.change (place tree)

/-- Moves a node to the end of the children of another. -/
def appendChild (d : Document) (parent x : NodeId) : Option Document :=
  d.move (Forest.appendChild? parent) parent x

/-- Moves a node right after another. -/
def insertAfter (d : Document) (anchor x : NodeId) : Option Document :=
  d.move (Forest.insertAfter? anchor) anchor x

/-- Moves a node right before another. -/
def insertBefore (d : Document) (anchor x : NodeId) : Option Document :=
  d.move (Forest.insertBefore? anchor) anchor x

/-- Puts the children of a node in its place and takes the node out. A node without a parent is
taken out with its children. -/
def unwrap (d : Document) (x : NodeId) : Document :=
  match d.parent? x with
  | none => d.detach x
  | some _ =>
    match d.takeOut (·.dissolve? x) with
    | none => d
    | some (tree, d) => d.setAside tree

/-- Takes out all children of a node. -/
def clearChildren (d : Document) (x : NodeId) : Document := d.detachAll (d.children x)

/-- Puts a new text in place of all children of a node. -/
def setText (d : Document) (x : NodeId) (content : String) : Document :=
  let d := d.clearChildren x
  let row := .single d.next (.text content) .nil
  { (d.change (Forest.appendChild? x row)).getD d with next := d.next + 1 }

/-- Adds rows of new nodes, which must be numbered from `next` on. -/
def adopt (d : Document) (rows : List Forest) (next : NodeId) : Document :=
  { d with rows := rows ++ d.rows, next }

/-- Copies a node and everything below it to new nodes. Answers the copy of the node. -/
def copy (d : Document) (x : NodeId) : NodeId × Document :=
  let tree := d.tree x
  (d.next, d.adopt [tree.relabel d.next] (d.next + tree.size))

end MailMerge.Xml.Document
