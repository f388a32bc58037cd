import MailMerge.Proofs.Content.Pieces
import MailMerge.Proofs.Field.Insertion
import MailMerge.Proofs.Xml.Attributes
import MailMerge.Proofs.Xml.Elsewhere

/-!
# Texts beside a node

A text is put into a document as siblings of the displaying node: line breaks and copies of the node
take turns right after it. A piece of line breaks is shown as a single one, and the other pieces are
shown as they are, so that nothing is lost but the number and the kind of breaks in a row
(`read_items`). Main statement: the siblings are read as the text, and no node that was there has
changed (`insertText_lossless`).
-/

namespace MailMerge

namespace Content

/-! ## The lines of a text -/

section Lines

variable {s : String} {c : Char} {cs more : List Char} {rows : List (List Char)}

/-- The characters of a text, with a single newline for each longest row of line breaks. -/
def collapse : List Char → List Char
  | [] => []
  | c :: cs =>
    if !isBreak c then c :: collapse cs
    else if cs.head?.any isBreak then collapse cs
    else '\n' :: collapse cs

/-- What stands for a piece of a text. -/
inductive Item where
  /-- A line break. -/
  | lineBreak
  /-- Characters as they are. -/
  | shown (cs : List Char)
deriving DecidableEq

namespace Item

/-- The item is a line break. -/
def isLineBreak : Item → Bool
  | lineBreak => true
  | shown _ => false

/-- The characters that an item is read as. -/
def read : Item → List Char
  | lineBreak => ['\n']
  | shown cs => cs

/-- What stands for a piece. -/
def ofPiece (cs : List Char) : Item := if cs.any isBreak then lineBreak else shown cs

theorem isLineBreak_ofPiece (cs : List Char) : (ofPiece cs).isLineBreak = cs.any isBreak := by
  unfold ofPiece
  split
  next h => exact h.symm
  next h => exact (Bool.not_eq_true _ ▸ h).symm

end Item

/-- What stands for the pieces of a text. -/
def items (s : String) : List Item := (pieces s).map Item.ofPiece

/-! ## Pieces take turns -/

/-- The characters of a piece with only line breaks or none are like all of it. -/
theorem isBreak_of_mem (h : cs.all isBreak = cs.any isBreak) (hc : c ∈ cs) :
    isBreak c = cs.any isBreak := by
  cases hany : cs.any isBreak with
  | true => exact List.all_eq_true.1 (h.trans hany) c hc
  | false => simpa using List.any_eq_false.1 hany c hc

theorem pieces_alternate (s : String) :
    (pieces s).IsChain fun cs more => cs.any isBreak ≠ more.any isBreak := by
  apply (List.isChain_getLast_head_splitBy (fun a b => isBreak a == isBreak b) s.toList).imp_of_mem_imp
  rintro cs more hcs hmore ⟨hne, hne', hdiffer⟩
  rw [← isBreak_of_mem (all_isBreak_of_mem_pieces hcs) (List.getLast_mem hne),
    ← isBreak_of_mem (all_isBreak_of_mem_pieces hmore) (List.head_mem hne')]
  simpa using hdiffer

theorem items_alternate (s : String) :
    (items s).IsChain fun item next => item.isLineBreak ≠ next.isLineBreak := by
  rw [items, List.isChain_map]
  simpa only [Item.isLineBreak_ofPiece] using pieces_alternate s

/-- What is shown is not empty, and has no line break. -/
theorem of_shown_mem_items (h : .shown cs ∈ items s) : cs ≠ [] ∧ ∀ c ∈ cs, isBreak c = false := by
  obtain ⟨piece, hpiece, heq⟩ := List.mem_map.1 h
  unfold Item.ofPiece at heq
  split at heq
  next => cases heq
  next hnone =>
    cases heq
    refine ⟨List.ne_nil_of_mem_splitBy hpiece, fun c hc => ?_⟩
    rw [isBreak_of_mem (all_isBreak_of_mem_pieces hpiece) hc]
    exact Bool.not_eq_true _ ▸ hnone

/-! ## Nothing is lost but breaks in a row -/

theorem collapse_append_of_none (h : ∀ c ∈ cs, isBreak c = false) :
    collapse (cs ++ more) = cs ++ collapse more := by
  induction cs with
  | nil => rfl
  | cons c cs ih =>
    rw [List.forall_mem_cons] at h
    rw [List.cons_append, collapse, h.1, ih h.2]
    rfl

/-- Line breaks in a row that none follows are one newline. -/
theorem collapse_append_of_all (hne : cs ≠ []) (h : ∀ c ∈ cs, isBreak c = true)
    (hmore : more.head?.any isBreak = false) : collapse (cs ++ more) = '\n' :: collapse more := by
  induction cs with
  | nil => contradiction
  | cons c cs ih =>
    rw [List.forall_mem_cons] at h
    rw [List.cons_append, collapse, h.1]
    cases cs with
    | nil => simp [hmore]
    | cons a cs => simp [h.2 a List.mem_cons_self, ← ih (List.cons_ne_nil a cs) h.2]

/-- Pieces that take turns are read as the text that they are cut from. -/
theorem collapse_flatten (hne : [] ∉ rows) (hrows : ∀ cs ∈ rows, cs.all isBreak = cs.any isBreak)
    (hturns : rows.IsChain fun cs more => cs.any isBreak ≠ more.any isBreak) :
    collapse rows.flatten = rows.flatMap fun cs => (Item.ofPiece cs).read := by
  induction rows with
  | nil => rfl
  | cons cs rows ih =>
    rw [List.mem_cons, not_or] at hne
    rw [List.forall_mem_cons] at hrows
    rw [List.flatten_cons, List.flatMap_cons, ← ih hne.2 hrows.2 hturns.tail, Item.ofPiece]
    have hall : ∀ c ∈ cs, isBreak c = cs.any isBreak := fun c => isBreak_of_mem hrows.1
    split
    next hbreak =>
      rw [hbreak] at hall
      apply collapse_append_of_all (Ne.symm hne.1) hall
      cases rows with
      | nil => rfl
      | cons next rows =>
        -- The next piece begins with a character that is no line break.
        obtain ⟨a, next, rfl⟩ := List.exists_cons_of_ne_nil fun h => hne.2 (h ▸ List.mem_cons_self)
        have hother := (List.isChain_cons_cons.1 hturns).1
        have hfirst := isBreak_of_mem (hrows.2 _ List.mem_cons_self) (List.mem_cons_self (a := a))
        rw [hbreak] at hother
        exact hfirst.trans (Bool.eq_false_iff.2 hother.symm)
    next hnone =>
      rw [Bool.not_eq_true] at hnone
      rw [hnone] at hall
      exact collapse_append_of_none hall

theorem read_items (s : String) : (items s).flatMap Item.read = collapse s.toList := by
  have hne : [] ∉ pieces s := List.nil_notMem_splitBy _ _
  have hflat : (pieces s).flatten = s.toList := List.flatten_splitBy _ _
  rw [← hflat, collapse_flatten hne (fun cs => all_isBreak_of_mem_pieces) (pieces_alternate s),
    items, List.flatMap_map]

end Lines

end Content

open Xml Xml.Forest Xml.Document

variable {w : Workspace} {d e e₁ : Document} {p q t x y z : NodeId} {tag copy : Element}
variable {before after row : List NodeId} {cs : List Char}

/-! ## Copies of an element -/

namespace Content

/-- An element is a copy of another one for some characters: blanks at the ends of these are kept. -/
structure CopyFor (tag : Element) (cs : List Char) (copy : Element) : Prop where
  name : copy.name = tag.name
  attributes : copy.attributes.filter (·.name ≠ "xml:space") =
    tag.attributes.filter (·.name ≠ "xml:space")
  space : copy.attribute? "xml:space" = some "preserve" ↔
    (∃ c, (cs.head? = some c ∨ cs.getLast? = some c) ∧ Text.isBlank c = true) ∨
      tag.attribute? "xml:space" = some "preserve"
  /-- Where no blank stands at an end, nothing is changed. -/
  same : hasBlankEnd cs = false → copy = tag

theorem hasBlankEnd_iff :
    hasBlankEnd cs = true ↔
      ∃ c, (cs.head? = some c ∨ cs.getLast? = some c) ∧ Text.isBlank c = true := by
  have hany : ∀ c? : Option Char, c?.any Text.isBlank = true ↔ ∃ c, c? = some c ∧ Text.isBlank c = true := by
    intro c?
    cases c? <;> simp
  rw [hasBlankEnd, Bool.or_eq_true, hany, hany, ← exists_or]
  simp only [or_and_right]

theorem exists_copyFor (tag : Element) (cs : List Char) :
    ∃ copy, marked cs (.element tag) = .element copy ∧ CopyFor tag cs copy := by
  unfold marked
  split
  next hblank =>
    refine ⟨tag.setAttribute "xml:space" "preserve", rfl, rfl, ?_, ?_, ?_⟩
    · exact Element.filter_assign (· ≠ "xml:space") rfl _ _
    · rw [Element.attribute?_setAttribute, if_pos rfl]
      exact iff_of_true rfl (.inl (hasBlankEnd_iff.1 hblank))
    · exact fun hnone => absurd hblank (Bool.eq_false_iff.1 hnone)
  next hblank =>
    refine ⟨tag, rfl, rfl, rfl, ?_, fun _ => rfl⟩
    rw [← hasBlankEnd_iff, or_iff_right hblank]

/-- An item stands in a document: a break element, or a copy of an element with a single text. -/
def Item.StandsAt (d : Document) (tag : Element) (x : NodeId) : Item → Prop
  | lineBreak => d.tree x = single x (.element ⟨"w:br", []⟩) .nil
  | shown cs => ∃ copy y, CopyFor tag cs copy ∧
      d.tree x = single x (.element copy) (single y (.text (String.ofList cs)) .nil)

theorem Item.StandsAt.of_tree_eq {item : Item} (h : item.StandsAt d tag x)
    (htree : e.tree x = d.tree x) : item.StandsAt e tag x := by
  cases item <;> simpa only [StandsAt, htree] using h

/-- The node for a piece of text is made beside all rows. -/
theorem pieceNode_stands (hd : w.document.Distinct) (htag : w.document.node? t = some (.element tag))
    (cs : List Char) :
    ∃ x d, pieceNode t cs w = .ok x { w with document := d } ∧
      w.document.Spares w.document.allRows d ∧ d.Free w.document.allRows x ∧
      (Item.ofPiece cs).StandsAt d tag x := by
  have ht : t ∈ w.document.ids := isSome_node?_iff.1 (by rw [htag]; rfl)
  have hspares := pieceNode_spares hd.apart ht cs
  unfold Item.ofPiece
  by_cases hbreak : cs.any isBreak = true
  · have hrun : pieceNode t cs w = .ok w.document.next
        { w with document := (w.document.createElement "w:br").2 } := by
      unfold pieceNode
      rw [if_pos hbreak]
      rfl
    obtain ⟨hrows, hfree⟩ := hspares.of_ok hrun
    rw [if_pos hbreak]
    exact ⟨_, _, hrun, hrows, hfree, tree_of_site? ((site?_create _ _ _).trans (if_pos rfl))⟩
  · obtain ⟨s, hs⟩ := exists_site? ht
    obtain ⟨x, y, kids, d, hmade, hspared, -, hrows⟩ := displayCopy_rows hd hs cs
    have hrun : pieceNode t cs w = .ok x { w with document := d } := by
      unfold pieceNode
      rwa [if_neg hbreak]
    obtain ⟨-, hfree⟩ := hspares.of_ok hrun
    -- The copy is made of the displaying node, whatever stands below that.
    have hnode : s.node = .element tag := by
      rw [node?_eq_site?, hs] at htag
      exact Option.some.inj htag
    obtain ⟨copy, hcopy, hfor⟩ := exists_copyFor tag cs
    rw [hnode, hcopy] at hrows
    have hrow := hrows.mem_iff.2 (List.mem_append_left _ List.mem_cons_self)
    have hsite := hspared.apart.distinct.site?_of_row hrow List.mem_cons_self
    rw [single, Forest.site?, if_pos rfl] at hsite
    rw [if_neg hbreak]
    exact ⟨x, d, hrun, hspared, hfree, copy, y, hfor, tree_of_site? hsite⟩

end Content

/-! ## New siblings -/

theorem Xml.putAfter_append_cons {anchor : NodeId} (h : anchor ∉ before) :
    putAfter anchor x (before ++ anchor :: after) = before ++ anchor :: x :: after := by
  induction before with
  | nil => simp [putAfter]
  | cons y ys ih =>
    rw [List.mem_cons, not_or] at h
    rw [List.cons_append, putAfter, if_neg (Ne.symm h.1), ih h.2, List.cons_append]

namespace Xml.Document

/-- New nodes stand right after a child of a node, and nothing else has changed. -/
structure Continues (d : Document) (p : NodeId) (before : List NodeId) (t : NodeId)
    (after row : List NodeId) (e : Document) : Prop where
  wellFormed : e.WellFormed
  ids : d.ids ⊆ e.ids
  siblings : e.children p = before ++ t :: (row ++ after)
  node : ∀ q ∈ d.ids, e.node? q = d.node? q
  others : ∀ q ∈ d.ids, q ≠ p → e.children q = d.children q
  new : ∀ x ∈ row, ∀ z ∈ e.descendants x, z ∉ d.ids

theorem WellFormed.continues (hd : d.WellFormed) (h : d.children p = before ++ t :: after) :
    d.Continues p before t after [] d where
  wellFormed := hd
  ids := List.Subset.refl _
  siblings := h
  node _ _ := rfl
  others _ _ _ := rfl
  new _ h := nomatch h

namespace Continues

variable (h : d.Continues p before t after row e)
include h

theorem mem_children : t ∈ e.children p := by simp [h.siblings]

/-- A further new node is put right after the child. -/
theorem insertAfter (ht : t ∈ d.ids) (hp : p ∈ d.ids) (hspares : e.Spares e.allRows e₁)
    (hx : e₁.Free e.allRows x) :
    ∃ f, e₁.insertAfter t x = some f ∧ d.Continues p before t after (x :: row) f ∧
      f.tree x = e₁.tree x ∧ ∀ z ∈ row, f.tree z = e.tree z := by
  have he := h.wellFormed
  have he₁ : e₁.WellFormed := hspares.wellFormed he
  have hfresh : ∀ z ∈ e₁.descendants x, z ∉ e.ids := fun z hz =>
    (hspares.apart.free_of_mem_descendants hx hz).out
  have ht₁ : t ∈ e₁.ids := hspares.ids (h.ids ht)
  have hthere : (Revision.insertAfter t x).nodes ⊆ e₁.ids := by simp [Revision.nodes, ht₁, hx.mem]
  obtain ⟨f, hmove⟩ :=
    he₁.toDistinct.exists_insertAfter hx.mem ht₁ fun hin => hfresh t hin (h.ids ht)
  obtain ⟨s, u, hmoved⟩ := he₁.movedAfter hmove
  obtain ⟨hf, henacts⟩ := (he₁.enacts hthere).2 f hmove
  -- The lists of children that were there are only extended behind the displaying node.
  have hchildren : ∀ q ∈ e.ids, f.children q = putAfter t x (e.children q) := by
    intro q hq
    have hnew : x ∉ e.children q := fun hin =>
      hx.out (mem_ids_of_mem_children hin).2
    rw [henacts.children q (hspares.ids hq), Revision.children, hspares.children he.toDistinct hq,
      filter_ne_of_notMem hnew]
  have hself : f.tree x = e₁.tree x := by
    rw [tree_of_site? hmoved.self, tree_of_site? hmoved.moved]
  have htrees : ∀ z ∈ row, f.tree z = e.tree z := by
    intro z hz
    have hin : z ∈ e.ids := by
      have hsibling : z ∈ e.children p := by simp [h.siblings, hz]
      exact (mem_ids_of_mem_children hsibling).2
    have hsame : e₁.tree z = e.tree z := hspares.apart.tree_eq he.toDistinct.apart hin
    have hnodes : e₁.descendants z = e.descendants z := congrArg Forest.ids hsame
    have hnamed : (Change.shape (.insertAfter t x)).nodes ⊆ e₁.ids := hthere
    rw [← hsame]
    apply he₁.tree_eq_of_change (hspares.ids hin) hnamed _ hmove
    rw [hnodes]
    rintro a ha hbelow
    rcases List.mem_pair.1 ha with rfl | rfl
    · exact h.new z hz a hbelow ht
    · exact hx.out (mem_ids_of_mem_descendants hbelow)
  refine ⟨f, hmove, ⟨hf, ?_, ?_, ?_, ?_, ?_⟩, hself, htrees⟩
  · intro q hq
    rw [← isSome_node?_iff, henacts.kept q (hspares.ids (h.ids hq)), isSome_node?_iff]
    exact hspares.ids (h.ids hq)
  · have hnodup : (before ++ t :: (row ++ after)).Nodup :=
      h.siblings ▸ (he.nodup_below p).sublist (topIds_sublist _)
    have hbefore : t ∉ before := fun hin =>
      (List.nodup_append.1 hnodup).2.2 t hin t List.mem_cons_self rfl
    rw [hchildren p (h.ids hp), h.siblings, putAfter_append_cons hbefore, List.cons_append]
  · intro q hq
    rw [henacts.kept q (hspares.ids (h.ids hq)), node?_eq_site?,
      hspares.apart.site?_eq he.toDistinct.apart (h.ids hq), ← node?_eq_site?, h.node q hq]
  · intro q hq hne
    have hchild : t ∉ e.children q := fun hin => hne (he.children_unique hin h.mem_children)
    rw [hchildren q (h.ids hq), putAfter_of_notMem hchild, h.others q hq hne]
  · intro z hz a ha
    rcases List.mem_cons.1 hz with rfl | hz
    · rw [descendants, hself] at ha
      exact fun hin => hfresh a ha (h.ids hin)
    · rw [descendants, htrees z hz] at ha
      exact h.new z hz a ha

/-- The other children of the node, and what stands below them, are as they were. -/
theorem tree_eq (hd : d.Distinct) (hchildren : d.children p = before ++ t :: after)
    (hz : z ∈ before ++ t :: after) : e.tree z = d.tree z := by
  have hchild : z ∈ d.children p := hchildren ▸ hz
  have hin : z ∈ d.ids := (mem_ids_of_mem_children hchild).2
  apply hd.tree_eq_of_agree h.wellFormed.toDistinct hin
  · exact fun q hq => h.node q (mem_ids_of_mem_descendants hq)
  · intro q hq
    apply h.others q (mem_ids_of_mem_descendants hq)
    rintro rfl
    exact hd.notMem_children_of_mem_descendants hq hchild

end Continues

end Xml.Document

namespace Content

/-- The nodes for some pieces are put before those that stand right after the displaying node. -/
theorem insertPieces_continues {d : Document} {items : List Item} (ht : t ∈ d.ids) (hp : p ∈ d.ids)
    (htag : d.node? t = some (.element tag))
    (h : d.Continues p before t after row w.document)
    (hitems : List.Forall₂ (fun x item => item.StandsAt w.document tag x) row items)
    (pieces : List (List Char)) :
    ∃ row e,
      (pieces.forM fun cs => do
        let x ← pieceNode t cs
        Merge.move (·.insertAfter t x)) w = .ok () { w with document := e } ∧
      d.Continues p before t after row e ∧
      List.Forall₂ (fun x item => item.StandsAt e tag x) row
        (pieces.reverse.map Item.ofPiece ++ items) := by
  induction pieces generalizing w row items with
  | nil => exact ⟨row, w.document, rfl, h, hitems⟩
  | cons cs pieces ih =>
    obtain ⟨x, e₁, hpiece, hspares, hfree, hstands⟩ :=
      pieceNode_stands h.wellFormed.toDistinct ((h.node t ht).trans htag) cs
    obtain ⟨f, hmove, hnext, hself, hrow⟩ := h.insertAfter ht hp hspares hfree
    have hlater : List.Forall₂ (fun x item => item.StandsAt f tag x) (x :: row)
        (Item.ofPiece cs :: items) := by
      have hkept := (List.forall₂_and_left row items).2 ⟨hrow, hitems⟩
      exact .cons (hstands.of_tree_eq hself) (hkept.imp fun _ _ h => h.2.of_tree_eq h.1)
    obtain ⟨row', e, hrun, hcontinues, hall⟩ := ih (w := { w with document := f }) hnext hlater
    refine ⟨row', e, ?_, hcontinues, ?_⟩
    · exact (Merge.bind_ok ((Merge.bind_ok hpiece).trans (Merge.move_ok hmove))).trans hrun
    · simpa using hall

/-- A text is put right after a node as siblings in which line breaks and copies of the node take
turns. They are read as the text, but for the number and the kind of line breaks in a row, and all
nodes that were there stay where they were. -/
theorem insertText_lossless (hd : w.document.WellFormed)
    (htag : w.document.node? t = some (.element tag)) (hparent : w.document.parent? t = some p)
    (s : String) :
    ∃ before after row items e,
      insertText t s w = .ok () { w with document := e } ∧
      w.document.children p = before ++ t :: after ∧
      w.document.Continues p before t after row e ∧
      (∀ z ∈ before ++ t :: after, e.tree z = w.document.tree z) ∧
      List.Forall₂ (fun x item => item.StandsAt e tag x) row items ∧
      items.IsChain (fun item next => item.isLineBreak ≠ next.isLineBreak) ∧
      (∀ cs, .shown cs ∈ items → cs ≠ [] ∧ ∀ c ∈ cs, isBreak c = false) ∧
      items.flatMap Item.read = collapse s.toList := by
  have hchild : t ∈ w.document.children p := hd.mem_children_of_parent? hparent
  obtain ⟨before, after, hchildren⟩ := List.append_of_mem hchild
  have hp : p ∈ w.document.ids := (mem_ids_of_mem_children hchild).1
  have ht : t ∈ w.document.ids := (mem_ids_of_mem_children hchild).2
  obtain ⟨row, e, hrun, hcontinues, hstands⟩ :=
    insertPieces_continues ht hp htag (hd.continues hchildren) .nil (pieces s).reverse
  rw [List.reverse_reverse, List.append_nil] at hstands
  exact ⟨before, after, row, items s, e, hrun, hchildren, hcontinues,
    fun z hz => hcontinues.tree_eq hd.toDistinct hchildren hz, hstands, items_alternate s,
    fun cs => of_shown_mem_items, read_items s⟩

/-- A run that displays a text, before a break of its own. -/
def shownRun : Document where
  rows := [single 0 (.element ⟨"w:r", []⟩) (cons 1 (.element ⟨"w:t", []⟩)
    (single 2 (.text "«x»") .nil) (single 3 (.element ⟨"w:tab", []⟩) .nil))]
  aside := []
  root := 0
  next := 4
  declaration := none

/-- A text that begins with a line break and has blanks at the end of a line. -/
theorem insertText_lossless_lines :
    shownRun.WellFormed ∧ shownRun.node? 1 = some (.element ⟨"w:t", []⟩) ∧
    shownRun.parent? 1 = some 0 ∧
    ∃ before after row items e,
      insertText 1 "\r\na \n\nb" ⟨shownRun, [], {}⟩ = .ok () ⟨e, [], {}⟩ ∧
      shownRun.children 0 = before ++ 1 :: after ∧
      shownRun.Continues 0 before 1 after row e ∧
      (∀ z ∈ before ++ 1 :: after, e.tree z = shownRun.tree z) ∧
      List.Forall₂ (fun x item => item.StandsAt e ⟨"w:t", []⟩ x) row items ∧
      items.IsChain (fun item next => item.isLineBreak ≠ next.isLineBreak) ∧
      (∀ cs, .shown cs ∈ items → cs ≠ [] ∧ ∀ c ∈ cs, isBreak c = false) ∧
      items.flatMap Item.read = "\na \nb".toList ∧
      e.markup = "<w:r><w:t>«x»</w:t><w:br/><w:t xml:space=\"preserve\">a </w:t><w:br/>" ++
        "<w:t>b</w:t><w:tab/></w:r>" := by
  have hd : shownRun.WellFormed := ⟨⟨by decide, by decide⟩, by decide⟩
  obtain ⟨before, after, row, items, e, hrun, hchildren, hcontinues, hkept, hstands, hturns, hshown,
    hread⟩ := insertText_lossless (w := ⟨shownRun, [], {}⟩) (t := 1) (p := 0) hd rfl (by decide)
      "\r\na \n\nb"
  refine ⟨hd, rfl, by decide, before, after, row, items, e, hrun, hchildren, hcontinues, hkept, hstands,
    hturns, hshown, hread.trans (by decide), ?_⟩
  have hmarkup : (match insertText 1 "\r\na \n\nb" ⟨shownRun, [], {}⟩ with
      | .ok _ w => w.document.markup
      | .error _ _ => "") =
      "<w:r><w:t>«x»</w:t><w:br/><w:t xml:space=\"preserve\">a </w:t><w:br/>" ++
        "<w:t>b</w:t><w:tab/></w:r>" := by decide +kernel
  rwa [hrun] at hmarkup

end Content

end MailMerge
