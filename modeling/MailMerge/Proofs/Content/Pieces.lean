import Mathlib.Data.List.SplitBy
import MailMerge.Field.Replacement
import MailMerge.Proofs.Merge
import MailMerge.Proofs.Xml.Bare
import MailMerge.Proofs.Xml.Holds

/-!
# Texts in the place of a node

A text is put into a document in pieces: each is a copy of the displaying node with another text, or a
line break. The pieces stand in their order where the node has stood, whatever node that is
(`replaceDisplay_apply`), and the characters in them are those of the text that are no line breaks
(`text_pieces`).
-/

namespace MailMerge

open Xml Xml.Forest Xml.Document

variable {around f look shown : Forest} {r t : NodeId} {others : List Forest} {w : Workspace}
variable {node : Node}

namespace Content

/-- The node for a piece of text, made after the displaying node. -/
def piece (node : Node) (cs : List Char) : Forest :=
  if cs.any isBreak then .single 0 (.element ⟨"w:br", []⟩) .nil
  else
    let made :=
      if hasBlankEnd cs then node.mapElement (·.setAttribute "xml:space" "preserve") else node
    .single 0 made (.single 0 (.text (String.ofList cs)) .nil)

/-- The copy of a displaying node is a row of its own. -/
theorem displayCopy_apply (h : w.document.Holds around r (look ++ cons t node shown f) others)
    (cs : List Char) (hcs : cs.any isBreak = false) :
    ∃ x made inside more w', displayCopy t cs w = .ok x w' ∧
      w.document.Grows w'.document ∧ (single x made inside).bare = piece node cs ∧
      w'.document.Holds around r (look ++ cons t node shown f)
        (single x made inside :: (more ++ others)) := by
  have htext := h.copyChild.turn.setText (String.ofList cs)
  have hgrows := (copy_grows w.document t).trans
    (setText_grows (w.document.copy t).2 w.document.next (String.ofList cs))
  have hback := (htext.perm List.perm_middle).turnBack h.mem
  have hfirst : (w.document.copy t).1 = w.document.next := rfl
  unfold displayCopy
  simp only [Merge.create_bind, Merge.edit_bind, hfirst]
  generalize hd : (w.document.copy t).2.setText w.document.next (String.ofList cs) = d at *
  by_cases hblank : hasBlankEnd cs = true
  · have hmarked := (hback.turn.update
      (·.mapElement (·.setAttribute "xml:space" "preserve"))).turnBack h.mem
    refine ⟨_, _, _, _,
      { w with document := d.setAttribute w.document.next "xml:space" "preserve" },
      ?_, ?_, ?_, hmarked⟩
    · rw [if_pos hblank]
      rfl
    · exact hgrows.trans ⟨rfl, rfl, Nat.le_refl _⟩
    · simp [piece, hcs, hblank]
  · refine ⟨_, _, _, _, { w with document := d }, ?_, hgrows, ?_, hback⟩
    · rw [if_neg hblank]
      rfl
    · simp [piece, hcs, hblank]

/-- The node for a piece of text is a row of its own. -/
theorem pieceNode_apply (h : w.document.Holds around r (look ++ cons t node shown f) others)
    (cs : List Char) :
    ∃ x made inside more w', pieceNode t cs w = .ok x w' ∧
      w.document.Grows w'.document ∧ (single x made inside).bare = piece node cs ∧
      w'.document.Holds around r (look ++ cons t node shown f)
        (single x made inside :: (more ++ others)) := by
  unfold pieceNode
  by_cases hbreak : cs.any isBreak = true
  · rw [if_pos hbreak]
    refine ⟨_, _, .nil, [], _, rfl, create_grows _ _, ?_, h.create _⟩
    simp [piece, hbreak]
  · rw [if_neg hbreak]
    exact displayCopy_apply h cs (Bool.not_eq_true _ ▸ hbreak)

/-- The pieces of a text follow the displaying node in their order. -/
theorem insertPieces_apply (h : w.document.Holds around r (look ++ cons t node shown f) others)
    (pieces : List (List Char)) :
    ∃ row more w',
      (pieces.forM fun cs => do
        let x ← pieceNode t cs
        Merge.move (·.insertAfter t x)) w = .ok () w' ∧
      w.document.Grows w'.document ∧ row.bare = Forest.join (pieces.reverse.map (piece node)) ∧
      w'.document.Holds around r (look ++ cons t node shown (row ++ f)) (more ++ others) := by
  induction pieces generalizing f w others with
  | nil => exact ⟨.nil, [], w, rfl, .refl _, rfl, h⟩
  | cons cs pieces ih =>
    obtain ⟨x, made, inside, more, w₁, hpiece, hgrows, hbare, hholds⟩ := pieceNode_apply h cs
    obtain ⟨d, hmove, hframe, hmoved⟩ := hholds.insertTreeAfter
    obtain ⟨row, more', w₂, hlater, hgrows', hrow, hrest⟩ :=
      ih (w := { w₁ with document := d }) hmoved
    refine ⟨row ++ single x made inside, more' ++ more, w₂, ?_, ?_, ?_, ?_⟩
    · exact (Merge.bind_ok ((Merge.bind_ok hpiece).trans (Merge.move_ok hmove))).trans hlater
    · exact hgrows.trans (hframe.grows.trans hgrows')
    · rw [bare_append, hrow, hbare, List.reverse_cons, List.map_append, join_append]
      simp [Forest.join]
    · simpa [append_assoc] using hrest

/-! ## The characters of the pieces -/

/-- A piece of a text has only line breaks or none. -/
theorem all_isBreak_of_mem_pieces {s : String} {cs : List Char} (h : cs ∈ pieces s) :
    cs.all isBreak = cs.any isBreak := by
  have hchain : cs.IsChain fun a b => (isBreak a == isBreak b) = true :=
    List.isChain_of_mem_splitBy h
  have hne : cs ≠ [] := List.ne_nil_of_mem_splitBy h
  clear h
  induction cs with
  | nil => contradiction
  | cons a cs ih =>
    cases cs with
    | nil => simp
    | cons b cs =>
      obtain ⟨hab, hchain⟩ := List.isChain_cons_cons.1 hchain
      have hlater := ih hchain (List.cons_ne_nil _ _)
      rw [List.all_cons, List.any_cons, beq_iff_eq.1 hab, hlater]
      cases hb : isBreak b with
      | true => simp [hb]
      | false => simp [← hlater, hb]

/-- A piece shows its characters that are no line breaks. -/
theorem text_piece (tag : Element) {cs : List Char} (h : cs.all isBreak = cs.any isBreak) :
    (piece (.element tag) cs).text.toList = cs.filter fun c => !isBreak c := by
  unfold piece
  by_cases hbreak : cs.any isBreak = true
  · have hnone : cs.filter (fun c => !isBreak c) = [] := by
      rw [hbreak, List.all_eq_true] at h
      rw [List.filter_eq_nil_iff]
      intro c hc
      simp [h c hc]
    rw [if_pos hbreak, hnone]
    rfl
  · have hkept : cs.filter (fun c => !isBreak c) = cs := by
      rw [List.filter_eq_self]
      intro c hc
      rw [List.any_eq_true] at hbreak
      simpa using fun hc' => hbreak ⟨c, hc, hc'⟩
    rw [if_neg hbreak, hkept]
    split <;> simp [single, Forest.text, Node.characters, Node.mapElement]

/-- The pieces of a text show all of its characters but the line breaks. -/
theorem text_pieces (tag : Element) (s : String) :
    (Forest.join ((pieces s).map (piece (.element tag)))).text.toList =
      s.toList.filter fun c => !isBreak c := by
  have hall : ∀ row : List (List Char), (∀ cs ∈ row, cs.all isBreak = cs.any isBreak) →
      (Forest.join (row.map (piece (.element tag)))).text.toList =
        row.flatten.filter fun c => !isBreak c := by
    intro row hrow
    induction row with
    | nil => rfl
    | cons cs row ih =>
      have hlater := ih fun c hc => hrow c (List.mem_cons_of_mem _ hc)
      rw [List.map_cons, Forest.join, text_append, String.toList_append, hlater,
        text_piece tag (hrow cs List.mem_cons_self), List.flatten_cons, List.filter_append]
  rw [hall _ fun cs hcs => all_isBreak_of_mem_pieces hcs, pieces, List.flatten_splitBy]

end Content

/-- The text that a node displays is exchanged for another one. -/
theorem Field.replaceDisplay_apply {x : NodeId} (convert? : Option Converter) (s : String)
    (h : w.document.Holds around r (look ++ cons t node shown f) others)
    (hdisplay : Field.display? w.document x = some t) :
    ∃ row more w', Field.replaceDisplay convert? x (.text s) w = .ok () w' ∧
      w.document.Grows w'.document ∧
      row.bare = Forest.join ((Content.pieces s).map (Content.piece node)) ∧
      w'.document.Holds around r (look ++ (row ++ f)) (single t node shown :: (more ++ others)) := by
  obtain ⟨row, more, w', hinsert, hgrows, hrow, hholds⟩ :=
    Content.insertPieces_apply h (Content.pieces s).reverse
  rw [List.reverse_reverse] at hrow
  refine ⟨row, more, { w' with document := w'.document.detach t }, ?_,
    hgrows.trans (detach_sameFrame _ _).grows, hrow, hholds.detach⟩
  unfold Field.replaceDisplay
  rw [Merge.document_bind, hdisplay]
  exact Merge.bind_ok hinsert

end MailMerge
