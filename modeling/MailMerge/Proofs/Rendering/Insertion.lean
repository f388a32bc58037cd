import MailMerge.Proofs.Block.Copies
import MailMerge.Proofs.Field.Apart
import MailMerge.Proofs.Rendering.Markers
import MailMerge.Proofs.Xml.Bounds

/-!
# Insertions of data

The value of an expression over data is put into the document as new nodes that cannot begin a field.
All other nodes keep their places, except for those of the field and the text that it has displayed.
A simple field is unwrapped at last. Main statement: `evaluateInsertion_ends`.
-/

namespace MailMerge

open Xml Xml.Forest Xml.Document

variable {w : Workspace}

/-! ## New trees -/

namespace Xml.Document

variable {c d e : Document} {old : List NodeId} {x y target : NodeId} {rest more : List Forest}
variable {node : Node} {f : Forest}

/-- A node is new and cannot begin a field. -/
def Fresh (old : List NodeId) (y : NodeId) (node : Node) : Prop :=
  y ∉ old ∧ Field.canBegin node = false

/-- A tree that stands beside all rows of an earlier document and cannot begin a field. -/
structure Sprouts (d : Document) (x : NodeId) (e : Document) : Prop where
  holds : ∃ node f more, e.Holds (single x node .nil) x f (more ++ d.allRows) ∧
    (single x node f).markers = 0

theorem Holds.apart_right (h : e.Holds (single x node .nil) x f (more ++ rest)) : e.Apart rest := by
  refine ⟨h.distinct, single x node f :: more, ?_⟩
  have hrows := h.rows
  rwa [refill_single] at hrows

theorem Sprouts.apart (h : Sprouts d x e) : e.Apart d.allRows := by
  obtain ⟨node, f, more, hholds, -⟩ := h.holds
  exact hholds.apart_right

theorem Sprouts.fresh (h : Sprouts d x e) :
    e.Free d.allRows x ∧ ∀ y n, (y, n) ∈ (e.tree x).nodes → Fresh d.ids y n := by
  obtain ⟨node, f, more, hholds, hnone⟩ := h.holds
  have hout : ∀ y ∈ e.descendants x, y ∉ d.ids := by
    intro y hy hin
    have hfree := hholds.apex.free_iff.2 hy
    rw [Document.ids] at hin
    refine hfree.out ?_
    rw [List.flatMap_append]
    exact List.mem_append_right _ hin
  have hself := mem_descendants_self hholds.apex.mem_ids
  refine ⟨⟨hholds.apex.mem_ids, hout x hself⟩, fun y n hy => ⟨hout y (List.mem_map_of_mem hy), ?_⟩⟩
  rw [hholds.tree_self] at hy
  rw [markers_eq_length, List.length_eq_zero_iff, List.filter_eq_nil_iff] at hnone
  exact Bool.not_eq_true _ ▸ hnone (y, n) hy

/-- A document has not changed while a tree came to stand beside it. -/
theorem Sprouts.gains (h : Sprouts d x e) (hd : d.Distinct) (hold : old ⊆ d.ids) :
    Gains old (Fresh old) d e := by
  obtain ⟨own, hrows⟩ := h.apart.rows
  refine gains_of_rows hd h.apart.distinct (fun y hy => h.apart.mem_ids_of_mem_rest hy)
    hold (fun y hy n hn => hn.1 hy) fun row hrow => ?_
  exact ⟨hrow, row, hrows.mem_iff.2 (List.mem_append_right _ hrow), .refl row⟩

theorem Fresh.mono (h : Fresh d.ids y node) (hold : old ⊆ d.ids) : Fresh old y node :=
  ⟨fun hin => h.1 (hold hin), h.2⟩

theorem Sprouts.insertAfter (h : Sprouts d x c) (hd : d.Distinct) (hold : old ⊆ d.ids)
    (hmove : c.insertAfter target x = some e) : Gains old (Fresh old) d e :=
  (h.gains hd hold).trans (h.apart.insertAfter_gains h.fresh.1 hold (fun _ hy _ hn => hn.1 hy)
    (fun y n hn => (h.fresh.2 y n hn).mono hold) hmove)

theorem Sprouts.appendChild (h : Sprouts d x c) (hd : d.Distinct) (hold : old ⊆ d.ids)
    (hmove : c.appendChild target x = some e) : Gains old (Fresh old) d e :=
  (h.gains hd hold).trans (h.apart.appendChild_gains h.fresh.1 hold (fun _ hy _ hn => hn.1 hy)
    (fun y n hn => (h.fresh.2 y n hn).mono hold) hmove)

theorem Sprouts.insertBefore (h : Sprouts d x c) (hd : d.Distinct) (hold : old ⊆ d.ids)
    (hmove : c.insertBefore target x = some e) : Gains old (Fresh old) d e :=
  (h.gains hd hold).trans (h.apart.insertBefore_gains h.fresh.1 hold (fun _ hy _ hn => hn.1 hy)
    (fun y n hn => (h.fresh.2 y n hn).mono hold) hmove)

theorem sprouts_create (hd : d.Distinct) (hnode : Field.canBegin node = false) :
    Sprouts d (d.create node).1 (d.create node).2 := by
  refine ⟨node, .nil, [], ⟨hd.create node, by simp [single, Document.create], ?_⟩, ?_⟩
  · rw [refill_single]
    exact .refl _
  · rw [markers_eq_length]
    simp [single, Forest.nodes, hnode]

end Xml.Document

/-! ## Texts -/

namespace Content

variable {display : NodeId} {node : Node} {old : List NodeId}

/-- How blanks are kept does not make a field of a node. -/
theorem canBegin_setSpace (node : Node) :
    Field.canBegin (node.mapElement (·.setAttribute "xml:space" "preserve")) =
      Field.canBegin node := by
  cases node with
  | element tag =>
    have hsame := tag.attribute?_setAttribute "xml:space" "w:fldCharType" "preserve"
    rw [if_neg (by decide)] at hsame
    simp only [Field.canBegin, Field.isMarker, Node.mapElement, Node.isNamed, Node.name?,
      Node.element?, Node.attribute?, Option.map_some, Option.bind_some, hsame]
    rfl
  | text content => rfl
  | cdata content => rfl

theorem markers_pair {x y : NodeId} {n : Node} (hnode : Field.canBegin node = false)
    (hn : Field.canBegin n = false) : (single x node (single y n .nil)).markers = 0 := by
  rw [markers_eq_length]
  simp [single, Forest.nodes, hnode, hn]

theorem displayCopy_ends (hd : w.document.Distinct) (hnode : w.document.node? display = some node)
    (hquiet : Field.canBegin node = false) (cs : List Char) :
    (displayCopy display cs).Ends w fun x d => Sprouts w.document x d := by
  rw [node?_eq_site?] at hnode
  obtain ⟨s, hs, rfl⟩ := Option.map_eq_some_iff.1 hnode
  have htree := tree_of_site? hs
  have hcopied : (w.document.copy display).2.Holds (single w.document.next s.node .nil)
      w.document.next (s.children.relabel (w.document.next + 1)) w.document.allRows := by
    refine ⟨hd.copy display, by simp [single], ?_⟩
    rw [refill_single, Document.copy, htree]
    exact .refl _
  have htext := hcopied.setText (String.ofList cs)
  unfold displayCopy
  split
  next =>
    refine Merge.ends_ok rfl ⟨_, _, _, htext.update _, markers_pair ?_ rfl⟩
    rw [canBegin_setSpace, hquiet]
  next => exact Merge.ends_ok rfl ⟨_, _, _, htext, markers_pair hquiet rfl⟩

theorem pieceNode_ends (hd : w.document.Distinct) (hnode : w.document.node? display = some node)
    (hquiet : Field.canBegin node = false) (cs : List Char) :
    (pieceNode display cs).Ends w fun x d => Sprouts w.document x d := by
  unfold pieceNode
  split
  next => exact Merge.ends_ok rfl (sprouts_create hd rfl)
  next => exact displayCopy_ends hd hnode hquiet cs

theorem insertText_ends (takes : NodeId → Prop) (hd : w.document.Distinct)
    (hold : old ⊆ w.document.ids) (hnode : w.document.node? display = some node) (hquiet : Field.canBegin node = false)
    (s : String) :
    (insertText display s).Ends w fun _ d =>
      Edits old (Fresh old) takes w.document d ∧ d.node? display = some node := by
  refine Merge.agrees_forM ⟨.refl, hnode⟩ fun cs _ w₁ hkept => ?_
  obtain ⟨hedits, hnode⟩ := hkept
  have hb := hedits.bounds hd hold
  have hdisplay : display ∈ w₁.document.ids := by
    rw [← isSome_node?_iff, hnode]
    rfl
  refine (pieceNode_ends hb.distinct hnode hquiet cs).bind fun x w₂ _ hsprouts => ?_
  refine Merge.ends_move fun d hmove => ⟨?_, ?_⟩
  · have hin := List.Subset.trans hold hb.ids
    exact hedits.tail (.gain (hsprouts.insertAfter hb.distinct hin hmove))
  · have hgains := hsprouts.insertAfter hb.distinct (List.Subset.refl _) hmove
    exact ((hgains.bounds (List.Subset.refl _)).node display hdisplay).trans hnode

end Content

/-! ## Fields -/

namespace Field

variable {field : Field} {convert? : Option Converter} {x display : NodeId} {node : Node}
variable {d e : Document} {old : List NodeId} {takes : NodeId → Prop}

theorem canBegin_of_isDisplay (h : isDisplay node = true) : canBegin node = false := by
  rw [isDisplay, Bool.or_eq_true] at h
  rcases h with h | h
  all_goals
    have hname : node.name? = some _ := eq_of_beq h
    simp [canBegin, isMarker, Node.isNamed, hname]

theorem replaceDisplay_ends (hd : w.document.Distinct) (hold : old ⊆ w.document.ids)
    (htakes : ∀ z n, w.document.node? z = some n → isDisplay n = true → takes z) (s : String) :
    (replaceDisplay convert? x (.text s)).Ends w fun _ d =>
      Edits old (Fresh old) takes w.document d := by
  unfold replaceDisplay
  refine Merge.agrees_document ?_
  split
  next => exact Merge.ends_ok rfl .refl
  next display hdisplay =>
    obtain ⟨node, hnode, hshown⟩ := node?_of_display? hd hdisplay
    have htext := Content.insertText_ends takes hd hold hnode (canBegin_of_isDisplay hshown) s
    refine htext.bind fun _ w₁ _ hkept => ?_
    exact Merge.ends_edit (hkept.1.tail (.detach (htakes display node hnode hshown)))

/-- A node that displays nothing gets a new run at its end. -/
theorem ensureDisplay_cases (x : NodeId) (hd : w.document.Distinct) :
    ensureDisplay x w = .ok () w ∨
      ∃ run w₁, Sprouts w.document run w₁.document ∧
        ensureDisplay x w = Merge.move (·.appendChild x run) w₁ := by
  unfold ensureDisplay
  rw [Merge.document_bind]
  split
  next =>
    have hrun : (w.document.createElement "w:r").2.Holds
        (single w.document.next (.element ⟨"w:r", []⟩) .nil) w.document.next .nil
        w.document.allRows := by
      refine ⟨hd.create _, by simp [single], ?_⟩
      rw [refill_single]
      exact .refl _
    obtain ⟨d, hmove, -, hholds⟩ := (hrun.create (.element ⟨"w:t", []⟩)).appendTree
    refine .inr ⟨w.document.next, { w with document := d },
      ⟨_, _, [], hholds, Content.markers_pair rfl rfl⟩, ?_⟩
    exact Merge.bind_ok (Merge.move_ok hmove)
  next => exact .inl rfl

theorem ensureDisplay_ends (takes : NodeId → Prop) (hd : w.document.Distinct)
    (hold : old ⊆ w.document.ids) :
    (ensureDisplay x).Ends w fun _ d => Edits old (Fresh old) takes w.document d := by
  rcases ensureDisplay_cases x hd with hnothing | ⟨run, w₁, hsprouts, happend⟩
  · exact Merge.ends_ok hnothing .refl
  · have hmoved : (Merge.move (·.appendChild x run)).Ends w₁ fun _ d =>
        Edits old (Fresh old) takes w.document d :=
      Merge.ends_move fun d hmove => .single (.gain (hsprouts.appendChild hd hold hmove))
    exact hmoved.of_eq happend

/-- What may be taken out of a document where a field is replaced: its own nodes, and the texts that
it displays. -/
def Takes (d : Document) (old : List NodeId) (field : Field) (z : NodeId) : Prop :=
  z ∈ field.removed ∨ (z ∈ old → ∃ node, d.node? z = some node ∧ isDisplay node = true)

theorem takes_of_isDisplay (field : Field) (hb : Bounds old (Fresh old) d e) (z : NodeId)
    (n : Node) (hn : e.node? z = some n) (hshown : isDisplay n = true) : field.Takes d old z :=
  .inr fun hz => ⟨n, (hb.node z hz).symm.trans hn, hshown⟩

/-- What has become of a document when a field has been replaced by a text. -/
def Replaced (old : List NodeId) (field : Field) (d e : Document) : Prop :=
  Edits old (Fresh old) (field.Takes d old) d e ∨
    ∃ x c, field.shape = .simple x ∧ Edits old (Fresh old) (field.Takes d old) d c ∧ e = c.unwrap x

theorem replace_ends (hd : w.document.Distinct) (hold : old ⊆ w.document.ids) (s : String) :
    (field.replace convert? (.text s)).Ends w fun _ => field.Replaced old w.document := by
  have hrefl : Bounds old (Fresh old) w.document w.document := .refl hd
  unfold replace
  split
  next x hshape =>
    refine (ensureDisplay_ends (field.Takes w.document old) hd hold).bind fun _ w₁ _ h₁ => ?_
    have hb := h₁.bounds hd hold
    have hin := List.Subset.trans hold hb.ids
    refine (replaceDisplay_ends hb.distinct hin (takes_of_isDisplay field hb) s).bind fun _ w₂ _ h₂ => ?_
    exact Merge.ends_edit (.inr ⟨x, w₂.document, hshape, h₁.trans h₂, rfl⟩)
  next first others after hshape =>
    have htaken : ∀ w', Edits old (Fresh old) (field.Takes w.document old) w.document w'.document →
        (Merge.edit (·.detachAll ((first :: others).filter fun x => some x ≠ after))).Ends w'
          fun _ => field.Replaced old w.document := by
      intro w' h
      refine Merge.ends_edit (.inl (h.trans (edits_detachAll _ fun x hx => .inl ?_)))
      rw [removed, hshape, nodes, hshape]
      exact List.mem_of_mem_filter hx
    cases after with
    | none => exact htaken w .refl
    | some x =>
      exact (replaceDisplay_ends hd hold (takes_of_isDisplay field hrefl) s).bind fun _ w₁ _ h₁ =>
        htaken w₁ h₁
  next => exact Merge.ends_ok rfl (.inl .refl)

end Field

namespace Statement

variable {host : Host} {context : Context} {expression : Expression} {field : Field}
variable {old : List NodeId}

/-- An insertion of data only brings new nodes that cannot begin a field, and takes out nodes of the
field and displayed texts. After that, a simple field may be unwrapped. -/
theorem evaluateInsertion_ends (hplain : context.Plain) (hd : w.document.Distinct)
    (hold : old ⊆ w.document.ids) :
    (evaluateInsertion host context expression field).Ends w fun _ =>
      field.Replaced old w.document := by
  have hremove : (Merge.edit field.remove).Ends w fun _ => field.Replaced old w.document := by
    refine Merge.ends_edit (.inl ?_)
    rw [field.remove_eq]
    exact edits_detachAll _ fun _ => .inl
  unfold evaluateInsertion
  cases hvalue : expression.evaluate? context with
  | error e =>
    obtain rfl := Expression.eq_overflow_of_evaluate? hvalue
    exact Merge.ends_error rfl (by simp)
  | ok value? =>
    simp only [Merge.ofExcept_ok_bind]
    split
    next => exact hremove
    next => exact hremove
    next value _ =>
      rw [(Expression.plain_of_evaluate? hplain hvalue).wrap]
      split
      next s _ => exact Field.replace_ends hd hold s
      next => exact Merge.ends_error rfl (by simp)

end Statement

end MailMerge
