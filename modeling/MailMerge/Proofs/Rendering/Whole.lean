import MailMerge.Proofs.Rendering.Turns
import MailMerge.Proofs.Statement.Beside

/-!
# Insertions and what follows

What an insertion of data puts into a document comes right after a displayed text, or at the end of
a simple field. So it comes to follow no node that the field has beside it. What is taken out
follows such a node only if that node is taken out as well (`Statement.evaluateInsertion_returns`).
-/

namespace MailMerge

open Xml Xml.Forest Xml.Document

variable {w : Workspace} {p : NodeId → Prop}

namespace Xml.Document

variable {c d e : Document} {x target : NodeId} {node : Node}

theorem Sprouts.still_insertAfter (h : Sprouts d x c) (hd : d.Distinct)
    (hmove : c.insertAfter target x = some e)
    (hp : ∀ f, p f → f ∈ d.ids ∧ f ≠ target ∧ target ∉ (d.following f).ids) : Still p d e := by
  have hgains := h.insertAfter hd (List.nil_subset _) hmove
  refine ⟨hgains.distinct, hgains.ids, fun f hf => ?_⟩
  obtain ⟨hmem, hne, hafter⟩ := hp f hf
  have hsame := h.apart.following_eq hd.apart hmem
  rw [← hsame] at hafter ⊢
  refine h.apart.distinct.following_insertAfter hmove (fun hin => ?_) (fun hin => ?_) hne hafter
  · obtain ⟨⟨_, n⟩, hn, rfl⟩ := List.mem_map.1 hin
    exact (h.fresh.2 _ n hn).1 hmem
  · exact h.fresh.1.out (mem_ids_of_mem_following (hsame ▸ hin))

theorem Sprouts.still_appendChild (h : Sprouts d x c) (hd : d.Distinct) (htarget : target ∈ d.ids)
    (hmove : c.appendChild target x = some e)
    (hp : ∀ f, p f → d.Elsewhere target f) : Still p d e := by
  have hgains := h.appendChild hd (List.nil_subset _) hmove
  refine ⟨hgains.distinct, hgains.ids, fun f hf => ?_⟩
  obtain ⟨hmem, hout, hafter⟩ := hp f hf
  have hsame := h.apart.following_eq hd.apart hmem
  have hkept : c.site? target = d.site? target := h.apart.site?_eq hd.apart htarget
  rw [mem_descendants_iff, ← hkept, ← mem_descendants_iff] at hout
  -- The tree stands in a row of its own beside the one that holds the target.
  obtain ⟨row, hrow, hin⟩ := exists_row htarget
  obtain ⟨node, inside, more, hholds, -⟩ := h.holds
  have hbeside := hholds.rows
  rw [refill_single] at hbeside
  obtain ⟨before, after, hrows⟩ := List.append_of_mem hrow
  have hfirst : c.allRows.Perm (row :: single x node inside :: (more ++ (before ++ after))) := by
    refine hbeside.trans (.trans (.cons _ ?_) (.swap _ _ _))
    rw [hrows]
    exact (List.perm_middle.append_left more).trans List.perm_middle
  rw [← hsame] at hafter ⊢
  refine hholds.distinct.following_appendChild hfirst hin hmove ?_ hout hafter
  obtain ⟨row', hrow', hfrow⟩ := exists_row hmem
  rw [hrows] at hrow'
  exact List.mem_flatMap.2 ⟨row', by grind, hfrow⟩

/-- New nodes have come, but none of the old ones has come below another one. -/
theorem Elsewhere.later {f : NodeId} (h : d.Elsewhere x f) (hb : Bounds d.ids (Fresh d.ids) d e)
    (hx : x ∈ d.ids) (hstill : Still p d e) (hf : p f) : e.Elsewhere x f where
  mem := hb.ids h.mem
  out hin := h.out (hb.mem_descendants (List.Subset.refl _) hx hin fun _ hn => hn.1 h.mem)
  after := (hstill.following f hf).symm ▸ h.after

end Xml.Document

variable {fails : MergeError → Prop}

namespace Content

variable {display : NodeId} {node : Node}

theorem exists_pieceNode_ok (display : NodeId) (cs : List Char) (w : Workspace) :
    ∃ x w', pieceNode display cs w = .ok x w' := by
  unfold pieceNode displayCopy
  split
  next => exact ⟨_, _, rfl⟩
  next =>
    split
    next => exact ⟨_, _, rfl⟩
    next => exact ⟨_, _, rfl⟩

/-- A text that is put after a node follows only that one and the nodes that it follows. -/
theorem insertText_returns (hfails : fails .misplacedNode) (hd : w.document.Distinct)
    (hnode : w.document.node? display = some node) (hquiet : Field.canBegin node = false)
    (hp : ∀ f, p f → w.document.Elsewhere display f) (s : String) :
    (insertText display s).Returns w fails fun _ d =>
      Still p w.document d ∧ d.node? display = some node := by
  refine Merge.returns_forM ⟨.refl hd, hnode⟩ fun cs _ w₁ hkept => ?_
  obtain ⟨hstill, hnode⟩ := hkept
  have hdisplay : display ∈ w₁.document.ids := by
    rw [← isSome_node?_iff, hnode]
    rfl
  obtain ⟨x, w₂, hpiece⟩ := exists_pieceNode_ok display cs w₁
  have hsprouts := (pieceNode_ends hstill.distinct hnode hquiet cs).of_ok hpiece
  have hmade : (pieceNode display cs).Returns w₁ fails fun x d => Sprouts w₁.document x d :=
    Merge.returns_ok hpiece hsprouts
  refine hmade.bind fun x w₂ hsprouts _ => ?_
  refine Merge.returns_move hfails fun d hmove => ⟨hstill.trans ?_, ?_⟩
  · refine hsprouts.still_insertAfter hstill.distinct hmove fun f hf => ?_
    rw [hstill.following f hf]
    exact ⟨hstill.ids (hp f hf).mem, (hp f hf).ne, (hp f hf).after⟩
  · have hgains := hsprouts.insertAfter hstill.distinct (List.Subset.refl _) hmove
    exact ((hgains.bounds (List.Subset.refl _)).node display hdisplay).trans hnode

end Content

namespace Field

variable {field : Field} {convert? : Option Converter} {x display : NodeId} {node : Node}

theorem replaceDisplay_returns (convert? : Option Converter) (hfails : fails .misplacedNode)
    (hd : w.document.Distinct) (hp : ∀ f, p f → w.document.Elsewhere x f) (s : String) :
    (replaceDisplay convert? x (.text s)).Returns w fails fun _ d => Still p w.document d := by
  unfold replaceDisplay
  refine Merge.returns_document ?_
  split
  next => exact Merge.returns_ok rfl (.refl hd)
  next display hdisplay =>
    obtain ⟨node, hnode, hshown⟩ := node?_of_display? hd hdisplay
    have hout : ∀ f, p f → w.document.Elsewhere display f := fun f hf =>
      (hp f hf).below hd (mem_descendants_of_display? hdisplay)
    have htext := Content.insertText_returns hfails hd hnode (canBegin_of_isDisplay hshown) hout s
    refine htext.bind fun _ w₁ hkept _ => Merge.returns_ok rfl (hkept.1.trans ?_)
    refine hkept.1.distinct.still_detach fun f hf => ⟨(hout f hf).ne, ?_⟩
    rw [hkept.1.following f hf]
    exact (hout f hf).after

theorem ensureDisplay_returns (hfails : fails .misplacedNode) (hd : w.document.Distinct)
    (hx : x ∈ w.document.ids) (hp : ∀ f, p f → w.document.Elsewhere x f) :
    (ensureDisplay x).Returns w fails fun _ d => Still p w.document d := by
  rcases ensureDisplay_cases x hd with hnothing | ⟨run, w₁, hsprouts, happend⟩
  · exact Merge.returns_ok hnothing (.refl hd)
  · have hmoved : (Merge.move (·.appendChild x run)).Returns w₁ fails fun _ d =>
        Still p w.document d :=
      Merge.returns_move hfails fun d hmove => hsprouts.still_appendChild hd hx hmove hp
    exact hmoved.of_eq happend

section Replacement

variable (hfails : fails .misplacedNode) (hd : w.document.Distinct)
  (hfield : ∀ y ∈ field.handles, y ∈ w.document.ids)
  (hp : ∀ f, p f → field.Beside w.document f)

include hfails hd hp

theorem replace_complex_returns {first : NodeId} {others : List NodeId} {after : Option NodeId}
    (hshape : field.shape = .complex first others after) (s : String) :
    (field.replace convert? (.text s)).Returns w fails fun _ d => Whole p w.document d := by
  unfold replace
  rw [hshape]
  -- What is displayed follows a node only if that node is taken out with the field.
  let runs := (first :: others).filter fun x => some x ≠ after
  have hmem : ∀ f, p f → f ∈ field.nodes → f ∈ runs := by
    intro f hf hin
    refine List.mem_filter.2 ⟨by simpa [nodes, hshape] using hin, ?_⟩
    refine decide_eq_true fun heq => (hp f hf).out f (by simp [displays, hshape, ← heq]) ?_
    exact mem_descendants_self (hp f hf).mem
  have htaken : ∀ w', Still (fun f => p f ∧ f ∉ field.nodes) w.document w'.document →
      (Merge.edit (·.detachAll runs)).Returns w' fails fun _ d => Whole p w.document d := by
    intro w' hstill
    have hkept := hstill.imp (p := fun f => p f ∧ f ∉ runs) fun f hf =>
      ⟨hf.1, fun hin => hf.2 (hmem f hf.1 hin)⟩
    refine Merge.returns_ok rfl (hkept.whole_detachAll fun f hf x hx hin => hmem f hf ?_)
    have hnode : x ∈ field.nodes := by simpa [nodes, hshape] using List.mem_of_mem_filter hx
    exact (hp f hf).taken x (field.nodes_subset_handles hnode) hin
  cases after with
  | none => exact htaken w (.refl hd)
  | some x =>
    have hreplaced : (replaceDisplay convert? x (.text s)).Returns w fails fun _ d =>
        Still (fun f => p f ∧ f ∉ field.nodes) w.document d := by
      refine replaceDisplay_returns convert? hfails hd (fun f hf => ?_) s
      exact ⟨(hp f hf.1).mem, (hp f hf.1).out x (by simp [displays, hshape]), fun hin =>
        hf.2 ((hp f hf.1).taken x (by simp [handles, hshape]) hin)⟩
    exact hreplaced.bind fun _ w₁ hstill _ => htaken w₁ hstill

include hfield

theorem replace_simple_returns (hshape : field.shape = .simple x) (s : String) :
    (field.replace convert? (.text s)).Returns w fails fun _ d => Whole p w.document d := by
  unfold replace
  rw [hshape]
  have hx : x ∈ w.document.ids := hfield x (by simp [handles, hshape])
  have helse : ∀ f, p f → w.document.Elsewhere x f := by
    intro f hf
    have hout := (hp f hf).out x (by simp [displays, hshape])
    refine ⟨(hp f hf).mem, hout, fun hin => ?_⟩
    have hnode := (hp f hf).taken x (by simp [handles, hshape]) hin
    have heq : f = x := by simpa [nodes, hshape] using hnode
    exact hout (heq.symm ▸ mem_descendants_self hx)
  have hold := List.Subset.refl w.document.ids
  have hrun := (ensureDisplay_ends (x := x) (fun _ => True) hd hold).leaves
  refine ((ensureDisplay_returns hfails hd hx helse).and_leaves hrun).bind fun _ w₁ h₁ _ => ?_
  obtain ⟨hstill₁, -, hedits₁⟩ := h₁
  have helse₁ := fun f hf => (helse f hf).later (hedits₁.bounds hd hold) hx hstill₁ hf
  -- The field is unwrapped last, and none of the old nodes has come below it until then.
  have htext : (replaceDisplay convert? x (.text s)).Ends w₁ fun _ d =>
      Edits w.document.ids (Fresh w.document.ids) (fun _ => True) w₁.document d :=
    replaceDisplay_ends hstill₁.distinct hstill₁.ids (fun _ _ _ _ => trivial) s
  have hreplaced := replaceDisplay_returns convert? hfails hstill₁.distinct helse₁ s
  refine (hreplaced.and_leaves htext.leaves).bind fun _ w₂ h₂ _ => Merge.returns_ok rfl ?_
  obtain ⟨hstill₂, -, hedits₂⟩ := h₂
  have hstill := hstill₁.trans hstill₂
  have hb := Edits.bounds (hedits₁.trans hedits₂) hd hold
  refine (hstill.trans (hstill.distinct.still_unwrap (hstill.ids hx) fun f hf => ?_)).whole
  exact (helse f hf).later hb hx hstill hf

theorem replace_returns (s : String) :
    (field.replace convert? (.text s)).Returns w fails fun _ d => Whole p w.document d := by
  cases hshape : field.shape with
  | simple x => exact replace_simple_returns hfails hd hfield hp hshape s
  | complex first others after => exact replace_complex_returns hfails hd hp hshape s
  | image drawing =>
    unfold replace
    rw [hshape]
    exact Merge.returns_ok rfl (.refl hd)

end Replacement

theorem remove_whole {d : Document} (hd : d.Distinct) (hp : ∀ f, p f → field.Beside d f) :
    Whole p d (field.remove d) := by
  rw [remove_eq]
  have hrefl : Still (fun f => p f ∧ f ∉ field.removed) d d := .refl hd
  refine hrefl.whole_detachAll fun f hf x hx hin => ?_
  rw [removed_eq_nodes hx]
  exact (hp f hf).taken x (field.removed_subset_handles hx) hin

end Field

namespace Statement

/-- An insertion of data keeps what follows other nodes, unless it takes these out. -/
theorem evaluateInsertion_returns {field : Field} {host : Host} {context : Context}
    {expression : Expression} (hplain : context.Plain) (hoverflow : fails .overflow)
    (hfails : fails .misplacedNode) (hfails' : ∀ value, fails (.unsupportedContent value))
    (hd : w.document.Distinct)
    (hfield : ∀ y ∈ field.handles, y ∈ w.document.ids)
    (hp : ∀ f, p f → field.Beside w.document f) :
    (evaluateInsertion host context expression field).Returns w fails fun _ d =>
      Whole p w.document d := by
  have hremove : (Merge.edit field.remove).Returns w fails fun _ d => Whole p w.document d :=
    Merge.returns_ok rfl (Field.remove_whole hd hp)
  unfold evaluateInsertion
  cases hvalue : expression.evaluate? context with
  | error e =>
    obtain rfl := Expression.eq_overflow_of_evaluate? hvalue
    exact Merge.returns_error rfl hoverflow
  | ok value? =>
    simp only [Merge.ofExcept_ok_bind]
    split
    next => exact hremove
    next => exact hremove
    next value _ =>
      rw [(Expression.plain_of_evaluate? hplain hvalue).wrap]
      split
      next s _ => exact Field.replace_returns hfails hd hfield hp s
      next => exact Merge.returns_error rfl (hfails' _)

end Statement

end MailMerge
