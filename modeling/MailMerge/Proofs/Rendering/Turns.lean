import MailMerge.Proofs.Block.Call
import MailMerge.Proofs.Rendering.Insertion

/-!
# Statements in turn

Each statement leaves the later ones what they rely on: an insertion of data (`evaluateInsertion_waits`)
and whatever new nodes a block is replaced by (`replace_waits`).
-/

namespace MailMerge

open Xml Xml.Forest Xml.Document

variable {d : Document} {x m : NodeId} {w : Workspace} {host : Host} {context : Context}
variable {pending : List (NodeId × Statement)} {rest : List Forest}

namespace Statement

/-- What statements rely on while they wait for their turn. -/
structure Waits (d : Document) (x : NodeId) (pending : List (NodeId × Statement)) (e : Document) :
    Prop where
  kept : Kept d x e
  markers : KeptMarkers d x e
  led : ∀ entry ∈ pending, Led d x e entry.1 entry.2
  quiet : ∀ entry ∈ pending, ∀ f ∈ entry.2.anchor?, Quiet d x e f

namespace Waits

variable {e e' : Document} {y : NodeId} {entry : NodeId × Statement}

theorem tail (h : Waits d x (entry :: pending) e) : Waits d x pending e :=
  ⟨h.kept, h.markers, fun t ht => h.led t (List.mem_cons_of_mem _ ht),
    fun t ht => h.quiet t (List.mem_cons_of_mem _ ht)⟩

theorem old_subset (h : Waits d x pending e) : d.descendants x ⊆ e.ids :=
  fun _ hy => h.kept.ids (mem_ids_of_mem_descendants hy)

/-- Waiting statements do not mind new nodes that cannot begin a field. -/
theorem bounds (h : Waits d x pending e) (hq : Queue d x pending) (ha : d.Apex x rest)
    (hb : Bounds (d.descendants x) (Fresh (d.descendants x)) e e') : Waits d x pending e' := by
  refine ⟨h.kept.bounds hb fun _ _ hp => hp.1, h.markers.bounds hb fun _ _ hp => hp.1,
    fun t ht => ?_, fun t ht f hf => ?_⟩
  · exact (h.led t ht).bounds hb (hq.found t ht) ha fun _ _ hp => hp.1
  · exact (h.quiet t ht f hf).bounds hb ((hq.found t ht).anchor_mem ha hf) fun _ _ hp => hp.2

/-- Waiting statements do not mind that the simple field of an earlier statement is unwrapped. -/
theorem unwrap (h : Waits d x pending e) (hq : Queue d x pending) (ha : d.Apex x rest)
    (hframed : Field.Framed d x) (hy : y ∈ d.descendants x) (hquiet : Quiet d x e y) {node : Node}
    (hnode : d.node? y = some node) (hnamed : node.isNamed "w:fldSimple" = true)
    (hlt : ∀ entry ∈ pending, d.place x y < d.place x entry.1) :
    Waits d x pending (e.unwrap y) := by
  cases hparent : e.parent? y with
  | none =>
    rw [Document.unwrap, hparent]
    exact h.bounds hq ha (h.kept.distinct.detach_bounds y)
  | some parent =>
    have hmelts := h.kept.distinct.unwrap_melts (x := y) (by rw [hparent]; rfl)
    refine ⟨h.kept.melts hmelts hy ha.distinct,
      h.markers.melts hmelts hy hframed hnode hnamed, fun t ht => ?_,
      fun t ht f hf => (h.quiet t ht f hf).melts hmelts hquiet⟩
    have hfound := hq.found t ht
    exact (h.led t ht).melts h.kept hmelts hy ha.distinct hnode (Field.isElement_of_isNamed hnamed)
      (hfound.notMem_frame ha hframed hnode hnamed (hlt t ht)) hfound
      (fun f hf => hfound.anchor_mem ha hf) (Nat.le_of_lt (hlt t ht))

end Waits

theorem Queue.tail {entry : NodeId × Statement} (h : Queue d x (entry :: pending)) :
    Queue d x pending :=
  ⟨fun t ht => h.found t (List.mem_cons_of_mem _ ht), (List.pairwise_cons.1 h.sorted).2⟩

theorem Queue.lt {entry : NodeId × Statement} (h : Queue d x (entry :: pending)) :
    ∀ t ∈ pending, d.place x entry.1 < d.place x t.1 :=
  (List.pairwise_cons.1 h.sorted).1

/-- An insertion leaves the later statements what they rely on. -/
theorem evaluateInsertion_waits {expression : Expression} {field : Field} (hplain : context.Plain)
    (ha : d.Apex x rest) (hframed : Field.Framed d x)
    (hq : Queue d x ((m, .insertion expression field) :: pending))
    (h : Waits d x ((m, .insertion expression field) :: pending) w.document) :
    (evaluateInsertion host context expression field).Ends w fun _ => Waits d x pending := by
  refine (evaluateInsertion_ends hplain h.kept.distinct h.old_subset).imp fun _ e hafter => ?_
  rcases hafter with hedits | ⟨y, e, hshape, hedits, rfl⟩
  · exact (h.bounds hq ha (hedits.bounds h.kept.distinct h.old_subset)).tail
  · have hwaits := h.bounds hq ha (hedits.bounds h.kept.distinct h.old_subset)
    have hanchor : y ∈ anchor? (.insertion expression field) := by
      rw [anchor?, hshape]
      rfl
    obtain ⟨rfl, node, hnode, hnamed⟩ := (hq.found _ List.mem_cons_self).eq_of_simple hanchor
    exact hwaits.tail.unwrap hq.tail ha hframed (hq.found _ List.mem_cons_self).mem
      (hwaits.quiet _ List.mem_cons_self y hanchor) hnode hnamed hq.lt

/-! ## Putting nodes in the place of a block -/

/-- What later statements rely on while nodes are put after the first anchor of a block. Those whose
own anchors are taken out with the block do not care what comes there. -/
structure Yields (d : Document) (x : NodeId) (pending : List (NodeId × Statement)) (b : Block)
    (e : Document) : Prop where
  kept : Kept d x e
  markers : KeptMarkers d x e
  led : ∀ entry ∈ pending, Led d x e entry.1 entry.2
  quiet : ∀ entry ∈ pending, ∀ f ∈ entry.2.anchor?,
    f ∈ b.frame ∨ (Quiet d x e f ∧ b.first ≠ f ∧ b.first ∉ (e.following f).ids)

namespace Yields

variable {e e' : Document} {y : NodeId} {b : Block} {opening : Opening}

/-- When the turn of a block has come, the later statements are ready for what becomes of it. -/
theorem of_waits (h : Waits d x ((m, .block opening b) :: pending) e)
    (hq : Queue d x ((m, .block opening b) :: pending)) (ha : d.Apex x rest)
    (hframed : Field.Framed d x) : Yields d x pending b e := by
  refine ⟨h.kept, h.markers, h.tail.led, fun t ht f hf => ?_⟩
  by_cases hin : f ∈ b.frame
  · exact .inl hin
  have hframe := mem_frame_of_following ha hframed h.kept (hq.found _ List.mem_cons_self)
    (h.led _ List.mem_cons_self) (hq.tail.found t ht) (hq.lt t ht) hf
  refine .inr ⟨h.tail.quiet t ht f hf, ?_, ?_⟩
  · exact fun heq => hin (hframe (.inl heq))
  · exact fun hafter => hin (hframe (.inr hafter))

theorem insertAfter (h : Yields d x pending b e) (hq : Queue d x pending) (ha : d.Apex x rest)
    (hy : y ∉ d.descendants x) (hmove : e.insertAfter b.first y = some e') :
    Yields d x pending b e' := by
  obtain ⟨s, t, hmoved⟩ := h.kept.distinct.movedAfter hmove
  have hold : d.descendants x ⊆ e.ids := fun z hz => h.kept.ids (mem_ids_of_mem_descendants hz)
  have hout : ∀ z ∈ d.descendants x, z ∉ e.descendants y := fun z hz => h.kept.closed y hy z hz
  have hb := hmoved.bounds h.kept.distinct hold hout
  refine ⟨h.kept.bounds hb fun _ _ hp => hp, h.markers.bounds hb fun _ _ hp => hp, fun t ht => ?_, fun t ht f hf => ?_⟩
  · exact (h.led t ht).bounds hb (hq.found t ht) ha fun _ _ hp => hp
  · rcases h.quiet t ht f hf with hin | ⟨hquiet, hne, hafter⟩
    · exact .inl hin
    · have hmem := (hq.found t ht).anchor_mem ha hf
      have hsub := hmoved.following_subset h.kept.distinct (hold hmem) (hout f hmem) hne.symm hafter
      refine .inr ⟨fun z n hz hnew => hquiet z n (hsub hz) hnew, hne, fun hin => hafter ?_⟩
      obtain ⟨entry, hentry, hfirst⟩ := List.mem_map.1 hin
      exact hfirst ▸ List.mem_map_of_mem (hsub hentry)

/-- Nothing comes after a node that has been taken out with its block. -/
theorem removeFrame (h : Yields d x pending b e) (hq : Queue d x pending) (ha : d.Apex x rest)
    (body : List NodeId) : Waits d x pending (b.removeFrame (e.detachAll body)) := by
  rw [b.removeFrame_detachAll]
  have hb : Bounds (d.descendants x) (fun _ _ => False) e (e.detachAll (body ++ b.frame)) :=
    h.kept.distinct.detachAll_bounds _
  refine ⟨h.kept.bounds hb fun _ _ hp => hp.elim, h.markers.bounds hb fun _ _ hp => hp.elim,
    fun t ht => ?_, fun t ht f hf => ?_⟩
  · exact (h.led t ht).bounds hb (hq.found t ht) ha fun _ _ hp => hp.elim
  · rcases h.quiet t ht f hf with hin | ⟨hquiet, -⟩
    · intro z n hz
      rw [h.kept.distinct.following_detachAll (List.mem_append_right _ hin)] at hz
      cases hz
    · exact hquiet.bounds hb ((hq.found t ht).anchor_mem ha hf) fun _ _ hp => hp.elim

end Yields

/-- New nodes in the place of a block leave the later statements what they rely on. -/
theorem replace_waits {opening : Opening} {b : Block} {nodes : List NodeId} (e : Document)
    (h : Waits d x ((m, .block opening b) :: pending) w.document)
    (hq : Queue d x ((m, .block opening b) :: pending)) (ha : d.Apex x rest)
    (hframed : Field.Framed d x) (hnodes : ∀ y ∈ nodes, y ∉ d.descendants x) :
    ((b.settle e).replace nodes).Ends w fun _ => Waits d x pending := by
  have hyields := Yields.of_waits h hq ha hframed
  unfold Block.replace
  refine Merge.agrees_document ?_
  have hinserted : (Merge.insertAllAfter b.first nodes).Ends w fun _ => Yields d x pending b := by
    refine Merge.agrees_forM hyields fun y hy w' hyields => ?_
    refine Merge.ends_move fun d' hmove => ?_
    exact hyields.insertAfter hq.tail ha (hnodes y (List.mem_reverse.1 hy)) hmove
  refine hinserted.bind fun _ w' _ hyields => ?_
  exact Merge.ends_edit (hyields.removeFrame hq.tail ha _)

end Statement

end MailMerge
