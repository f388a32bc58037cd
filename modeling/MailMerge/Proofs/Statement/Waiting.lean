import MailMerge.Proofs.Statement.Queue
import MailMerge.Proofs.Xml.Unwrap

/-!
# Statements that wait

All statements are made before the first of them is evaluated, but the body of a block is looked up
only when its turn comes. Until then the document changes around its first anchor. What waiting
statements can rely on is that nodes of the template keep their order (`Kept`), and that nothing new
that could begin a field comes after their anchors (`Waits`). Main statement: when the turn of a block
has come, whatever it puts after its first anchor does not come after the anchor of a later statement,
unless that one is taken out with the block (`mem_frame_of_following`).
-/

namespace MailMerge

open Xml

variable {d e e' : Document} {x y z m : NodeId} {p : NodeId → Node → Prop}

/-! ## What is kept of the template -/

/-- A later document has kept the order of the nodes at and below a node. -/
structure Kept (d : Document) (x : NodeId) (e : Document) : Prop where
  distinct : e.Distinct
  ids : d.ids ⊆ e.ids
  node : ∀ y ∈ d.descendants x, e.node? y = d.node? y
  below : ∀ y ∈ d.descendants x, ∀ z ∈ d.descendants x,
    z ∈ e.descendants y → z ∈ d.descendants y
  after : ∀ y ∈ d.descendants x, ∀ z ∈ d.descendants x, z ∈ (e.following y).ids → d.Past x y z
  closed : ∀ y ∉ d.descendants x, ∀ z ∈ d.descendants x, z ∉ e.descendants y

namespace Kept

variable {rest : List Forest}

theorem refl (ha : d.Apex x rest) : Kept d x d where
  distinct := ha.distinct
  ids := List.Subset.refl _
  node _ _ := rfl
  below _ _ _ _ h := h
  after _ hy _ _ h := ha.past_of_mem_following hy h
  closed _ hy _ hz h := hy (ha.mem_of_mem_descendants hz h)

/-- Nothing comes into the way of the template where only new nodes are added. -/
theorem bounds (h : Kept d x e) (hb : Document.Bounds (d.descendants x) p e e')
    (hp : ∀ z n, p z n → z ∉ d.descendants x) : Kept d x e' where
  distinct := hb.distinct
  ids := List.Subset.trans h.ids hb.ids
  node y hy := (hb.node y hy).trans (h.node y hy)
  below y hy z hz hin := by
    refine h.below y hy z hz (hb.mem_descendants ?_ hy hin fun n hn => hp z n hn hz)
    exact fun y hy => h.ids (Document.mem_ids_of_mem_descendants hy)
  after y hy z hz hin :=
    h.after y hy z hz ((hb.following y hy).mem_ids hin fun n hn => hp z n hn hz)
  closed y hy z hz hin := h.closed y hy z hz (hb.closed y hy z hz hin)

/-- The order of the template stays when a simple field is unwrapped. -/
theorem melts (h : Kept d x e) (hm : e.Melts y e') (hy : y ∈ d.descendants x)
    (hd : d.Distinct) : Kept d x e' where
  distinct := hm.distinct
  ids := List.Subset.trans h.ids hm.ids
  node z hz := (hm.node z).trans (h.node z hz)
  below a ha z hz hin := h.below a ha z hz (hm.mem_descendants hin)
  after a ha z hz hin := by
    rcases hm.mem_following hin with hin | ⟨hchild, hin⟩
    · exact h.after a ha z hz hin
    · have hbelow := h.below y hy a ha (Document.mem_descendants_of_mem_children hchild)
      exact (h.after y hy z hz hin).of_mem hd hbelow
  closed a ha z hz hin := h.closed a ha z hz (hm.mem_descendants hin)

end Kept

/-- What can begin a complex field has stayed below its parent or has been taken out. -/
def KeptMarkers (d : Document) (x : NodeId) (e : Document) : Prop :=
  ∀ y ∈ d.descendants x, ∀ z ∈ d.descendants x, ∀ node, d.node? z = some node →
    Field.isMarker "begin" node = true → z ∈ e.children y → z ∈ d.children y

namespace KeptMarkers

theorem bounds (h : KeptMarkers d x e) (hb : Document.Bounds (d.descendants x) p e e')
    (hp : ∀ z n, p z n → z ∉ d.descendants x) : KeptMarkers d x e' := by
  intro y hy z hz node hnode hmarker hin
  refine h y hy z hz node hnode hmarker ((hb.below y hy).mem_topIds hin fun n hn => ?_)
  exact hp z n hn hz

theorem melts (h : KeptMarkers d x e) (hm : e.Melts y e') (hy : y ∈ d.descendants x)
    (hframed : Field.Framed d x) {node : Node} (hnode : d.node? y = some node)
    (hnamed : node.isNamed "w:fldSimple" = true) : KeptMarkers d x e' := by
  intro a ha z hz n hn hmarker hin
  rcases hm.children a z hin with hin | ⟨-, hin⟩
  · exact h a ha z hz n hn hmarker hin
  · -- The node that is unwrapped is a simple field, and has no begin marker right below it.
    obtain ⟨node', hnode', -, hnot⟩ := hframed z hz n hn hmarker y (h y hy z hz n hn hmarker hin)
    rw [hnode] at hnode'
    cases hnode'
    rw [hnamed] at hnot
    cases hnot

end KeptMarkers

/-! ## What waiting statements rely on -/

namespace Statement

variable {t : Statement} {f : NodeId} {rest : List Forest} {pending : List (NodeId × Statement)}

/-- The node after which a statement finds its body, or the simple field that it unwraps. -/
def anchor? : Statement → Option NodeId
  | insertion _ field =>
    match field.shape with
    | .simple x => some x
    | _ => none
  | block _ b => some b.first

/-- The nodes that are taken out with a block. -/
def frame : Statement → List NodeId
  | insertion _ _ => []
  | block _ b => b.frame

/-- No new node that could begin a field comes after a node. -/
def Quiet (d : Document) (x : NodeId) (e : Document) (y : NodeId) : Prop :=
  ∀ z n, (z, n) ∈ (e.following y).nodes → z ∉ d.descendants x → Field.canBegin n = false

/-- What stands before the anchor of a statement comes to an end before the node that begins the
statement, or is taken out with it. -/
def Led (d : Document) (x : NodeId) (e : Document) (m : NodeId) (t : Statement) : Prop :=
  ∀ f ∈ t.anchor?, ∀ y ∈ d.descendants x, ∀ node, d.node? y = some node → node.isElement = true →
    f ∈ (e.following y).topIds → y ∈ t.frame ∨ d.Past x y m

namespace FoundAt

theorem mem (h : t.FoundAt d x m) : m ∈ d.descendants x := by
  cases h with
  | insertion found => exact found.mem
  | block _ first => exact first.mem

/-- The simple field that an insertion unwraps is the node that begins it. -/
theorem eq_of_simple {expression : Expression} {field : Field}
    (h : FoundAt d x m (.insertion expression field)) (hf : f ∈ anchor? (.insertion expression field)) :
    f = m ∧ ∃ node, d.node? m = some node ∧ node.isNamed "w:fldSimple" = true := by
  cases h with
  | insertion found =>
    rw [anchor?] at hf
    split at hf
    next y hshape =>
      cases hf
      exact found.begins.simple hshape
    next => cases hf

theorem anchor_mem (h : t.FoundAt d x m) (ha : d.Apex x rest) (hf : f ∈ t.anchor?) :
    f ∈ d.descendants x := by
  cases t with
  | insertion expression field => exact (h.eq_of_simple hf).1 ▸ h.mem
  | block opening b =>
    cases h with
    | block _ first =>
      cases hf
      exact ((Block.anchored_between d _ _).ledBy ha.distinct first.begins).first_mem ha first.mem

theorem anchor_isElement (h : t.FoundAt d x m) (ha : d.Apex x rest) (hframed : Field.Framed d x)
    (hf : f ∈ t.anchor?) : ∃ node, d.node? f = some node ∧ node.isElement = true := by
  cases t with
  | insertion expression field =>
    obtain ⟨rfl, node, hnode, hnamed⟩ := h.eq_of_simple hf
    exact ⟨node, hnode, Field.isElement_of_isNamed hnamed⟩
  | block opening b =>
    cases h with
    | block _ first =>
      cases hf
      exact (Block.anchored_between d _ _).isElement_first ha hframed first.begins first.mem

/-- What comes past the anchor of a statement comes after the node that begins the statement. -/
theorem place_lt_of_past (h : t.FoundAt d x m) (ha : d.Apex x rest) (hf : f ∈ t.anchor?)
    (hz : d.Past x f z) : d.place x m < d.place x z := by
  have hmem := h.mem
  have hfids := Document.mem_ids_of_mem_descendants (h.anchor_mem ha hf)
  cases t with
  | insertion expression field => exact (h.eq_of_simple hf).1 ▸ hz.place_lt hfids
  | block opening b =>
    cases h with
    | block _ first =>
      cases hf
      rcases (Block.anchored_between d _ _).ledBy ha.distinct first.begins with
        hin | ⟨run, hchild, -, hafter, -⟩
      · exact hz.lt m hin
      · have hbelow := Document.mem_descendants_of_mem_children hchild
        have hpast := ha.past_of_mem_following (ha.mem_of_mem_descendants hmem hbelow)
          (Forest.mem_ids_of_mem_topIds hafter)
        exact Nat.lt_trans (hpast.lt m hbelow) (hz.place_lt hfids)

/-- At first, all statements are led to by what stands before them. -/
theorem led (h : t.FoundAt d x m) (ha : d.Apex x rest) : Led d x d m t := by
  intro f hf y hy node hnode helement hafter
  cases t with
  | insertion expression field =>
    rw [(h.eq_of_simple hf).1] at hafter
    exact .inr (ha.past_of_mem_following hy (Forest.mem_ids_of_mem_topIds hafter))
  | block opening b =>
    cases h with
    | block _ first =>
      cases hf
      exact ((Block.anchored_between d _ _).ledBy ha.distinct first.begins).mem_frame_or_past ha hy
        hnode helement hafter

/-- A simple field that begins earlier is not taken out with a statement. -/
theorem notMem_frame (h : t.FoundAt d x m) (ha : d.Apex x rest) (hframed : Field.Framed d x)
    {node : Node} (hnode : d.node? y = some node) (hnamed : node.isNamed "w:fldSimple" = true)
    (hlt : d.place x y < d.place x m) : y ∉ t.frame := by
  cases h with
  | insertion => exact List.not_mem_nil
  | block _ first last lt =>
    exact (Block.anchored_between d _ _).notMem_frame ha hframed first.begins first.mem last.begins
      last.mem hnode hnamed hlt (Nat.lt_trans hlt lt)

theorem first_mem_frame {opening : Opening} {b : Block} (h : FoundAt d x m (.block opening b)) :
    b.first ∈ b.frame := by
  cases h with
  | block opens first =>
    cases Block.anchored_between d _ _ with
    | around _ _ _ hframe =>
      rw [hframe]
      exact List.mem_cons_self
    | inline hfirst _ hframe =>
      rw [hframe, hfirst, (first.opens opens).1]
      exact List.mem_append_left _ (Field.stop_mem_nodes _)

theorem node_canBegin {opening : Opening} {b : Block} (h : FoundAt d x m (.block opening b)) :
    ∃ node, d.node? m = some node ∧ Field.canBegin node = true := by
  cases h with
  | block opens first => exact (first.opens opens).2

end FoundAt

theorem Led.bounds (h : Led d x e m t) (hb : Document.Bounds (d.descendants x) p e e')
    (ht : t.FoundAt d x m) (ha : d.Apex x rest) (hp : ∀ z n, p z n → z ∉ d.descendants x) :
    Led d x e' m t := by
  intro f hf y hy node hnode helement hafter
  refine h f hf y hy node hnode helement ((hb.following y hy).mem_topIds hafter fun n hn => ?_)
  exact hp f n hn (ht.anchor_mem ha hf)

theorem Quiet.bounds (h : Quiet d x e y) (hb : Document.Bounds (d.descendants x) p e e')
    (hy : y ∈ d.descendants x) (hp : ∀ z n, p z n → Field.canBegin n = false) :
    Quiet d x e' y := by
  intro z n hz hnew
  exact ((hb.following y hy).nodes z n hz).elim (fun hz => h z n hz hnew) (hp z n)

theorem Led.melts (h : Led d x e m t) (hk : Kept d x e) (hm : e.Melts y e')
    (hy : y ∈ d.descendants x) (hd : d.Distinct) {node : Node} (hnode : d.node? y = some node)
    (helement : node.isElement = true) (hout : y ∉ t.frame) (ht : t.FoundAt d x m)
    (hf : ∀ f ∈ t.anchor?, f ∈ d.descendants x) (hle : d.place x y ≤ d.place x m) :
    Led d x e' m t := by
  intro f hanchor z hz n hn helement' hafter
  have hmem := hf f hanchor
  rcases hm.siblings z f hafter with hafter | ⟨hchild, hafter⟩ | ⟨hafter, -⟩
  · exact h f hanchor z hz n hn helement' hafter
  · have hpast := (h f hanchor y hy node hnode helement hafter).resolve_left hout
    have hbelow := hk.below y hy z hz (Document.mem_descendants_of_mem_children hchild)
    exact .inr (hpast.of_mem hd hbelow)
  · have hpast := hk.after z hz y hy (Forest.mem_ids_of_mem_topIds hafter)
    exact .inr (hpast.of_place_le ht.mem hle)

theorem Quiet.melts (h : Quiet d x e z) (hm : e.Melts y e') (hy : Quiet d x e y) :
    Quiet d x e' z := by
  intro a n hin hnew
  rcases hm.following z _ hin with hin | ⟨-, hin⟩
  · exact h a n hin hnew
  · exact hy a n hin hnew

/-- When the turn of a block has come, what follows its first anchor does not follow the anchor of a
later statement, unless this anchor is taken out with the block. -/
theorem mem_frame_of_following {opening : Opening} {b : Block} {m' : NodeId} (ha : d.Apex x rest)
    (hframed : Field.Framed d x) (hk : Kept d x e) (hb : FoundAt d x m (.block opening b))
    (hled : Led d x e m (.block opening b)) (ht : t.FoundAt d x m')
    (hlt : d.place x m < d.place x m') (hf : f ∈ t.anchor?)
    (h : b.first = f ∨ b.first ∈ (e.following f).ids) : f ∈ b.frame := by
  rcases h with rfl | hafter
  · exact hb.first_mem_frame
  have hfirst : b.first ∈ d.descendants x := hb.anchor_mem ha rfl
  have hmem := ht.anchor_mem ha hf
  obtain ⟨node, hnode, helement⟩ := ht.anchor_isElement ha hframed hf
  -- Else the later statement would begin before the block does.
  have hnot : ¬d.Past x f m := fun hpast => Nat.lt_asymm hlt (ht.place_lt_of_past ha hf hpast)
  obtain ⟨s, hs, hbelow⟩ := hk.distinct.exists_sibling_of_mem_following hafter
  by_cases heq : b.first = s
  · subst heq
    exact (hled b.first rfl f hmem node hnode helement hs).resolve_right hnot
  · have hold : s ∈ d.descendants x := by
      by_contra hnew
      exact hk.closed s hnew b.first hfirst hbelow
    have hpast := hk.after f hmem s hold (Forest.mem_ids_of_mem_topIds hs)
    have hin := hk.below s hold b.first hfirst hbelow
    refine absurd (hpast.below ha.distinct ?_) hnot
    cases hb with
    | block _ found =>
      rcases (Block.anchored_between d _ _).ledBy ha.distinct found.begins with
        hm | ⟨run, hchild, -, hafter, -⟩
      · exact ha.distinct.mem_descendants_trans hm hin
      · have hrun := ha.distinct.mem_descendants_of_following hafter hin heq
        exact ha.distinct.mem_descendants_trans
          (Document.mem_descendants_of_mem_children hchild) hrun

end Statement

end MailMerge
