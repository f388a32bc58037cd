import MailMerge.Proofs.Block.Call
import MailMerge.Proofs.Xml.ChildLists
import MailMerge.Proofs.Field.Shown

/-!
# The siblings of a replaced block

The anchors of a block are children of one node. When the block is replaced, the children of this
node are those before the block, the nodes that were put in its place, what is no element between
its anchors, and those after the block. Main statement: no other children change, apart from those
that were put in its place (`Block.replace_replaced`). For this the body has to be what stands between
the anchors when the block is replaced: what has come there later stays (`Block.mem_children_replace`).
-/

namespace MailMerge

open Xml

variable {w w' : Workspace} {d e : Document} {b : Block} {anchor p q : NodeId}
  {nodes before between after : List NodeId}

namespace Xml.Document

/-- A node is an element. -/
def isElement (d : Document) (x : NodeId) : Bool := (d.node? x).any Node.isElement

theorem Shows.elementIds_eq {f : Forest} (h : d.Shows f) :
    f.elementIds = f.topIds.filter d.isElement := by
  rw [Forest.elementIds, Forest.topIds, List.filter_map]
  refine congrArg _ (List.filter_congr fun entry hentry => ?_)
  have hnode := h.node? ((Forest.tops_sublist f).subset hentry)
  rw [Function.comp_apply, isElement, hnode]
  rfl

/-- The elements that follow a child are those among the children after it. -/
theorem Distinct.followingElements_eq (hd : d.Distinct) {x : NodeId}
    (h : d.children p = before ++ x :: after) :
    d.followingElements x = after.filter d.isElement := by
  have hchildren : d.children p = (d.below p).topIds := rfl
  have hx : x ∈ (d.below p).topIds := by rw [← hchildren, h]; simp
  obtain ⟨f, n, children, g, hbelow⟩ := Forest.exists_eq_append_of_mem_topIds hx
  have hnodup := hd.nodup_below p
  rw [hbelow, Forest.ids_append, List.nodup_append] at hnodup
  have hf : x ∉ f.ids := fun hin => hnodup.2.2 x hin x (by simp) rfl
  have hg : x ∉ g.topIds := fun hin =>
    (Forest.nodup_cons_iff.1 hnodup.2.1).2.1 (Forest.mem_ids_of_mem_topIds hin)
  have hafter : g.topIds = after := by
    rw [hchildren, hbelow, Forest.topIds_append, Forest.topIds_cons] at h
    exact ((List.append_cons_inj_of_notMem
      (fun hin => hf (Forest.mem_ids_of_mem_topIds hin)) hg).1 h).2.2
  have hfollowing : d.following x = g := by
    obtain ⟨s, hs, -⟩ := mem_children_iff.1 (show x ∈ d.children p from hx)
    have hrow : s.children = f ++ Forest.cons x n children g := by
      rw [← hbelow, below_eq_site?, hs]
      rfl
    have hin : x ∈ s.children.ids := by rw [hrow]; simp
    rw [following_eq_site?, hd.site?_of_mem_children hs hin, hrow,
      Forest.site?_append_cons n children hf]
    rfl
  have helements : d.followingElements x = (d.following x).elementIds := rfl
  rw [helements, (hd.shows_following x).elementIds_eq, hfollowing, hafter]

end Xml.Document

namespace Merge

/-- Nodes that are put after another one leave the children of all nodes above which they are not
put, but for those that are taken from there. -/
theorem insertAllAfter_others (hd : w.document.Distinct) (hanchor : anchor ∈ w.document.ids)
    (h : insertAllAfter anchor nodes w = .ok () w') (hp : anchor ∉ w.document.children p) :
    w'.document.Distinct ∧ anchor ∈ w'.document.ids ∧
      w'.document.children p = (w.document.children p).filter (· ∉ nodes) := by
  -- The last node is moved first, so that the induction leaves the first node for the last move.
  induction nodes generalizing w' with
  | nil =>
    cases h
    exact ⟨hd, hanchor, (List.filter_eq_self.2 fun y _ => by simp).symm⟩
  | cons x xs ih =>
    rw [insertAllAfter_cons] at h
    obtain ⟨⟨⟩, w₁, hinner, hlast⟩ := exists_of_bind_ok h
    obtain ⟨hd₁, hanchor₁, hchildren⟩ := ih hinner
    obtain ⟨e, hmove, rfl⟩ := exists_of_move_ok hlast
    obtain ⟨s, t, hmoved⟩ := hd₁.movedAfter hmove
    have hx : x ∈ w₁.document.ids := Document.mem_ids_of_site? hmoved.moved
    obtain ⟨-, hnone⟩ | ⟨e', hmove', hrelocates⟩ := hd₁.relocates_insertAfter hx hanchor₁
    · cases hmove.symm.trans hnone
    cases hmove.symm.trans hmove'
    refine ⟨hmoved.distinct hd₁, Document.mem_ids_of_site? hmoved.before, ?_⟩
    have hout : anchor ∉ (w₁.document.children p).filter (· ≠ x) := by
      rw [hchildren]
      exact fun hin => hp (List.mem_of_mem_filter (List.mem_of_mem_filter hin))
    rw [hrelocates.children_insertAfter hd₁, putAfter_of_notMem hout, hchildren,
      List.filter_filter]
    refine List.filter_congr fun y _ => ?_
    simp

end Merge

namespace Block

/-- The anchors of a block are children of one node, the last one is an element, and so are the nodes
of the fields if they stand for the block themselves. The body is what stands between the anchors. -/
structure Stands (d : Document) (b : Block) (q : NodeId) (before between after : List NodeId) :
    Prop where
  children : d.children q = before ++ b.first :: (between ++ b.last :: after)
  last : d.isElement b.last = true
  fields : b.kind = .inline → b.start.nodes ++ b.stop.nodes ⊆ d.children q
  settled : b.body d = b.span d

/-- A block has been replaced by nodes: these stand in its place, its elements and its frame are gone,
and nothing else has changed than that the nodes have left their places. -/
structure Replaced (d : Document) (b : Block) (q : NodeId) (before between after nodes : List NodeId)
    (e : Document) : Prop where
  siblings : e.children q =
    (before ++ [b.first]).filter (· ∉ nodes ++ b.frame) ++ nodes ++
      (between.filter fun x => !d.isElement x).filter (· ∉ nodes ++ b.frame) ++
      (b.last :: after).filter (· ∉ nodes ++ b.frame)
  others : ∀ p ∈ d.ids, p ≠ q → e.children p = (d.children p).filter (· ∉ nodes)

namespace Stands

section Standing

variable (h : b.Stands d q before between after) (hd : d.Distinct)

include h

theorem first_mem : b.first ∈ d.ids :=
  (Document.mem_ids_of_mem_children (x := q) (by simp [h.children])).2

/-- What opens and closes the block are children of its parent. -/
theorem frame_subset_children : b.frame ⊆ d.children q := by
  unfold frame
  split
  next => simp [h.children]
  next => simp [h.children]
  next hkind =>
    intro x hx
    refine h.fields hkind (List.mem_append.2 ?_)
    exact (List.mem_append.1 hx).imp (b.start.removed_subset ·) (b.stop.removed_subset ·)

include hd

theorem nodup : (before ++ b.first :: (between ++ b.last :: after)).Nodup :=
  h.children ▸ (hd.nodup_below q).sublist (Forest.topIds_sublist _)

/-- The body are the elements between the anchors. -/
theorem body_eq : b.body d = between.filter d.isElement := by
  have hfollowing := hd.followingElements_eq h.children
  have hlast : b.last ∉ between := by
    have hnodup := h.nodup hd
    simp only [List.nodup_append, List.nodup_cons, List.mem_cons] at hnodup
    exact fun hin => hnodup.2.1.2.2.2 _ hin _ (.inl rfl) rfl
  rw [h.settled, span, hfollowing, List.filter_append, List.filter_cons_of_pos h.last,
    List.takeWhile_append_of_pos]
  · simp
  · intro y hy
    exact decide_eq_true fun heq => hlast (heq ▸ List.mem_of_mem_filter hy)

theorem taken_subset : b.taken d ⊆ d.children q := by
  intro x hx
  rcases List.mem_append.1 hx with hbody | hframe
  · rw [h.body_eq hd] at hbody
    have hbetween := List.mem_of_mem_filter hbody
    simp [h.children, hbetween]
  · exact h.frame_subset_children hframe

end Standing

section Placed

variable (h : b.Stands w.document q before between after) (hd : w.document.Distinct)
  (hinsert : Merge.insertAllAfter b.first nodes w = .ok () w')

include h hd hinsert

theorem others_replaced (hne : p ≠ q) :
    (w'.document.detachAll (b.taken w.document)).children p =
      (w.document.children p).filter (· ∉ nodes) := by
  have hout : ∀ x ∈ w.document.children q, x ∉ w.document.children p := fun x hq hp =>
    hne (hd.children_unique hp hq)
  have hfirst : b.first ∉ w.document.children p := hout b.first (by simp [h.children])
  obtain ⟨hd', -, hchildren⟩ := Merge.insertAllAfter_others hd h.first_mem hinsert hfirst
  rw [hd'.children_detachAll, hchildren, List.filter_eq_self]
  intro x hx
  exact decide_eq_true fun htaken =>
    hout x (h.taken_subset hd htaken) (List.mem_of_mem_filter hx)

theorem siblings_replaced (hnodup : nodes.Nodup)
    (hnodes : ∀ x ∈ nodes, x ∉ b.taken w.document ∧ b.first ∉ w.document.descendants x) :
    (w'.document.detachAll (b.taken w.document)).children q =
      (before ++ [b.first]).filter (· ∉ nodes ++ b.frame) ++ nodes ++
        (between.filter fun x => !w.document.isElement x).filter (· ∉ nodes ++ b.frame) ++
        (b.last :: after).filter (· ∉ nodes ++ b.frame) := by
  obtain ⟨hd', -, hchildren, -⟩ := Merge.insertAllAfter_children hd hnodup hinsert h.children
  have hbody : ∀ y, y ∈ b.body w.document ↔ y ∈ between ∧ w.document.isElement y = true :=
    fun y => by rw [h.body_eq hd, List.mem_filter]
  have htaken : ∀ y, y ∈ b.taken w.document ↔ y ∈ b.body w.document ∨ y ∈ b.frame :=
    fun y => List.mem_append
  have hfirst : b.first ∉ nodes := fun hin =>
    (hnodes _ hin).2 (Document.mem_descendants_self h.first_mem)
  have hall := h.nodup hd
  -- Outside of what is between the anchors, only the frame is taken out.
  have houter : ∀ ys : List NodeId, (∀ y ∈ ys, y ∉ between) →
      (ys.filter (· ∉ nodes)).filter (· ∉ b.taken w.document) =
        ys.filter (· ∉ nodes ++ b.frame) := by
    intro ys hys
    rw [List.filter_filter]
    refine List.filter_congr fun y hy => ?_
    simp [htaken, hbody, hys y hy, Bool.and_comm]
  have hinner : (between.filter (· ∉ nodes)).filter (· ∉ b.taken w.document) =
      (between.filter fun x => !w.document.isElement x).filter (· ∉ nodes ++ b.frame) := by
    rw [List.filter_filter, List.filter_filter]
    refine List.filter_congr fun y hy => ?_
    rw [Bool.eq_iff_iff]
    simp [htaken, hbody, hy]
    grind
  have hnew : nodes.filter (· ∉ b.taken w.document) = nodes :=
    List.filter_eq_self.2 fun y hy => decide_eq_true (hnodes y hy).1
  have hbefore : ∀ y ∈ before ++ [b.first], y ∉ between := by grind
  have hafter : ∀ y ∈ b.last :: after, y ∉ between := by grind
  have hplaced : w'.document.children q =
      (before ++ [b.first]).filter (· ∉ nodes) ++ (nodes ++
        (between.filter (· ∉ nodes) ++ (b.last :: after).filter (· ∉ nodes))) := by
    rw [hchildren]
    simp [hfirst]
  rw [hd'.children_detachAll, hplaced, List.filter_append, houter _ hbefore,
    List.filter_append nodes, hnew, List.filter_append (between.filter _), hinner, houter _ hafter]
  simp only [List.append_assoc]

end Placed

end Stands

/-- Nodes that are not taken out with a block, and in which it does not stand, can be put in its
place, whatever places they have been in. -/
theorem replace_replaced (hd : w.document.Distinct)
    (h : b.Stands w.document q before between after) (hnodup : nodes.Nodup)
    (hnodes : ∀ x ∈ nodes, x ∈ w.document.ids ∧ x ∉ b.taken w.document ∧
      b.first ∉ w.document.descendants x) :
    ∃ w', b.replace nodes w = .ok () w' ∧
      b.Replaced w.document q before between after nodes w'.document := by
  obtain ⟨w₁, hinsert, -⟩ := Merge.exists_insertAllAfter_ok hd h.first_mem fun x hx =>
    ⟨(hnodes x hx).1, (hnodes x hx).2.2⟩
  refine ⟨{ w₁ with document := w₁.document.detachAll (b.taken w.document) }, ?_, ?_⟩
  · unfold replace
    rw [Merge.document_bind, Merge.bind_ok hinsert, Merge.edit_apply, removeFrame_detachAll]
    rfl
  · exact ⟨h.siblings_replaced hd hinsert hnodup fun x hx => (hnodes x hx).2,
      fun p _ hne => h.others_replaced hd hinsert hne⟩

/-- What stands between the anchors and is not in the body stays where it is, be it that it has come
there after the body was read. -/
theorem mem_children_replace (hd : w.document.Distinct)
    (hchildren : w.document.children q = before ++ b.first :: (between ++ b.last :: after))
    (hnodup : nodes.Nodup) (hrun : b.replace nodes w = .ok () w') {x : NodeId}
    (hx : x ∈ between) (hnodes : x ∉ nodes) (htaken : x ∉ b.body w.document ++ b.frame) :
    x ∈ w'.document.children q := by
  unfold replace at hrun
  rw [Merge.document_bind] at hrun
  obtain ⟨⟨⟩, w₁, hinsert, hrun⟩ := Merge.exists_of_bind_ok hrun
  rw [Merge.edit_apply, removeFrame_detachAll] at hrun
  cases hrun
  obtain ⟨hd', -, hplaced, -⟩ := Merge.insertAllAfter_children hd hnodup hinsert hchildren
  rw [hd'.children_detachAll, hplaced, List.mem_filter]
  simp [hx, hnodes, htaken]

end Block

end MailMerge
