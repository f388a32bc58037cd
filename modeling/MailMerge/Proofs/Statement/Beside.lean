import MailMerge.Proofs.Statement.Ready
import MailMerge.Proofs.Xml.Still

/-!
# Fields beside a body

The body of a block is what follows its first anchor. A field that begins earlier can stand there
only if that anchor is taken out with the field or stands within what the field displays: the nodes
of a field come one after the other in their row, and the anchor does not stand between them unless
it is one of them.
-/

namespace MailMerge

open Xml Xml.Forest Xml.Document

variable {d : Document} {x y m k : NodeId} {field : Field} {rest : List Forest}

namespace Field

/-- What follows a node does not change where a field is replaced or removed, unless the node is
taken out with the field. -/
structure Beside (d : Document) (field : Field) (f : NodeId) : Prop where
  mem : f ∈ d.ids
  out : ∀ y ∈ field.displays, f ∉ d.descendants y
  taken : ∀ y ∈ field.handles, y ∈ (d.following f).ids → f ∈ field.nodes

/-- What a field is told by is one of its nodes or the element after one. -/
theorem BeginsAt.mem_handles (h : field.BeginsAt d k) (hy : y ∈ field.handles) :
    y ∈ field.nodes ∨ ∃ run ∈ field.nodes, d.nextElement? run = some y := by
  obtain ⟨node, -, hfield⟩ := h
  unfold ofNode? at hfield
  split at hfield
  next =>
    cases hfield
    exact .inl hy
  next =>
    split at hfield
    next =>
      obtain ⟨first, -, rfl⟩ := Option.map_eq_some_iff.1 hfield
      rw [handles, ofRuns] at hy
      dsimp only at hy
      rw [← List.cons_append, List.mem_append, Option.mem_toList] at hy
      refine hy.imp_right fun hafter => ?_
      obtain ⟨run, hrun, hnext⟩ := Option.bind_eq_some_iff.1 hafter
      exact ⟨run, List.mem_of_find?_eq_some hrun, hnext⟩
    next =>
      split at hfield
      next =>
        cases hfield
        exact .inl hy
      next => cases hfield

section Following

variable {f : NodeId} {node : Node} (ha : d.Apex x rest) (h : field.BeginsAt d k)
  (hk : k ∈ d.descendants x) (hf : f ∈ d.descendants x) (hnode : d.node? f = some node)
  (helement : node.isElement = true) (hnot : ¬d.Past x f k)

include ha h hk hf hnode helement hnot

/-- A node of a field that follows an element follows a node of the field, unless the field begins
after that element. -/
theorem BeginsAt.mem_nodes_of_following (hy : y ∈ field.nodes) (hin : y ∈ (d.following f).ids) :
    f ∈ field.nodes := by
  have hpast : ∀ z ∈ (d.following f).ids, k ∉ d.descendants z := fun z hz hbelow =>
    hnot ((ha.past_of_mem_following hf hz).below ha.distinct hbelow)
  have hkids := mem_ids_of_mem_descendants hk
  rcases h.cases ha.distinct with ⟨hnodes, -⟩ | ⟨first, hruns⟩
  · rw [hnodes, List.mem_singleton] at hy
    exact absurd (mem_descendants_self hkids) (hy ▸ hpast y hin)
  have hbegins := mem_descendants_of_mem_children hruns.child
  rw [hruns.nodes, List.mem_cons] at hy ⊢
  rcases hy with rfl | hy
  · exact absurd hbegins (hpast y hin)
  have hfollow := mem_topIds_of_mem_followingElements (runsAfter_subset d first hy)
  obtain ⟨s, hs, hbelow⟩ := ha.distinct.exists_sibling_of_mem_following hin
  by_cases heq : y = s
  · subst heq
    rcases ha.distinct.eq_or_mem_following hs hfollow with rfl | hlater | hearlier
    · exact .inl rfl
    · have hsibling := ha.distinct.mem_followingElements hlater hnode helement
      exact .inr (mem_runsAfter_of_following ha.distinct hy hsibling hs)
    · exact absurd hbegins (hpast first (mem_ids_of_mem_topIds hearlier))
  · -- The field stands below what follows the element, and so does the node that begins it.
    have hfirst := ha.distinct.mem_descendants_of_following hfollow hbelow heq
    exact absurd (ha.distinct.mem_descendants_trans hbegins hfirst)
      (hpast s (mem_ids_of_mem_topIds hs))

theorem BeginsAt.mem_nodes_of_handle (hy : y ∈ field.handles) (hin : y ∈ (d.following f).ids) :
    f ∈ field.nodes := by
  have hnodes := fun {z : NodeId} => h.mem_nodes_of_following ha hk hf hnode helement hnot (y := z)
  rcases h.mem_handles hy with hy | ⟨run, hrun, hnext⟩
  · exact hnodes hy hin
  have hfirst := List.mem_of_head? hnext
  have hfollow := mem_topIds_of_mem_followingElements hfirst
  obtain ⟨s, hs, hbelow⟩ := ha.distinct.exists_sibling_of_mem_following hin
  by_cases heq : y = s
  · subst heq
    rcases ha.distinct.eq_or_mem_following hs hfollow with rfl | hlater | hearlier
    · exact hrun
    · have hsibling := ha.distinct.mem_followingElements hlater hnode helement
      obtain ⟨more, hmore⟩ := List.head?_eq_some_iff.1 hnext
      rw [hmore, List.mem_cons] at hsibling
      rcases hsibling with rfl | hsibling
      · exact absurd hs (ha.distinct.notMem_following_self _)
      · refine absurd hs (ha.distinct.notMem_following_of_pair (x := run) ?_)
        rw [hmore]
        exact (List.singleton_sublist.2 hsibling).cons_cons y
    · exact hnodes hrun (mem_ids_of_mem_topIds hearlier)
  · have hrunBelow := ha.distinct.mem_descendants_of_following hfollow hbelow heq
    have hrow := (ha.distinct.shows_following f).has
    exact hnodes hrun ((hrow.mem_ids_iff (ha.distinct.nodup_following f)).2 ⟨s, hs, hrunBelow⟩)

end Following

/-- What a field has beside it in a template it has in a later document. -/
theorem Beside.later {e : Document} {f : NodeId} {p : NodeId → Prop} (h : field.Beside d f)
    (ha : d.Apex x rest) (hfield : field ∈ discover d x) (hf : f ∈ d.descendants x)
    (hk : Kept d x e) (hw : Whole p d e) (hp : p f) : field.Beside e f where
  mem := hk.ids h.mem
  out y hy hin := by
    have hmem := mem_descendants_of_mem_discover ha hfield (field.displays_subset_handles hy)
    exact h.out y hy (hk.below y hmem f hf hin)
  taken y hy hin := h.taken y hy (hw.subset hp hin)

end Field

namespace Statement

variable {opening : Opening} {b : Block}

/-- A field that does not display the beginning of a later block has it beside. -/
theorem FoundAt.beside (ht : FoundAt d x m (.block opening b)) (ha : d.Apex x rest)
    (hframed : Field.Framed d x) (hfield : field.FoundAt d x k) (hlt : d.place x k < d.place x m)
    (hclear : ∀ y ∈ field.displays, b.first ∉ d.descendants y) : field.Beside d b.first := by
  have hfirst := ht.anchor_mem ha (f := b.first) rfl
  obtain ⟨node, hnode, helement⟩ := ht.anchor_isElement ha hframed (f := b.first) rfl
  refine ⟨mem_ids_of_mem_descendants hfirst, hclear, fun y hy hin => ?_⟩
  refine hfield.begins.mem_nodes_of_handle ha hfield.mem hfirst hnode helement (fun hpast => ?_)
    hy hin
  exact Nat.lt_asymm hlt (ht.place_lt_of_past ha rfl hpast)

end Statement

end MailMerge
