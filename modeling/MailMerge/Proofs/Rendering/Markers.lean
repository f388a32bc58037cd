import Mathlib.Data.List.Perm.Subperm
import MailMerge.Proofs.Xml.Bare
import MailMerge.Proofs.Statement.Waiting
import MailMerge.Rendering

/-!
# Markers in rows

How deep blocks can be nested is bounded by the number of nodes that can begin a field. The body of a
block has fewer of them than the template has, for it has none of its own and not the one that begins
the block (`markers_following_lt`).
-/

namespace MailMerge

open Xml

namespace Xml

namespace Forest

variable {around f g : Forest} {r x : NodeId} {s : Site}

/-- The number of nodes that can begin a field. -/
def markers (f : Forest) : Nat :=
  (f.nodes.map Prod.snd).countP fun node =>
    node.isNamed "w:fldSimple" || Field.isMarker "begin" node

@[simp] theorem markers_append (f g : Forest) : (f ++ g).markers = f.markers + g.markers := by
  simp [markers]

theorem markers_cons (x : NodeId) (node : Node) (children rest : Forest) :
    (cons x node children rest).markers =
      (single 0 node .nil).markers + (children.markers + rest.markers) := by
  simp only [markers, Forest.nodes, single, List.map_cons, List.map_append, List.append_nil,
    List.countP_cons, List.countP_append, List.map_nil, List.countP_nil]
  omega

theorem markers_of_bare (h : f.bare = g.bare) : f.markers = g.markers := by
  rw [markers, markers, payloads_eq_of_bare h]

theorem markers_eq_length (f : Forest) :
    f.markers = (f.nodes.filter fun entry => Field.canBegin entry.2).length := by
  rw [markers, List.countP_map, List.countP_eq_length_filter]
  rfl

/-- What a row is filled with has no more markers than the filled row. -/
theorem markers_le_refill (hr : r ∈ around.ids) : f.markers ≤ (around.refill r f).markers := by
  induction around with
  | nil => cases hr
  | cons id node children rest ihc ihr =>
    by_cases hid : id = r
    · rw [hid, refill, rewrite_cons_self, markers_cons]
      omega
    · rw [refill_cons_of_ne _ _ _ hid, markers_cons]
      rw [ids_cons, List.mem_cons, List.mem_append] at hr
      rcases hr with heq | hr | hr
      · exact absurd heq.symm hid
      · have := ihc hr
        omega
      · have := ihr hr
        omega

/-- A node with children that can stand there: begin markers only stand right below elements that
are not simple fields. -/
def admits (node : Node) (children : Forest) : Bool :=
  (children.tops.all fun top => !Field.isMarker "begin" top.2) ||
    (node.isElement && !node.isNamed "w:fldSimple")

/-- Begin markers stand right below elements that are not simple fields, or without a parent. -/
def framed : Forest → Bool
  | nil => true
  | cons _ node children rest => admits node children && children.framed && rest.framed

@[simp] theorem framed_append (f g : Forest) : (f ++ g).framed = (f.framed && g.framed) := by
  induction f with
  | nil => rfl
  | cons id node children rest _ ih => simp [framed, ih, Bool.and_assoc]

theorem admits_bare (node : Node) (children : Forest) :
    admits node children.bare = admits node children := by
  have hall := all_tops_of_bare (p := fun n => !Field.isMarker "begin" n) children.bare_bare
  rw [admits, admits, hall]

@[simp] theorem framed_bare (f : Forest) : f.bare.framed = f.framed := by
  induction f with
  | nil => rfl
  | cons id node children rest ihc ihr => rw [bare_cons, framed, framed, admits_bare, ihc, ihr]

theorem framed_of_bare (h : f.bare = g.bare) : f.framed = g.framed := by
  rw [← framed_bare f, h, framed_bare]

theorem framed_iff (hf : f.ids.Nodup) :
    f.framed = true ↔ ∀ x s, f.site? x = some s → admits s.node s.children = true := by
  induction f with
  | nil => exact ⟨fun _ x s hs => by simp [site?] at hs, fun _ => rfl⟩
  | cons id node children rest ihc ihr =>
    obtain ⟨-, -, hchildren, hrest, -⟩ := nodup_cons_iff.1 hf
    rw [framed, Bool.and_eq_true, Bool.and_eq_true, ihc hchildren, ihr hrest, and_assoc,
      forall_site?_cons (p := fun s => admits s.node s.children = true) hf]

end Forest

namespace Document

open Forest

variable {d e : Document} {f : Forest} {x : NodeId} {others rest : List Forest}

/-- A row has no more markers than the document. -/
theorem markers_le_of_row (hrow : f ∈ d.allRows) : f.markers ≤ Rendering.markers d := by
  have hsub := List.sublist_flatten_of_mem (List.mem_map_of_mem (f := Forest.nodes) hrow)
  rw [markers, List.countP_map]
  exact hsub.countP_le

/-- What a node is filled with has no more markers than the document. -/
theorem Holds.markers_le {around : Forest} (h : d.Holds around x f others) :
    f.markers ≤ Rendering.markers d :=
  (markers_le_refill h.mem).trans (markers_le_of_row h.row_mem)

theorem Apex.markers_tree_le (h : d.Apex x rest) : (d.tree x).markers ≤ Rendering.markers d :=
  markers_le_of_row h.tree_mem

/-- Trees of later siblings have no more markers than all that comes after a node. -/
theorem Shows.markers_le (h : d.Shows f) {nodes : List NodeId} (hsub : nodes.Sublist f.topIds) :
    (join (nodes.map d.tree)).markers ≤ f.markers := by
  induction f generalizing nodes with
  | nil =>
    rw [List.sublist_nil.1 hsub]
    exact Nat.le_refl _
  | cons id node children rest _ ih =>
    rw [topIds_cons] at hsub
    have happend := markers_append (single id node children) rest
    rcases List.sublist_cons_iff.1 hsub with hsub | ⟨more, rfl, hmore⟩
    · exact (ih h.later hsub).trans (happend ▸ Nat.le_add_left _ _)
    · rw [List.map_cons, join, markers_append, h.tree_eq]
      exact (Nat.add_le_add_left (ih h.later hmore) _).trans (Nat.le_of_eq happend.symm)

theorem Shows.framed (h : d.Shows f) (hframed : f.framed = true) {nodes : List NodeId}
    (hsub : nodes.Sublist f.topIds) : (join (nodes.map d.tree)).framed = true := by
  induction f generalizing nodes with
  | nil =>
    rw [List.sublist_nil.1 hsub]
    rfl
  | cons id node children rest _ ih =>
    have happend : (single id node children ++ rest).framed = true := hframed
    rw [framed_append, Bool.and_eq_true] at happend
    obtain ⟨hfirst, hlater⟩ := happend
    rw [topIds_cons] at hsub
    rcases List.sublist_cons_iff.1 hsub with hsub | ⟨more, rfl, hmore⟩
    · exact ih h.later hlater hsub
    · rw [List.map_cons, join, framed_append, h.tree_eq, hfirst, ih h.later hlater hmore]
      rfl

end Document

end Xml

open Xml.Forest Xml.Document

variable {d e : Document} {x y m : NodeId} {rest : List Forest}

/-- What is said of the tree of a node is said of the nodes in it. -/
theorem Field.framed_of_tree (ha : d.Apex x rest) (h : (d.tree x).framed = true) :
    Field.Framed d x := by
  intro m hm node hnode hmarker y hchild
  obtain ⟨s, hs, htop⟩ := mem_children_iff.1 hchild
  have hy := ha.mem_of_mem_descendants hm (mem_descendants_of_mem_children hchild)
  obtain ⟨t, ht⟩ := Forest.exists_site? hy
  obtain ⟨s', hs', hnode', hchildren⟩ := (ha.distinct.shows_tree x).has y t ht
  rw [hs] at hs'
  cases hs'
  have hadmits := (framed_iff (ha.distinct.nodup_descendants x)).1 h y t ht
  rw [← hnode', ← hchildren, admits, Bool.or_eq_true, Bool.and_eq_true, Bool.not_eq_true'] at hadmits
  refine ⟨s.node, by rw [node?_eq_site?, hs]; rfl, hadmits.resolve_left fun hall => ?_⟩
  obtain ⟨⟨m, n⟩, hn, rfl⟩ := List.mem_map.1 htop
  have hbelow : (m, n) ∈ (d.below y).nodes := by
    rw [below_eq_site?, hs]
    exact (tops_sublist _).subset hn
  have hsame := (ha.distinct.shows_below y).node? hbelow
  rw [hnode] at hsame
  cases hsame
  have hnone := List.all_eq_true.1 hall _ hn
  rw [hmarker] at hnone
  cases hnone

namespace Statement

/-- No new node comes after a quiet one that could begin a field. -/
theorem Quiet.mem (h : Quiet d x e y) {z : NodeId} {n : Node} (hz : (z, n) ∈ (e.following y).nodes)
    (hbegin : Field.canBegin n = true) : z ∈ d.descendants x := by
  by_contra hnew
  rw [h z n hz hnew] at hbegin
  cases hbegin

/-- Fewer nodes that can begin a field come after the first anchor of a block than there are in the
template. -/
theorem markers_following_lt {opening : Opening} {b : Block} (ha : d.Apex x rest)
    (hk : Kept d x e) (hb : FoundAt d x m (.block opening b)) (hquiet : Quiet d x e b.first) :
    (e.following b.first).markers < (d.tree x).markers := by
  obtain ⟨node, hnode, hbegin⟩ := hb.node_canBegin
  have hfirst := hb.anchor_mem ha (f := b.first) rfl
  have htree := ha.distinct.shows_tree x
  have hshows := hk.distinct.shows_following b.first
  -- All of them are nodes of the template that can begin a field, and the block's own is another.
  let begins : Forest → List NodeId := fun f =>
    (f.nodes.filter fun entry => Field.canBegin entry.2).map Prod.fst
  have hold : ∀ z ∈ begins (e.following b.first), z ∈ begins (d.tree x) := by
    intro z hz
    obtain ⟨⟨_, n⟩, hmem, rfl⟩ := List.mem_map.1 hz
    obtain ⟨hmem, hn⟩ := List.mem_filter.1 hmem
    have hin := hquiet.mem hmem hn
    have hsame : d.node? _ = some n := (hk.node _ hin).symm.trans (hshows.node? hmem)
    exact List.mem_map_of_mem (List.mem_filter.2 ⟨htree.mem_nodes_iff.2 ⟨hin, hsame⟩, hn⟩)
  have hout : m ∉ begins (e.following b.first) := by
    intro hmem
    obtain ⟨⟨_, n⟩, hin, rfl⟩ := List.mem_map.1 hmem
    have hafter := List.mem_map_of_mem (f := Prod.fst) (List.mem_of_mem_filter hin)
    exact Nat.lt_irrefl _ (hb.place_lt_of_past ha rfl (hk.after b.first hfirst _ hb.mem hafter))
  have hself : m ∈ begins (d.tree x) :=
    List.mem_map_of_mem (List.mem_filter.2 ⟨htree.mem_nodes_iff.2 ⟨hb.mem, hnode⟩, hbegin⟩)
  have hnodup : (m :: begins (e.following b.first)).Nodup := by
    refine List.nodup_cons.2 ⟨hout, ?_⟩
    exact (List.filter_sublist.map Prod.fst).nodup hshows.nodup
  have hle := (hnodup.subperm (List.cons_subset.2 ⟨hself, hold⟩)).length_le
  simp only [begins, List.length_cons, List.length_map] at hle
  rw [markers_eq_length, markers_eq_length]
  exact hle

theorem framed_following (hframed : Field.Framed d x) (hk : Kept d x e) (hm : KeptMarkers d x e)
    (hquiet : Quiet d x e y) : (e.following y).framed = true := by
  have hshows := hk.distinct.shows_following y
  refine (framed_iff hshows.nodup).2 fun z s hs => ?_
  obtain ⟨t, ht, hnode, hchildren⟩ := hshows.has z s hs
  rw [admits, Bool.or_eq_true, Bool.and_eq_true, Bool.not_eq_true']
  by_cases hall : (s.children.tops.all fun top => !Field.isMarker "begin" top.2) = true
  · exact .inl hall
  obtain ⟨⟨a, n⟩, htop, hmarker⟩ : ∃ top ∈ s.children.tops, Field.isMarker "begin" top.2 = true := by
    simpa using hall
  have hin := (nodes_sublist_of_site? hs).subset
    (List.mem_cons_of_mem _ (List.mem_append_left _ ((tops_sublist _).subset htop)))
  have ha := hquiet.mem hin (by simp [Field.canBegin, hmarker])
  have hchild : a ∈ e.children z :=
    mem_children_iff.2 ⟨t, ht, hchildren ▸ List.mem_map_of_mem htop⟩
  have hz : z ∈ d.descendants x := by
    by_contra hnew
    exact hk.closed z hnew a ha (mem_descendants_of_mem_children hchild)
  have hn : d.node? a = some n := (hk.node a ha).symm.trans (hshows.node? hin)
  obtain ⟨n', hn', helement, hnamed⟩ :=
    hframed a ha n hn hmarker z (hm z hz a ha n hn hmarker hchild)
  rw [← hk.node z hz, node?_eq_site?, ht] at hn'
  cases hn'
  exact .inr ⟨hnode ▸ helement, hnode ▸ hnamed⟩

end Statement

end MailMerge
