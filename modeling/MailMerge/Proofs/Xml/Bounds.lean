import Mathlib.Logic.Relation
import MailMerge.Proofs.Xml.Gains
import MailMerge.Proofs.Xml.Place

/-!
# What edits can add

Most edits of a document add nothing but new nodes to what stands below and after the nodes that
were there before. A row bounds another one when that one holds no other nodes than its own and new
ones of some kind. Replacing a field or a block comes down to edits of two kinds, one after the other:
new trees are put between the nodes of a template, and nodes are taken out.
-/

namespace MailMerge.Xml

namespace Forest

variable {p : NodeId → Node → Prop} {f g k : Forest} {x y z : NodeId} {n : Node}

/-- The nodes of a row are those of another one and new ones, and so are its siblings. -/
structure Bounds (p : NodeId → Node → Prop) (f g : Forest) : Prop where
  nodes : ∀ z n, (z, n) ∈ g.nodes → (z, n) ∈ f.nodes ∨ p z n
  tops : ∀ z n, (z, n) ∈ g.tops → (z, n) ∈ f.tops ∨ p z n

namespace Bounds

theorem refl (f : Forest) : Bounds p f f := ⟨fun _ _ => .inl, fun _ _ => .inl⟩

theorem trans (h : Bounds p f g) (h' : Bounds p g k) : Bounds p f k :=
  ⟨fun z n hz => (h'.nodes z n hz).elim (h.nodes z n) .inr,
    fun z n hz => (h'.tops z n hz).elim (h.tops z n) .inr⟩

theorem nil (f : Forest) : Bounds p f .nil := ⟨fun _ _ h => (nomatch h), fun _ _ h => (nomatch h)⟩

theorem mem_ids (h : Bounds p f g) (hz : z ∈ g.ids) (hold : ∀ n, ¬p z n) : z ∈ f.ids := by
  obtain ⟨n, hn⟩ := exists_node_of_mem_ids hz
  exact List.mem_map_of_mem ((h.nodes z n hn).resolve_right (hold n))

theorem mem_topIds (h : Bounds p f g) (hz : z ∈ g.topIds) (hold : ∀ n, ¬p z n) :
    z ∈ f.topIds := by
  obtain ⟨⟨_, n⟩, hn, rfl⟩ := List.mem_map.1 hz
  exact List.mem_map_of_mem ((h.tops _ n hn).resolve_right (hold n))

end Bounds

theorem Gains.bounds (h : Gains p f g) : Bounds p f g :=
  ⟨fun _ _ hz => h.mem_nodes hz, fun _ _ hz => h.mem_tops hz⟩

theorem without_nodes_sublist (x : NodeId) (f : Forest) :
    (f.without x).nodes.Sublist f.nodes := by
  induction f with
  | nil => exact .refl _
  | cons id node children rest ihc ihr =>
    rw [without, rewrite]
    split
    · exact (List.sublist_append_right _ _).cons _
    · exact (ihc.append ihr).cons_cons _

theorem without_tops_sublist (x : NodeId) (f : Forest) : (f.without x).tops.Sublist f.tops := by
  induction f with
  | nil => exact .refl _
  | cons id node children rest _ ih =>
    rw [without, rewrite]
    split
    · exact (List.Sublist.refl _).cons _
    · exact ih.cons_cons _

theorem bounds_without (x : NodeId) (f : Forest) : Bounds p f (f.without x) :=
  ⟨fun _ _ hz => .inl ((without_nodes_sublist x f).subset hz),
    fun _ _ hz => .inl ((without_tops_sublist x f).subset hz)⟩

end Forest

namespace Document

open Forest

variable {c d e : Document} {old : List NodeId} {p : NodeId → Node → Prop} {x y z : NodeId}
variable {s : Site}

theorem isSome_node?_iff : (d.node? x).isSome ↔ x ∈ d.ids := by
  rw [node?_eq_site?, Option.isSome_map, isSome_site?_iff]

/-- A later document where some given nodes are what they were, and nothing has come below or after
them but new nodes. -/
structure Bounds (old : List NodeId) (p : NodeId → Node → Prop) (d e : Document) : Prop where
  distinct : e.Distinct
  ids : d.ids ⊆ e.ids
  node : ∀ y ∈ old, e.node? y = d.node? y
  below : ∀ y ∈ old, Forest.Bounds p (d.below y) (e.below y)
  following : ∀ y ∈ old, Forest.Bounds p (d.following y) (e.following y)
  closed : ∀ y ∉ old, ∀ z ∈ old, z ∈ e.descendants y → z ∈ d.descendants y

namespace Bounds

theorem refl (hd : d.Distinct) : Bounds old p d d :=
  ⟨hd, List.Subset.refl _, fun _ _ => rfl, fun _ _ => .refl _, fun _ _ => .refl _,
    fun _ _ _ _ h => h⟩

theorem trans (h : Bounds old p c d) (h' : Bounds old p d e) : Bounds old p c e where
  distinct := h'.distinct
  ids := List.Subset.trans h.ids h'.ids
  node y hy := (h'.node y hy).trans (h.node y hy)
  below y hy := (h.below y hy).trans (h'.below y hy)
  following y hy := (h.following y hy).trans (h'.following y hy)
  closed y hy z hz hin := h.closed y hy z hz (h'.closed y hy z hz hin)

/-- Nodes that stand below a given node have stood there before. -/
theorem mem_descendants (h : Bounds old p d e) (hold : old ⊆ d.ids) (hy : y ∈ old)
    (hz : z ∈ e.descendants y) (hnew : ∀ n, ¬p z n) : z ∈ d.descendants y := by
  rw [mem_descendants_iff_below (hold hy)]
  rw [mem_descendants_iff_below (h.ids (hold hy))] at hz
  exact hz.imp_right fun hz => (h.below y hy).mem_ids hz hnew

end Bounds

theorem Gains.bounds (h : Gains old p d e) (hold : old ⊆ d.ids) : Bounds old p d e := by
  refine ⟨h.distinct, h.ids, fun y hy => ?_, fun y hy => ?_, fun y hy => ?_, h.closed⟩
  all_goals
    obtain ⟨s, hs⟩ := exists_site? (hold hy)
    obtain ⟨t, ht, hnode, hbelow, hlater⟩ := h.site y hy s hs
  · rw [node?_eq_site?, node?_eq_site?, hs, ht]
    exact congrArg some hnode
  · rw [below_eq_site?, below_eq_site?, hs, ht]
    exact hbelow.bounds
  · rw [following_eq_site?, following_eq_site?, hs, ht]
    exact hlater.bounds

theorem Distinct.detach_bounds (hd : d.Distinct) (x : NodeId) : Bounds old p d (d.detach x) := by
  refine ⟨hd.detach x, ?_, fun y _ => ?_, fun y _ => ?_, fun y _ => ?_, fun y _ z _ h => ?_⟩
  · rw [ids_eq_map_nodes, ids_eq_map_nodes]
    exact ((detach_perm d x).map Prod.fst).symm.subset
  · rw [node?_eq_site?, node?_eq_site?, hd.site?_detach]
    cases d.site? y with
    | none => rfl
    | some s => by_cases hyx : y = x <;> simp [hyx]
  · rw [below_eq_site?, below_eq_site?, hd.site?_detach]
    cases d.site? y with
    | none => exact .refl _
    | some s =>
      by_cases hyx : y = x
      · simpa [hyx] using .refl _
      · simpa [hyx] using bounds_without x _
  · rw [following_eq_site?, following_eq_site?, hd.site?_detach]
    cases d.site? y with
    | none => exact .refl _
    | some s =>
      by_cases hyx : y = x
      · simpa [hyx] using .nil _
      · simpa [hyx] using bounds_without x _
  · exact (hd.mem_descendants_detach.1 h).1

theorem Distinct.detachAll_bounds (hd : d.Distinct) (xs : List NodeId) :
    Bounds old p d (d.detachAll xs) := by
  induction xs generalizing d with
  | nil => exact .refl hd
  | cons x xs ih => exact (hd.detach_bounds x).trans (ih (hd.detach x))

/-- A node that has been taken out is not followed by anything. -/
theorem Distinct.following_detach_self (hd : d.Distinct) : (d.detach x).following x = .nil := by
  rw [following_eq_site?, hd.site?_detach]
  cases d.site? x with
  | none => rfl
  | some s => simp

theorem Distinct.following_detachAll (hd : d.Distinct) {xs : List NodeId} (hx : x ∈ xs) :
    (d.detachAll xs).following x = .nil := by
  obtain ⟨before, after, rfl⟩ := List.append_of_mem hx
  have hlater : Bounds [x] (fun _ _ => False) ((d.detachAll before).detach x)
      (((d.detachAll before).detach x).detachAll after) :=
    ((hd.detachAll before).detach x).detachAll_bounds after
  have heq : d.detachAll (before ++ x :: after) =
      ((d.detachAll before).detach x).detachAll after := by
    rw [detachAll_append]
    rfl
  rw [heq]
  have hbounds := hlater.following x (by simp)
  rw [(hd.detachAll before).following_detach_self] at hbounds
  cases hrow : (((d.detachAll before).detach x).detachAll after).following x with
  | nil => rfl
  | cons id node children rest =>
    rw [hrow] at hbounds
    rcases hbounds.tops id node (by simp [tops]) with h | h
    · cases h
    · exact h.elim

/-! ## Moving -/

namespace MovedAfter

variable {t : Site} {anchor : NodeId}

/-- What follows a node that is moved next to another one is what followed that one. -/
theorem site?_outer (h : d.MovedAfter anchor x s t e) (hy : y ∉ d.descendants x) :
    ∀ u, (d.detach x).site? y = some u → ∃ v, e.site? y = some v ∧ v.node = u.node ∧
      Forest.Gains (fun z _ => z ∈ d.descendants x) u.children v.children ∧
      Forest.Gains (fun z _ => z ∈ d.descendants x) u.rest v.rest ∧
      (y ≠ anchor → anchor ∉ u.rest.ids → v.rest = u.rest) := by
  intro u hu
  have htree : ∀ z n, (z, n) ∈ (s.tree x).nodes → z ∈ d.descendants x := by
    intro z n hz
    rw [← ids_tree_of_site? h.moved]
    exact List.mem_map_of_mem hz
  have hgraft : ∀ f : Forest, Forest.Gains (fun z _ => z ∈ d.descendants x) f
      (graftAfter anchor (s.tree x) f) := fun f =>
    gains_rewrite f fun _ => .keep (.refl _) (gains_append_left htree (.refl _))
  by_cases hne : y = anchor
  · subst hne
    rw [h.target] at hu
    cases hu
    exact ⟨_, h.before, rfl, .refl _, gains_append_left htree (.refl _), fun hne => absurd rfl hne⟩
  · refine ⟨u.map (graftAfter anchor (s.tree x)), ?_, rfl, hgraft _, hgraft _, fun _ hout => ?_⟩
    · rw [h.outer y hy hne, hu, Option.map_some]
    · exact rewrite_of_notMem hout

/-- A tree without given nodes comes next to a node when it has been taken out. -/
theorem gains (h : d.MovedAfter anchor x s t e) (hd : d.Distinct)
    (hout : ∀ y ∈ old, y ∉ d.descendants x) :
    Gains old (fun z _ => z ∉ old) (d.detach x) e := by
  have himp : ∀ {f g : Forest}, Forest.Gains (fun z _ => z ∈ d.descendants x) f g →
      Forest.Gains (fun z _ => z ∉ old) f g :=
    fun h => h.imp fun z _ hz hin => hout z hin hz
  refine ⟨h.distinct hd, ?_, fun y hy u hu => ?_, fun y _ z hz hin => ?_⟩
  · rw [ids_eq_map_nodes, ids_eq_map_nodes]
    exact ((h.perm.trans (detach_perm d x).symm).map Prod.fst).symm.subset
  · obtain ⟨v, hv, hnode, hbelow, hlater, -⟩ := h.site?_outer (hout y hy) u hu
    exact ⟨v, hv, hnode, himp hbelow, himp hlater⟩
  · rw [h.mem_descendants hd (hout z hz)] at hin
    rw [hd.mem_descendants_detach]
    exact ⟨hin, fun _ _ => hout z hz⟩

theorem bounds (h : d.MovedAfter anchor x s t e) (hd : d.Distinct) (hold : old ⊆ d.ids)
    (hout : ∀ y ∈ old, y ∉ d.descendants x) : Bounds old (fun z _ => z ∉ old) d e := by
  have hdetached : Bounds old (fun z _ => z ∉ old) d (d.detach x) := hd.detach_bounds x
  exact hdetached.trans ((h.gains hd hout).bounds (List.Subset.trans hold hdetached.ids))

/-- Nothing comes after a node when the place next to which another one is moved is not after it. -/
theorem following_subset (h : d.MovedAfter anchor x s t e) (hd : d.Distinct) (hy : y ∈ d.ids)
    (hout : y ∉ d.descendants x) (hne : y ≠ anchor) (hanchor : anchor ∉ (d.following y).ids) :
    (e.following y).nodes ⊆ (d.following y).nodes := by
  have hdetached : Bounds [y] (fun _ _ => False) d (d.detach x) := hd.detach_bounds x
  obtain ⟨u, hu⟩ := exists_site? (hdetached.ids hy)
  obtain ⟨v, hv, -, -, -, hsame⟩ := h.site?_outer hout u hu
  have hbefore : (d.detach x).following y = u.rest := by
    rw [following_eq_site?, hu]
    rfl
  have hsub : u.rest.nodes ⊆ (d.following y).nodes := by
    rintro ⟨z, n⟩ hz
    exact ((hdetached.following y (by simp)).nodes z n (hbefore ▸ hz)).resolve_right id
  rw [following_eq_site? e, hv, Option.map_some, Option.getD_some, hsame hne]
  · exact hsub
  · exact fun hin => hanchor (List.map_subset Prod.fst hsub hin)

end MovedAfter

/-! ## Edits one after the other -/

variable {takes : NodeId → Prop} {a : NodeId}

/-- One edit: trees of new nodes come between the old ones, or a node is taken out. -/
inductive Edit (old : List NodeId) (p : NodeId → Node → Prop) (takes : NodeId → Prop)
    (d : Document) : Document → Prop where
  | gain {e : Document} (gains : Gains old p d e) : Edit old p takes d e
  | detach {x : NodeId} (taken : takes x) : Edit old p takes d (d.detach x)

/-- Edits one after the other. -/
abbrev Edits (old : List NodeId) (p : NodeId → Node → Prop) (takes : NodeId → Prop) :
    Document → Document → Prop := Relation.ReflTransGen (Edit old p takes)

/-- What stands below an old node stays there. -/
theorem Gains.descendants_subset (h : Gains old p d e) (hy : y ∈ old) :
    d.descendants y ⊆ e.descendants y := by
  intro z hz
  obtain ⟨s, hs, hzs⟩ := mem_descendants_iff.1 hz
  obtain ⟨t, ht, -, hchildren, -⟩ := h.site y hy s hs
  exact mem_descendants_iff.2 ⟨t, ht, hzs.imp_right fun hin => hchildren.ids_subset hin⟩

/-- What comes after an old node stays there. -/
theorem Gains.topIds_following_subset (h : Gains old p d e) (hy : y ∈ old) :
    (d.following y).topIds ⊆ (e.following y).topIds := by
  intro z hz
  obtain ⟨s, hs, hzs⟩ := mem_topIds_following_iff.1 hz
  obtain ⟨t, ht, -, -, hrest⟩ := h.site y hy s hs
  exact mem_topIds_following_iff.2 ⟨t, ht, (hrest.tops_sublist.map Prod.fst).subset hzs⟩

/-- What comes after a node stays there unless it or that node is taken out. -/
theorem Distinct.mem_topIds_following_detach (hd : d.Distinct) (hy : y ≠ x) (hne : a ≠ x)
    (ha : a ∈ (d.following y).topIds) : a ∈ ((d.detach x).following y).topIds := by
  obtain ⟨s, hs, hin⟩ := mem_topIds_following_iff.1 ha
  have hsite := hd.site?_detach (x := x) (y := y)
  rw [hs, Option.map_some, if_neg hy] at hsite
  refine mem_topIds_following_iff.2 ⟨_, hsite, ?_⟩
  rw [Site.map_rest, topIds_without (nodup_rest hd.nodup_forest (hd.forest_site? hs))]
  exact List.mem_filter.2 ⟨hin, by simpa using hne⟩

theorem Edit.bounds (h : Edit old p takes d e) (hd : d.Distinct) (hold : old ⊆ d.ids) :
    Bounds old p d e := by
  cases h with
  | gain gains => exact gains.bounds hold
  | detach => exact hd.detach_bounds _

theorem Edits.bounds (h : Edits old p takes d e) (hd : d.Distinct) (hold : old ⊆ d.ids) :
    Bounds old p d e := by
  induction h with
  | refl => exact .refl hd
  | tail _ hedit ih => exact ih.trans (hedit.bounds ih.distinct (List.Subset.trans hold ih.ids))

theorem edits_detachAll (d : Document) {xs : List NodeId} (h : ∀ x ∈ xs, takes x) :
    Edits old p takes d (d.detachAll xs) := by
  induction xs generalizing d with
  | nil => exact .refl
  | cons x xs ih =>
    rw [List.forall_mem_cons] at h
    exact .head (.detach h.1) (ih (d.detach x) h.2)

end Document

end MailMerge.Xml
