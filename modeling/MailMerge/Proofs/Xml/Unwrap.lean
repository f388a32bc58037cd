import MailMerge.Proofs.Xml.Bounds
import MailMerge.Proofs.Xml.Place

/-!
# Unwrapping

When a node with a parent is unwrapped, its children take its place among its siblings, and it stands
alone without children (`unwrap_melts`). All other nodes stand within and before those that they stood
within and before.
-/

namespace MailMerge.Xml

namespace Forest

variable {f : Forest} {x y z : NodeId} {s : Site}

theorem dissolve_nodes_sublist (x : NodeId) (f : Forest) :
    (f.dissolve x).nodes.Sublist f.nodes := by
  induction f with
  | nil => exact .refl _
  | cons id node children rest ihc ihr =>
    rw [dissolve, rewrite]
    split
    · rw [nodes_append]
      exact (List.Sublist.refl _).cons _
    · exact (ihc.append ihr).cons_cons _

/-- The children of a dissolved node join its siblings. -/
theorem mem_topIds_dissolve (hf : f.ids.Nodup) (hz : z ∈ (f.dissolve x).topIds) :
    z ∈ f.topIds ∨ (x ∈ f.topIds ∧ ∃ s, f.site? x = some s ∧ z ∈ s.children.topIds) := by
  induction f with
  | nil => cases hz
  | cons id node children rest _ ih =>
    obtain ⟨-, -, -, hrest, hdisj⟩ := nodup_cons_iff.1 hf
    rw [dissolve, rewrite] at hz
    split at hz
    next heq =>
      rw [topIds_append, List.mem_append] at hz
      refine hz.symm.imp (List.mem_cons_of_mem _) fun hz => ?_
      exact ⟨by simp [heq], ⟨node, children, rest⟩, by rw [site?, if_pos heq], hz⟩
    next hne =>
      rw [topIds_cons, List.mem_cons] at hz
      rcases hz with rfl | hz
      · exact .inl (by simp)
      · rcases ih hrest hz with hin | ⟨hx, s, hs, hz⟩
        · exact .inl (List.mem_cons_of_mem _ hin)
        · refine .inr ⟨List.mem_cons_of_mem _ hx, s, ?_, hz⟩
          have hout : x ∉ children.ids := fun hin => hdisj x hin (mem_ids_of_mem_topIds hx)
          rw [site?, if_neg hne, site?_eq_none_iff.2 hout, Option.none_or, hs]

theorem mem_topIds_dissolve_of_ne (hz : z ∈ f.topIds) (hne : z ≠ x) :
    z ∈ (f.dissolve x).topIds := by
  induction f with
  | nil => cases hz
  | cons id node children rest _ ih =>
    rw [topIds_cons, List.mem_cons] at hz
    rw [dissolve, rewrite]
    split
    next heq =>
      rw [topIds_append, List.mem_append]
      exact .inr (hz.resolve_left fun h => hne (h.trans heq))
    next =>
      rw [topIds_cons, List.mem_cons]
      exact hz.imp_right ih

theorem mem_ids_dissolve_of_ne (hf : f.ids.Nodup) (hz : z ∈ f.ids) (hne : z ≠ x) :
    z ∈ (f.dissolve x).ids := by
  cases hs : f.site? x with
  | none => rwa [dissolve, rewrite_of_notMem (site?_eq_none_iff.1 hs)]
  | some s =>
    rw [(ids_perm_dissolve hf hs).mem_iff, List.mem_cons] at hz
    exact hz.resolve_left hne

end Forest

namespace Document

open Forest

variable {d e : Document} {x y z : NodeId} {s t : Site}

theorem Distinct.site?_unwrap (hd : d.Distinct) (hparent : (d.parent? x).isSome)
    (hs : d.site? x = some s) (hne : y ≠ x) :
    (d.unwrap x).site? y =
      (d.site? y).map fun t =>
        if y ∈ s.children.topIds then t.before s.rest else t.map (dissolve x) := by
  obtain ⟨parent, hparent⟩ := Option.isSome_iff_exists.1 hparent
  by_cases hlt : y < d.next
  · have hforest := hd.forest_site? hs
    obtain ⟨left, hleft, hsites⟩ := hd.takeOut_eq (fun _ h => dissolve?_eq_site? h) hs
    have hout : ∀ z ∈ (single x s.node .nil).ids, z ∉ left.ids := by
      have hnodup := hd.nodup
      rw [ids_eq_map_nodes, ((takeOut_perm (fun _ _ _ h => dissolve?_perm h) hleft).map
        Prod.fst).nodup_iff, List.map_append, ← ids_eq_map_nodes] at hnodup
      exact fun z hz hin => (List.nodup_append.1 hnodup).2.2 z hz z hin rfl
    rw [Document.unwrap, hparent]
    dsimp only
    have hpiece : (single x s.node .nil).site? y = none :=
      Forest.site?_eq_none_iff.2 (by simp [single, hne])
    rw [hleft, site?_setAside hout, hpiece, Option.none_or, hsites y hlt]
    refine (site?_dissolve hd.nodup_forest hforest hne).trans ?_
    split
    next hy =>
      rw [← hd.site?_of_mem_children hs (mem_ids_of_mem_topIds hy)]
    next => rw [← site?_eq_forest hlt]
  · have hy : y ∉ d.ids := fun h => hlt (hd.numbered y h)
    have hy' : y ∉ (d.unwrap x).ids := by
      rwa [ids_eq_map_nodes, ((unwrap_perm d x).map Prod.fst).mem_iff, ← ids_eq_map_nodes]
    rw [site?_eq_none_iff.2 hy, site?_eq_none_iff.2 hy', Option.map_none]

/-- What is taken out when a node is unwrapped has neither children nor siblings. -/
theorem Distinct.site?_unwrap_self (hd : d.Distinct) (hparent : (d.parent? x).isSome)
    (hs : d.site? x = some s) : (d.unwrap x).site? x = some ⟨s.node, .nil, .nil⟩ := by
  obtain ⟨row, hrow, hsite⟩ := exists_row_of_site? hs
  obtain ⟨before, after, hrows⟩ := List.append_of_mem hrow
  have hmiddle : d.allRows.Perm (row :: (before ++ after)) := hrows ▸ List.perm_middle
  have hperm := hd.unwrap_rows hmiddle hsite hparent
  rw [(hd.unwrap x).site?_of_row (hperm.mem_iff.2 List.mem_cons_self) (by simp [single]), single,
    Forest.site?, if_pos rfl]

theorem exists_site?_of_parent? (hparent : (d.parent? x).isSome) :
    ∃ s, d.site? x = some s := by
  apply exists_site?
  by_contra hx
  have hnone : d.enclosing x = [] := by
    rw [enclosing, search_eq_findSome?, List.findSome?_eq_none_iff.2]
    · rfl
    · intro row hrow
      exact ancestors?_eq_none_iff.2 fun hin => hx (mem_ids_of_row hrow hin)
  rw [parent?, ancestors, hnone] at hparent
  cases hparent

/-- In a row of a document, the children of a dissolved node come up. -/
theorem mem_topIds_of_dissolve {f : Forest} (hf : f.ids.Nodup)
    (hsame : x ∈ f.ids → f.site? x = d.site? x) (hz : z ∈ (f.dissolve x).topIds) :
    z ∈ f.topIds ∨ (x ∈ f.topIds ∧ z ∈ d.children x) := by
  rcases mem_topIds_dissolve hf hz with hin | ⟨hmem, s, hs, hzs⟩
  · exact .inl hin
  · rw [hsame (mem_ids_of_mem_topIds hmem)] at hs
    exact .inr ⟨hmem, mem_children_iff.2 ⟨s, hs, hzs⟩⟩

/-- A later document where the children of a node have joined its siblings. -/
structure Melts (d : Document) (x : NodeId) (e : Document) : Prop where
  before : d.Distinct
  distinct : e.Distinct
  ids : d.ids ⊆ e.ids
  sites : ∃ s, d.site? x = some s ∧ e.site? x = some ⟨s.node, .nil, .nil⟩ ∧
    ∀ y, y ≠ x → e.site? y = (d.site? y).map fun t =>
      if y ∈ s.children.topIds then t.before s.rest else t.map (dissolve x)

theorem Distinct.unwrap_melts (hd : d.Distinct) (hparent : (d.parent? x).isSome) :
    d.Melts x (d.unwrap x) := by
  obtain ⟨s, hs⟩ := exists_site?_of_parent? hparent
  refine ⟨hd, hd.unwrap x, ?_, s, hs, hd.site?_unwrap_self hparent hs,
    fun y hne => hd.site?_unwrap hparent hs hne⟩
  rw [ids_eq_map_nodes, ids_eq_map_nodes]
  exact ((unwrap_perm d x).map Prod.fst).symm.subset

namespace Melts

/-- A node has the place that it had, among other siblings if it was below the one that is unwrapped,
and among the children of this one if it was before or above it. -/
theorem exists_site? (h : d.Melts x e) (ht : d.site? y = some t) :
    ∃ u, e.site? y = some u ∧ u.node = t.node ∧
      ((y = x ∧ u.children = .nil ∧ u.rest = .nil) ∨
        (y ≠ x ∧ y ∈ d.children x ∧ u.children = t.children ∧ u.rest = t.rest ++ d.following x) ∨
        (y ≠ x ∧ u.children = t.children.dissolve x ∧ u.rest = t.rest.dissolve x)) := by
  obtain ⟨s, hs, hself, hother⟩ := h.sites
  by_cases hne : y = x
  · subst hne
    rw [hs] at ht
    cases ht
    exact ⟨_, hself, rfl, .inl ⟨rfl, rfl, rfl⟩⟩
  have hsite := hother y hne
  rw [ht, Option.map_some] at hsite
  refine ⟨_, hsite, ?_⟩
  by_cases hy : y ∈ s.children.topIds
  · rw [if_pos hy]
    refine ⟨rfl, .inr (.inl ⟨hne, mem_children_iff.2 ⟨s, hs, hy⟩, rfl, ?_⟩)⟩
    rw [following_eq_site?, hs]
    rfl
  · rw [if_neg hy]
    exact ⟨rfl, .inr (.inr ⟨hne, rfl, rfl⟩)⟩

/-- All nodes have been there before. -/
theorem exists_site?_before (h : d.Melts x e) {u : Site} (hu : e.site? y = some u) :
    ∃ t, d.site? y = some t := by
  obtain ⟨s, hs, -, hother⟩ := h.sites
  by_cases hne : y = x
  · exact ⟨s, hne ▸ hs⟩
  rw [hother y hne] at hu
  obtain ⟨t, ht, -⟩ := Option.map_eq_some_iff.1 hu
  exact ⟨t, ht⟩

theorem node (h : d.Melts x e) (y : NodeId) : e.node? y = d.node? y := by
  rw [node?_eq_site?, node?_eq_site?]
  cases ht : d.site? y with
  | some t =>
    obtain ⟨u, hu, hnode, -⟩ := h.exists_site? ht
    rw [hu, Option.map_some, hnode]
    rfl
  | none =>
    cases hu : e.site? y with
    | none => rfl
    | some u =>
      obtain ⟨t, ht'⟩ := h.exists_site?_before hu
      rw [ht] at ht'
      cases ht'

theorem children (h : d.Melts x e) (y : NodeId) (z : NodeId) (hz : z ∈ e.children y) :
    z ∈ d.children y ∨ (x ∈ d.children y ∧ z ∈ d.children x) := by
  obtain ⟨u, hu, hzu⟩ := mem_children_iff.1 hz
  obtain ⟨t, ht⟩ := h.exists_site?_before hu
  obtain ⟨u', hu', -, hcases⟩ := h.exists_site? ht
  rw [hu] at hu'
  cases hu'
  have hin : ∀ {a}, a ∈ t.children.topIds → a ∈ d.children y := fun ha =>
    mem_children_iff.2 ⟨t, ht, ha⟩
  rcases hcases with ⟨-, hnil, -⟩ | ⟨-, -, heq, -⟩ | ⟨-, heq, -⟩
  · rw [hnil] at hzu
    cases hzu
  · exact .inl (hin (heq ▸ hzu))
  · rw [heq] at hzu
    refine (mem_topIds_of_dissolve (h.before.nodup_childrenIds ht) (fun hx => ?_) hzu).imp hin
      (And.imp_left hin)
    exact (h.before.site?_of_mem_children ht hx).symm

/-- What stands below and after a node has stood there before, but for what has come up. -/
theorem mem_nodes (h : d.Melts x e) {u : Site} (hu : e.site? y = some u) :
    ∃ t, d.site? y = some t ∧ u.children.nodes ⊆ t.children.nodes ∧
      ∀ entry ∈ u.rest.nodes, entry ∈ t.rest.nodes ∨
        (y ∈ d.children x ∧ entry ∈ (d.following x).nodes) := by
  obtain ⟨t, ht⟩ := h.exists_site?_before hu
  obtain ⟨u', hu', -, hcases⟩ := h.exists_site? ht
  rw [hu] at hu'
  cases hu'
  refine ⟨t, ht, ?_⟩
  rcases hcases with ⟨-, hbelow, hlater⟩ | ⟨-, hchild, hbelow, hlater⟩ | ⟨-, hbelow, hlater⟩
  · rw [hbelow, hlater]
    exact ⟨List.nil_subset _, fun _ hentry => absurd hentry List.not_mem_nil⟩
  · rw [hbelow, hlater, nodes_append]
    refine ⟨List.Subset.refl _, fun entry hentry => ?_⟩
    exact (List.mem_append.1 hentry).imp_right fun hin => ⟨hchild, hin⟩
  · rw [hbelow, hlater]
    exact ⟨(dissolve_nodes_sublist x _).subset,
      fun entry hentry => .inl ((dissolve_nodes_sublist x _).subset hentry)⟩

theorem following (h : d.Melts x e) (y : NodeId) (entry : NodeId × Node)
    (hin : entry ∈ (e.following y).nodes) :
    entry ∈ (d.following y).nodes ∨ (y ∈ d.children x ∧ entry ∈ (d.following x).nodes) := by
  cases hu : e.site? y with
  | none =>
    rw [following_eq_site?, hu] at hin
    cases hin
  | some u =>
    obtain ⟨t, ht, -, hlater⟩ := h.mem_nodes hu
    rw [following_eq_site?, hu] at hin
    rw [following_eq_site? d y, ht]
    exact hlater entry hin

theorem siblings (h : d.Melts x e) (y : NodeId) (z : NodeId) (hz : z ∈ (e.following y).topIds) :
    z ∈ (d.following y).topIds ∨ (y ∈ d.children x ∧ z ∈ (d.following x).topIds) ∨
      (x ∈ (d.following y).topIds ∧ z ∈ d.children x) := by
  obtain ⟨u, hu, hzu⟩ := mem_topIds_following_iff.1 hz
  obtain ⟨t, ht⟩ := h.exists_site?_before hu
  obtain ⟨u', hu', -, hcases⟩ := h.exists_site? ht
  rw [hu] at hu'
  cases hu'
  have hin : ∀ {a}, a ∈ t.rest.topIds → a ∈ (d.following y).topIds := fun ha =>
    mem_topIds_following_iff.2 ⟨t, ht, ha⟩
  rcases hcases with ⟨-, -, hnil⟩ | ⟨-, hchild, -, heq⟩ | ⟨-, -, heq⟩
  · rw [hnil] at hzu
    cases hzu
  · rw [heq, topIds_append, List.mem_append] at hzu
    exact hzu.imp hin fun hlater => .inl ⟨hchild, hlater⟩
  · rw [heq] at hzu
    have hnodup := nodup_rest h.before.nodup_forest (h.before.forest_site? ht)
    refine (mem_topIds_of_dissolve hnodup (fun hx => ?_) hzu).imp hin fun hup =>
      .inr (hup.imp_left hin)
    exact (h.before.site?_of_mem_rest ht hx).symm

theorem mem_descendants (h : d.Melts x e) (hz : z ∈ e.descendants y) : z ∈ d.descendants y := by
  obtain ⟨u, hu, hzu⟩ := mem_descendants_iff.1 hz
  obtain ⟨t, ht, hbelow, -⟩ := h.mem_nodes hu
  exact mem_descendants_iff.2 ⟨t, ht, hzu.imp_right fun hin => List.map_subset Prod.fst hbelow hin⟩

theorem mem_following (h : d.Melts x e) (hz : z ∈ (e.following y).ids) :
    z ∈ (d.following y).ids ∨ (y ∈ d.children x ∧ z ∈ (d.following x).ids) := by
  obtain ⟨n, hn⟩ := exists_node_of_mem_ids hz
  exact (h.following y _ hn).imp List.mem_map_of_mem (And.imp_right List.mem_map_of_mem)

/-- Other nodes stay within those that they stood within. -/
theorem mem_descendants_of_ne (h : d.Melts x e) (hz : z ∈ d.descendants y) (hy : y ≠ x)
    (hne : z ≠ x) : z ∈ e.descendants y := by
  obtain ⟨t, ht, hzt⟩ := mem_descendants_iff.1 hz
  obtain ⟨u, hu, -, hcases⟩ := h.exists_site? ht
  refine mem_descendants_iff.2 ⟨u, hu, hzt.imp_right fun hin => ?_⟩
  rcases hcases with ⟨heq, -⟩ | ⟨-, -, heq, -⟩ | ⟨-, heq, -⟩
  · exact absurd heq hy
  · exact heq ▸ hin
  · exact heq ▸ mem_ids_dissolve_of_ne (h.before.nodup_childrenIds ht) hin hne

/-- Other nodes stay before those that they stood before. -/
theorem mem_following_of_ne (h : d.Melts x e) (hz : z ∈ (d.following y).topIds) (hy : y ≠ x)
    (hne : z ≠ x) : z ∈ (e.following y).topIds := by
  obtain ⟨t, ht, hzt⟩ := mem_topIds_following_iff.1 hz
  obtain ⟨u, hu, -, hcases⟩ := h.exists_site? ht
  refine mem_topIds_following_iff.2 ⟨u, hu, ?_⟩
  rcases hcases with ⟨heq, -⟩ | ⟨-, -, -, heq⟩ | ⟨-, -, heq⟩
  · exact absurd heq hy
  · rw [heq, topIds_append]
    exact List.mem_append_left _ hzt
  · exact heq ▸ mem_topIds_dissolve_of_ne hzt hne

end Melts

end Document

end MailMerge.Xml
