import MailMerge.Proofs.Xml.Apart
import MailMerge.Proofs.Xml.Move
import MailMerge.Proofs.Xml.Parse

/-!
# Places below a node

The nodes at and below a node that stands alone in its row have places in document order. A node
comes past another one when it comes after all that stands at and below that one. This is how nodes
can be compared with one another while they are moved about.
-/

namespace MailMerge.Xml

theorem idxOf_lt_of_append {before after : List NodeId} {a z : NodeId}
    (hnodup : (before ++ after).Nodup) (ha : a ∈ before) (hz : z ∈ after) :
    (before ++ after).idxOf a < (before ++ after).idxOf z := by
  have hout : z ∉ before := fun h => (List.nodup_append.1 hnodup).2.2 z h z hz rfl
  rw [List.idxOf_append_of_mem ha, List.idxOf_append_of_notMem hout]
  have := List.idxOf_lt_length_of_mem ha
  omega

namespace Forest

variable {a b z : NodeId} {f : Forest} {s t : Site}

theorem tops_sublist (f : Forest) : f.tops.Sublist f.nodes := by
  induction f with
  | nil => exact .refl _
  | cons id node children rest _ ih =>
    exact (ih.trans (List.sublist_append_right _ _)).cons_cons _

/-- What comes before a sibling in its row is a sibling. -/
theorem mem_topIds_of_mem_rest (hf : f.ids.Nodup) (hs : f.site? a = some s)
    (hz : z ∈ s.rest.ids) (htop : z ∈ f.topIds) : a ∈ f.topIds := by
  induction f with
  | nil => cases hs
  | cons id node children rest _ ih =>
    obtain ⟨hidc, hidr, -, hrest, hdisj⟩ := nodup_cons_iff.1 hf
    rw [topIds_cons, List.mem_cons] at htop ⊢
    rw [site?] at hs
    split at hs
    next heq => exact .inl heq.symm
    next =>
      rcases Option.or_eq_some_iff.1 hs with hs | ⟨-, hs⟩
      · have hin := mem_of_mem_rest hs hz
        rcases htop with rfl | htop
        · exact absurd hin hidc
        · exact absurd (mem_ids_of_mem_topIds htop) (hdisj z hin)
      · rcases htop with rfl | htop
        · exact absurd (mem_of_mem_rest hs hz) hidr
        · exact .inr (ih hrest hs htop)

/-- Of two nodes before the same sibling, one comes before the other in their row. -/
theorem eq_or_mem_rest_of_common (hf : f.ids.Nodup) (hs : f.site? a = some s)
    (ht : f.site? b = some t) (hzs : z ∈ s.rest.topIds) (hzt : z ∈ t.rest.topIds) :
    a = b ∨ a ∈ t.rest.topIds ∨ b ∈ s.rest.topIds := by
  induction f with
  | nil => cases hs
  | cons id node children rest ihc ihr =>
    obtain ⟨-, -, hchildren, hrest, hdisj⟩ := nodup_cons_iff.1 hf
    rw [site?] at hs ht
    split at hs <;> split at ht
    next ha hb => exact .inl (ha.symm.trans hb)
    next ha hb =>
      cases hs
      rcases Option.or_eq_some_iff.1 ht with ht | ⟨-, ht⟩
      · exact absurd (mem_ids_of_mem_topIds hzs)
          (hdisj z (mem_of_mem_rest ht (mem_ids_of_mem_topIds hzt)))
      · exact .inr (.inr (mem_topIds_of_mem_rest hrest ht (mem_ids_of_mem_topIds hzt) hzs))
    next ha hb =>
      cases ht
      rcases Option.or_eq_some_iff.1 hs with hs | ⟨-, hs⟩
      · exact absurd (mem_ids_of_mem_topIds hzt)
          (hdisj z (mem_of_mem_rest hs (mem_ids_of_mem_topIds hzs)))
      · exact .inr (.inl (mem_topIds_of_mem_rest hrest hs (mem_ids_of_mem_topIds hzs) hzt))
    next =>
      have hbelow : ∀ {c : NodeId} {u : Site}, children.site? c = some u → z ∈ u.rest.topIds →
          z ∈ children.ids := fun hu hz => mem_of_mem_rest hu (mem_ids_of_mem_topIds hz)
      have hlater : ∀ {c : NodeId} {u : Site}, rest.site? c = some u → z ∈ u.rest.topIds →
          z ∈ rest.ids := fun hu hz => mem_of_mem_rest hu (mem_ids_of_mem_topIds hz)
      rcases Option.or_eq_some_iff.1 hs with hs | ⟨-, hs⟩ <;>
        rcases Option.or_eq_some_iff.1 ht with ht | ⟨-, ht⟩
      · exact ihc hchildren hs ht
      · exact absurd (hlater ht hzt) (hdisj z (hbelow hs hzs))
      · exact absurd (hlater hs hzs) (hdisj z (hbelow ht hzt))
      · exact ihr hrest hs ht

/-- The nodes that enclose another one are in the row with the payload that they are told with. -/
theorem exists_site?_of_mem_ancestors? {above : List (NodeId × Node)} {n : Node}
    (hf : f.ids.Nodup) (h : f.ancestors? z = some above) (ha : (a, n) ∈ above) :
    ∃ s, f.site? a = some s ∧ s.node = n := by
  induction f generalizing above with
  | nil => cases h
  | cons id node children rest ihc ihr =>
    obtain ⟨hidc, hidr, hchildren, hrest, hdisj⟩ := nodup_cons_iff.1 hf
    rw [ancestors?] at h
    rw [site?]
    split at h
    next =>
      cases h
      cases ha
    next =>
      rcases Option.or_eq_some_iff.1 h with h | ⟨-, h⟩
      · obtain ⟨inner, hinner, rfl⟩ := Option.map_eq_some_iff.1 h
        rcases List.mem_append.1 ha with ha | ha
        · obtain ⟨s, hs, hnode⟩ := ihc hchildren hinner ha
          refine ⟨s, ?_, hnode⟩
          rw [if_neg fun heq : id = a => hidc (heq ▸ mem_ids_of_site? hs), hs, Option.some_or]
        · cases List.mem_singleton.1 ha
          exact ⟨⟨n, children, rest⟩, if_pos rfl, rfl⟩
      · obtain ⟨s, hs, hnode⟩ := ihr hrest h ha
        have hmem := mem_ids_of_site? hs
        refine ⟨s, ?_, hnode⟩
        rw [if_neg fun heq : id = a => hidr (heq ▸ hmem),
          site?_eq_none_iff.2 fun hin => hdisj a hin hmem, Option.none_or, hs]

theorem mem_topIds_of_ancestors? (h : f.ancestors? z = some []) : z ∈ f.topIds := by
  induction f with
  | nil => cases h
  | cons id node children rest _ ih =>
    rw [ancestors?] at h
    rw [topIds_cons, List.mem_cons]
    split at h
    next heq => exact .inl heq.symm
    next =>
      rcases Option.or_eq_some_iff.1 h with h | ⟨-, h⟩
      · obtain ⟨inner, -, hnil⟩ := Option.map_eq_some_iff.1 h
        simp at hnil
      · exact .inr (ih h)

/-- A node is a child of the nearest one that encloses it. -/
theorem exists_site?_of_ancestors?_cons {above : List (NodeId × Node)} {n : Node}
    (hf : f.ids.Nodup) (h : f.ancestors? z = some ((a, n) :: above)) :
    ∃ s, f.site? a = some s ∧ z ∈ s.children.topIds := by
  induction f generalizing above with
  | nil => cases h
  | cons id node children rest ihc ihr =>
    obtain ⟨hidc, hidr, hchildren, hrest, hdisj⟩ := nodup_cons_iff.1 hf
    rw [ancestors?] at h
    rw [site?]
    split at h
    next => cases h
    next =>
      rcases Option.or_eq_some_iff.1 h with h | ⟨-, h⟩
      · obtain ⟨inner, hinner, heq⟩ := Option.map_eq_some_iff.1 h
        cases inner with
        | nil =>
          cases heq
          exact ⟨⟨n, children, rest⟩, if_pos rfl, mem_topIds_of_ancestors? hinner⟩
        | cons first inner =>
          cases heq
          obtain ⟨s, hs, hz⟩ := ihc hchildren hinner
          refine ⟨s, ?_, hz⟩
          rw [if_neg fun heq : id = a => hidc (heq ▸ mem_ids_of_site? hs), hs, Option.some_or]
      · obtain ⟨s, hs, hz⟩ := ihr hrest h
        have hmem := mem_ids_of_site? hs
        refine ⟨s, ?_, hz⟩
        rw [if_neg fun heq : id = a => hidr (heq ▸ hmem),
          site?_eq_none_iff.2 fun hin => hdisj a hin hmem, Option.none_or, hs]

end Forest

namespace Document

open Forest

variable {d : Document} {x y z a l : NodeId} {rest : List Forest} {s : Site}

/-! ## Siblings -/

theorem mem_following_iff :
    y ∈ (d.following x).ids ↔ ∃ s, d.site? x = some s ∧ y ∈ s.rest.ids := by
  rw [following_eq_site?]
  cases d.site? x <;> simp

theorem mem_topIds_following_iff :
    y ∈ (d.following x).topIds ↔ ∃ s, d.site? x = some s ∧ y ∈ s.rest.topIds := by
  rw [following_eq_site?]
  cases d.site? x <;> simp

theorem mem_ids_of_mem_following (h : y ∈ (d.following x).ids) : y ∈ d.ids := by
  obtain ⟨s, hs, hy⟩ := mem_following_iff.1 h
  exact mem_of_mem_rest hs hy

/-- Of two nodes before the same sibling, one comes before the other in their row. -/
theorem Distinct.eq_or_mem_following (hd : d.Distinct) (hx : z ∈ (d.following x).topIds)
    (hy : z ∈ (d.following y).topIds) :
    x = y ∨ x ∈ (d.following y).topIds ∨ y ∈ (d.following x).topIds := by
  obtain ⟨s, hs, hzs⟩ := mem_topIds_following_iff.1 hx
  obtain ⟨t, ht, hzt⟩ := mem_topIds_following_iff.1 hy
  refine (eq_or_mem_rest_of_common hd.nodup_forest (hd.forest_site? hs) (hd.forest_site? ht) hzs
    hzt).imp_right (.imp ?_ ?_)
  · exact fun h => mem_topIds_following_iff.2 ⟨t, ht, h⟩
  · exact fun h => mem_topIds_following_iff.2 ⟨s, hs, h⟩

theorem Distinct.shows_following (hd : d.Distinct) (x : NodeId) : d.Shows (d.following x) := by
  refine ⟨?_, hd.nodup_following x⟩
  rw [following_eq_site?]
  cases hs : d.site? x with
  | none => exact fun _ _ h => nomatch h
  | some s => exact hd.has_rest hs

theorem Distinct.shows_below (hd : d.Distinct) (x : NodeId) : d.Shows (d.below x) := by
  refine ⟨?_, hd.nodup_below x⟩
  rw [below_eq_site?]
  cases hs : d.site? x with
  | none => exact fun _ _ h => nomatch h
  | some s => exact hd.has_children hs

theorem Distinct.of_find? (hd : d.Distinct) {name : String} (h : d.find? y name = some x) :
    d.isNamed x name = true ∧ x ∈ (d.below y).ids := by
  obtain ⟨entry, hfound, rfl⟩ := Option.map_eq_some_iff.1 h
  have hentry := List.mem_of_find?_eq_some hfound
  have hnamed := List.find?_some hfound
  refine ⟨?_, List.mem_map_of_mem hentry⟩
  rw [isNamed, name?, (hd.shows_below y).node? hentry]
  exact hnamed

theorem Distinct.site?_below (hd : d.Distinct) (hy : y ∈ (d.below x).ids) :
    d.site? y = (d.below x).site? y := by
  rw [below_eq_site?] at hy ⊢
  cases hs : d.site? x with
  | none =>
    rw [hs] at hy
    cases hy
  | some s =>
    rw [hs] at hy
    exact hd.site?_of_mem_children hs hy

/-- What comes after a node below another one is below that one as well. -/
theorem Distinct.mem_below_of_following (hd : d.Distinct) (hx : x ∈ (d.below y).ids)
    (hz : z ∈ (d.following x).ids) : z ∈ (d.below y).ids := by
  obtain ⟨s, hs, hmem⟩ := mem_following_iff.1 hz
  rw [hd.site?_below hx] at hs
  exact Forest.mem_of_mem_rest hs hmem

theorem Distinct.shows_tree (hd : d.Distinct) (x : NodeId) : d.Shows (d.tree x) := by
  refine ⟨fun y t ht => ?_, hd.nodup_descendants x⟩
  rw [tree_eq_site?] at ht
  cases hs : d.site? x with
  | none =>
    rw [hs] at ht
    cases ht
  | some s =>
    rw [hs, Option.map_some, Option.getD_some, Site.tree, single, Forest.site?] at ht
    split at ht
    next heq =>
      cases ht
      exact ⟨s, heq ▸ hs, rfl, rfl⟩
    next => exact hd.has_children hs y t (by simpa [Forest.site?] using ht)

theorem Shows.mem_nodes_iff {f : Forest} {n : Node} (h : d.Shows f) :
    (y, n) ∈ f.nodes ↔ y ∈ f.ids ∧ d.node? y = some n := by
  refine ⟨fun hy => ⟨List.mem_map_of_mem hy, h.node? hy⟩, fun ⟨hy, hn⟩ => ?_⟩
  obtain ⟨⟨_, n'⟩, hmem, rfl⟩ := List.mem_map.1 hy
  rw [h.node? hmem] at hn
  cases hn
  exact hmem

/-- A node of a row stands with what is below it in the row. -/
theorem Shows.tree_eq_site {f : Forest} (h : d.Shows f) (hs : f.site? y = some s) :
    d.tree y = s.tree y := by
  obtain ⟨t, ht, hnode, hchildren⟩ := h.has y s hs
  rw [tree_eq_site?, ht, Site.tree, ← hnode, ← hchildren]
  rfl

/-- What comes after a node is a later sibling or stands below one. -/
theorem Distinct.exists_sibling_of_mem_following (hd : d.Distinct)
    (hy : y ∈ (d.following x).ids) : ∃ z ∈ (d.following x).topIds, y ∈ d.descendants z := by
  obtain ⟨s, hs, hmem⟩ := mem_following_iff.1 hy
  have hnodup := nodup_rest hd.nodup_forest (hd.forest_site? hs)
  obtain ⟨z, hz, hin⟩ := ((hd.has_rest hs).mem_ids_iff hnodup).1 hmem
  exact ⟨z, mem_topIds_following_iff.2 ⟨s, hs, hz⟩, hin⟩

theorem mem_topIds_of_mem_followingElements (hy : y ∈ d.followingElements x) :
    y ∈ (d.following x).topIds := by
  obtain ⟨⟨_, n⟩, htop, rfl⟩ := List.mem_map.1 hy
  exact List.mem_map_of_mem (List.mem_of_mem_filter htop)

/-- What follows among the elements is an element. -/
theorem Distinct.isElement_of_mem_followingElements (hd : d.Distinct)
    (hy : y ∈ d.followingElements x) : ∃ n, d.node? y = some n ∧ n.isElement = true := by
  obtain ⟨⟨_, n⟩, htop, rfl⟩ := List.mem_map.1 hy
  obtain ⟨htop, helement⟩ := List.mem_filter.1 htop
  exact ⟨n, (hd.shows_following x).node? ((tops_sublist _).subset htop), helement⟩

theorem Distinct.mem_followingElements (hd : d.Distinct) {n : Node}
    (hy : y ∈ (d.following x).topIds) (hn : d.node? y = some n) (helement : n.isElement = true) :
    y ∈ d.followingElements x := by
  obtain ⟨⟨_, node⟩, htop, rfl⟩ := List.mem_map.1 hy
  rw [(hd.shows_following x).node? ((tops_sublist _).subset htop)] at hn
  cases hn
  exact List.mem_map_of_mem (List.mem_filter.2 ⟨htop, helement⟩)

/-- A sibling is followed by what comes after it in the row. -/
theorem Distinct.following_of_append (hd : d.Distinct) {f g children : Forest} {n : Node}
    (h : d.following x = f ++ cons y n children g) : d.following y = g := by
  have hnodup := hd.nodup_following x
  have hmem : y ∈ (d.following x).ids := by simp [h]
  obtain ⟨s, hs, hy⟩ := mem_following_iff.1 hmem
  have hrest : s.rest = f ++ cons y n children g := by
    rw [← h, following_eq_site?, hs]
    rfl
  rw [h, ids_append, List.nodup_append] at hnodup
  have hout : y ∉ f.ids := fun hin => hnodup.2.2 y hin y (by simp) rfl
  rw [following_eq_site?, hd.site?_of_mem_rest hs hy, hrest, site?_append_cons n children hout]
  rfl

theorem Distinct.exists_following_eq_append (hd : d.Distinct)
    (hy : y ∈ (d.following x).topIds) :
    ∃ f n children, d.following x = f ++ cons y n children (d.following y) := by
  obtain ⟨f, n, children, g, h⟩ := exists_eq_append_of_mem_topIds hy
  exact ⟨f, n, children, by rw [h, hd.following_of_append h]⟩

theorem Distinct.mem_following_trans (hd : d.Distinct) (hy : y ∈ (d.following x).topIds)
    (hz : z ∈ (d.following y).topIds) : z ∈ (d.following x).topIds := by
  obtain ⟨f, n, children, h⟩ := hd.exists_following_eq_append hy
  rw [h, topIds_append, topIds_cons]
  exact List.mem_append_right _ (List.mem_cons_of_mem _ hz)

theorem Distinct.notMem_following_self (hd : d.Distinct) (x : NodeId) :
    x ∉ (d.following x).topIds := by
  intro h
  obtain ⟨s, hs, hx⟩ := mem_topIds_following_iff.1 h
  exact notMem_rest_self hd.nodup_forest (hd.forest_site? hs) (mem_ids_of_mem_topIds hx)

/-- Of two elements after a node, the first one does not follow the second one. -/
theorem Distinct.notMem_following_of_pair (hd : d.Distinct)
    (hpair : [y, z].Sublist (d.followingElements x)) : y ∉ (d.following z).topIds := by
  intro hafter
  have hsub : (d.followingElements x).Sublist (d.following x).topIds :=
    List.filter_sublist.map Prod.fst
  have hz : z ∈ d.followingElements x := hpair.subset (by simp)
  obtain ⟨before, n, children, hrow⟩ := hd.exists_following_eq_append (hsub.subset hz)
  have hnodup := (topIds_sublist _).nodup (hd.nodup_following x)
  rw [hrow, topIds_append, topIds_cons] at hsub hnodup
  have hbefore := (pair_sublist_iff_mem_before hnodup).1 (hpair.trans hsub)
  exact (List.nodup_append.1 hnodup).2.2 y hbefore y (List.mem_cons_of_mem _ hafter) rfl

/-- Of the elements after a node, all are among the first ones that one of these follows. -/
theorem Distinct.mem_of_isPrefix (hd : d.Distinct) {firsts : List NodeId}
    (hfirsts : firsts <+: d.followingElements x) (hz : z ∈ firsts) (hy : y ∈ d.followingElements x)
    (hafter : z ∈ (d.following y).topIds) : y ∈ firsts := by
  by_contra hout
  obtain ⟨more, hmore⟩ := hfirsts
  rw [← hmore, List.mem_append] at hy
  refine hd.notMem_following_of_pair (x := x) ?_ hafter
  rw [← hmore]
  exact (List.singleton_sublist.2 hz).append (List.singleton_sublist.2 (hy.resolve_left hout))

/-- Of two later siblings of a node, one comes before the other. -/
theorem Distinct.eq_or_mem_following_of_mem (hd : d.Distinct) (hy : y ∈ (d.following x).topIds)
    (hz : z ∈ (d.following x).topIds) :
    z = y ∨ y ∈ (d.following z).topIds ∨ z ∈ (d.following y).topIds := by
  obtain ⟨f, n, children, h⟩ := hd.exists_following_eq_append hy
  rw [h, topIds_append, topIds_cons, List.mem_append, List.mem_cons] at hz
  rcases hz with hz | rfl | hz
  · obtain ⟨before, m, below, after, rfl⟩ := exists_eq_append_of_mem_topIds hz
    rw [append_assoc, cons_append] at h
    rw [hd.following_of_append h, topIds_append, topIds_cons]
    exact .inr (.inl (List.mem_append_right _ List.mem_cons_self))
  · exact .inl rfl
  · exact .inr (.inr hz)

/-- What encloses a sibling encloses those before it. -/
theorem Distinct.mem_descendants_of_following (hd : d.Distinct)
    (hz : z ∈ (d.following y).topIds) (hin : z ∈ d.descendants a) (hne : z ≠ a) :
    y ∈ d.descendants a := by
  obtain ⟨s, hs, htop⟩ := mem_topIds_following_iff.1 hz
  obtain ⟨t, ht, heq | hbelow⟩ := mem_descendants_iff.1 hin
  · exact absurd heq hne
  have hforest := hd.forest_site? hs
  have hrest := mem_ids_of_mem_topIds htop
  have hout : z ∉ s.children.ids := fun h =>
    notMem_rest_of_mem_children hd.nodup_forest hforest h hrest
  rcases mem_of_mem_both hd.nodup_forest hforest (hd.forest_site? ht) (.inr hrest) hbelow with
    rfl | (hmem | hmem) | hmem
  · rw [hs] at ht
    cases ht
    exact absurd hbelow hout
  · rw [hd.site?_of_mem_children hs hmem] at ht
    exact absurd (Forest.mem_of_mem_children ht hbelow) hout
  · rw [hd.site?_of_mem_rest hs hmem] at ht
    exact absurd hbelow (notMem_of_mem_topIds (nodup_rest hd.nodup_forest hforest) htop ht)
  · exact mem_descendants_iff.2 ⟨t, ht, .inr hmem⟩

/-- Of two nodes that enclose a node, one encloses the other. -/
theorem Distinct.mem_descendants_total (hd : d.Distinct) (hx : z ∈ d.descendants x)
    (hy : z ∈ d.descendants y) : x ∈ d.descendants y ∨ y ∈ d.descendants x := by
  obtain ⟨s, hs, rfl | hzs⟩ := mem_descendants_iff.1 hx
  · exact .inl hy
  obtain ⟨t, ht, rfl | hzt⟩ := mem_descendants_iff.1 hy
  · exact .inr hx
  have hforest := hd.forest_site? hs
  rcases mem_of_mem_both hd.nodup_forest hforest (hd.forest_site? ht) (.inl hzs) hzt with
    rfl | (hin | hin) | hin
  · exact .inl (mem_descendants_self (mem_ids_of_site? hs))
  · exact .inr (mem_descendants_iff.2 ⟨s, hs, .inr hin⟩)
  · rw [hd.site?_of_mem_rest hs hin] at ht
    exact absurd (Forest.mem_of_mem_children ht hzt)
      (notMem_rest_of_mem_children hd.nodup_forest hforest hzs)
  · exact .inl (mem_descendants_iff.2 ⟨t, ht, .inr hin⟩)

/-- What stands below a node does not follow a node outside, unless it does so with that node. -/
theorem Distinct.notMem_following_of_below (hd : d.Distinct) (hz : z ∈ d.descendants y)
    (hx : x ∉ d.descendants y) (hy : y ∉ (d.following x).ids) : z ∉ (d.following x).ids := by
  have hrow := (hd.shows_following x).has
  intro hin
  obtain ⟨a, ha, hbelow⟩ := (hrow.mem_ids_iff (hd.nodup_following x)).1 hin
  rcases hd.mem_descendants_total hz hbelow with hya | hay
  · exact hy ((hrow.mem_ids_iff (hd.nodup_following x)).2 ⟨a, ha, hya⟩)
  · have hne : a ≠ y := by
      rintro rfl
      exact hy (mem_ids_of_mem_topIds ha)
    exact hx (hd.mem_descendants_of_following ha hay hne)

/-! ## What encloses a node -/

theorem exists_row_of_mem_enclosing {entry : NodeId × Node} (h : entry ∈ d.enclosing x) :
    ∃ row ∈ d.allRows, ∃ above, row.ancestors? x = some above ∧ d.enclosing x = above := by
  rw [enclosing, search_eq_findSome?] at h ⊢
  cases hfound : d.allRows.findSome? (·.ancestors? x) with
  | none =>
    rw [hfound] at h
    cases h
  | some above =>
    obtain ⟨row, hrow, habove⟩ := List.exists_of_findSome?_eq_some hfound
    exact ⟨row, hrow, above, habove, rfl⟩

theorem Distinct.node?_of_mem_enclosing (hd : d.Distinct) {n : Node}
    (h : (a, n) ∈ d.enclosing x) : d.node? a = some n := by
  obtain ⟨row, hrow, above, habove, heq⟩ := exists_row_of_mem_enclosing h
  obtain ⟨s, hs, rfl⟩ := exists_site?_of_mem_ancestors? (hd.nodup_row hrow) habove (heq ▸ h)
  rw [node?_eq_site?, hd.site?_of_row hrow (Forest.mem_ids_of_site? hs), hs]
  rfl

theorem Distinct.mem_children_of_parent? (hd : d.Distinct) (h : d.parent? x = some a) :
    x ∈ d.children a := by
  rw [parent?, ancestors, List.head?_map] at h
  obtain ⟨⟨_, n⟩, hhead, rfl⟩ := Option.map_eq_some_iff.1 h
  obtain ⟨row, hrow, above, habove, heq⟩ := exists_row_of_mem_enclosing (List.mem_of_head? hhead)
  rw [heq] at hhead
  obtain ⟨more, rfl⟩ := List.head?_eq_some_iff.1 hhead
  obtain ⟨s, hs, hx⟩ := exists_site?_of_ancestors?_cons (hd.nodup_row hrow) habove
  refine mem_children_iff.2 ⟨s, ?_, hx⟩
  rw [hd.site?_of_row hrow (Forest.mem_ids_of_site? hs), hs]

/-- A nearest enclosing element of a name has that name and encloses. -/
theorem Distinct.of_ancestor? (hd : d.Distinct) {name : String} (h : d.ancestor? x name = some a) :
    (∃ n, d.node? a = some n ∧ n.isNamed name = true) ∧ x ∈ d.descendants a := by
  obtain ⟨⟨_, n⟩, hfound, rfl⟩ := Option.map_eq_some_iff.1 h
  have hmem := List.mem_of_find?_eq_some hfound
  have hnamed := List.find?_some hfound
  refine ⟨⟨n, hd.node?_of_mem_enclosing hmem, hnamed⟩, ?_⟩
  obtain ⟨s, hs, hx⟩ := hd.mem_ancestors_iff.1 (List.mem_map_of_mem hmem)
  exact mem_descendants_iff.2 ⟨s, hs, .inr hx⟩

/-! ## The nodes below one that stands alone -/

/-- A node stands alone in its row, beside some given rows. -/
structure Apex (d : Document) (x : NodeId) (rest : List Forest) : Prop where
  distinct : d.Distinct
  rows : ∃ node children, d.allRows.Perm (single x node children :: rest)

namespace Apex

theorem apart (h : d.Apex x rest) : d.Apart rest := by
  obtain ⟨node, children, hrows⟩ := h.rows
  exact ⟨h.distinct, [single x node children], hrows⟩

theorem site? (h : d.Apex x rest) : ∃ node children, d.allRows.Perm (single x node children :: rest) ∧
    d.site? x = some ⟨node, children, .nil⟩ := by
  obtain ⟨node, children, hrows⟩ := h.rows
  refine ⟨node, children, hrows, ?_⟩
  rw [h.distinct.site?_of_row (hrows.mem_iff.2 List.mem_cons_self) (by simp [single]), single,
    Forest.site?, if_pos rfl]

theorem tree_mem (h : d.Apex x rest) : d.tree x ∈ d.allRows := by
  obtain ⟨node, children, hrows, hs⟩ := h.site?
  rw [tree_of_site? hs]
  exact hrows.mem_iff.2 List.mem_cons_self

theorem mem_ids (h : d.Apex x rest) : x ∈ d.ids := by
  obtain ⟨node, children, -, hs⟩ := h.site?
  exact mem_ids_of_site? hs

/-- The nodes at and below the one that stands alone are those that are not in the given rows. -/
theorem free_iff (h : d.Apex x rest) : d.Free rest y ↔ y ∈ d.descendants x := by
  obtain ⟨node, children, hrows, hs⟩ := h.site?
  have hids : d.ids.Perm ((single x node children).ids ++ rest.flatMap Forest.ids) :=
    hrows.flatMap_right Forest.ids
  have htree : (single x node children).ids = d.descendants x := ids_tree_of_site? hs
  rw [htree] at hids
  constructor
  · intro hy
    exact (List.mem_append.1 (hids.mem_iff.1 hy.mem)).resolve_right hy.out
  · intro hy
    have hnodup := hids.nodup_iff.1 h.distinct.nodup
    refine ⟨mem_ids_of_mem_descendants hy, fun hin => ?_⟩
    exact (List.nodup_append.1 hnodup).2.2 y hy y hin rfl

theorem following_self (h : d.Apex x rest) : d.following x = .nil := by
  obtain ⟨node, children, -, hs⟩ := h.site?
  rw [following_eq_site?, hs]
  rfl

theorem ne_of_mem_following (h : d.Apex x rest) (hz : z ∈ (d.following y).ids) : y ≠ x := by
  rintro rfl
  rw [h.following_self] at hz
  exact List.not_mem_nil hz

theorem mem_of_mem_following (h : d.Apex x rest) (hy : y ∈ d.descendants x)
    (hz : z ∈ (d.following y).ids) : z ∈ d.descendants x := by
  obtain ⟨s, hs, hmem⟩ := mem_following_iff.1 hz
  exact h.free_iff.1 (h.apart.free_of_site (h.free_iff.2 hy) hs (.inr hmem))

/-- What encloses a node below the one that stands alone is below that one. -/
theorem mem_of_mem_descendants (h : d.Apex x rest) (hz : z ∈ d.descendants x)
    (hin : z ∈ d.descendants y) : y ∈ d.descendants x := by
  obtain ⟨s, hs, rfl | hmem⟩ := mem_descendants_iff.1 hin
  · exact hz
  · have hancestor := h.distinct.mem_ancestors_iff.2 ⟨s, hs, hmem⟩
    exact h.free_iff.1 (h.apart.free_of_mem_ancestors (h.free_iff.2 hz) hancestor)

end Apex

/-- The root of a document that has been read stands alone. -/
theorem apex_of_parse {text : String} (h : parse text = .ok d) :
    d.Apex d.root [] := by
  refine ⟨(proper_of_parse h).toDistinct, ?_⟩
  unfold parse ofReading at h
  split at h
  next => cases h
  next =>
    split at h
    next => cases h
    next id node children _ =>
      cases h
      exact ⟨node, children, .refl _⟩
    next => cases h

/-! ## Places -/

/-- Where a node comes among those at and below another one. -/
def place (d : Document) (x y : NodeId) : Nat := (d.descendants x).idxOf y

theorem Distinct.place_lt_of_append (hd : d.Distinct) {before after : List NodeId}
    (h : d.descendants x = before ++ after) (hy : y ∈ before) (hz : z ∈ after) :
    d.place x y < d.place x z := by
  rw [place, place, h]
  exact idxOf_lt_of_append (h ▸ hd.nodup_descendants x) hy hz

/-- A node comes before what stands below it. -/
theorem Distinct.place_lt (hd : d.Distinct) (hy : y ∈ d.descendants x)
    (hz : z ∈ d.descendants y) (hne : z ≠ y) : d.place x y < d.place x z := by
  obtain ⟨s, hs, heq | hin⟩ := mem_descendants_iff.1 hz
  · exact absurd heq hne
  by_cases hyx : y = x
  · subst hyx
    have happend : d.descendants y = [y] ++ s.children.ids := by
      rw [descendants_eq_site?, hs]
      rfl
    exact hd.place_lt_of_append happend (by simp) hin
  · obtain ⟨before, after, h⟩ := hd.exists_descendants_eq_append hs hy hyx
    have happend : d.descendants x =
        (before ++ [y]) ++ (s.children.ids ++ (s.rest.ids ++ after)) := by
      rw [h, List.append_assoc]
      rfl
    exact hd.place_lt_of_append happend (by simp) (List.mem_append_left _ hin)

theorem Distinct.place_le (hd : d.Distinct) (hy : y ∈ d.descendants x)
    (hz : z ∈ d.descendants y) : d.place x y ≤ d.place x z := by
  by_cases h : z = y
  · exact Nat.le_of_eq (congrArg _ h.symm)
  · exact Nat.le_of_lt (hd.place_lt hy hz h)

theorem Distinct.pairwise_place (hd : d.Distinct) (x : NodeId) :
    (d.descendants x).Pairwise fun y z => d.place x y < d.place x z := by
  rw [List.pairwise_iff_getElem]
  intro i j hi hj hlt
  rw [place, place, (hd.nodup_descendants x).idxOf_getElem, (hd.nodup_descendants x).idxOf_getElem]
  exact hlt

/-- A node comes after all that stands at and below another one. -/
structure Past (d : Document) (x y z : NodeId) : Prop where
  mem : z ∈ d.descendants x
  lt : ∀ a ∈ d.descendants y, d.place x a < d.place x z

namespace Past

theorem of_mem (h : d.Past x y z) (hd : d.Distinct) (ha : a ∈ d.descendants y) : d.Past x a z :=
  ⟨h.mem, fun _ hb => h.lt _ (hd.mem_descendants_trans hb ha)⟩

theorem of_place_le (h : d.Past x y z) (ha : a ∈ d.descendants x)
    (hle : d.place x z ≤ d.place x a) : d.Past x y a :=
  ⟨ha, fun b hb => Nat.lt_of_lt_of_le (h.lt b hb) hle⟩

/-- What stands below a node comes past what the node comes past. -/
theorem below (h : d.Past x y z) (hd : d.Distinct) (ha : a ∈ d.descendants z) : d.Past x y a :=
  h.of_place_le (hd.mem_descendants_trans ha h.mem) (hd.place_le h.mem ha)

theorem place_lt (h : d.Past x y z) (hy : y ∈ d.ids) : d.place x y < d.place x z :=
  h.lt y (mem_descendants_self hy)

end Past

/-- What follows a node in its row comes past it. -/
theorem Apex.past_of_mem_following (h : d.Apex x rest) (hy : y ∈ d.descendants x)
    (hz : z ∈ (d.following y).ids) : d.Past x y z := by
  obtain ⟨s, hs, hmem⟩ := mem_following_iff.1 hz
  obtain ⟨before, after, happend⟩ :=
    h.distinct.exists_descendants_eq_append hs hy (h.ne_of_mem_following hz)
  refine ⟨h.mem_of_mem_following hy hz, fun a ha => ?_⟩
  have hparted : d.descendants x =
      (before ++ y :: s.children.ids) ++ (s.rest.ids ++ after) := by
    rw [happend, List.append_assoc]
    rfl
  refine h.distinct.place_lt_of_append hparted ?_ (List.mem_append_left _ hmem)
  obtain ⟨t, ht, hin⟩ := mem_descendants_iff.1 ha
  rw [hs] at ht
  cases ht
  rw [List.mem_append, List.mem_cons]
  exact .inr hin

/-- What comes from a node on, and not after all of a later sibling, is within the node or follows
it. -/
theorem Apex.mem_of_place (h : d.Apex x rest) (hy : y ∈ d.descendants x)
    (hl : l ∈ (d.following y).topIds) (ha : a ∈ d.descendants l) (hz : z ∈ d.descendants x)
    (hle : d.place x y ≤ d.place x z) (hle' : d.place x z ≤ d.place x a) :
    z ∈ d.descendants y ∨ z ∈ (d.following y).ids := by
  obtain ⟨s, hs, hls⟩ := mem_topIds_following_iff.1 hl
  have hne := h.ne_of_mem_following (mem_ids_of_mem_topIds hl)
  obtain ⟨before, after, happend⟩ := h.distinct.exists_descendants_eq_append hs hy hne
  have har : a ∈ s.rest.ids := ((h.distinct.has_rest hs).mem_ids_iff
    (nodup_rest h.distinct.nodup_forest (h.distinct.forest_site? hs))).2 ⟨l, hls, ha⟩
  rw [happend, List.mem_append, List.mem_cons, List.mem_append, List.mem_append] at hz
  rcases hz with hz | rfl | hz | hz | hz
  · exact absurd hle (Nat.not_le_of_lt (h.distinct.place_lt_of_append happend hz (by simp)))
  · exact .inl (mem_descendants_self (mem_ids_of_site? hs))
  · exact .inl (mem_descendants_iff.2 ⟨s, hs, .inr hz⟩)
  · exact .inr (mem_following_iff.2 ⟨s, hs, hz⟩)
  · have hparted : d.descendants x =
        (before ++ y :: (s.children.ids ++ s.rest.ids)) ++ after := by
      rw [happend]
      simp
    have hlt := h.distinct.place_lt_of_append hparted (y := a) (by simp [har]) hz
    exact absurd hle' (Nat.not_le_of_lt hlt)

end Document

end MailMerge.Xml
