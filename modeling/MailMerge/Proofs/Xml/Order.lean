import MailMerge.Proofs.Xml.Within

/-!
# The order of a document

A node begins before what stands below it, and that begins before its later siblings. The nodes of
a row are those at and below its siblings, so that a row is what stands between its neighbours.
-/

namespace MailMerge.Xml

section Pairs

variable {α : Type} {x y : α} {before after : List α}

theorem pair_sublist_iff_mem_after (h : (before ++ x :: after).Nodup) :
    [x, y].Sublist (before ++ x :: after) ↔ y ∈ after := by
  obtain ⟨-, hafter, hdisj⟩ := List.nodup_append.1 h
  have hx : x ∉ after := (List.nodup_cons.1 hafter).1
  constructor
  · intro hsub
    obtain ⟨first, second, heq, hfirst, hsecond⟩ := List.sublist_append_iff.1 hsub
    cases first with
    | nil =>
      rw [List.nil_append] at heq
      rw [← heq] at hsecond
      rcases List.sublist_cons_iff.1 hsecond with hlater | ⟨r, hr, hlater⟩
      · exact absurd (hlater.subset List.mem_cons_self) hx
      · cases hr
        exact List.singleton_sublist.1 hlater
    | cons a first =>
      have ha : x = a := (List.cons.inj heq).1
      exact absurd rfl (hdisj x (hfirst.subset (ha ▸ List.mem_cons_self)) x List.mem_cons_self)
  · intro hy
    exact ((List.singleton_sublist.2 hy).cons_cons x).trans (List.sublist_append_right _ _)

theorem pair_sublist_iff_mem_before (h : (before ++ x :: after).Nodup) :
    [y, x].Sublist (before ++ x :: after) ↔ y ∈ before := by
  obtain ⟨-, hafter, hdisj⟩ := List.nodup_append.1 h
  have hx : x ∉ after := (List.nodup_cons.1 hafter).1
  constructor
  · intro hsub
    obtain ⟨first, second, heq, hfirst, hsecond⟩ := List.sublist_append_iff.1 hsub
    cases first with
    | nil =>
      rw [List.nil_append] at heq
      rw [← heq] at hsecond
      rcases List.sublist_cons_iff.1 hsecond with hlater | ⟨r, hr, hlater⟩
      · exact absurd (hlater.subset (by simp)) hx
      · cases hr
        exact absurd (List.singleton_sublist.1 hlater) hx
    | cons a first =>
      have ha : y = a := (List.cons.inj heq).1
      exact hfirst.subset (ha ▸ List.mem_cons_self)
  · intro hy
    exact (List.singleton_sublist.2 hy).append (List.singleton_sublist.2 List.mem_cons_self)

end Pairs

namespace Forest

variable {x y : NodeId} {f g : Forest} {s : Site}

/-- What stands at a site follows the node at once. -/
theorem exists_nodes_eq_append (h : f.site? x = some s) : ∃ before after,
    f.nodes = before ++ (x, s.node) :: (s.children.nodes ++ (s.rest.nodes ++ after)) := by
  induction f with
  | nil => cases h
  | cons id node children rest ihc ihr =>
    rw [site?] at h
    rw [Forest.nodes]
    split at h
    next heq =>
      cases h
      exact ⟨[], [], by simp [heq]⟩
    next =>
      rcases Option.or_eq_some_iff.1 h with h | ⟨-, h⟩
      · obtain ⟨before, after, heq⟩ := ihc h
        exact ⟨(id, node) :: before, after ++ rest.nodes, by simp [heq]⟩
      · obtain ⟨before, after, heq⟩ := ihr h
        exact ⟨(id, node) :: (children.nodes ++ before), after, by simp [heq]⟩

theorem exists_ids_eq_append (h : f.site? x = some s) :
    ∃ before after, f.ids = before ++ x :: (s.children.ids ++ (s.rest.ids ++ after)) := by
  obtain ⟨before, after, heq⟩ := exists_nodes_eq_append h
  exact ⟨before.map Prod.fst, after.map Prod.fst, by simp [Forest.ids, heq]⟩

/-- Of two nodes with a node below the one, and below or after the other, one stands there too. -/
theorem mem_of_mem_both {a z : NodeId} {t : Site} (hf : f.ids.Nodup) (hs : f.site? a = some s)
    (ht : f.site? z = some t) (hx : x ∈ s.children.ids ∨ x ∈ s.rest.ids)
    (hxt : x ∈ t.children.ids) :
    z = a ∨ (z ∈ s.children.ids ∨ z ∈ s.rest.ids) ∨ a ∈ t.children.ids := by
  induction f with
  | nil => cases hs
  | cons id node children rest ihc ihr =>
    obtain ⟨-, -, hchildren, hrest, hdisj⟩ := nodup_cons_iff.1 hf
    rw [site?] at hs ht
    split at hs
    next hida =>
      cases hs
      split at ht
      next hidz => exact .inl (hidz.symm.trans hida)
      next =>
        rcases Option.or_eq_some_iff.1 ht with ht | ⟨-, ht⟩
        · exact .inr (.inl (.inl (mem_ids_of_site? ht)))
        · exact .inr (.inl (.inr (mem_ids_of_site? ht)))
    next =>
      have hin : ∀ g : Forest, g.site? a = some s → x ∈ g.ids :=
        fun g h => hx.elim (mem_of_mem_children h) (mem_of_mem_rest h)
      split at ht
      next =>
        cases ht
        rcases Option.or_eq_some_iff.1 hs with hs | ⟨-, hs⟩
        · exact .inr (.inr (mem_ids_of_site? hs))
        · exact absurd (hin rest hs) (hdisj x hxt)
      next =>
        rcases Option.or_eq_some_iff.1 hs with hs | ⟨-, hs⟩ <;>
          rcases Option.or_eq_some_iff.1 ht with ht | ⟨-, ht⟩
        · exact ihc hchildren hs ht
        · exact absurd (mem_of_mem_children ht hxt) (hdisj x (hin children hs))
        · exact absurd (hin rest hs) (hdisj x (mem_of_mem_children ht hxt))
        · exact ihr hrest hs ht

theorem exists_eq_append_of_mem_topIds (h : x ∈ f.topIds) :
    ∃ before node children after, f = before ++ cons x node children after := by
  induction f with
  | nil => cases h
  | cons id node children rest _ ih =>
    rcases List.mem_cons.1 h with rfl | h
    · exact ⟨nil, node, children, rest, rfl⟩
    · obtain ⟨before, n, c, after, heq⟩ := ih h
      exact ⟨cons id node children before, n, c, after, by rw [heq, cons_append]⟩

/-- A node stands in a row when it is at or below one of the siblings. -/
theorem mem_ids_iff_exists_top (hf : f.ids.Nodup) :
    x ∈ f.ids ↔ ∃ y ∈ f.topIds, ∃ s, f.site? y = some s ∧ (x = y ∨ x ∈ s.children.ids) := by
  constructor
  · intro hx
    induction f with
    | nil => cases hx
    | cons id node children rest _ ih =>
      obtain ⟨-, hidr, -, hrest, hdisj⟩ := nodup_cons_iff.1 hf
      rw [ids_cons, List.mem_cons, List.mem_append] at hx
      rcases hx with rfl | hx | hx
      · exact ⟨x, List.mem_cons_self, _, by rw [site?, if_pos rfl], .inl rfl⟩
      · exact ⟨id, List.mem_cons_self, _, by rw [site?, if_pos rfl], .inr hx⟩
      · obtain ⟨y, hy, s, hs, hxy⟩ := ih hrest hx
        have hyr := mem_ids_of_site? hs
        have hid : id ≠ y := fun h => hidr (h ▸ hyr)
        have hyc : y ∉ children.ids := fun h => hdisj y h hyr
        refine ⟨y, List.mem_cons_of_mem _ hy, s, ?_, hxy⟩
        rw [site?, if_neg hid, site?_eq_none_iff.2 hyc, Option.none_or, hs]
  · rintro ⟨y, hy, s, hs, rfl | hx⟩
    · exact mem_ids_of_site? hs
    · exact mem_of_mem_children hs hx

theorem mem_tops_iff (hf : f.ids.Nodup) {node : Node} :
    (x, node) ∈ f.tops ↔ x ∈ f.topIds ∧ ∃ s, f.site? x = some s ∧ s.node = node := by
  induction f with
  | nil => simp [tops]
  | cons id n children rest _ ih =>
    obtain ⟨-, hidr, -, hrest, hdisj⟩ := nodup_cons_iff.1 hf
    rw [tops, List.mem_cons, ih hrest, topIds_cons, List.mem_cons, site?]
    by_cases hx : id = x
    · subst hx
      have hout : id ∉ rest.topIds := fun h => hidr (mem_ids_of_mem_topIds h)
      simp [hout, eq_comm]
    · rw [if_neg hx]
      simp only [Prod.mk.injEq, Ne.symm hx, false_and, false_or]
      refine and_congr_right fun htop => ?_
      have hxc : x ∉ children.ids := fun h => hdisj x h (mem_ids_of_mem_topIds htop)
      rw [site?_eq_none_iff.2 hxc, Option.none_or]

end Forest

namespace Document

open Forest

variable {d : Document} {x y z : NodeId} {s : Site} {f g : Forest}

/-- One node comes before another in the tree of the root. -/
def Precedes (d : Document) (x y : NodeId) : Prop := [x, y].Sublist (d.descendants d.root)

theorem Precedes.left (h : d.Precedes x y) : x ∈ d.descendants d.root :=
  h.subset List.mem_cons_self

theorem Precedes.right (h : d.Precedes x y) : y ∈ d.descendants d.root := h.subset (by simp)

/-- A document has a row when the nodes of the row stand in it with all that is below them. -/
def Has (d : Document) (f : Forest) : Prop :=
  ∀ y s, f.site? y = some s → ∃ t, d.site? y = some t ∧ t.node = s.node ∧ t.children = s.children

theorem Distinct.has_children (hd : d.Distinct) (hs : d.site? x = some s) : d.Has s.children := by
  intro y t ht
  exact ⟨t, (hd.site?_of_mem_children hs (Forest.mem_ids_of_site? ht)).trans ht, rfl, rfl⟩

theorem Distinct.has_rest (hd : d.Distinct) (hs : d.site? x = some s) : d.Has s.rest := by
  intro y t ht
  exact ⟨t, (hd.site?_of_mem_rest hs (Forest.mem_ids_of_site? ht)).trans ht, rfl, rfl⟩

theorem Has.left (h : d.Has (f ++ g)) (hf : f.ids.Nodup) : d.Has f := by
  intro y s hs
  obtain ⟨t, ht, hnode, hchildren⟩ := h y _ (by rw [site?_append y f g hf, hs]; rfl)
  refine ⟨t, ht, hnode.trans ?_, hchildren.trans ?_⟩ <;> split <;> rfl

/-- A document has a row, in which no identity is used twice. -/
structure Shows (d : Document) (f : Forest) : Prop where
  has : d.Has f
  nodup : f.ids.Nodup

namespace Shows

variable {node : Node} {children rest : Forest}

theorem left (h : d.Shows (f ++ g)) : d.Shows f := by
  have hnodup := h.nodup
  rw [ids_append] at hnodup
  exact ⟨h.has.left (List.nodup_append.1 hnodup).1, (List.nodup_append.1 hnodup).1⟩

theorem right (h : d.Shows (f ++ g)) : d.Shows g := by
  have hnodup := h.nodup
  rw [ids_append] at hnodup
  obtain ⟨hf, hg, hdisj⟩ := List.nodup_append.1 hnodup
  refine ⟨fun y s hs => h.has y s ?_, hg⟩
  have hout : y ∉ f.ids := fun hy => hdisj y hy y (Forest.mem_ids_of_site? hs) rfl
  rw [site?_append y f g hf, Forest.site?_eq_none_iff.2 hout, hs]
  rfl

theorem below (h : d.Shows (cons x node children rest)) : d.Shows children := by
  obtain ⟨hx, -, hchildren, -, -⟩ := nodup_cons_iff.1 h.nodup
  refine ⟨fun y s hs => h.has y s ?_, hchildren⟩
  have hxy : x ≠ y := fun heq => hx (heq ▸ Forest.mem_ids_of_site? hs)
  rw [Forest.site?, if_neg hxy, hs, Option.some_or]

theorem later (h : d.Shows (cons x node children rest)) : d.Shows rest :=
  right (f := single x node children) h

theorem first (h : d.Shows (cons x node children rest)) : d.Shows (single x node children) :=
  left (g := rest) h

theorem site? (h : d.Shows (cons x node children rest)) :
    ∃ t, d.site? x = some t ∧ t.node = node ∧ t.children = children :=
  h.has x ⟨node, children, rest⟩ (by rw [Forest.site?, if_pos rfl])

theorem tree_eq (h : d.Shows (cons x node children rest)) : d.tree x = single x node children := by
  obtain ⟨t, ht, rfl, rfl⟩ := h.site?
  exact tree_of_site? ht

theorem below_eq (h : d.Shows (cons x node children rest)) : d.below x = children := by
  rw [Document.below, h.tree_eq]
  rfl

/-- What a node of a row holds, told by the document that has the row. -/
theorem node? (h : d.Shows f) (hmem : (x, node) ∈ f.nodes) : d.node? x = some node := by
  induction f with
  | nil => cases hmem
  | cons id n c r ihc ihr =>
    rw [Forest.nodes, List.mem_cons, List.mem_append] at hmem
    rcases hmem with heq | hmem | hmem
    · cases heq
      obtain ⟨t, ht, hnode, -⟩ := h.site?
      rw [node?_eq_site?, ht, Option.map_some, hnode]
    · exact ihc h.below hmem
    · exact ihr h.later hmem

end Shows

/-- A node stands in a row of a document when it is within one of the siblings. -/
theorem Has.mem_ids_iff (h : d.Has f) (hf : f.ids.Nodup) :
    x ∈ f.ids ↔ ∃ y ∈ f.topIds, x ∈ d.descendants y := by
  rw [mem_ids_iff_exists_top hf]
  refine exists_congr fun y => and_congr_right fun hy => ?_
  obtain ⟨s, hs⟩ := Forest.exists_site? (mem_ids_of_mem_topIds hy)
  obtain ⟨t, ht, -, hchildren⟩ := h y s hs
  rw [mem_descendants_iff]
  simp only [hs, ht, Option.some.injEq, exists_eq_left', hchildren]

/-- The nodes of a row of a document, told by what the document has there. -/
theorem Has.mem_tops_iff (h : d.Has f) (hf : f.ids.Nodup) {node : Node} :
    (x, node) ∈ f.tops ↔ x ∈ f.topIds ∧ d.node? x = some node := by
  rw [Forest.mem_tops_iff hf]
  refine and_congr_right fun hx => ?_
  obtain ⟨s, hs⟩ := Forest.exists_site? (mem_ids_of_mem_topIds hx)
  obtain ⟨t, ht, hnode, -⟩ := h x s hs
  simp [node?_eq_site?, hs, ht, hnode]

/-- What stands at a site follows the node at once in the order of a document. -/
theorem Distinct.exists_descendants_eq_append (hd : d.Distinct) (hs : d.site? x = some s)
    (hx : x ∈ d.descendants z) (hne : x ≠ z) :
    ∃ before after,
      d.descendants z = before ++ x :: (s.children.ids ++ (s.rest.ids ++ after)) := by
  obtain ⟨t, ht, hxz⟩ := mem_descendants_iff.1 hx
  have hbelow := hd.site?_of_mem_children ht (hxz.resolve_left hne)
  obtain ⟨before, after, heq⟩ := exists_ids_eq_append (hbelow.symm.trans hs)
  refine ⟨z :: before, after, ?_⟩
  rw [descendants_eq_site?, ht, Option.map_some, Option.getD_some, heq, List.cons_append]

end Document

end MailMerge.Xml
