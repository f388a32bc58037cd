import MailMerge.Proofs.Xml.Refill

/-!
# Nodes moved next to others

A node that is moved right after another one takes along what stands below it, and all other nodes
keep their sites but for its coming and going (`Distinct.movedAfter`). The children of a node are
then those that it had, with the moved one taken out and put in again.
-/

namespace MailMerge.Xml

namespace Forest

variable {x y anchor : NodeId} {f g row : Forest} {s : Site} {before after : List NodeId}

theorem topIds_without (hf : f.ids.Nodup) : (f.without x).topIds = f.topIds.filter (· ≠ x) := by
  induction f with
  | nil => rfl
  | cons id node children rest _ ih =>
    obtain ⟨-, hidr, -, hrest, -⟩ := nodup_cons_iff.1 hf
    by_cases hid : id = x
    · subst hid
      have hkeep : ∀ z ∈ rest.topIds, decide (z ≠ id) = true := by
        intro z hz
        exact decide_eq_true fun heq => hidr (heq ▸ mem_ids_of_mem_topIds hz)
      rw [without, rewrite, if_pos rfl, topIds_cons, List.filter_cons_of_neg (by simp),
        List.filter_eq_self.2 hkeep]
    · rw [without, rewrite, if_neg hid, topIds_cons, topIds_cons,
        List.filter_cons_of_pos (by simpa using hid), ← ih hrest, without]

/-- A row put after a sibling stands right after it. -/
theorem topIds_graftAfter (hf : f.ids.Nodup) (htops : f.topIds = before ++ anchor :: after) :
    (graftAfter anchor row f).topIds = before ++ anchor :: (row.topIds ++ after) := by
  have hmem : anchor ∈ f.topIds := by rw [htops]; simp
  obtain ⟨first, node, children, last, rfl⟩ := exists_eq_append_of_mem_topIds hmem
  rw [ids_append, List.nodup_append] at hf
  obtain ⟨-, hlater, hdisj⟩ := hf
  have hfirst : anchor ∉ first.ids := fun h => hdisj anchor h anchor (by simp) rfl
  have hlast : anchor ∉ last.topIds := fun h =>
    (nodup_cons_iff.1 hlater).2.1 (mem_ids_of_mem_topIds h)
  rw [topIds_append, topIds_cons] at htops
  obtain ⟨hbefore, -, hafter⟩ := (List.append_cons_inj_of_notMem
    (fun h => hfirst (mem_ids_of_mem_topIds h)) hlast).1 htops
  rw [graftAfter_append_cons row node children hfirst, topIds_append, topIds_cons, topIds_append,
    hbefore, hafter]

/-- No sibling of a row stands below a node of it. -/
theorem notMem_of_mem_topIds (hf : f.ids.Nodup) (hy : y ∈ f.topIds) (hs : f.site? x = some s) :
    y ∉ s.children.ids := by
  induction f with
  | nil => cases hy
  | cons id node children rest _ ih =>
    obtain ⟨hidc, hidr, -, hrest, hdisj⟩ := nodup_cons_iff.1 hf
    rw [topIds_cons, List.mem_cons] at hy
    have hout : y ∉ children.ids := by
      rcases hy with rfl | hy
      · exact hidc
      · exact fun h => hdisj y h (mem_ids_of_mem_topIds hy)
    rw [site?] at hs
    split at hs
    next => cases hs; exact hout
    next =>
      rcases Option.or_eq_some_iff.1 hs with hs | ⟨-, hs⟩
      · exact fun h => hout (mem_of_mem_children hs h)
      · rcases hy with rfl | hy
        · exact fun h => hidr (mem_of_mem_children hs h)
        · exact ih hrest hy hs

/-- What is in a row after another row has been put after one of its nodes. -/
theorem mem_ids_graftAfter (hf : f.ids.Nodup) :
    y ∈ (graftAfter x row f).ids ↔ y ∈ f.ids ∨ (x ∈ f.ids ∧ y ∈ row.ids) := by
  cases hs : f.site? x with
  | none =>
    have hx := site?_eq_none_iff.1 hs
    rw [graftAfter, rewrite_of_notMem hx]
    simp [hx]
  | some s =>
    have hperm : ((graftAfter x row f).nodes.map Prod.fst).Perm _ :=
      (nodes_perm_graftAfter hf hs).map Prod.fst
    rw [List.map_append] at hperm
    have hx := mem_ids_of_site? hs
    change y ∈ (graftAfter x row f).nodes.map Prod.fst ↔ _
    rw [hperm.mem_iff, List.mem_append]
    simp only [hx, true_and]
    exact or_comm

end Forest

namespace Document

open Forest

variable {d e : Document} {x y z p anchor : NodeId} {s : Site} {before after : List NodeId}

theorem children_eq_site? (d : Document) (x : NodeId) :
    d.children x = ((d.site? x).map fun s => s.children.topIds).getD [] := by
  rw [children, below_eq_site?]
  cases d.site? x <;> rfl

theorem Distinct.nodup_childrenIds (hd : d.Distinct) (hs : d.site? x = some s) :
    s.children.ids.Nodup := nodup_children hd.nodup_forest (hd.forest_site? hs)

theorem Distinct.nodup_below (hd : d.Distinct) (x : NodeId) : (d.below x).ids.Nodup := by
  rw [below_eq_site?]
  cases hs : d.site? x with
  | none => exact List.nodup_nil
  | some s => exact hd.nodup_childrenIds hs

theorem Distinct.nodup_following (hd : d.Distinct) (x : NodeId) : (d.following x).ids.Nodup := by
  rw [following_eq_site?]
  cases hs : d.site? x with
  | none => exact List.nodup_nil
  | some s => exact nodup_rest hd.nodup_forest (hd.forest_site? hs)

/-- A change at a node is only possible where the node is. -/
theorem Distinct.mem_ids_of_change (hd : d.Distinct) {f : Forest → Option Forest}
    {change : Site → Forest}
    (hf : ∀ row : Forest, row.ids.Nodup → f row = (row.site? x).map fun _ => row.rewrite x change)
    (h : d.change f = some e) : x ∈ d.ids := by
  by_contra hx
  have hall := change_allRows d f
  rw [h, changeRow_eq hd.nodup hf, ← site?_eq_findSome?, site?_eq_none_iff.2 hx] at hall
  cases hall

/-- What a row put after a node does to a document. -/
structure Grafted (d : Document) (anchor : NodeId) (row : Forest) (e : Document) : Prop where
  frame : d.SameFrame e
  perm : e.nodes.Perm (row.nodes ++ d.nodes)
  self : ∀ s, d.site? anchor = some s → e.site? anchor = some { s with rest := row ++ s.rest }
  other : ∀ y, y ≠ anchor → y ∉ row.ids →
    e.site? y = (d.site? y).map (Site.map (graftAfter anchor row))
  new : ∀ s, d.site? anchor = some s → ∀ y ∈ row.ids, e.site? y =
    (row.site? y).map fun t => if y ∈ row.topIds then Site.before s.rest t else t

theorem Distinct.grafted (hd : d.Distinct) {row : Forest} (hrow : row.ids.Nodup)
    (hnew : ∀ y ∈ row.ids, y < d.next ∧ y ∉ d.ids)
    (h : d.change (insertAfter? anchor row) = some e) :
    anchor ∈ d.ids ∧ d.Grafted anchor row e := by
  have hedit : ∀ r : Forest, r.ids.Nodup → insertAfter? anchor row r = (r.site? anchor).map
      fun _ => r.rewrite anchor fun s => cons anchor s.node s.children (row ++ s.rest) :=
    fun _ hr => insertAfter?_eq_site? hr
  have hanchor := hd.mem_ids_of_change hedit h
  obtain ⟨s, hs⟩ := exists_site? hanchor
  obtain ⟨new, hchanged, hsites⟩ := hd.change_eq hedit hs
  rw [hchanged] at h
  cases h
  have hforest := hd.forest_site? hs
  have hperm := change_perm (fun _ _ h => insertAfter?_perm h) hchanged
  refine ⟨hanchor, change_sameFrame hchanged, hperm, ?_, ?_, ?_⟩
  · intro t ht
    rw [hs] at ht
    cases ht
    rw [hsites anchor (hd.numbered anchor hanchor)]
    exact site?_graftAfter_self hd.nodup_forest hforest
  · intro y hne hy
    by_cases hlt : y < d.next
    · rw [hsites y hlt, site?_eq_forest hlt]
      exact site?_graftAfter hd.nodup_forest hrow hforest hne hy
    · have hout : y ∉ d.ids := fun h => hlt (hd.numbered y h)
      have hout' : y ∉ e.ids := by
        rw [ids_eq_map_nodes, (hperm.map Prod.fst).mem_iff, List.map_append, ← ids_eq_map_nodes,
          List.mem_append, not_or]
        exact ⟨hy, hout⟩
      rw [site?_eq_none_iff.2 hout, site?_eq_none_iff.2 hout', Option.map_none]
  · intro t ht y hy
    rw [hs] at ht
    cases ht
    obtain ⟨hlt, hout⟩ := hnew y hy
    rw [hsites y hlt]
    exact site?_graftAfter_row hd.nodup_forest hrow hforest (by rwa [mem_ids_forest hlt])

/-- What a move of a node right after another one does to a document. The moved node has the site
`s`, and the other one has the site `t` when the moved node is taken out. -/
structure MovedAfter (d : Document) (anchor x : NodeId) (s t : Site) (e : Document) : Prop where
  frame : d.SameFrame e
  perm : e.nodes.Perm d.nodes
  moved : d.site? x = some s
  target : (d.detach x).site? anchor = some t
  outside : anchor ∉ d.descendants x
  /-- What stands below the moved node stays below it. -/
  inner : ∀ y ∈ d.descendants x, y ≠ x → e.site? y = d.site? y
  /-- The moved node keeps what is below it and is followed by what came after the other one. -/
  self : e.site? x = some { s with rest := t.rest }
  before : e.site? anchor = some { t with rest := s.tree x ++ t.rest }
  /-- All other nodes lose the moved one where they had it and have it after the other one. -/
  outer : ∀ y, y ∉ d.descendants x → y ≠ anchor →
    e.site? y = ((d.detach x).site? y).map (Site.map (graftAfter anchor (s.tree x)))

theorem ids_tree_of_site? (hs : d.site? x = some s) : (s.tree x).ids = d.descendants x := by
  rw [descendants_eq_site?, hs]
  simp [Site.tree, single]

theorem Distinct.movedAfter (hd : d.Distinct) (h : d.insertAfter anchor x = some e) :
    ∃ s t, d.MovedAfter anchor x s t e := by
  have hx : x ∈ d.ids := by
    by_contra hx
    rw [insertAfter, move, hd.takeOut_eq_none (fun _ h => extract?_eq_site? h) hx] at h
    cases h
  obtain ⟨s, hs⟩ := exists_site? hx
  obtain ⟨left, hleft⟩ := hd.takenOut hs
  rw [insertAfter, move, hleft.eq] at h
  dsimp only at h
  split at h
  next => cases h
  next hout =>
    have htree := ids_tree_of_site? hs
    have hbelow : ∀ y, y ∈ d.descendants x ↔ y = x ∨ y ∈ s.children.ids := by
      simp [mem_descendants_iff, hs]
    have houtside : anchor ∉ d.descendants x := fun hin =>
      hout ((contains_eq_true_iff anchor _).2 (htree ▸ hin))
    -- What is left has the sites of the document from which the node is taken out for good.
    have hsites : ∀ y, y ∉ d.descendants x → left.site? y = (d.detach x).site? y := by
      intro y hy
      rw [hbelow, not_or] at hy
      rw [hleft.site? y hy.1 hy.2, hd.site?_detach]
      simp only [hy.1, if_false]
    have hnew : ∀ y ∈ (s.tree x).ids, y < left.next ∧ y ∉ left.ids := by
      intro y hy
      rw [htree] at hy
      refine ⟨?_, hleft.gone y ((hbelow y).1 hy)⟩
      rw [hleft.frame.next]
      exact hd.numbered y (mem_ids_of_mem_descendants hy)
    have hdistinct := hd.of_takeOut (fun _ _ _ h => extract?_perm h) hleft.eq
    obtain ⟨hanchor, hgrafted⟩ := hdistinct.grafted (htree ▸ hd.nodup_descendants x) hnew h
    obtain ⟨t, ht⟩ := exists_site? hanchor
    refine ⟨s, t, hleft.frame.trans hgrafted.frame, hgrafted.perm.trans hleft.perm.symm, hs,
      by rw [← hsites anchor houtside, ht], houtside, ?_, ?_, hgrafted.self t ht, ?_⟩
    · intro y hy hne
      have htop : y ∉ (s.tree x).topIds := by simpa [Site.tree, single] using hne
      rw [hgrafted.new t ht y (htree ▸ hy)]
      simp only [htop, if_false, Option.map_id']
      rw [hd.site?_of_mem_children hs (((hbelow y).1 hy).resolve_left hne), Site.tree, single,
        Forest.site?, if_neg (Ne.symm hne), Forest.site?, Option.or_none]
    · rw [hgrafted.new t ht x (by simp [Site.tree, single]), Site.tree, single, Forest.site?,
        if_pos rfl]
      simp [Site.before]
    · intro y hy hne
      rw [← hsites y hy]
      exact hgrafted.other y hne (htree ▸ hy)

/-- A node can be moved right after any node that does not stand within it. -/
theorem Distinct.exists_insertAfter (hd : d.Distinct) (hx : x ∈ d.ids) (hanchor : anchor ∈ d.ids)
    (hout : anchor ∉ d.descendants x) : ∃ e, d.insertAfter anchor x = some e := by
  obtain ⟨s, hs⟩ := exists_site? hx
  obtain ⟨left, hleft⟩ := hd.takenOut hs
  have htree : (s.tree x).ids = d.descendants x := ids_tree_of_site? hs
  have hcontains : (s.tree x).contains anchor = false := by
    rw [Bool.eq_false_iff]
    intro h
    exact hout (htree ▸ (contains_eq_true_iff anchor _).1 h)
  have hmem : anchor ∈ left.ids := by
    have hids := (hleft.perm.map Prod.fst).mem_iff.1 (ids_eq_map_nodes d ▸ hanchor)
    rw [List.map_append, List.mem_append, ← ids_eq_map_nodes] at hids
    exact hids.resolve_left fun hin => hout (htree ▸ hin)
  obtain ⟨t, ht⟩ := exists_site? hmem
  have hdistinct := hd.of_takeOut (fun _ _ _ h => extract?_perm h) hleft.eq
  obtain ⟨e, hchange, -⟩ := hdistinct.change_eq (f := insertAfter? anchor (s.tree x))
    (fun _ h => insertAfter?_eq_site? h) ht
  refine ⟨e, ?_⟩
  rw [insertAfter, move, hleft.eq]
  simp only [hcontains, Bool.false_eq_true, if_false, hchange]

/-! ## Children and what stands within a node -/

theorem mem_children_iff : y ∈ d.children x ↔ ∃ s, d.site? x = some s ∧ y ∈ s.children.topIds := by
  rw [children_eq_site?]
  cases d.site? x <;> simp

theorem mem_descendants_of_mem_children (h : y ∈ d.children x) : y ∈ d.descendants x := by
  obtain ⟨s, hs, hy⟩ := mem_children_iff.1 h
  exact mem_descendants_iff.2 ⟨s, hs, .inr (mem_ids_of_mem_topIds hy)⟩

theorem mem_ids_of_mem_children (h : y ∈ d.children x) : x ∈ d.ids ∧ y ∈ d.ids := by
  obtain ⟨s, hs, -⟩ := mem_children_iff.1 h
  exact ⟨mem_ids_of_site? hs, mem_ids_of_mem_descendants (mem_descendants_of_mem_children h)⟩

theorem Distinct.notMem_children_self (hd : d.Distinct) : x ∉ d.children x := by
  intro h
  obtain ⟨s, hs, hx⟩ := mem_children_iff.1 h
  exact Forest.notMem_children_self hd.nodup_forest (hd.forest_site? hs)
    (mem_ids_of_mem_topIds hx)

theorem Distinct.parent?_isSome (hd : d.Distinct) (h : y ∈ d.children x) :
    (d.parent? y).isSome := by
  obtain ⟨s, hs, hy⟩ := mem_children_iff.1 h
  have hmem : x ∈ d.ancestors y := hd.mem_ancestors_iff.2 ⟨s, hs, mem_ids_of_mem_topIds hy⟩
  rw [parent?, List.isSome_head?]
  exact fun hnil => List.not_mem_nil (hnil ▸ hmem)

theorem Distinct.children_detach (hd : d.Distinct) :
    (d.detach x).children p = (d.children p).filter (· ≠ x) := by
  rw [children_eq_site?, children_eq_site?, hd.site?_detach]
  cases hs : d.site? p with
  | none => rfl
  | some s =>
    by_cases hpx : p = x
    · subst hpx
      have hkeep : ∀ z ∈ s.children.topIds, decide (z ≠ p) = true := by
        intro z hz
        refine decide_eq_true fun heq => ?_
        exact Forest.notMem_children_self hd.nodup_forest (hd.forest_site? hs)
          (mem_ids_of_mem_topIds (heq ▸ hz))
      simp only [Option.map_some, Option.getD_some, if_true, List.filter_eq_self.2 hkeep]
    · simp [hpx, topIds_without (hd.nodup_childrenIds hs)]

theorem Distinct.children_detachAll (hd : d.Distinct) (xs : List NodeId) :
    (d.detachAll xs).children p = (d.children p).filter (· ∉ xs) := by
  induction xs generalizing d with
  | nil => exact (List.filter_eq_self.2 fun y _ => by simp).symm
  | cons x xs ih =>
    change ((d.detach x).detachAll xs).children p = _
    rw [ih (hd.detach x), hd.children_detach, List.filter_filter]
    refine List.filter_congr fun y _ => ?_
    simp [Bool.and_comm]

namespace MovedAfter

variable {t : Site}

theorem distinct (h : d.MovedAfter anchor x s t e) (hd : d.Distinct) : e.Distinct :=
  hd.of_perm h.perm h.frame.next

/-- The moved node stands right after the other one among the children of a node. -/
theorem children (h : d.MovedAfter anchor x s t e) (hd : d.Distinct)
    (hp : (d.children p).filter (· ≠ x) = before ++ anchor :: after) :
    e.children p = before ++ anchor :: x :: after := by
  have hmem : anchor ∈ d.children p := by
    have hin : anchor ∈ (d.children p).filter (· ≠ x) := by rw [hp]; simp
    exact List.mem_of_mem_filter hin
  have hne : p ≠ anchor := fun heq => hd.notMem_children_self (heq ▸ hmem)
  have hout : p ∉ d.descendants x := fun hin =>
    h.outside (hd.mem_descendants_trans (mem_descendants_of_mem_children hmem) hin)
  rw [← hd.children_detach, children_eq_site?] at hp
  rw [children_eq_site?, h.outer p hout hne]
  cases ht : (d.detach x).site? p with
  | none =>
    rw [ht] at hp
    exact absurd hp (by simp)
  | some u =>
    rw [ht] at hp
    exact topIds_graftAfter ((hd.detach x).nodup_childrenIds ht) hp

/-- Nodes that are not moved stand within the same nodes as before. -/
theorem mem_descendants (h : d.MovedAfter anchor x s t e) (hd : d.Distinct)
    (hy : y ∉ d.descendants x) : y ∈ e.descendants z ↔ y ∈ d.descendants z := by
  have hdetached : y ∈ (d.detach x).descendants z ↔ y ∈ d.descendants z := by
    rw [hd.mem_descendants_detach]
    exact and_iff_left fun _ _ => hy
  rw [← hdetached, mem_descendants_iff, mem_descendants_iff]
  by_cases hz : z ∈ d.descendants x
  · -- The moved node still has what stands below it, among which `y` is not.
    have hnot : y ∉ d.descendants z := fun h' => hy (hd.mem_descendants_trans h' hz)
    rw [← mem_descendants_iff, ← mem_descendants_iff, hdetached]
    refine iff_of_false ?_ hnot
    intro hin
    rw [Document.mem_descendants_iff] at hin hnot
    obtain ⟨u, hu, hyu⟩ := hin
    by_cases hzx : z = x
    · subst hzx
      rw [h.self] at hu
      cases hu
      exact hnot ⟨s, h.moved, hyu⟩
    · rw [h.inner z hz hzx] at hu
      exact hnot ⟨u, hu, hyu⟩
  by_cases hza : z = anchor
  · subst hza
    rw [h.before, h.target]
    simp
  · rw [h.outer z hz hza]
    cases hu : (d.detach x).site? z with
    | none => simp
    | some u =>
      have hout : y ∉ (s.tree x).ids := ids_tree_of_site? h.moved ▸ hy
      simp [mem_ids_graftAfter ((hd.detach x).nodup_childrenIds hu), hout]

end MovedAfter

end Document

end MailMerge.Xml
