import MailMerge.Proofs.Xml.Holds
import MailMerge.Proofs.Xml.Parse

/-!
# Edits apart from given rows

A node that stands in none of some given rows can be looked at, moved and taken out without these
rows being touched. What is looked up from such a node are such nodes again.
-/

namespace MailMerge.Xml

theorem Forest.flatMap_ids_trees (f : Forest) : f.trees.flatMap Forest.ids = f.ids := by
  induction f with
  | nil => rfl
  | cons id node children rest _ ih => simp [trees, single, ih]

namespace Document

open Forest

/-- Some given rows are among those of a document. -/
structure Apart (d : Document) (rest : List Forest) : Prop where
  distinct : d.Distinct
  rows : ∃ own, d.allRows.Perm (own ++ rest)

/-- A node of a document stands in none of some given rows. -/
structure Free (d : Document) (rest : List Forest) (x : NodeId) : Prop where
  mem : x ∈ d.ids
  out : x ∉ rest.flatMap Forest.ids

/-- A later document has the given rows as they were, and all nodes of the earlier one. -/
structure Spares (d : Document) (rest : List Forest) (e : Document) : Prop where
  apart : e.Apart rest
  ids : d.ids ⊆ e.ids
  grows : d.Grows e

variable {c d e : Document} {rest own more : List Forest} {row : Forest} {x y z : NodeId} {s : Site}

theorem Distinct.apart (hd : d.Distinct) : d.Apart d.allRows := ⟨hd, [], .refl _⟩

theorem Holds.apart {around f : Forest} {r : NodeId} (h : d.Holds around r f rest) : d.Apart rest :=
  ⟨h.distinct, [_], h.rows⟩

theorem Spares.refl (h : d.Apart rest) : d.Spares rest d := ⟨h, List.Subset.refl _, .refl d⟩

theorem Spares.trans (h : c.Spares rest d) (h' : d.Spares rest e) : c.Spares rest e :=
  ⟨h'.apart, List.Subset.trans h.ids h'.ids, h.grows.trans h'.grows⟩

theorem Free.later (h : d.Free rest x) (h' : d.Spares rest e) : e.Free rest x :=
  ⟨h'.ids h.mem, h.out⟩

/-! ## Looking up -/

namespace Apart

/-- The row of a node that stands in none of the given ones. -/
theorem exists_row (h : d.Apart rest) (hx : d.Free rest x) :
    ∃ row own s, d.allRows.Perm (row :: (own ++ rest)) ∧ row.site? x = some s := by
  obtain ⟨own, hrows⟩ := h.rows
  have hmem : x ∈ (own ++ rest).flatMap Forest.ids :=
    (hrows.flatMap_right Forest.ids).mem_iff.1 hx.mem
  rw [List.flatMap_append, List.mem_append] at hmem
  obtain ⟨row, hrow, hxrow⟩ := List.mem_flatMap.1 (hmem.resolve_right hx.out)
  obtain ⟨before, after, rfl⟩ := List.append_of_mem hrow
  obtain ⟨s, hs⟩ := Forest.exists_site? hxrow
  refine ⟨row, before ++ after, s, hrows.trans ?_, hs⟩
  simp

theorem free_of_row (h : d.Apart rest) (hx : d.Free rest x) (hrow : row ∈ d.allRows)
    (hxrow : x ∈ row.ids) (hyrow : y ∈ row.ids) : d.Free rest y := by
  refine ⟨mem_ids_of_row hrow hyrow, fun hy => hx.out ?_⟩
  obtain ⟨row', hrow', hyrow'⟩ := List.mem_flatMap.1 hy
  obtain ⟨own, hrows⟩ := h.rows
  have hmem : row' ∈ d.allRows := hrows.mem_iff.2 (List.mem_append_right _ hrow')
  rw [h.distinct.row_unique hrow hmem hyrow hyrow'] at hxrow
  exact List.mem_flatMap.2 ⟨row', hrow', hxrow⟩

/-- What stands below a node or after it is in the row of the node. -/
theorem free_of_site (h : d.Apart rest) (hx : d.Free rest x) (hs : d.site? x = some s)
    (hy : y ∈ s.children.ids ∨ y ∈ s.rest.ids) : d.Free rest y := by
  obtain ⟨row, hrow, hsite⟩ := exists_row_of_site? hs
  exact h.free_of_row hx hrow (Forest.mem_ids_of_site? hsite)
    (hy.elim (Forest.mem_of_mem_children hsite) (Forest.mem_of_mem_rest hsite))

theorem free_of_mem_below (h : d.Apart rest) (hx : d.Free rest x) (hy : y ∈ (d.below x).ids) :
    d.Free rest y := by
  obtain ⟨s, hs⟩ := exists_site? hx.mem
  rw [below_eq_site?, hs] at hy
  exact h.free_of_site hx hs (.inl hy)

theorem free_of_mem_descendants (h : d.Apart rest) (hx : d.Free rest x)
    (hy : y ∈ d.descendants x) : d.Free rest y := by
  obtain ⟨s, hs, rfl | hy⟩ := mem_descendants_iff.1 hy
  · exact hx
  · exact h.free_of_site hx hs (.inl hy)

theorem free_of_mem_children (h : d.Apart rest) (hx : d.Free rest x) (hy : y ∈ d.children x) :
    d.Free rest y :=
  h.free_of_mem_below hx (mem_ids_of_mem_topIds hy)

theorem free_of_mem_followingElements (h : d.Apart rest) (hx : d.Free rest x)
    (hy : y ∈ d.followingElements x) : d.Free rest y := by
  obtain ⟨s, hs⟩ := exists_site? hx.mem
  rw [followingElements, following_eq_site?, hs] at hy
  obtain ⟨top, htop, rfl⟩ := List.mem_map.1 hy
  exact h.free_of_site hx hs
    (.inr (mem_ids_of_mem_topIds (List.mem_map_of_mem (List.mem_filter.1 htop).1)))

theorem free_of_find? {name : String} (h : d.Apart rest) (hx : d.Free rest x)
    (hy : d.find? x name = some y) : d.Free rest y := by
  obtain ⟨entry, hentry, rfl⟩ := Option.map_eq_some_iff.1 hy
  exact h.free_of_mem_below hx (List.mem_map_of_mem (List.mem_of_find?_eq_some hentry))

theorem free_of_mem_ancestors (h : d.Apart rest) (hx : d.Free rest x) (hy : y ∈ d.ancestors x) :
    d.Free rest y := by
  obtain ⟨s, hs, hmem⟩ := h.distinct.mem_ancestors_iff.1 hy
  obtain ⟨row, hrow, hsite⟩ := exists_row_of_site? hs
  exact h.free_of_row hx hrow (Forest.mem_of_mem_children hsite hmem)
    (Forest.mem_ids_of_site? hsite)

theorem free_of_parent? (h : d.Apart rest) (hx : d.Free rest x) (hy : d.parent? x = some y) :
    d.Free rest y :=
  h.free_of_mem_ancestors hx (List.mem_of_head? hy)

theorem free_of_ancestor? {name : String} (h : d.Apart rest) (hx : d.Free rest x)
    (hy : d.ancestor? x name = some y) : d.Free rest y := by
  obtain ⟨entry, hentry, rfl⟩ := Option.map_eq_some_iff.1 hy
  exact h.free_of_mem_ancestors hx (List.mem_map_of_mem (List.mem_of_find?_eq_some hentry))

theorem mem_ids_of_mem_rest (h : d.Apart rest) (hx : x ∈ rest.flatMap Forest.ids) : x ∈ d.ids := by
  obtain ⟨own, hrows⟩ := h.rows
  refine (hrows.flatMap_right Forest.ids).mem_iff.2 ?_
  rw [List.flatMap_append]
  exact List.mem_append_right _ hx

/-- The nodes of the given rows have the same sites in all documents with these rows. -/
theorem site?_eq (h : d.Apart rest) (h' : e.Apart rest) (hy : y ∈ rest.flatMap Forest.ids) :
    d.site? y = e.site? y := by
  obtain ⟨row, hrow, hyrow⟩ := List.mem_flatMap.1 hy
  obtain ⟨own, hrows⟩ := h.rows
  obtain ⟨own', hrows'⟩ := h'.rows
  rw [h.distinct.site?_of_row (hrows.mem_iff.2 (List.mem_append_right _ hrow)) hyrow,
    h'.distinct.site?_of_row (hrows'.mem_iff.2 (List.mem_append_right _ hrow)) hyrow]

/-- The nodes of the given rows are enclosed by the same nodes in all documents with these rows. -/
theorem enclosing_eq (h : d.Apart rest) (h' : e.Apart rest)
    (hy : y ∈ rest.flatMap Forest.ids) : d.enclosing y = e.enclosing y := by
  obtain ⟨row, hrow, hyrow⟩ := List.mem_flatMap.1 hy
  obtain ⟨own, hrows⟩ := h.rows
  obtain ⟨own', hrows'⟩ := h'.rows
  rw [h.distinct.enclosing_of_row (hrows.mem_iff.2 (List.mem_append_right _ hrow)) hyrow,
    h'.distinct.enclosing_of_row (hrows'.mem_iff.2 (List.mem_append_right _ hrow)) hyrow]

theorem tree_eq (h : d.Apart rest) (h' : e.Apart rest) (hy : y ∈ rest.flatMap Forest.ids) :
    d.tree y = e.tree y := by
  rw [tree_eq_site?, tree_eq_site?, h.site?_eq h' hy]

theorem map_tree_eq (h : d.Apart rest) (h' : e.Apart rest) {nodes : List NodeId}
    (hnodes : ∀ y ∈ nodes, y ∈ rest.flatMap Forest.ids) : nodes.map d.tree = nodes.map e.tree :=
  List.map_congr_left fun y hy => h.tree_eq h' (hnodes y hy)

theorem following_eq (h : d.Apart rest) (h' : e.Apart rest) (hy : y ∈ rest.flatMap Forest.ids) :
    d.following y = e.following y := by
  rw [following_eq_site?, following_eq_site?, h.site?_eq h' hy]

theorem parent?_eq (h : d.Apart rest) (h' : e.Apart rest) (hy : y ∈ rest.flatMap Forest.ids) :
    d.parent? y = e.parent? y := by
  rw [parent?, parent?, ancestors, ancestors, h.enclosing_eq h' hy]

/-! ## Edits -/

/-- An edit that only moves nodes between other rows spares the given ones. -/
theorem spares_of_perm (more : List Forest) (hd : d.Distinct) (hperm : e.nodes.Perm d.nodes)
    (hframe : d.SameFrame e) (hrows : e.allRows.Perm (more ++ (own ++ rest))) :
    d.Spares rest e := by
  refine ⟨⟨hd.of_perm hperm hframe.next, more ++ own, by rwa [List.append_assoc]⟩, ?_,
    hframe.grows⟩
  rw [ids_eq_map_nodes, ids_eq_map_nodes]
  exact (hperm.map Prod.fst).symm.subset

theorem detach (h : d.Apart rest) (hx : d.Free rest x) : d.Spares rest (d.detach x) := by
  obtain ⟨row, own, s, hrows, hs⟩ := h.exists_row hx
  exact spares_of_perm (s.tree x :: (row.without x).solid) h.distinct (detach_perm d x)
    (detach_sameFrame d x) (h.distinct.detach_rows hrows hs)

theorem detachAll {xs : List NodeId} (h : d.Apart rest) (hxs : ∀ x ∈ xs, d.Free rest x) :
    d.Spares rest (d.detachAll xs) := by
  induction xs generalizing d with
  | nil => exact .refl h
  | cons x xs ih =>
    have hfirst := h.detach (hxs x List.mem_cons_self)
    refine hfirst.trans (ih hfirst.apart fun y hy => ?_)
    exact (hxs y (List.mem_cons_of_mem _ hy)).later hfirst

theorem unwrap (h : d.Apart rest) (hx : d.Free rest x) : d.Spares rest (d.unwrap x) := by
  cases hparent : d.parent? x with
  | none =>
    rw [Document.unwrap, hparent]
    exact h.detach hx
  | some parent =>
    obtain ⟨row, own, s, hrows, hs⟩ := h.exists_row hx
    exact spares_of_perm (.single x s.node .nil :: (row.dissolve x).solid) h.distinct
      (unwrap_perm d x) (unwrap_sameFrame d x)
      (h.distinct.unwrap_rows hrows hs (by rw [hparent]; rfl))

theorem create (h : d.Apart rest) (node : Node) : d.Spares rest (d.create node).2 := by
  obtain ⟨own, hrows⟩ := h.rows
  exact ⟨⟨h.distinct.create node, .single d.next node .nil :: own, hrows.cons _⟩,
    List.subset_cons_self _ _, create_grows d node⟩

theorem create_free (h : d.Apart rest) (node : Node) :
    (d.create node).2.Free rest (d.create node).1 := by
  refine ⟨List.mem_cons_self, fun hmem => ?_⟩
  exact Nat.lt_irrefl _ (h.distinct.numbered _ (h.mem_ids_of_mem_rest hmem))

theorem copy (h : d.Apart rest) (x : NodeId) : d.Spares rest (d.copy x).2 := by
  obtain ⟨own, hrows⟩ := h.rows
  refine ⟨⟨h.distinct.copy x, (d.tree x).relabel d.next :: own, hrows.cons _⟩, ?_,
    copy_grows d x⟩
  exact List.subset_append_right ((d.tree x).relabel d.next).ids d.ids

/-- The copy of a node that is there stands in a row of its own. -/
theorem copy_free (h : d.Apart rest) (hx : x ∈ d.ids) :
    (d.copy x).2.Free rest (d.copy x).1 := by
  obtain ⟨s, hs⟩ := exists_site? hx
  have hnew : d.next ∈ ((d.tree x).relabel d.next).ids := by
    rw [tree_eq_site?, hs, Option.map_some, Option.getD_some, Site.tree, single, relabel]
    simp
  refine ⟨List.mem_append_left d.ids hnew, fun hmem => ?_⟩
  exact Nat.lt_irrefl _ (h.distinct.numbered _ (h.mem_ids_of_mem_rest hmem))

theorem update (h : d.Apart rest) (hx : d.Free rest x) (change : Node → Node) :
    d.Spares rest (d.update x change) := by
  obtain ⟨own, hrows⟩ := h.rows
  have hrest : rest.map (·.update x change) = rest := by
    refine (List.map_congr_left fun row hrow => ?_).trans rest.map_id
    exact update_of_notMem fun hmem => hx.out (List.mem_flatMap.2 ⟨row, hrow, hmem⟩)
  refine ⟨⟨h.distinct.update x change, own.map (·.update x change), ?_⟩, ?_,
    ⟨rfl, rfl, Nat.le_refl _⟩⟩
  · rw [update_allRows]
    refine (hrows.map _).trans ?_
    rw [List.map_append, hrest]
  · rw [update_ids]
    exact List.Subset.refl _

/-- A node that is moved next to or below another one leaves the given rows as they were. -/
theorem move (place : Forest → Forest → Option Forest) (graft : Forest → Site → Forest)
    {target : NodeId} (h : d.Apart rest) (hx : d.Free rest x) (htarget : d.Free rest target)
    (hplace : ∀ tree row : Forest, row.ids.Nodup →
      place tree row = (row.site? target).map fun _ => row.rewrite target (graft tree))
    (hperm : ∀ tree row new, place tree row = some new → new.nodes.Perm (tree.nodes ++ row.nodes))
    (hmove : d.move place target x = some e) : d.Spares rest e := by
  obtain ⟨row, own, s, hrows, hs⟩ := h.exists_row hx
  obtain ⟨left, hleft, hleftRows⟩ :=
    h.distinct.takeOut_rows (fun _ h => extract?_eq_site? h) hrows hs
  rw [Document.move, hleft] at hmove
  dsimp only at hmove
  split at hmove
  next => cases hmove
  next hout =>
    have htaken := takeOut_perm (fun _ _ _ h => extract?_perm h) hleft
    have hapart : left.Apart rest :=
      ⟨h.distinct.of_takeOut (fun _ _ _ h => extract?_perm h) hleft, (row.without x).solid ++ own,
        by rw [List.append_assoc]; exact hleftRows⟩
    have hmem : target ∈ left.ids := by
      have hids := (htaken.map Prod.fst).mem_iff.1 (ids_eq_map_nodes d ▸ htarget.mem)
      rw [List.map_append, List.mem_append, ← ids_eq_map_nodes] at hids
      exact hids.resolve_left fun hin => hout ((contains_eq_true_iff target _).2 hin)
    obtain ⟨row', own', t, hrows', ht⟩ := hapart.exists_row ⟨hmem, htarget.out⟩
    obtain ⟨new, hnew, hnewRows⟩ := hapart.distinct.change_rows (hplace (s.tree x)) hrows' ht
    rw [hnew] at hmove
    cases hmove
    refine spares_of_perm [row'.rewrite target (graft (s.tree x))] h.distinct ?_ ?_ hnewRows
    · exact (change_perm (hperm _) hnew).trans htaken.symm
    · exact (takeOut_sameFrame hleft).trans (change_sameFrame hnew)

theorem insertAfter {anchor : NodeId} (h : d.Apart rest) (hx : d.Free rest x)
    (hanchor : d.Free rest anchor) (hmove : d.insertAfter anchor x = some e) : d.Spares rest e :=
  move (insertAfter? anchor) (fun row s => cons anchor s.node s.children (row ++ s.rest)) h
    hx hanchor (fun _ _ h => insertAfter?_eq_site? h) (fun _ _ _ h => insertAfter?_perm h) hmove

theorem appendChild {parent : NodeId} (h : d.Apart rest) (hx : d.Free rest x)
    (hparent : d.Free rest parent) (hmove : d.appendChild parent x = some e) : d.Spares rest e :=
  move (appendChild? parent) (fun row s => cons parent s.node (s.children ++ row) s.rest) h
    hx hparent (fun _ _ h => appendChild?_eq_site? h) (fun _ _ _ h => appendChild?_perm h) hmove

theorem clearChildren (h : d.Apart rest) (hx : d.Free rest x) :
    d.Spares rest (d.clearChildren x) :=
  h.detachAll fun _ hy => h.free_of_mem_children hx hy

/-- A text that is put in the place of all children. -/
theorem setText (h : d.Apart rest) (hx : d.Free rest x) (content : String) :
    d.Spares rest (d.setText x content) := by
  have hcleared := h.clearChildren hx
  have hnext : (d.clearChildren x).next = d.next := (detachAll_sameFrame d _).next
  have hleft := hx.later hcleared
  rw [Document.setText]
  generalize d.clearChildren x = left at hcleared hnext hleft ⊢
  obtain ⟨row, own, s, hrows, hs⟩ := hcleared.apart.exists_row hleft
  have hplace : ∀ row : Forest, row.ids.Nodup →
      appendChild? x (.single left.next (.text content) .nil) row =
        (row.site? x).map fun _ => graftBelow x (.single left.next (.text content) .nil) row :=
    fun _ h => appendChild?_eq_site? h
  obtain ⟨new, hnew, hnewRows⟩ := hcleared.apart.distinct.change_rows hplace hrows hs
  have hperm := (change_perm (fun _ _ h => appendChild?_perm h) hnew).map Prod.fst
  rw [List.map_append, ← ids_eq_map_nodes, ← ids_eq_map_nodes] at hperm
  have hframe := change_sameFrame hnew
  rw [hnew, Option.getD_some]
  have hadded : left.Spares rest { new with next := left.next + 1 } := by
    refine ⟨⟨?_, _ :: own, hnewRows⟩, ?_, hframe.root, hframe.declaration, Nat.le_succ _⟩
    · exact hcleared.apart.distinct.of_added (n := 1) hperm rfl
    · exact fun y hy => hperm.mem_iff.2 (List.mem_append_right _ hy)
  exact hcleared.trans hadded

/-- A fragment that is read makes rows of its own. -/
theorem parseFragment {text : String} {nodes : List NodeId} (h : d.Apart rest)
    (hparse : d.parseFragment text = .ok (nodes, e)) :
    d.Spares rest e ∧ ∀ x ∈ nodes, e.Free rest x := by
  unfold Document.parseFragment at hparse
  split at hparse
  next => cases hparse
  next b hbuild =>
    cases hparse
    obtain ⟨hb, hopened⟩ := Builder.Sound.build hbuild
    have htop : b.top.reverse.ids.Perm (List.range' d.next (b.next - d.next)) := by
      have hids : b.ids = b.top.ids := by simp [Builder.ids, hopened]
      exact (ids_reverse_perm b.top).trans (hids ▸ hb.perm)
    have hnew : (d.adopt b.top.reverse.trees b.next).ids = b.top.reverse.ids ++ d.ids := by
      simp only [ids, allRows, adopt, List.append_assoc, List.flatMap_append, flatMap_ids_trees]
    obtain ⟨own, hrows⟩ := h.rows
    refine ⟨⟨⟨?_, b.top.reverse.trees ++ own, ?_⟩, ?_, rfl, rfl, hb.begun⟩, fun x hx => ⟨?_, ?_⟩⟩
    · apply h.distinct.of_added (n := b.next - d.next)
      · rw [hnew]
        exact htop.append_right _
      · exact (Nat.add_sub_cancel' hb.begun).symm
    · simp only [allRows, adopt, List.append_assoc]
      exact hrows.append_left _
    · rw [hnew]
      exact List.subset_append_right _ _
    · rw [hnew]
      exact List.mem_append_left _ (mem_ids_of_mem_topIds hx)
    · -- New nodes are numbered above those of the given rows.
      intro hmem
      have hlow := (List.mem_range'_1.1 (htop.mem_iff.1 (mem_ids_of_mem_topIds hx))).1
      exact Nat.not_lt.2 hlow (h.distinct.numbered x (h.mem_ids_of_mem_rest hmem))

end Apart

end Document

end MailMerge.Xml
