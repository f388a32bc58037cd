import MailMerge.Proofs.Xml.WellFormed

/-!
# Taking nodes out of documents

An edit of a document exchanges the row that has a node at the site of that node. Main statement: a
node that is taken out keeps what stands below it, and every other node keeps its site without the
one taken out (`Distinct.site?_detach`).
-/

namespace MailMerge.Xml.Document

open Forest

variable {d : Document} {x y : NodeId} {s : Site}

/-! ## Pieces taken out of a row, and pieces put in -/

section Rows

variable {α : Type} {change : Site → Forest} {piece : Site → Forest} {rows left : List Forest}
variable {tree : Forest}

theorem takeFrom_perm {f : Forest → Option (Forest × Forest)}
    (hf : ∀ row tree left, f row = some (tree, left) → row.nodes.Perm (tree.nodes ++ left.nodes))
    (h : takeFrom f rows = some (tree, left)) :
    (rows.flatMap Forest.nodes).Perm (tree.nodes ++ left.flatMap Forest.nodes) := by
  induction rows generalizing left with
  | nil => cases h
  | cons row rows ih =>
    rw [takeFrom] at h
    rw [List.flatMap_cons]
    split at h
    next hrow =>
      cases h
      simpa [Forest.nodes] using (hf _ _ _ hrow).append_right (rows.flatMap Forest.nodes)
    next hrow =>
      cases h
      simpa using (hf _ _ _ hrow).append_right (rows.flatMap Forest.nodes)
    next =>
      obtain ⟨⟨t, l⟩, hlater, heq⟩ := Option.map_eq_some_iff.1 h
      cases heq
      rw [List.flatMap_cons]
      refine ((ih hlater).append_left _).trans ?_
      rw [← List.append_assoc, ← List.append_assoc]
      exact List.perm_append_comm.append_right _

theorem changeRow_perm {f : Forest → Option Forest} {row₀ : Forest}
    (hf : ∀ row new, f row = some new → new.nodes.Perm (row₀.nodes ++ row.nodes))
    (h : changeRow f rows = some left) :
    (left.flatMap Forest.nodes).Perm (row₀.nodes ++ rows.flatMap Forest.nodes) := by
  induction rows generalizing left with
  | nil => cases h
  | cons row rows ih =>
    rw [changeRow] at h
    split at h
    next hrow =>
      cases h
      simpa using (hf _ _ hrow).append_right (rows.flatMap Forest.nodes)
    next =>
      obtain ⟨l, hlater, heq⟩ := Option.map_eq_some_iff.1 h
      cases heq
      rw [List.flatMap_cons, List.flatMap_cons]
      refine ((ih hlater).append_left _).trans ?_
      rw [← List.append_assoc, ← List.append_assoc]
      exact List.perm_append_comm.append_right _

theorem rows_rewrite_of_notMem (h : x ∉ rows.flatMap Forest.ids) :
    rows.map (·.rewrite x change) = rows := by
  refine (List.map_congr_left fun row hrow => ?_).trans rows.map_id
  exact rewrite_of_notMem fun hx => h (List.mem_flatMap.2 ⟨row, hrow, hx⟩)

/-- The row that has a node is exchanged at its site. -/
theorem changeRow_eq {f : Forest → Option Forest} (hrows : (rows.flatMap Forest.ids).Nodup)
    (hf : ∀ row : Forest, row.ids.Nodup → f row = (row.site? x).map fun _ => row.rewrite x change) :
    changeRow f rows =
      (rows.findSome? (·.site? x)).map fun _ => rows.map (·.rewrite x change) := by
  induction rows with
  | nil => rfl
  | cons row rows ih =>
    rw [List.flatMap_cons] at hrows
    obtain ⟨hrow, hlater, hdisj⟩ := List.nodup_append.1 hrows
    rw [changeRow, hf row hrow, List.findSome?_cons, List.map_cons]
    cases hs : row.site? x with
    | some s =>
      have hnot : x ∉ rows.flatMap Forest.ids :=
        fun hx => hdisj x (Forest.mem_ids_of_site? hs) x hx rfl
      simp [rows_rewrite_of_notMem hnot]
    | none =>
      rw [ih hlater, rewrite_of_notMem (Forest.site?_eq_none_iff.1 hs)]
      cases rows.findSome? (·.site? x) <;> rfl

/-- A piece is taken out of the row that has a node, which is exchanged at its site. A row that
becomes empty vanishes, but no site is lost by that. -/
theorem takeFrom_eq {f : Forest → Option (Forest × Forest)}
    (hrows : (rows.flatMap Forest.ids).Nodup)
    (hf : ∀ row : Forest, row.ids.Nodup →
      f row = (row.site? x).map fun s => (piece s, row.rewrite x change))
    (hs : rows.findSome? (·.site? x) = some s) :
    ∃ left, takeFrom f rows = some (piece s, left) ∧
      ∀ y, left.findSome? (·.site? y) =
        (rows.map (·.rewrite x change)).findSome? (·.site? y) := by
  induction rows with
  | nil => cases hs
  | cons row rows ih =>
    rw [List.flatMap_cons] at hrows
    obtain ⟨hrow, hlater, hdisj⟩ := List.nodup_append.1 hrows
    rw [List.findSome?_cons] at hs
    rw [takeFrom, hf row hrow]
    cases hx : row.site? x with
    | some t =>
      rw [hx] at hs
      cases hs
      have hnot : x ∉ rows.flatMap Forest.ids :=
        fun h => hdisj x (Forest.mem_ids_of_site? hx) x h rfl
      rw [Option.map_some, List.map_cons, rows_rewrite_of_notMem hnot]
      cases row.rewrite x change with
      | nil => exact ⟨rows, rfl, fun y => rfl⟩
      | cons id node children rest => exact ⟨_, rfl, fun y => rfl⟩
    | none =>
      rw [hx] at hs
      obtain ⟨left, htaken, hsites⟩ := ih hlater hs
      refine ⟨row :: left, by rw [Option.map_none, htaken]; rfl, fun y => ?_⟩
      rw [List.map_cons, rewrite_of_notMem (Forest.site?_eq_none_iff.1 hx), List.findSome?_cons,
        List.findSome?_cons, hsites]

theorem takeFrom_eq_none {f : Forest → Option (Forest × Forest)}
    (hf : ∀ row ∈ rows, f row = none) : takeFrom f rows = none := by
  induction rows with
  | nil => rfl
  | cons row rows ih =>
    rw [takeFrom, hf row List.mem_cons_self, ih fun r hr => hf r (List.mem_cons_of_mem _ hr)]
    rfl

end Rows

/-! ## Documents with a piece taken out or put in -/

/-- Two documents have the same root, the same declaration and the same next identity. -/
structure SameFrame (d e : Document) : Prop where
  root : e.root = d.root
  next : e.next = d.next
  declaration : e.declaration = d.declaration

theorem SameFrame.refl (d : Document) : d.SameFrame d := ⟨rfl, rfl, rfl⟩

theorem SameFrame.trans {c e : Document} (h : c.SameFrame d) (h' : d.SameFrame e) :
    c.SameFrame e :=
  ⟨h'.root.trans h.root, h'.next.trans h.next, h'.declaration.trans h.declaration⟩

variable {change : Site → Forest} {piece : Site → Forest} {left : Document} {tree : Forest}

theorem takeOut_sameFrame {f : Forest → Option (Forest × Forest)}
    (h : d.takeOut f = some (tree, left)) : d.SameFrame left := by
  rw [takeOut] at h
  split at h
  next => cases h; exact ⟨rfl, rfl, rfl⟩
  next =>
    obtain ⟨_, -, heq⟩ := Option.map_eq_some_iff.1 h
    cases heq
    exact ⟨rfl, rfl, rfl⟩

theorem change_sameFrame {f : Forest → Option Forest} (h : d.change f = some left) :
    d.SameFrame left := by
  rw [Document.change] at h
  split at h
  next => cases h; exact ⟨rfl, rfl, rfl⟩
  next =>
    obtain ⟨_, -, heq⟩ := Option.map_eq_some_iff.1 h
    cases heq
    exact ⟨rfl, rfl, rfl⟩

theorem rewrite_forest (hx : x < d.next) (hy : y < d.next) :
    (d.forest.rewrite x change).site? y =
      (d.allRows.map (·.rewrite x change)).findSome? (·.site? y) := by
  rw [forest, rewrite_shelve hx, site?_shelve hy]

/-- A piece that is taken out leaves the forest of all nodes exchanged at one site. -/
theorem Distinct.takeOut_eq (hd : d.Distinct) {f : Forest → Option (Forest × Forest)}
    (hf : ∀ row : Forest, row.ids.Nodup →
      f row = (row.site? x).map fun s => (piece s, row.rewrite x change))
    (hs : d.site? x = some s) :
    ∃ left, d.takeOut f = some (piece s, left) ∧
      ∀ y < d.next, left.site? y = (d.forest.rewrite x change).site? y := by
  have hrows := takeOut_allRows d f
  obtain ⟨rows, htaken, hsites⟩ := takeFrom_eq hd.nodup hf (site?_eq_findSome? d x ▸ hs)
  rw [htaken] at hrows
  obtain ⟨⟨t, left⟩, hleft, heq⟩ := Option.map_eq_some_iff.1 hrows
  cases heq
  refine ⟨left, hleft, fun y hy => ?_⟩
  rw [rewrite_forest (hd.numbered x (mem_ids_of_site? hs)) hy, site?_eq_findSome?, hsites]

/-- A change at one node exchanges the forest of all nodes at its site. -/
theorem Distinct.change_eq (hd : d.Distinct) {f : Forest → Option Forest}
    (hf : ∀ row : Forest, row.ids.Nodup → f row = (row.site? x).map fun _ => row.rewrite x change)
    (hs : d.site? x = some s) :
    ∃ new, d.change f = some new ∧
      ∀ y < d.next, new.site? y = (d.forest.rewrite x change).site? y := by
  have hrows := change_allRows d f
  rw [changeRow_eq hd.nodup hf, ← site?_eq_findSome?, hs, Option.map_some] at hrows
  obtain ⟨new, hnew, heq⟩ := Option.map_eq_some_iff.1 hrows
  refine ⟨new, hnew, fun y hy => ?_⟩
  rw [rewrite_forest (hd.numbered x (mem_ids_of_site? hs)) hy, site?_eq_findSome?, heq]

/-- The nodes of a document with their payloads, in the order of the rows. -/
def nodes (d : Document) : List (NodeId × Node) := d.allRows.flatMap Forest.nodes

theorem ids_eq_map_nodes (d : Document) : d.ids = d.nodes.map Prod.fst := by
  simp only [ids, nodes, List.map_flatMap]
  rfl

theorem takeOut_perm {f : Forest → Option (Forest × Forest)}
    (hf : ∀ row tree left, f row = some (tree, left) → row.nodes.Perm (tree.nodes ++ left.nodes))
    (h : d.takeOut f = some (tree, left)) : d.nodes.Perm (tree.nodes ++ left.nodes) := by
  have hrows := takeOut_allRows d f
  rw [h] at hrows
  exact takeFrom_perm hf hrows.symm

theorem change_perm {f : Forest → Option Forest} {row₀ : Forest}
    (hf : ∀ row new, f row = some new → new.nodes.Perm (row₀.nodes ++ row.nodes))
    (h : d.change f = some left) : left.nodes.Perm (row₀.nodes ++ d.nodes) := by
  have hrows := change_allRows d f
  rw [h] at hrows
  exact changeRow_perm hf hrows.symm

theorem setAside_nodes (d : Document) (tree : Forest) :
    (d.setAside tree).nodes.Perm (tree.nodes ++ d.nodes) := by
  simp only [nodes, setAside, allRows, List.flatMap_append, List.flatMap_cons]
  rw [← List.append_assoc, ← List.append_assoc]
  exact List.perm_append_comm.append_right _

/-- Documents with the same nodes up to order are both without repeated identities. -/
theorem Distinct.of_perm (hd : d.Distinct) {e : Document} (hperm : e.nodes.Perm d.nodes)
    (hnext : e.next = d.next) : e.Distinct := by
  have hids : e.ids.Perm d.ids := by
    rw [ids_eq_map_nodes, ids_eq_map_nodes]
    exact hperm.map _
  exact ⟨hids.nodup_iff.2 hd.nodup, fun x hx => hnext ▸ hd.numbered x (hids.mem_iff.1 hx)⟩

theorem WellFormed.of_perm (hd : d.WellFormed) {e : Document} (hperm : e.nodes.Perm d.nodes)
    (hframe : d.SameFrame e) : e.WellFormed := by
  refine ⟨hd.toDistinct.of_perm hperm hframe.next, ?_⟩
  rw [hframe.root, ids_eq_map_nodes, (hperm.map _).mem_iff, ← ids_eq_map_nodes]
  exact hd.rooted

/-- Nothing is taken out at a node that is not there. -/
theorem Distinct.takeOut_eq_none (hd : d.Distinct) {f : Forest → Option (Forest × Forest)}
    (hf : ∀ row : Forest, row.ids.Nodup →
      f row = (row.site? x).map fun s => (piece s, row.rewrite x change))
    (hx : x ∉ d.ids) : d.takeOut f = none := by
  have hrow : ∀ row ∈ d.allRows, f row = none := by
    intro row hmem
    have hnot : x ∉ row.ids := fun h => hx (List.mem_flatMap.2 ⟨row, hmem, h⟩)
    rw [hf row (hd.nodup.sublist (List.sublist_flatten_of_mem (List.mem_map_of_mem hmem))),
      Forest.site?_eq_none_iff.2 hnot, Option.map_none]
  have hrows := takeOut_allRows d f
  rw [takeFrom_eq_none hrow] at hrows
  exact Option.map_eq_none_iff.1 hrows

/-- A document to which a tree has been put aside has its nodes besides those that it had. -/
theorem site?_setAside {left : Document} (htree : ∀ y ∈ tree.ids, y ∉ left.ids) (y : NodeId) :
    (left.setAside tree).site? y = (tree.site? y).or (left.site? y) := by
  simp only [site?_eq_findSome?, setAside, allRows, List.findSome?_append, List.findSome?_cons]
  cases htop : tree.site? y with
  | none => simp
  | some s =>
    have hnot := site?_eq_none_iff.2 (htree y (Forest.mem_ids_of_site? htop))
    rw [site?_eq_findSome?, allRows, List.findSome?_append, Option.or_eq_none_iff] at hnot
    simp [hnot.1]

/-! ## Taking a node out -/

/-- What taking a node out does to a document that has it. -/
structure TakenOut (d : Document) (x : NodeId) (s : Site) (left : Document) : Prop where
  eq : d.takeOut (·.extract? x) = some (s.tree x, left)
  frame : d.SameFrame left
  perm : d.nodes.Perm ((s.tree x).nodes ++ left.nodes)
  site? : ∀ y, y ≠ x → y ∉ s.children.ids →
    left.site? y = (d.site? y).map (Site.map (without x))
  gone : ∀ y, y = x ∨ y ∈ s.children.ids → y ∉ left.ids

theorem Distinct.takenOut (hd : d.Distinct) (hs : d.site? x = some s) :
    ∃ left, d.TakenOut x s left := by
  obtain ⟨left, htaken, hsites⟩ := hd.takeOut_eq (fun _ h => extract?_eq_site? h) hs
  have hperm := takeOut_perm (fun _ _ _ h => extract?_perm h) htaken
  have hnodup : ((s.tree x).nodes ++ left.nodes).map Prod.fst |>.Nodup := by
    rw [← (hperm.map Prod.fst).nodup_iff, ← ids_eq_map_nodes]
    exact hd.nodup
  have hgone : ∀ y, y = x ∨ y ∈ s.children.ids → y ∉ left.ids := by
    intro y hy hmem
    rw [List.map_append, ← ids_eq_map_nodes] at hnodup
    refine List.disjoint_of_nodup_append hnodup ?_ hmem
    simpa [Site.tree, single, Forest.nodes, Forest.ids] using hy
  refine ⟨left, htaken, takeOut_sameFrame htaken, hperm, fun y hne hy => ?_, hgone⟩
  by_cases hlt : y < d.next
  · rw [hsites y hlt, site?_eq_forest hlt]
    exact site?_without hd.nodup_forest (hd.forest_site? hs) hne hy
  · have hnot : y ∉ d.ids := fun h => hlt (hd.numbered y h)
    have hnot' : y ∉ left.ids := by
      intro h
      refine hnot ?_
      rw [ids_eq_map_nodes, (hperm.map Prod.fst).mem_iff, List.map_append, ← ids_eq_map_nodes]
      exact List.mem_append_right _ h
    rw [site?_eq_none_iff.2 hnot, site?_eq_none_iff.2 hnot', Option.map_none]

theorem map_without_of_notMem (hs : d.site? y = some s) (hx : x ∉ d.ids) :
    s.map (without x) = s := by
  have hc : x ∉ s.children.ids := fun h => hx (mem_of_mem_children hs h)
  have hr : x ∉ s.rest.ids := fun h => hx (mem_of_mem_rest hs h)
  rw [Site.map, without, rewrite_of_notMem hc, rewrite_of_notMem hr]

theorem detach_of_notMem (hd : d.Distinct) (hx : x ∉ d.ids) : d.detach x = d := by
  rw [detach, hd.takeOut_eq_none (fun _ h => extract?_eq_site? h) hx]

theorem detach_sameFrame (d : Document) (x : NodeId) : d.SameFrame (d.detach x) := by
  rw [detach]
  split
  next => exact .refl d
  next h =>
    have hframe := takeOut_sameFrame h
    exact ⟨hframe.root, hframe.next, hframe.declaration⟩

theorem detach_perm (d : Document) (x : NodeId) : (d.detach x).nodes.Perm d.nodes := by
  rw [detach]
  split
  next => exact .refl _
  next h =>
    have hperm := takeOut_perm (fun _ _ _ h => extract?_perm h) h
    exact (setAside_nodes _ _).trans hperm.symm

theorem Distinct.detach (hd : d.Distinct) (x : NodeId) : (d.detach x).Distinct :=
  hd.of_perm (detach_perm d x) (detach_sameFrame d x).next

theorem WellFormed.detach (hd : d.WellFormed) (x : NodeId) : (d.detach x).WellFormed :=
  hd.of_perm (detach_perm d x) (detach_sameFrame d x)

theorem detachAll_append (d : Document) (xs ys : List NodeId) :
    d.detachAll (xs ++ ys) = (d.detachAll xs).detachAll ys := List.foldl_append

theorem detachAll_sameFrame (d : Document) (xs : List NodeId) : d.SameFrame (d.detachAll xs) := by
  induction xs generalizing d with
  | nil => exact .refl d
  | cons x xs ih => exact (detach_sameFrame d x).trans (ih (d.detach x))

theorem detachAll_perm (d : Document) (xs : List NodeId) : (d.detachAll xs).nodes.Perm d.nodes := by
  induction xs generalizing d with
  | nil => exact .refl _
  | cons x xs ih => exact (ih (d.detach x)).trans (detach_perm d x)

theorem Distinct.detachAll (hd : d.Distinct) (xs : List NodeId) : (d.detachAll xs).Distinct :=
  hd.of_perm (detachAll_perm d xs) (detachAll_sameFrame d xs).next

theorem WellFormed.detachAll (hd : d.WellFormed) (xs : List NodeId) :
    (d.detachAll xs).WellFormed := hd.of_perm (detachAll_perm d xs) (detachAll_sameFrame d xs)

/-- A node that is taken out keeps what stands below it and loses its siblings; all others lose
the node where they had it. -/
theorem Distinct.site?_detach (hd : d.Distinct) (x y : NodeId) :
    (d.detach x).site? y = (d.site? y).map fun s =>
      if y = x then { s with rest := .nil } else s.map (without x) := by
  by_cases hx : x ∈ d.ids
  · obtain ⟨s, hs⟩ := exists_site? hx
    obtain ⟨left, h⟩ := hd.takenOut hs
    have htree : ∀ y ∈ (s.tree x).ids, y ∉ left.ids := by
      intro z hz
      exact h.gone z (by simpa [Site.tree, single] using hz)
    rw [Document.detach, h.eq, site?_setAside htree]
    by_cases hyx : y = x
    · subst hyx
      rw [hs, Option.map_some, if_pos rfl, Site.tree, single, Forest.site?, if_pos rfl,
        Option.some_or]
    · simp only [hyx, if_false]
      rw [Site.tree, single, Forest.site?, if_neg (Ne.symm hyx), Forest.site?, Option.or_none]
      by_cases hy : y ∈ s.children.ids
      · rw [site?_eq_none_iff.2 (h.gone y (.inr hy)), Option.or_none]
        have hforest := hd.forest_site? hs
        have hlt : y < d.next := hd.numbered y (mem_of_mem_children hs hy)
        rw [site?_eq_forest hlt, site?_of_mem_children hd.nodup_forest hforest hy, without.eq_1,
          map_site?_of_notMem _ (notMem_children_self hd.nodup_forest hforest)]
      · rw [Forest.site?_eq_none_iff.2 hy, Option.none_or, h.site? y hyx hy]
  · rw [detach_of_notMem hd hx]
    cases hy : d.site? y with
    | none => rfl
    | some s =>
      have hne : y ≠ x := fun h => hx (h ▸ mem_ids_of_site? hy)
      rw [Option.map_some, if_neg hne, map_without_of_notMem hy hx]

end MailMerge.Xml.Document
