import MailMerge.Proofs.Xml.Order

/-!
# Rows of documents

All that can be looked up about a node stands in the row that has it. An edit exchanges the rows
that have the nodes it is about, and leaves every other row as it was.
-/

namespace MailMerge.Xml

/-- The rows that are left of a row: none if it is empty. -/
def Forest.solid : Forest → List Forest
  | .nil => []
  | row => [row]

namespace Document

open Forest

variable {d : Document} {x y anchor : NodeId} {s : Site} {row : Forest}

/-! ## Looking up in a row -/

/-- A search for a node answers what it answers in the row that has the node. -/
theorem Distinct.search_eq {α : Type} {f : Forest → Option α} (hd : d.Distinct)
    (hf : ∀ r : Forest, f r = none ↔ x ∉ r.ids) (hrow : row ∈ d.allRows) (hx : x ∈ row.ids) :
    d.search f = f row := by
  rw [search_eq_findSome?]
  have hnodup : (d.allRows.flatMap Forest.ids).Nodup := hd.nodup
  revert hrow hnodup
  generalize d.allRows = rows
  intro hrow hnodup
  induction rows with
  | nil => cases hrow
  | cons r rows ih =>
    rw [List.flatMap_cons] at hnodup
    obtain ⟨-, hlater, hdisj⟩ := List.nodup_append.1 hnodup
    rw [List.findSome?_cons]
    rcases List.mem_cons.1 hrow with rfl | hrow
    · have hsome : f row ≠ none := fun h => (hf row).1 h hx
      obtain ⟨a, ha⟩ := Option.ne_none_iff_exists'.1 hsome
      rw [ha]
    · have hout : x ∉ r.ids := fun h =>
        hdisj x h x (List.mem_flatMap.2 ⟨row, hrow, hx⟩) rfl
      rw [(hf r).2 hout]
      exact ih hrow hlater

theorem Distinct.site?_of_row (hd : d.Distinct) (hrow : row ∈ d.allRows) (hx : x ∈ row.ids) :
    d.site? x = row.site? x :=
  hd.search_eq (fun _ => Forest.site?_eq_none_iff) hrow hx

/-- A row with a single node at its top is the tree of this node. -/
theorem Distinct.tree_of_row {node : Node} {children : Forest} (hd : d.Distinct)
    (hrow : single x node children ∈ d.allRows) : d.tree x = single x node children := by
  have hx : x ∈ (single x node children).ids := by simp [single]
  rw [tree_eq_site?, hd.site?_of_row hrow hx, single, Forest.site?, if_pos rfl]
  rfl

theorem Distinct.enclosing_of_row (hd : d.Distinct) (hrow : row ∈ d.allRows) (hx : x ∈ row.ids) :
    d.enclosing x = (row.ancestors? x).getD [] := by
  rw [enclosing, hd.search_eq (fun _ => ancestors?_eq_none_iff) hrow hx]

theorem mem_ids_of_row (hrow : row ∈ d.allRows) (hx : x ∈ row.ids) : x ∈ d.ids :=
  List.mem_flatMap.2 ⟨row, hrow, hx⟩

theorem exists_row (hx : x ∈ d.ids) : ∃ row ∈ d.allRows, x ∈ row.ids := List.mem_flatMap.1 hx

theorem Distinct.nodup_row (hd : d.Distinct) (hrow : row ∈ d.allRows) : row.ids.Nodup :=
  hd.nodup.sublist (List.sublist_flatten_of_mem (List.mem_map_of_mem hrow))

/-- No two rows have a node in common. -/
theorem Distinct.row_unique (hd : d.Distinct) {row' : Forest} (hrow : row ∈ d.allRows)
    (hrow' : row' ∈ d.allRows) (hx : x ∈ row.ids) (hx' : x ∈ row'.ids) : row = row' := by
  have h : d.search (fun r => if x ∈ r.ids then some r else none) = some row := by
    rw [hd.search_eq (fun r => by simp) hrow hx, if_pos hx]
  rw [hd.search_eq (fun r => by simp) hrow' hx', if_pos hx'] at h
  exact (Option.some.inj h).symm

/-! ## Exchanged rows -/

section Exchange

variable {change piece : Site → Forest} {rows rest left : List Forest}

/-- A piece is taken out of the row that has a node, and all other rows stay. -/
theorem takeFrom_rows {f : Forest → Option (Forest × Forest)}
    (hrows : (rows.flatMap Forest.ids).Nodup)
    (hf : ∀ row : Forest, row.ids.Nodup →
      f row = (row.site? x).map fun s => (piece s, row.rewrite x change))
    (hperm : rows.Perm (row :: rest)) (hs : row.site? x = some s) :
    ∃ left, takeFrom f rows = some (piece s, left) ∧
      left.Perm ((row.rewrite x change).solid ++ rest) := by
  have hmem : row ∈ rows := hperm.mem_iff.2 List.mem_cons_self
  obtain ⟨before, after, rfl⟩ := List.append_of_mem hmem
  have hrest : (before ++ after).Perm rest :=
    (List.perm_middle.symm.trans hperm).cons_inv
  have hrow : row.ids.Nodup :=
    hrows.sublist (List.sublist_flatten_of_mem (List.mem_map_of_mem hmem))
  have hout : ∀ r ∈ before, f r = none := by
    intro r hr
    rw [List.flatMap_append, List.flatMap_cons] at hrows
    obtain ⟨hbefore, -, hdisj⟩ := List.nodup_append.1 hrows
    have hx : x ∉ r.ids := fun h =>
      hdisj x (List.mem_flatMap.2 ⟨r, hr, h⟩) x
        (List.mem_append_left _ (Forest.mem_ids_of_site? hs)) rfl
    have hr' : r.ids.Nodup :=
      hbefore.sublist (List.sublist_flatten_of_mem (List.mem_map_of_mem hr))
    rw [hf r hr', Forest.site?_eq_none_iff.2 hx, Option.map_none]
  have htaken : takeFrom f (row :: after) =
      some (piece s, (row.rewrite x change).solid ++ after) := by
    rw [takeFrom, hf row hrow, hs, Option.map_some]
    cases row.rewrite x change <;> rfl
  refine ⟨before ++ ((row.rewrite x change).solid ++ after), ?_, ?_⟩
  · rw [takeFrom_append, takeFrom_eq_none hout, htaken]
    rfl
  · refine (List.perm_append_comm_assoc _ _ _).trans ?_
    exact hrest.append_left _

/-- The row that has a node is exchanged, and all other rows stay. -/
theorem changeRow_rows {f : Forest → Option Forest} (hrows : (rows.flatMap Forest.ids).Nodup)
    (hf : ∀ row : Forest, row.ids.Nodup → f row = (row.site? x).map fun _ => row.rewrite x change)
    (hperm : rows.Perm (row :: rest)) (hs : row.site? x = some s) :
    ∃ left, changeRow f rows = some left ∧ left.Perm (row.rewrite x change :: rest) := by
  have hnodup : ((row :: rest).flatMap Forest.ids).Nodup :=
    (hperm.flatMap_right Forest.ids).nodup_iff.1 hrows
  have hrest : x ∉ rest.flatMap Forest.ids := by
    rw [List.flatMap_cons] at hnodup
    exact fun h => List.disjoint_of_nodup_append hnodup (Forest.mem_ids_of_site? hs) h
  obtain ⟨t, ht⟩ : ∃ t, rows.findSome? (·.site? x) = some t := by
    refine Option.isSome_iff_exists.1 (List.findSome?_isSome_iff.2 ⟨row, ?_, by rw [hs]; rfl⟩)
    exact hperm.mem_iff.2 List.mem_cons_self
  refine ⟨_, by rw [changeRow_eq hrows hf, ht, Option.map_some], ?_⟩
  refine (hperm.map _).trans ?_
  rw [List.map_cons, rows_rewrite_of_notMem hrest]

end Exchange

variable {change piece : Site → Forest} {rest : List Forest} {tree : Forest}

theorem Distinct.takeOut_rows (hd : d.Distinct) {f : Forest → Option (Forest × Forest)}
    (hf : ∀ row : Forest, row.ids.Nodup →
      f row = (row.site? x).map fun s => (piece s, row.rewrite x change))
    (hrows : d.allRows.Perm (row :: rest)) (hs : row.site? x = some s) :
    ∃ left, d.takeOut f = some (piece s, left) ∧
      left.allRows.Perm ((row.rewrite x change).solid ++ rest) := by
  obtain ⟨rows, htaken, hperm⟩ := takeFrom_rows hd.nodup hf hrows hs
  have hall := takeOut_allRows d f
  rw [htaken] at hall
  obtain ⟨⟨t, left⟩, hleft, heq⟩ := Option.map_eq_some_iff.1 hall
  cases heq
  exact ⟨left, hleft, hperm⟩

theorem Distinct.change_rows (hd : d.Distinct) {f : Forest → Option Forest}
    (hf : ∀ row : Forest, row.ids.Nodup → f row = (row.site? x).map fun _ => row.rewrite x change)
    (hrows : d.allRows.Perm (row :: rest)) (hs : row.site? x = some s) :
    ∃ new, d.change f = some new ∧ new.allRows.Perm (row.rewrite x change :: rest) := by
  obtain ⟨rows, hchanged, hperm⟩ := changeRow_rows hd.nodup hf hrows hs
  have hall := change_allRows d f
  rw [hchanged] at hall
  obtain ⟨new, hnew, rfl⟩ := Option.map_eq_some_iff.1 hall
  exact ⟨new, hnew, hperm⟩

theorem setAside_rows (d : Document) (tree : Forest) :
    (d.setAside tree).allRows.Perm (tree :: d.allRows) := List.perm_middle

/-! ## Taking out and moving -/

/-- A node that is taken out stands in a row of its own. -/
theorem Distinct.detach_rows (hd : d.Distinct) (hrows : d.allRows.Perm (row :: rest))
    (hs : row.site? x = some s) :
    (d.detach x).allRows.Perm (s.tree x :: ((row.without x).solid ++ rest)) := by
  obtain ⟨left, hleft, hperm⟩ := hd.takeOut_rows (fun _ h => extract?_eq_site? h) hrows hs
  rw [Document.detach, hleft]
  exact (setAside_rows left _).trans (hperm.cons _)

/-- A node in whose place its children stand is in a row of its own. -/
theorem Distinct.unwrap_rows (hd : d.Distinct) (hrows : d.allRows.Perm (row :: rest))
    (hs : row.site? x = some s) (hparent : (d.parent? x).isSome) :
    (d.unwrap x).allRows.Perm (.single x s.node .nil :: ((row.dissolve x).solid ++ rest)) := by
  obtain ⟨left, hleft, hperm⟩ := hd.takeOut_rows (fun _ h => dissolve?_eq_site? h) hrows hs
  obtain ⟨parent, hparent⟩ := Option.isSome_iff_exists.1 hparent
  rw [Document.unwrap, hparent]
  simp only [hleft]
  exact (setAside_rows left _).trans (hperm.cons _)

theorem unwrap_sameFrame (d : Document) (x : NodeId) : d.SameFrame (d.unwrap x) := by
  rw [unwrap]
  split
  next => exact detach_sameFrame d x
  next =>
    split
    next => exact .refl d
    next h =>
      have hframe := takeOut_sameFrame h
      exact ⟨hframe.root, hframe.next, hframe.declaration⟩

theorem unwrap_perm (d : Document) (x : NodeId) : (d.unwrap x).nodes.Perm d.nodes := by
  rw [unwrap]
  split
  next => exact detach_perm d x
  next =>
    split
    next => exact .refl _
    next h =>
      have hperm := takeOut_perm (fun _ _ _ h => dissolve?_perm h) h
      exact (setAside_nodes _ _).trans hperm.symm

theorem Distinct.unwrap (hd : d.Distinct) (x : NodeId) : (d.unwrap x).Distinct :=
  hd.of_perm (unwrap_perm d x) (unwrap_sameFrame d x).next

theorem Distinct.of_takeOut (hd : d.Distinct) {left : Document}
    {f : Forest → Option (Forest × Forest)}
    (hf : ∀ row tree left, f row = some (tree, left) → row.nodes.Perm (tree.nodes ++ left.nodes))
    (h : d.takeOut f = some (tree, left)) : left.Distinct := by
  have hperm := (takeOut_perm hf h).map Prod.fst
  rw [List.map_append, ← ids_eq_map_nodes, ← ids_eq_map_nodes] at hperm
  refine ⟨(List.nodup_append.1 (hperm.nodup_iff.1 hd.nodup)).2.1, fun y hy => ?_⟩
  rw [(takeOut_sameFrame h).next]
  exact hd.numbered y (hperm.mem_iff.2 (List.mem_append_right _ hy))

/-- What a move does to a document. -/
structure Moved (d new : Document) : Prop where
  frame : d.SameFrame new
  perm : new.nodes.Perm d.nodes

theorem Distinct.moved (hd : d.Distinct) {new : Document} (h : d.Moved new) : new.Distinct :=
  hd.of_perm h.perm h.frame.next

variable {source : Forest} {target : NodeId} {t : Site}

/-- A node that is moved from one row into another leaves the one and is put into the other. -/
theorem Distinct.move_rows (hd : d.Distinct) (place : Forest → Forest → Option Forest)
    (graft : Forest → Site → Forest)
    (hplace : ∀ tree row : Forest, row.ids.Nodup →
      place tree row = (row.site? target).map fun _ => row.rewrite target (graft tree))
    (hperm : ∀ tree row new, place tree row = some new → new.nodes.Perm (tree.nodes ++ row.nodes))
    (hrows : d.allRows.Perm (row :: source :: rest)) (ht : row.site? target = some t)
    (hs : source.site? x = some s) :
    ∃ new, d.move place target x = some new ∧ d.Moved new ∧
      new.allRows.Perm (row.rewrite target (graft (s.tree x)) ::
        ((source.without x).solid ++ rest)) := by
  have hrows' : d.allRows.Perm (source :: row :: rest) := hrows.trans (.swap _ _ _)
  obtain ⟨left, hleft, hleftRows⟩ :=
    hd.takeOut_rows (fun _ h => extract?_eq_site? h) hrows' hs
  have htaken := takeOut_perm (fun _ _ _ h => extract?_perm h) hleft
  have hdistinct := hd.of_takeOut (fun _ _ _ h => extract?_perm h) hleft
  have hout : (s.tree x).contains target = false := by
    rw [Bool.eq_false_iff]
    intro h
    have hmem : target ∈ source.ids := by
      have hin := (contains_eq_true_iff target (s.tree x)).1 h
      rw [Site.tree, single, ids_cons, ids_nil, List.append_nil, List.mem_cons] at hin
      rcases hin with rfl | hin
      · exact Forest.mem_ids_of_site? hs
      · exact Forest.mem_of_mem_children hs hin
    have hnodup : ((row :: source :: rest).flatMap Forest.ids).Nodup :=
      (hrows.flatMap_right Forest.ids).nodup_iff.1 hd.nodup
    rw [List.flatMap_cons, List.flatMap_cons] at hnodup
    exact List.disjoint_of_nodup_append hnodup (Forest.mem_ids_of_site? ht)
      (List.mem_append_left _ hmem)
  obtain ⟨new, hnew, hnewRows⟩ :=
    hdistinct.change_rows (hplace (s.tree x)) (hleftRows.trans List.perm_middle) ht
  refine ⟨new, ?_, ⟨?_, ?_⟩, hnewRows⟩
  · rw [move, hleft]
    simp only [hout, Bool.false_eq_true, if_false, hnew]
  · exact (takeOut_sameFrame hleft).trans (change_sameFrame hnew)
  · exact (change_perm (hperm _) hnew).trans htaken.symm

theorem Distinct.insertAfter_rows (hd : d.Distinct)
    (hrows : d.allRows.Perm (row :: source :: rest)) (ht : row.site? target = some t)
    (hs : source.site? x = some s) :
    ∃ new, d.insertAfter target x = some new ∧ d.Moved new ∧
      new.allRows.Perm (graftAfter target (s.tree x) row :: ((source.without x).solid ++ rest)) :=
  hd.move_rows (insertAfter? target) (fun row s => cons target s.node s.children (row ++ s.rest))
    (fun _ _ h => insertAfter?_eq_site? h) (fun _ _ _ h => insertAfter?_perm h) hrows ht hs

theorem Distinct.appendChild_rows (hd : d.Distinct)
    (hrows : d.allRows.Perm (row :: source :: rest)) (ht : row.site? target = some t)
    (hs : source.site? x = some s) :
    ∃ new, d.appendChild target x = some new ∧ d.Moved new ∧
      new.allRows.Perm (graftBelow target (s.tree x) row :: ((source.without x).solid ++ rest)) :=
  hd.move_rows (appendChild? target) (fun row s => cons target s.node (s.children ++ row) s.rest)
    (fun _ _ h => appendChild?_eq_site? h) (fun _ _ _ h => appendChild?_perm h) hrows ht hs

end Document

end MailMerge.Xml
