import MailMerge.Proofs.Xml.Refill

/-!
# Edits below one node

A document holds a row below a node when one of its rows is that node's surroundings, filled with
the row. Every edit of the children of the node is told by what the document holds afterwards.
-/

namespace MailMerge.Xml.Document

open Forest

/-- A document has the given row below a node, and the given rows beside the one with that node. -/
structure Holds (d : Document) (around : Forest) (r : NodeId) (f : Forest) (rest : List Forest) :
    Prop where
  distinct : d.Distinct
  mem : r ∈ around.ids
  rows : d.allRows.Perm (around.refill r f :: rest)

/-- A document has the root and the declaration of an earlier one, and no fewer nodes. -/
structure Grows (d e : Document) : Prop where
  root : e.root = d.root
  declaration : e.declaration = d.declaration
  next : d.next ≤ e.next

variable {c d e : Document} {around f g k source : Forest} {p r x y : NodeId} {rest more : List Forest}
variable {node : Node} {children : Forest} {s : Site}

theorem Grows.refl (d : Document) : d.Grows d := ⟨rfl, rfl, Nat.le_refl _⟩

theorem Grows.trans (h : c.Grows d) (h' : d.Grows e) : c.Grows e :=
  ⟨h'.root.trans h.root, h'.declaration.trans h.declaration, Nat.le_trans h.next h'.next⟩

theorem SameFrame.grows (h : d.SameFrame e) : d.Grows e := ⟨h.root, h.declaration, Nat.le_of_eq h.next.symm⟩

/-! ## New nodes -/

theorem Distinct.of_added (hd : d.Distinct) {n : Nat}
    (hids : e.ids.Perm (List.range' d.next n ++ d.ids)) (hnext : e.next = d.next + n) :
    e.Distinct := by
  constructor
  · rw [hids.nodup_iff, List.nodup_append]
    refine ⟨List.nodup_range', hd.nodup, ?_⟩
    rintro y hy z hz rfl
    exact Nat.not_lt.2 (List.mem_range'_1.1 hy).1 (hd.numbered y hz)
  · intro y hy
    rw [hids.mem_iff, List.mem_append, List.mem_range'_1] at hy
    rw [hnext]
    rcases hy with hy | hy
    · exact hy.2
    · exact Nat.lt_add_right n (hd.numbered y hy)

theorem Distinct.adopt (hd : d.Distinct) {n : Nat} (hf : f.ids = List.range' d.next n) :
    (d.adopt [f] (d.next + n)).Distinct := by
  refine hd.of_added ?_ rfl
  rw [← hf]
  exact .refl _

theorem Distinct.create (hd : d.Distinct) (node : Node) : (d.create node).2.Distinct :=
  hd.adopt (f := .single d.next node .nil) (n := 1) rfl

theorem Distinct.copy (hd : d.Distinct) (x : NodeId) : (d.copy x).2.Distinct :=
  hd.adopt (ids_relabel d.next (d.tree x))

theorem site?_create (d : Document) (node : Node) (y : NodeId) :
    (d.create node).2.site? y = if y = d.next then some ⟨node, .nil, .nil⟩ else d.site? y := by
  have hrows : (d.create node).2.allRows = single d.next node .nil :: d.allRows := rfl
  rw [site?_eq_findSome?, hrows, List.findSome?_cons, single, Forest.site?, site?_eq_findSome?]
  by_cases heq : y = d.next
  · rw [if_pos heq, if_pos heq.symm]
  · rw [if_neg heq, if_neg (Ne.symm heq)]
    rfl

theorem create_grows (d : Document) (node : Node) : d.Grows (d.create node).2 :=
  ⟨rfl, rfl, Nat.le_succ _⟩

theorem copy_grows (d : Document) (x : NodeId) : d.Grows (d.copy x).2 :=
  ⟨rfl, rfl, Nat.le_add_right _ _⟩

theorem setText_grows (d : Document) (x : NodeId) (content : String) :
    d.Grows (d.setText x content) := by
  have hcleared : d.SameFrame (d.clearChildren x) := detachAll_sameFrame d _
  rw [Document.setText]
  generalize d.clearChildren x = left at hcleared ⊢
  have hnext : d.next ≤ left.next + 1 := by
    rw [hcleared.next]
    exact Nat.le_succ _
  cases hnew : left.change (Forest.appendChild? x (.single left.next (.text content) .nil)) with
  | none => exact ⟨hcleared.root, hcleared.declaration, hnext⟩
  | some new =>
    have hframe := hcleared.trans (change_sameFrame hnew)
    exact ⟨hframe.root, hframe.declaration, hnext⟩

theorem update_allRows (d : Document) (x : NodeId) (change : Node → Node) :
    (d.update x change).allRows = d.allRows.map (·.update x change) := by
  simp [allRows, update]

theorem update_ids (d : Document) (x : NodeId) (change : Node → Node) :
    (d.update x change).ids = d.ids := by
  rw [ids, update_allRows, List.flatMap_map]
  simp only [ids_update, ids]

theorem site?_update (d : Document) (x : NodeId) (change : Node → Node) (y : NodeId) :
    (d.update x change).site? y = (d.site? y).map fun s =>
      ⟨if y = x then change s.node else s.node, s.children.update x change,
        s.rest.update x change⟩ := by
  rw [site?_eq_findSome?, site?_eq_findSome?, update_allRows, List.findSome?_map, List.map_findSome?]
  congr 1
  funext row
  exact Forest.site?_update x change row y

theorem Distinct.update (hd : d.Distinct) (x : NodeId) (change : Node → Node) :
    (d.update x change).Distinct := by
  have hids := update_ids d x change
  exact ⟨hids ▸ hd.nodup, fun y hy => hd.numbered y (hids ▸ hy)⟩

namespace Holds

/-! ## Looking up -/

theorem row_mem (h : d.Holds around r f rest) : around.refill r f ∈ d.allRows :=
  h.rows.mem_iff.2 List.mem_cons_self

theorem nodup_row (h : d.Holds around r f rest) : (around.refill r f).ids.Nodup :=
  h.distinct.nodup_row h.row_mem

theorem nodup (h : d.Holds around r f rest) : f.ids.Nodup := nodup_of_refill h.mem h.nodup_row

theorem notMem (h : d.Holds around r f rest) : r ∉ f.ids := notMem_of_refill h.mem h.nodup_row

theorem site? (h : d.Holds around r f rest) (hy : y ∈ f.ids) : d.site? y = f.site? y := by
  rw [h.distinct.site?_of_row h.row_mem (mem_ids_refill h.mem hy),
    site?_refill h.mem h.nodup_row hy]

theorem site?_self (h : d.Holds around r f rest) (hs : around.site? r = some s) :
    d.site? r = some { s with children := f } := by
  rw [h.distinct.site?_of_row h.row_mem (mem_ids_refill_self h.mem), site?_refill_self hs]

theorem below (h : d.Holds around r f rest) : d.below r = f := by
  obtain ⟨s, hs⟩ := Forest.exists_site? h.mem
  rw [below_eq_site?, h.site?_self hs]
  rfl

theorem tree_eq (h : d.Holds around r f rest) (hs : around.site? r = some s) :
    d.tree r = .single r s.node f := by
  rw [tree_eq_site?, h.site?_self hs]
  rfl

theorem children_eq (h : d.Holds around r f rest) : d.children r = f.topIds := by
  rw [children, h.below]
  rfl

theorem enclosing {above inner : List (NodeId × Node)} (h : d.Holds around r f rest)
    (hs : around.site? r = some s) (habove : around.ancestors? r = some above)
    (hy : f.ancestors? y = some inner) : d.enclosing y = inner ++ (r, s.node) :: above := by
  have hyf : y ∈ f.ids := by
    by_contra hout
    rw [ancestors?_eq_none_iff.2 hout] at hy
    cases hy
  rw [h.distinct.enclosing_of_row h.row_mem (mem_ids_refill h.mem hyf),
    ancestors?_refill hs habove h.nodup_row hy, Option.getD_some]

/-- A tree beside can be looked at, and what was looked at before is beside it then. -/
theorem turn (h : d.Holds around r f (.single x node children :: rest)) :
    d.Holds (.single x node .nil) x children (around.refill r f :: rest) := by
  refine ⟨h.distinct, by simp [single], ?_⟩
  rw [refill_single]
  exact h.rows.trans (.swap _ _ _)

theorem turnBack (h : d.Holds (.single x node .nil) x children (around.refill r f :: rest))
    (hr : r ∈ around.ids) : d.Holds around r f (.single x node children :: rest) := by
  have hrows := h.rows
  rw [refill_single] at hrows
  exact ⟨h.distinct, hr, hrows.trans (.swap _ _ _)⟩

theorem perm (h : d.Holds around r f rest) (hperm : rest.Perm more) : d.Holds around r f more :=
  ⟨h.distinct, h.mem, h.rows.trans (hperm.cons _)⟩

/-- The children of a child can be looked at on their own. -/
theorem inner_iff (h : d.Holds around r (f ++ cons p node children g) rest) {row : Forest} :
    e.Holds (around.refill r (f ++ cons p node .nil g)) p row more ↔
      e.Holds around r (f ++ cons p node row g) more := by
  have heq := refill_inner h.mem h.nodup_row row
  constructor
  · intro he
    exact ⟨he.distinct, h.mem, heq ▸ he.rows⟩
  · intro he
    exact ⟨he.distinct, mem_ids_refill h.mem (by simp), heq ▸ he.rows⟩

theorem notMem_left (h : d.Holds around r (f ++ cons x node children g) rest) : x ∉ f.ids := by
  have hnodup := h.nodup
  rw [ids_append, ids_cons] at hnodup
  exact fun hmem => (List.nodup_append.1 hnodup).2.2 x hmem x List.mem_cons_self rfl

theorem row_site? (h : d.Holds around r (f ++ cons x node children g) rest) :
    (around.refill r (f ++ cons x node children g)).site? x = some ⟨node, children, g⟩ := by
  rw [site?_refill h.mem h.nodup_row (by simp), site?_append_cons node children h.notMem_left]

theorem row_rewrite (h : d.Holds around r (f ++ cons x node children g) rest)
    (change : Site → Forest) :
    (around.refill r (f ++ cons x node children g)).rewrite x change =
      around.refill r (f ++ change ⟨node, children, g⟩) := by
  rw [rewrite_refill h.mem h.nodup_row (by simp), rewrite_append_of_notMem h.notMem_left,
    rewrite_cons_self]

theorem parent? (h : d.Holds around r (f ++ cons x node children g) rest) :
    d.parent? x = some r := by
  obtain ⟨s, hs⟩ := Forest.exists_site? h.mem
  obtain ⟨above, habove⟩ := exists_ancestors? h.mem
  rw [Document.parent?, ancestors,
    h.enclosing hs habove (ancestors?_append_cons node children h.notMem_left)]
  rfl

/-- A child of a child is enclosed by that one, then by the node and what encloses it. -/
theorem enclosing_inner {above : List (NodeId × Node)} {before after inside : Forest} {n : Node}
    (h : d.Holds around r (f ++ cons p node (before ++ cons y n inside after) g) rest)
    (hs : around.site? r = some s) (habove : around.ancestors? r = some above) :
    d.enclosing y = (p, node) :: (r, s.node) :: above := by
  have hinner := h.inner_iff.2 h
  have hsub : (f ++ cons p node .nil g).ids.Sublist
      (f ++ cons p node (before ++ cons y n inside after) g).ids := by
    simp only [ids_append, ids_cons, ids_nil, List.nil_append]
    exact ((List.sublist_append_right _ _).cons_cons p).append_left _
  have hnodup := h.nodup_row.sublist (refill_sublist hsub)
  have hsite : (around.refill r (f ++ cons p node .nil g)).site? p = some ⟨node, .nil, g⟩ := by
    rw [site?_refill h.mem hnodup (by simp), site?_append_cons node .nil h.notMem_left]
  have hpath : (around.refill r (f ++ cons p node .nil g)).ancestors? p =
      some ((r, s.node) :: above) := by
    rw [ancestors?_refill hs habove hnodup (ancestors?_append_cons node .nil h.notMem_left)]
    rfl
  rw [hinner.enclosing hsite hpath (ancestors?_append_cons n inside hinner.notMem_left)]
  rfl

theorem shows (h : d.Holds around r f rest) : d.Shows f := by
  refine ⟨fun y s hs => ?_, h.nodup⟩
  exact ⟨s, (h.site? (Forest.mem_ids_of_site? hs)).trans hs, rfl, rfl⟩

/-- The siblings after a child. -/
theorem following (h : d.Holds around r (f ++ cons x node children g) rest) :
    d.following x = g := by
  rw [following_eq_site?, h.site? (by simp), site?_append_cons node children h.notMem_left]
  rfl

/-! ## Taking out -/

theorem detach (h : d.Holds around r (f ++ cons x node children g) rest) :
    (d.detach x).Holds around r (f ++ g) (.single x node children :: rest) := by
  refine ⟨h.distinct.detach x, h.mem, ?_⟩
  have hrows := h.distinct.detach_rows h.rows h.row_site?
  rw [without, h.row_rewrite, solid_refill h.mem] at hrows
  exact hrows.trans (.swap _ _ _)

/-- Siblings that are taken out leave those before and after them. -/
theorem detachAll (h : d.Holds around r (f ++ (g ++ k)) rest) :
    (d.detachAll g.topIds).Holds around r (f ++ k) (g.trees ++ rest) := by
  induction g generalizing d rest with
  | nil => exact h
  | cons id node children later _ ih => exact (ih h.detach).perm List.perm_middle

theorem clearChildren (h : d.Holds around r f rest) :
    (d.clearChildren r).Holds around r .nil (f.trees ++ rest) := by
  rw [Document.clearChildren, h.children_eq]
  exact detachAll (f := .nil) (k := .nil) (by simpa using h)

/-- A node in whose place its children stand leaves them to the node around it. -/
theorem unwrap (h : d.Holds around r (f ++ cons x node children g) rest) :
    (d.unwrap x).Holds around r (f ++ (children ++ g)) (.single x node .nil :: rest) := by
  refine ⟨h.distinct.unwrap x, h.mem, ?_⟩
  have hrows := h.distinct.unwrap_rows h.rows h.row_site? (by rw [h.parent?]; rfl)
  rw [dissolve, h.row_rewrite, solid_refill h.mem] at hrows
  exact hrows.trans (.swap _ _ _)

/-! ## Moving -/

theorem insertAfter (h : d.Holds around r (f ++ cons p node children g) (source :: rest))
    (hs : source.site? x = some s) :
    ∃ e, d.insertAfter p x = some e ∧ d.SameFrame e ∧
      e.Holds around r (f ++ cons p node children (s.tree x ++ g))
        ((source.without x).solid ++ rest) := by
  obtain ⟨e, he, hmoved, hrows⟩ := h.distinct.insertAfter_rows h.rows h.row_site? hs
  rw [graftAfter, h.row_rewrite] at hrows
  exact ⟨e, he, hmoved.frame, h.distinct.moved hmoved, h.mem, hrows⟩

theorem appendChild (h : d.Holds around r f (source :: rest)) (hs : source.site? x = some s) :
    ∃ e, d.appendChild r x = some e ∧ d.SameFrame e ∧
      e.Holds around r (f ++ s.tree x) ((source.without x).solid ++ rest) := by
  obtain ⟨t, ht⟩ := Forest.exists_site? h.mem
  obtain ⟨e, he, hmoved, hrows⟩ :=
    h.distinct.appendChild_rows h.rows (site?_refill_self ht) hs
  rw [graftBelow_refill] at hrows
  exact ⟨e, he, hmoved.frame, h.distinct.moved hmoved, h.mem, hrows⟩

/-- A tree of its own is put right after a child. -/
theorem insertTreeAfter {n : Node} {inside : Forest}
    (h : d.Holds around r (f ++ cons p node children g) (.single x n inside :: rest)) :
    ∃ e, d.insertAfter p x = some e ∧ d.SameFrame e ∧
      e.Holds around r (f ++ cons p node children (.single x n inside ++ g)) rest := by
  have hs : (Forest.single x n inside).site? x = some ⟨n, inside, .nil⟩ := by
    rw [single, Forest.site?, if_pos rfl]
  have hmoved := h.insertAfter hs
  rw [single, without, rewrite_cons_self] at hmoved
  exact hmoved

/-- A tree of its own is put after the children. -/
theorem appendTree {n : Node} {inside : Forest}
    (h : d.Holds around r f (.single x n inside :: rest)) :
    ∃ e, d.appendChild r x = some e ∧ d.SameFrame e ∧
      e.Holds around r (f ++ .single x n inside) rest := by
  have hs : (Forest.single x n inside).site? x = some ⟨n, inside, .nil⟩ := by
    rw [single, Forest.site?, if_pos rfl]
  have hmoved := h.appendChild hs
  rw [single, without, rewrite_cons_self] at hmoved
  exact hmoved

/-! ## New nodes -/

theorem create (h : d.Holds around r f rest) (node : Node) :
    (d.create node).2.Holds around r f (.single d.next node .nil :: rest) :=
  ⟨h.distinct.create node, h.mem, (h.rows.cons _).trans (.swap _ _ _)⟩

theorem copy (h : d.Holds around r f rest) (x : NodeId) :
    (d.copy x).2.Holds around r f ((d.tree x).relabel d.next :: rest) :=
  ⟨h.distinct.copy x, h.mem, (h.rows.cons _).trans (.swap _ _ _)⟩

/-- A copy of a child stands on its own. -/
theorem copyChild (h : d.Holds around r (f ++ cons x node children g) rest) :
    (d.copy x).2.Holds around r (f ++ cons x node children g)
      (.single d.next node (children.relabel (d.next + 1)) :: rest) := by
  have hcopy := h.copy x
  rw [h.shows.right.tree_eq] at hcopy
  exact hcopy

/-- A new text takes the place of all that was below the node. -/
theorem setText (h : d.Holds around r f rest) (content : String) :
    (d.setText r content).Holds around r (.single d.next (.text content) .nil)
      (f.trees ++ rest) := by
  have hcleared := h.clearChildren
  have hnext : (d.clearChildren r).next = d.next := (detachAll_sameFrame d _).next
  rw [Document.setText]
  generalize d.clearChildren r = left at hcleared hnext ⊢
  obtain ⟨s, hs⟩ := Forest.exists_site? h.mem
  have hplace : ∀ row : Forest, row.ids.Nodup →
      appendChild? r (.single left.next (.text content) .nil) row =
        (row.site? r).map fun _ => graftBelow r (.single left.next (.text content) .nil) row :=
    fun _ h => appendChild?_eq_site? h
  obtain ⟨new, hnew, hrows⟩ :=
    hcleared.distinct.change_rows hplace hcleared.rows (site?_refill_self hs)
  rw [← graftBelow, graftBelow_refill, nil_append, hnext] at hrows
  have hperm := (change_perm (fun _ _ h => appendChild?_perm h) hnew).map Prod.fst
  rw [List.map_append, ← ids_eq_map_nodes, ← ids_eq_map_nodes] at hperm
  refine ⟨?_, h.mem, ?_⟩
  · refine hcleared.distinct.of_added (n := 1) ?_ (by rfl)
    rw [hnew]
    exact hperm
  · rw [hnew]
    exact hrows

/-! ## Payloads -/

/-- A single node can be given another payload. -/
theorem update {x : NodeId} (h : d.Holds (.single x node .nil) x f rest) (change : Node → Node) :
    (d.update x change).Holds (.single x (change node) .nil) x f rest := by
  have hself : (Forest.single x node .nil).refill x f = .single x node f := rewrite_cons_self ..
  have hx : x ∉ rest.flatMap Forest.ids := by
    have hnodup := (h.rows.flatMap_right Forest.ids).nodup_iff.1 h.distinct.nodup
    rw [List.flatMap_cons] at hnodup
    exact fun hmem => List.disjoint_of_nodup_append hnodup (mem_ids_refill_self h.mem) hmem
  have hrest : rest.map (·.update x change) = rest := by
    refine (List.map_congr_left fun row hrow => ?_).trans rest.map_id
    exact update_of_notMem fun hmem => hx (List.mem_flatMap.2 ⟨row, hrow, hmem⟩)
  refine ⟨h.distinct.update x change, by simp [single], ?_⟩
  have hrows := h.rows.map (·.update x change)
  rw [List.map_cons, hrest, hself, single, Forest.update, if_pos rfl,
    update_of_notMem h.notMem] at hrows
  rw [update_allRows, single, refill, rewrite_cons_self]
  exact hrows

end Holds

end MailMerge.Xml.Document
