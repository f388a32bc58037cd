import MailMerge.Proofs.Xml.Rewrite
import MailMerge.Xml.Document.Edit

/-!
# Well-formed documents

In a well-formed document no two nodes share an identity, all identities are below the next one,
and the root is one of the nodes. All rows together can be seen as one forest, so that what is known
of forests holds of documents.
-/

namespace MailMerge.Xml

open Forest

/-! ## Rows on shelves -/

/-- Rows as one forest, each below a node of its own. Identities from `n` on must be unused. -/
def shelve (n : NodeId) : List Forest → Forest
  | [] => nil
  | row :: rows => cons n default row (shelve (n + 1) rows)

variable {n x y : NodeId} {rows : List Forest} {s : Site}

theorem site?_shelve (hy : y < n) : (shelve n rows).site? y = rows.findSome? (·.site? y) := by
  induction rows generalizing n with
  | nil => rfl
  | cons row rows ih =>
    have hne : n ≠ y := Nat.ne_of_gt hy
    rw [shelve, site?, if_neg hne, ih (Nat.lt_succ_of_lt hy), List.findSome?_cons]
    cases row.site? y <;> rfl

theorem ids_shelve_perm (n : NodeId) (rows : List Forest) :
    (shelve n rows).ids.Perm (List.range' n rows.length ++ rows.flatMap Forest.ids) := by
  induction rows generalizing n with
  | nil => exact .refl _
  | cons row rows ih =>
    rw [shelve, ids_cons, List.length_cons, List.range'_succ, List.flatMap_cons, List.cons_append]
    refine .cons _ ?_
    refine ((ih (n + 1)).append_left row.ids).trans ?_
    rw [← List.append_assoc, ← List.append_assoc]
    exact List.perm_append_comm.append_right _

theorem nodup_shelve (hrows : (rows.flatMap Forest.ids).Nodup)
    (hn : ∀ z ∈ rows.flatMap Forest.ids, z < n) : (shelve n rows).ids.Nodup := by
  rw [(ids_shelve_perm n rows).nodup_iff, List.nodup_append]
  refine ⟨List.nodup_range', hrows, ?_⟩
  rintro z hz w hw rfl
  exact Nat.not_lt.2 (List.mem_range'_1.1 hz).1 (hn z hw)

theorem mem_ids_shelve (hy : y < n) : y ∈ (shelve n rows).ids ↔ y ∈ rows.flatMap Forest.ids := by
  rw [(ids_shelve_perm n rows).mem_iff, List.mem_append, List.mem_range'_1]
  exact or_iff_right fun h => Nat.not_lt.2 h.1 hy

theorem rewrite_shelve {change : Site → Forest} (hx : x < n) :
    (shelve n rows).rewrite x change = shelve n (rows.map (·.rewrite x change)) := by
  induction rows generalizing n with
  | nil => rfl
  | cons row rows ih =>
    have hne : n ≠ x := Nat.ne_of_gt hx
    rw [shelve, rewrite, if_neg hne, ih (Nat.lt_succ_of_lt hx)]
    rfl

namespace Document

/-- The identities of all nodes, in and outside the tree of the root. -/
def ids (d : Document) : List NodeId := d.allRows.flatMap Forest.ids

/-- The site of a node. -/
def site? (d : Document) (x : NodeId) : Option Site := d.search (·.site? x)

/-- No identity is used twice, and all are below the next one. -/
structure Distinct (d : Document) : Prop where
  nodup : d.ids.Nodup
  numbered : ∀ x ∈ d.ids, x < d.next

/-- No identity is used twice, all are below the next one, and the root is there. -/
structure WellFormed (d : Document) : Prop extends d.Distinct where
  rooted : d.root ∈ d.ids

/-- All nodes of a document as one forest. -/
def forest (d : Document) : Forest := shelve d.next d.allRows

variable {d : Document}

theorem Distinct.next_notMem (hd : d.Distinct) : d.next ∉ d.ids :=
  fun hin => Nat.lt_irrefl _ (hd.numbered _ hin)

theorem site?_eq_findSome? (d : Document) (x : NodeId) :
    d.site? x = d.allRows.findSome? (·.site? x) := search_eq_findSome? d _

theorem site?_eq_forest (hy : y < d.next) : d.site? y = d.forest.site? y := by
  rw [site?_eq_findSome?, forest, site?_shelve hy]

theorem Distinct.nodup_forest (hd : d.Distinct) : d.forest.ids.Nodup :=
  nodup_shelve hd.nodup hd.numbered

theorem mem_ids_forest (hy : y < d.next) : y ∈ d.forest.ids ↔ y ∈ d.ids := mem_ids_shelve hy

theorem isSome_site?_iff : (d.site? x).isSome ↔ x ∈ d.ids := by
  rw [site?_eq_findSome?, ids, List.findSome?_isSome_iff, List.mem_flatMap]
  simp only [Forest.isSome_site?_iff]

theorem site?_eq_none_iff : d.site? x = none ↔ x ∉ d.ids := by
  rw [← isSome_site?_iff, Option.not_isSome_iff_eq_none]

/-! ## Searches -/

theorem search_map {α : Type} {p : Forest → Option Site} {g : Site → α} :
    d.search (fun row => (p row).map g) = (d.search p).map g := by
  rw [search_eq_findSome?, search_eq_findSome?]
  induction d.allRows with
  | nil => rfl
  | cons row rows ih =>
    rw [List.findSome?_cons, List.findSome?_cons, ih]
    cases p row <;> rfl

theorem tree_eq_site? (d : Document) (x : NodeId) :
    d.tree x = ((d.site? x).map (·.tree x)).getD .nil := by
  simp only [tree, tree?_eq_site?, search_map, site?]

theorem tree_of_site? {d : Document} {x : NodeId} {s : Site} (hs : d.site? x = some s) :
    d.tree x = single x s.node s.children := by
  rw [tree_eq_site?, hs]
  rfl

theorem following_eq_site? (d : Document) (x : NodeId) :
    d.following x = ((d.site? x).map Site.rest).getD .nil := by
  simp only [following, following?_eq_site?, search_map, site?]

theorem below_eq_site? (d : Document) (x : NodeId) :
    d.below x = ((d.site? x).map Site.children).getD .nil := by
  rw [below, tree_eq_site?]
  cases d.site? x <;> rfl

theorem node?_eq_site? (d : Document) (x : NodeId) : d.node? x = (d.site? x).map Site.node := by
  rw [node?, tree_eq_site?]
  cases d.site? x <;> rfl

theorem descendants_eq_site? (d : Document) (x : NodeId) :
    d.descendants x = ((d.site? x).map fun s => x :: s.children.ids).getD [] := by
  rw [descendants, tree_eq_site?]
  cases d.site? x with
  | none => rfl
  | some s => simp [Site.tree, single]

theorem mem_ids_of_site? (h : d.site? x = some s) : x ∈ d.ids := isSome_site?_iff.1 (by simp [h])

theorem exists_site? (h : x ∈ d.ids) : ∃ s, d.site? x = some s :=
  Option.isSome_iff_exists.1 (isSome_site?_iff.2 h)

theorem exists_row_of_site? (h : d.site? x = some s) : ∃ row ∈ d.allRows, row.site? x = some s := by
  rw [site?_eq_findSome?] at h
  exact List.exists_of_findSome?_eq_some h

theorem mem_of_mem_children (h : d.site? x = some s) (hy : y ∈ s.children.ids) : y ∈ d.ids := by
  obtain ⟨row, hrow, hsite⟩ := exists_row_of_site? h
  exact List.mem_flatMap.2 ⟨row, hrow, Forest.mem_of_mem_children hsite hy⟩

theorem mem_of_mem_rest (h : d.site? x = some s) (hy : y ∈ s.rest.ids) : y ∈ d.ids := by
  obtain ⟨row, hrow, hsite⟩ := exists_row_of_site? h
  exact List.mem_flatMap.2 ⟨row, hrow, Forest.mem_of_mem_rest hsite hy⟩

/-- The site of a node is one in the forest of all nodes. -/
theorem Distinct.forest_site? (hd : d.Distinct) (h : d.site? x = some s) :
    d.forest.site? x = some s := by
  rw [← site?_eq_forest (hd.numbered x (mem_ids_of_site? h)), h]

end Document

end MailMerge.Xml
