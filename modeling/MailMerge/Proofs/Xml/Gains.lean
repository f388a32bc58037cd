import MailMerge.Proofs.Xml.Apart
import MailMerge.Proofs.Xml.Move

/-!
# Documents that gain nodes

While statements are evaluated, new trees are put between the nodes of a template. The nodes that
were there before keep their order and their places in it: the row of each of them is the earlier one
with trees of new nodes in it.
-/

namespace MailMerge.Xml

namespace Forest

variable {p q : NodeId → Node → Prop} {f g k row : Forest} {x y : NodeId} {s t : Site}

/-- A row with trees put into it, whose nodes all have a property. -/
inductive Gains (p : NodeId → Node → Prop) : Forest → Forest → Prop where
  | nil : Gains p nil nil
  | keep {id : NodeId} {node : Node} {children children' rest rest' : Forest}
      (below : Gains p children children') (later : Gains p rest rest') :
      Gains p (cons id node children rest) (cons id node children' rest')
  | add {id : NodeId} {node : Node} {children rest rest' : Forest}
      (new : ∀ y n, (y, n) ∈ (single id node children).nodes → p y n)
      (later : Gains p rest rest') : Gains p rest (cons id node children rest')

theorem Gains.refl (f : Forest) : Gains p f f := by
  induction f with
  | nil => exact .nil
  | cons id node children rest ihc ihr => exact .keep ihc ihr

theorem Gains.imp (h : Gains p f g) (hpq : ∀ y n, p y n → q y n) : Gains q f g := by
  induction h with
  | nil => exact .nil
  | keep _ _ ihc ihr => exact .keep ihc ihr
  | add new _ ih => exact .add (fun y n hy => hpq y n (new y n hy)) ih

/-- A row put before another one. -/
theorem gains_append_left (hrow : ∀ y n, (y, n) ∈ row.nodes → p y n) (h : Gains p f g) :
    Gains p f (row ++ g) := by
  induction row with
  | nil => exact h
  | cons id node children rest _ ih =>
    refine .add (fun y n hy => hrow y n ?_) (ih fun y n hy => hrow y n ?_)
    · simp only [single, nodes, List.append_nil, List.mem_cons] at hy
      simp only [nodes, List.mem_cons, List.mem_append]
      exact hy.imp_right .inl
    · simp only [nodes, List.mem_cons, List.mem_append]
      exact .inr (.inr hy)

/-- A row put after another one. -/
theorem gains_append_right (f : Forest) (hrow : ∀ y n, (y, n) ∈ row.nodes → p y n) :
    Gains p f (f ++ row) := by
  induction f with
  | nil => simpa using gains_append_left hrow .nil
  | cons id node children rest _ ih => exact .keep (.refl _) ih

theorem gains_rewrite {change : Site → Forest} (f : Forest)
    (hchange : ∀ s, Gains p (cons x s.node s.children s.rest) (change s)) :
    Gains p f (f.rewrite x change) := by
  induction f with
  | nil => exact .nil
  | cons id node children rest ihc ihr =>
    rw [rewrite]
    split
    next heq => exact heq ▸ hchange ⟨node, children, rest⟩
    next => exact .keep ihc ihr

theorem Gains.mem_nodes {n : Node} (h : Gains p f g) (hy : (y, n) ∈ g.nodes) :
    (y, n) ∈ f.nodes ∨ p y n := by
  induction h with
  | nil => exact .inl hy
  | keep _ _ ihc ihr =>
    simp only [nodes, List.mem_cons, List.mem_append] at hy ⊢
    rcases hy with hy | hy | hy
    · exact .inl (.inl hy)
    · exact (ihc hy).imp_left fun h => .inr (.inl h)
    · exact (ihr hy).imp_left fun h => .inr (.inr h)
  | add new _ ih =>
    simp only [nodes, List.mem_cons, List.mem_append] at hy
    rcases hy with hy | hy | hy
    · exact .inr (new y n (by simp [single, nodes, hy]))
    · exact .inr (new y n (by simp [single, nodes, hy]))
    · exact ih hy

theorem Gains.sublist (h : Gains p f g) : f.nodes.Sublist g.nodes := by
  induction h with
  | nil => exact .refl _
  | keep _ _ ihc ihr => exact (ihc.append ihr).cons_cons _
  | add _ _ ih => exact (ih.trans (List.sublist_append_right _ _)).cons _

theorem Gains.ids_subset (h : Gains p f g) : f.ids ⊆ g.ids := (h.sublist.map Prod.fst).subset

theorem Gains.tops_sublist (h : Gains p f g) : f.tops.Sublist g.tops := by
  induction h with
  | nil => exact .refl _
  | keep _ _ _ ihr => exact ihr.cons_cons _
  | add _ _ ih => exact ih.cons _

theorem Gains.mem_tops {n : Node} (h : Gains p f g) (hy : (y, n) ∈ g.tops) :
    (y, n) ∈ f.tops ∨ p y n := by
  induction h with
  | nil => exact .inl hy
  | keep _ _ _ ihr =>
    rcases List.mem_cons.1 hy with heq | hy
    · exact .inl (heq ▸ List.mem_cons_self)
    · exact (ihr hy).imp_left (List.mem_cons_of_mem _)
  | add new _ ih =>
    rcases List.mem_cons.1 hy with heq | hy
    · exact .inr (new y n (by simp [single, nodes, heq]))
    · exact ih hy

theorem Gains.trans (h : Gains p f g) (h' : Gains p g k) : Gains p f k := by
  induction h' generalizing f with
  | nil => exact h
  | keep hbelow hlater ihc ihr =>
    cases h with
    | keep below later => exact .keep (ihc below) (ihr later)
    | add new later =>
      -- What has come into a new tree is new as well.
      refine .add (fun y n hy => ?_) (ihr later)
      simp only [single, nodes, List.append_nil, List.mem_cons] at hy
      rcases hy with hy | hy
      · exact new y n (by simp [single, nodes, hy])
      · rcases hbelow.mem_nodes hy with hy | hy
        · exact new y n (by simp [single, nodes, hy])
        · exact hy
  | add new _ ih => exact .add new (ih h)

/-- A node that was there before has the rows that it had, with trees put into them. -/
theorem Gains.exists_site? (h : Gains p f g) (hg : g.ids.Nodup) (hs : f.site? y = some s) :
    ∃ t, g.site? y = some t ∧ t.node = s.node ∧ Gains p s.children t.children ∧
      Gains p s.rest t.rest := by
  induction h with
  | nil => cases hs
  | @keep id node children children' rest rest' hbelow hlater ihc ihr =>
    obtain ⟨-, -, hchildren, hrest, hdisj⟩ := nodup_cons_iff.1 hg
    rw [site?] at hs ⊢
    split at hs
    next heq =>
      cases hs
      exact ⟨⟨node, children', rest'⟩, by rw [if_pos heq], rfl, hbelow, hlater⟩
    next hne =>
      rw [if_neg hne]
      rcases Option.or_eq_some_iff.1 hs with hs | ⟨hnone, hs⟩
      · obtain ⟨t, ht, hnode⟩ := ihc hchildren hs
        exact ⟨t, by rw [ht]; rfl, hnode⟩
      · obtain ⟨t, ht, hnode⟩ := ihr hrest hs
        have hout : y ∉ children'.ids := fun hin => hdisj y hin (mem_ids_of_site? ht)
        exact ⟨t, by rw [site?_eq_none_iff.2 hout, Option.none_or, ht], hnode⟩
  | @add id node children rest rest' new hlater ih =>
    obtain ⟨-, hid, -, hrest, hdisj⟩ := nodup_cons_iff.1 hg
    obtain ⟨t, ht, hnode⟩ := ih hrest hs
    have hmem := mem_ids_of_site? ht
    have hne : id ≠ y := fun heq => hid (heq ▸ hmem)
    have hout : y ∉ children.ids := fun hin => hdisj y hin hmem
    refine ⟨t, ?_, hnode⟩
    rw [site?, if_neg hne, site?_eq_none_iff.2 hout, Option.none_or, ht]

theorem exists_node_of_mem_ids (hy : y ∈ f.ids) : ∃ n, (y, n) ∈ f.nodes := by
  obtain ⟨⟨z, n⟩, hmem, rfl⟩ := List.mem_map.1 hy
  exact ⟨n, hmem⟩

theorem Gains.mem_ids (h : Gains p f g) (hold : ∀ n, ¬ p y n) : y ∈ g.ids ↔ y ∈ f.ids := by
  refine ⟨fun hy => ?_, fun hy => h.ids_subset hy⟩
  obtain ⟨n, hn⟩ := exists_node_of_mem_ids hy
  exact List.mem_map_of_mem ((h.mem_nodes hn).resolve_right (hold n))

/-- What encloses a node that is not new has enclosed it before. -/
theorem Gains.exists_site?_of_mem (h : Gains p f g) (ht : g.site? x = some t)
    (hy : y ∈ t.children.ids) (hold : ∀ n, ¬ p y n) :
    ∃ s, f.site? x = some s ∧ y ∈ s.children.ids := by
  induction h with
  | nil => cases ht
  | @keep id node children children' rest rest' hbelow hlater ihc ihr =>
    rw [site?] at ht ⊢
    split at ht
    next heq =>
      cases ht
      exact ⟨⟨node, children, rest⟩, by rw [if_pos heq], (hbelow.mem_ids hold).1 hy⟩
    next hne =>
      rw [if_neg hne]
      rcases Option.or_eq_some_iff.1 ht with ht | ⟨hnone, ht⟩
      · obtain ⟨s, hs, hmem⟩ := ihc ht
        exact ⟨s, by rw [hs]; rfl, hmem⟩
      · obtain ⟨s, hs, hmem⟩ := ihr ht
        have hout : x ∉ children.ids := fun hin =>
          site?_eq_none_iff.1 hnone (hbelow.ids_subset hin)
        exact ⟨s, by rw [site?_eq_none_iff.2 hout, Option.none_or, hs], hmem⟩
  | @add id node children rest rest' new hlater ih =>
    have hnew : ∀ z ∈ (single id node children).ids, ∃ n, p z n := by
      intro z hz
      obtain ⟨n, hn⟩ := exists_node_of_mem_ids hz
      exact ⟨n, new z n hn⟩
    rw [site?] at ht
    split at ht
    next =>
      cases ht
      obtain ⟨n, hn⟩ := hnew y (by simp [single, hy])
      exact absurd hn (hold n)
    next =>
      rcases Option.or_eq_some_iff.1 ht with ht | ⟨-, ht⟩
      · obtain ⟨n, hn⟩ := hnew y (by simp [single, mem_of_mem_children ht hy])
        exact absurd hn (hold n)
      · exact ih ht

end Forest

namespace Document

open Forest

variable {c d e : Document} {old : List NodeId} {p : NodeId → Node → Prop} {rest : List Forest}
variable {x y z target : NodeId} {s t : Site}

/-- A document after trees have been put between some of its nodes. The nodes of these trees have a
property that none of the given nodes has. -/
structure Gains (old : List NodeId) (p : NodeId → Node → Prop) (d e : Document) : Prop where
  distinct : e.Distinct
  ids : d.ids ⊆ e.ids
  site : ∀ y ∈ old, ∀ s, d.site? y = some s → ∃ t, e.site? y = some t ∧ t.node = s.node ∧
    Forest.Gains p s.children t.children ∧ Forest.Gains p s.rest t.rest
  closed : ∀ y ∉ old, ∀ z ∈ old, z ∈ e.descendants y → z ∈ d.descendants y

theorem Gains.trans (h : Gains old p c d) (h' : Gains old p d e) : Gains old p c e := by
  refine ⟨h'.distinct, List.Subset.trans h.ids h'.ids, fun y hy s hs => ?_, fun y hy z hz hin => ?_⟩
  · obtain ⟨t, ht, hnode, hchildren, hrest⟩ := h.site y hy s hs
    obtain ⟨u, hu, hnode', hchildren', hrest'⟩ := h'.site y hy t ht
    exact ⟨u, hu, hnode'.trans hnode, hchildren.trans hchildren', hrest.trans hrest'⟩
  · exact h.closed y hy z hz (h'.closed y hy z hz hin)

/-- Each of the rows that have the given nodes has gained trees or is left as it was. -/
theorem gains_of_rows (hd : d.Distinct) (he : e.Distinct) (hids : d.ids ⊆ e.ids)
    (hold : old ⊆ rest.flatMap Forest.ids) (hnew : ∀ y ∈ old, ∀ n, ¬ p y n)
    (hrows : ∀ row ∈ rest, row ∈ d.allRows ∧ ∃ row' ∈ e.allRows, Forest.Gains p row row') :
    Gains old p d e := by
  refine ⟨he, hids, fun y hy s hs => ?_, fun y hnot z hz hin => ?_⟩
  · obtain ⟨row, hrow, hyrow⟩ := List.mem_flatMap.1 (hold hy)
    obtain ⟨hmem, row', hmem', hgains⟩ := hrows row hrow
    rw [hd.site?_of_row hmem hyrow] at hs
    rw [he.site?_of_row hmem' (hgains.ids_subset hyrow)]
    exact hgains.exists_site? (he.nodup_row hmem') hs
  · obtain ⟨row, hrow, hzrow⟩ := List.mem_flatMap.1 (hold hz)
    obtain ⟨hmem, row', hmem', hgains⟩ := hrows row hrow
    obtain ⟨t, ht, heq | hzt⟩ := mem_descendants_iff.1 hin
    · exact absurd (heq ▸ hz) hnot
    obtain ⟨other, hother, hsite⟩ := exists_row_of_site? ht
    have heq := he.row_unique hother hmem' (Forest.mem_of_mem_children hsite hzt)
      (hgains.ids_subset hzrow)
    subst heq
    obtain ⟨s, hs, hzs⟩ := hgains.exists_site?_of_mem hsite hzt (hnew z hz)
    refine mem_descendants_iff.2 ⟨s, ?_, .inr hzs⟩
    rw [hd.site?_of_row hmem (Forest.mem_ids_of_site? hs), hs]

/-- Rows that are left as they were keep their nodes in place. -/
theorem Spares.gains (h : d.Spares rest e) (hd : d.Apart rest)
    (hold : old ⊆ rest.flatMap Forest.ids) (hnew : ∀ y ∈ old, ∀ n, ¬ p y n) :
    Gains old p d e := by
  obtain ⟨own, hrows⟩ := hd.rows
  obtain ⟨own', hrows'⟩ := h.apart.rows
  refine gains_of_rows hd.distinct h.apart.distinct h.ids hold hnew fun row hrow => ?_
  exact ⟨hrows.mem_iff.2 (List.mem_append_right _ hrow), row,
    hrows'.mem_iff.2 (List.mem_append_right _ hrow), .refl row⟩

/-- A tree beside the rows of the given nodes is moved next to or below a node. -/
theorem Apart.move_gains (place : Forest → Forest → Option Forest) (graft : Forest → Site → Forest)
    (h : d.Apart rest) (hx : d.Free rest x) (hold : old ⊆ rest.flatMap Forest.ids)
    (hnew : ∀ y ∈ old, ∀ n, ¬ p y n)
    (hplace : ∀ tree row : Forest, row.ids.Nodup →
      place tree row = (row.site? target).map fun _ => row.rewrite target (graft tree))
    (hperm : ∀ tree row new, place tree row = some new → new.nodes.Perm (tree.nodes ++ row.nodes))
    (hgraft : ∀ tree s, (∀ y n, (y, n) ∈ tree.nodes → p y n) →
      Forest.Gains p (cons target s.node s.children s.rest) (graft tree s))
    (hp : ∀ y n, (y, n) ∈ (d.tree x).nodes → p y n)
    (hmove : d.move place target x = some e) : Gains old p d e := by
  obtain ⟨row, own, s, hrows, hs⟩ := h.exists_row hx
  obtain ⟨left, hleft, hleftRows⟩ :=
    h.distinct.takeOut_rows (fun _ h => extract?_eq_site? h) hrows hs
  have htree : d.tree x = s.tree x := by
    have hrow : row ∈ d.allRows := hrows.mem_iff.2 List.mem_cons_self
    rw [tree_eq_site?, h.distinct.site?_of_row hrow (Forest.mem_ids_of_site? hs), hs]
    rfl
  rw [Document.move, hleft] at hmove
  dsimp only at hmove
  split at hmove
  next => cases hmove
  next =>
    -- A move changes places only, so the nodes are the same ones.
    have htaken := takeOut_perm (fun _ _ _ h => extract?_perm h) hleft
    have hleftDistinct := h.distinct.of_takeOut (fun _ _ _ h => extract?_perm h) hleft
    have hnodes : e.nodes.Perm d.nodes := (change_perm (hperm _) hmove).trans htaken.symm
    have hframe := (takeOut_sameFrame hleft).trans (change_sameFrame hmove)
    have hall := change_allRows left (place (s.tree x))
    rw [hmove, changeRow_eq hleftDistinct.nodup (hplace _)] at hall
    obtain ⟨-, -, heq⟩ := Option.map_eq_some_iff.1 hall.symm
    refine gains_of_rows h.distinct (h.distinct.of_perm hnodes hframe.next) ?_ hold hnew ?_
    · rw [ids_eq_map_nodes, ids_eq_map_nodes]
      exact (hnodes.map Prod.fst).symm.subset
    · intro other hother
      have hmem : other ∈ own ++ rest := List.mem_append_right _ hother
      refine ⟨hrows.mem_iff.2 (List.mem_cons_of_mem _ hmem), _, ?_,
        gains_rewrite other fun t => hgraft (s.tree x) t (htree ▸ hp)⟩
      rw [← heq]
      exact List.mem_map_of_mem (hleftRows.mem_iff.2 (List.mem_append_right _ hmem))

theorem Apart.insertAfter_gains (h : d.Apart rest) (hx : d.Free rest x)
    (hold : old ⊆ rest.flatMap Forest.ids) (hnew : ∀ y ∈ old, ∀ n, ¬ p y n)
    (hp : ∀ y n, (y, n) ∈ (d.tree x).nodes → p y n)
    (hmove : d.insertAfter target x = some e) : Gains old p d e :=
  move_gains (insertAfter? target) (fun row s => cons target s.node s.children (row ++ s.rest)) h
    hx hold hnew (fun _ _ h => insertAfter?_eq_site? h) (fun _ _ _ h => insertAfter?_perm h)
    (fun _ _ htree => .keep (.refl _) (gains_append_left htree (.refl _))) hp hmove

theorem Apart.insertBefore_gains (h : d.Apart rest) (hx : d.Free rest x)
    (hold : old ⊆ rest.flatMap Forest.ids) (hnew : ∀ y ∈ old, ∀ n, ¬ p y n)
    (hp : ∀ y n, (y, n) ∈ (d.tree x).nodes → p y n)
    (hmove : d.insertBefore target x = some e) : Gains old p d e :=
  move_gains (insertBefore? target) (fun row s => row ++ cons target s.node s.children s.rest) h
    hx hold hnew (fun _ _ h => insertBefore?_eq_site? h) (fun _ _ _ h => insertBefore?_perm h)
    (fun _ _ htree => gains_append_left htree (.refl _)) hp hmove

theorem Apart.appendChild_gains (h : d.Apart rest) (hx : d.Free rest x)
    (hold : old ⊆ rest.flatMap Forest.ids) (hnew : ∀ y ∈ old, ∀ n, ¬ p y n)
    (hp : ∀ y n, (y, n) ∈ (d.tree x).nodes → p y n)
    (hmove : d.appendChild target x = some e) : Gains old p d e :=
  move_gains (appendChild? target) (fun row s => cons target s.node (s.children ++ row) s.rest) h
    hx hold hnew (fun _ _ h => appendChild?_eq_site? h) (fun _ _ _ h => appendChild?_perm h)
    (fun _ _ htree => .keep (gains_append_right _ htree) (.refl _)) hp hmove

end Document

end MailMerge.Xml
