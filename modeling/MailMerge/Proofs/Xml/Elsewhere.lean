import MailMerge.Proofs.Xml.Revision

/-!
# Edits elsewhere

A document is edited in its shape and in what its nodes hold. The tree of a node is told by the
payloads and the lists of children of its own nodes, and an edit changes these only at the nodes that
it is about. So a tree stays as it is under all edits that name none of its nodes
(`EditedOutside.tree_eq`).
-/

namespace MailMerge.Xml

namespace Document

open Forest

variable {c d e f : Document} {n p q x y : NodeId} {kept : List NodeId}

/-! ## Edits -/

/-- An edit of the shape of a document, or a change of what one of its nodes holds. -/
inductive Change where
  | shape (r : Revision)
  | payload (x : NodeId) (f : Node → Node)

namespace Change

/-- The nodes that a change is about. -/
def nodes : Change → List NodeId
  | shape r => r.nodes
  | payload x _ => [x]

/-- The document after a change, if it is not refused. -/
def result? (d : Document) : Change → Option Document
  | shape r => r.result? d
  | payload x f => some (d.update x f)

end Change

/-- Changes of nodes that are there and not among given ones, one after the other, none of them
refused. -/
abbrev EditedOutside (kept : List NodeId) : Document → Document → Prop :=
  Relation.ReflTransGen fun d e => ∃ change : Change,
    change.nodes ⊆ d.ids ∧ (∀ x ∈ change.nodes, x ∉ kept) ∧ change.result? d = some e

/-- Changes of nodes that are there, one after the other, none of them refused. -/
abbrev Edited : Document → Document → Prop := EditedOutside []

/-! ## What tells a tree -/

theorem topIds_tree (hx : x ∈ d.ids) : (d.tree x).topIds = [x] := by
  obtain ⟨s, hs⟩ := exists_site? hx
  rw [tree_of_site? hs]
  rfl

theorem Shows.children_eq {node : Node} {children rest : Forest}
    (h : d.Shows (cons x node children rest)) : d.children x = children.topIds := by
  rw [Document.children, h.below_eq]
  rfl

/-- Rows of the same siblings are the same if the nodes of one of them hold the same and have the
same children in both documents. -/
theorem Shows.eq_of_agree {g h : Forest} (hg : d.Shows g) (hh : e.Shows h)
    (htop : h.topIds = g.topIds) (hnode : ∀ q ∈ g.ids, e.node? q = d.node? q)
    (hchildren : ∀ q ∈ g.ids, e.children q = d.children q) : h = g := by
  induction g generalizing h with
  | nil =>
    cases h with
    | nil => rfl
    | cons => cases htop
  | cons x node children rest ihc ihr =>
    cases h with
    | nil => cases htop
    | cons y node' children' rest' =>
      obtain ⟨rfl, hrest⟩ := List.cons.inj htop
      simp only [ids_cons, List.forall_mem_cons, List.forall_mem_append] at hnode hchildren
      have hsame : node' = node := by
        have hthere : e.node? y = some node' := hh.node? List.mem_cons_self
        have hhere : d.node? y = some node := hg.node? List.mem_cons_self
        rw [hnode.1, hhere] at hthere
        exact (Option.some.inj hthere).symm
      have hbelow : children'.topIds = children.topIds := by
        rw [← hh.children_eq, ← hg.children_eq, hchildren.1]
      rw [hsame, ihc hg.below hh.below hbelow hnode.2.1 hchildren.2.1,
        ihr hg.later hh.later hrest hnode.2.2 hchildren.2.2]

theorem Distinct.tree_eq_of_agree (hd : d.Distinct) (he : e.Distinct) (hn : n ∈ d.ids)
    (hnode : ∀ q ∈ d.descendants n, e.node? q = d.node? q)
    (hchildren : ∀ q ∈ d.descendants n, e.children q = d.children q) : e.tree n = d.tree n := by
  have hlater : n ∈ e.ids := by
    rw [← isSome_node?_iff, hnode n (mem_descendants_self hn), isSome_node?_iff]
    exact hn
  apply (hd.shows_tree n).eq_of_agree (he.shows_tree n) _ hnode hchildren
  rw [topIds_tree hn, topIds_tree hlater]

/-! ## One change -/

/-- An edit gives new children only to nodes that it names, and to the parents of those. -/
theorem Revision.children_eq_of_notMem (r : Revision) (hq : q ∉ r.nodes)
    (hout : ∀ x ∈ r.nodes, x ∉ d.children q) : r.children d q = d.children q := by
  cases r with
  | createElement | createText | parseFragment | copy => rfl
  | appendChild parent x =>
    simp only [nodes, List.mem_cons, List.not_mem_nil, or_false, not_or] at hq
    rw [children, if_neg hq.1, filter_ne_of_notMem (hout x (by simp [nodes]))]
  | insertAfter anchor x =>
    rw [children, filter_ne_of_notMem (hout x (by simp [nodes])),
      putAfter_of_notMem (hout anchor (by simp [nodes]))]
  | insertBefore anchor x =>
    rw [children, filter_ne_of_notMem (hout x (by simp [nodes])),
      putBefore_of_notMem (hout anchor (by simp [nodes]))]
  | detach x => exact filter_ne_of_notMem (hout x (by simp [nodes]))
  | unwrap x =>
    have hne : q ≠ x := by simpa [nodes] using hq
    rw [children, if_neg hne, putFor_of_notMem (hout x (by simp [nodes])), ite_self]
  | clearChildren x | setText x _ =>
    have hne : q ≠ x := by simpa [nodes] using hq
    rw [children, if_neg hne]

theorem tree_update (d : Document) (x : NodeId) (change : Node → Node) (y : NodeId) :
    (d.update x change).tree y = (d.tree y).update x change := by
  rw [tree_eq_site?, tree_eq_site?, d.site?_update x change]
  cases d.site? y <;> rfl

theorem WellFormed.of_change {change : Change} (hd : d.WellFormed) (hthere : change.nodes ⊆ d.ids)
    (h : change.result? d = some e) : e.WellFormed := by
  cases change with
  | shape r => exact ((hd.enacts hthere).2 e h).1
  | payload x g =>
    cases h
    exact ⟨hd.update x g, (update_ids d x g).symm ▸ hd.rooted⟩

/-- A change that names no node of a tree leaves the tree as it is. -/
theorem WellFormed.tree_eq_of_change {change : Change} (hd : d.WellFormed) (hn : n ∈ d.ids)
    (hthere : change.nodes ⊆ d.ids) (hout : ∀ x ∈ change.nodes, x ∉ d.descendants n)
    (h : change.result? d = some e) : e.tree n = d.tree n := by
  cases change with
  | payload x g =>
    cases h
    rw [tree_update, update_of_notMem (hout x List.mem_cons_self)]
  | shape r =>
    obtain ⟨he, henacts⟩ := (hd.enacts hthere).2 e h
    have hmem : ∀ q ∈ d.descendants n, q ∈ d.ids := fun q => mem_ids_of_mem_descendants
    apply hd.tree_eq_of_agree he.toDistinct hn
    · exact fun q hq => henacts.kept q (hmem q hq)
    · intro q hq
      rw [henacts.children q (hmem q hq)]
      apply r.children_eq_of_notMem fun hin => hout q hin hq
      intro x hx hin
      exact hout x hx (hd.mem_descendants_trans (mem_descendants_of_mem_children hin) hq)

/-! ## Changes one after the other -/

theorem EditedOutside.wellFormed (h : EditedOutside kept d e) (hd : d.WellFormed) :
    e.WellFormed := by
  induction h with
  | refl => exact hd
  | tail _ hstep ih =>
    obtain ⟨change, hthere, -, hresult⟩ := hstep
    exact ih.of_change hthere hresult

/-- A tree stays as it is under all changes that name none of its nodes. -/
theorem EditedOutside.tree_eq (h : EditedOutside (d.descendants n) d e) (hd : d.WellFormed)
    (hn : n ∈ d.ids) : e.tree n = d.tree n := by
  induction h with
  | refl => rfl
  | @tail c e hearlier hstep ih =>
    obtain ⟨change, hthere, hout, hresult⟩ := hstep
    -- What must not be named is the same at every step, for the tree is the same.
    have hnodes : c.descendants n = d.descendants n := congrArg Forest.ids ih
    have hmem : n ∈ c.ids := mem_ids_of_descendants (hnodes ▸ mem_descendants_self hn)
    rw [← ih]
    exact (EditedOutside.wellFormed hearlier hd).tree_eq_of_change hmem hthere (hnodes ▸ hout) hresult

end Document

end MailMerge.Xml
