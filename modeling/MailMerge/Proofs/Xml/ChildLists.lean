import MailMerge.Proofs.Xml.Unwrap

/-!
# Edits as operations on lists of children

A node can be moved below, after or before another one exactly when that one does not stand within
it. Each edit is then an operation on the lists of children: a node leaves the list that it stands
in, and comes to the end of another one or next to a member of it.
-/

namespace MailMerge.Xml

section Lists

variable {anchor x : NodeId} {xs : List NodeId}

/-- Puts an identity right after another one, if that one is there. -/
def putAfter (anchor x : NodeId) : List NodeId → List NodeId
  | [] => []
  | y :: ys => if y = anchor then y :: x :: ys else y :: putAfter anchor x ys

/-- Puts an identity right before another one, if that one is there. -/
def putBefore (anchor x : NodeId) : List NodeId → List NodeId
  | [] => []
  | y :: ys => if y = anchor then x :: y :: ys else y :: putBefore anchor x ys

theorem putAfter_of_notMem (h : anchor ∉ xs) : putAfter anchor x xs = xs := by
  induction xs with
  | nil => rfl
  | cons y ys ih =>
    rw [List.mem_cons, not_or] at h
    rw [putAfter, if_neg (Ne.symm h.1), ih h.2]

theorem putBefore_of_notMem (h : anchor ∉ xs) : putBefore anchor x xs = xs := by
  induction xs with
  | nil => rfl
  | cons y ys ih =>
    rw [List.mem_cons, not_or] at h
    rw [putBefore, if_neg (Ne.symm h.1), ih h.2]

/-- Puts a list of identities in the place of one. -/
def putFor (x : NodeId) (row xs : List NodeId) : List NodeId :=
  xs.flatMap fun y => if y = x then row else [y]

theorem putFor_of_notMem {row : List NodeId} (h : x ∉ xs) : putFor x row xs = xs := by
  refine (List.flatMap_congr fun y hy => ?_).trans (List.flatMap_singleton' _)
  exact if_neg fun heq : y = x => h (heq ▸ hy)

theorem filter_ne_of_notMem (h : x ∉ xs) : xs.filter (· ≠ x) = xs :=
  List.filter_eq_self.2 fun _ hy => decide_eq_true fun heq => h (heq ▸ hy)

end Lists

namespace Forest

variable {x q anchor : NodeId} {f row : Forest} {s : Site} {node : Node} {children : Forest}

/-! ## The top of a row -/

theorem topIds_graftAfter_single :
    (graftAfter anchor (single x node children) f).topIds = putAfter anchor x f.topIds := by
  induction f with
  | nil => rfl
  | cons id n c rest _ ih =>
    rw [graftAfter, rewrite, topIds_cons, putAfter]
    split
    next heq => rw [heq]; rfl
    next => rw [topIds_cons, ← graftAfter, ih]

theorem topIds_graftBefore_single :
    (graftBefore anchor (single x node children) f).topIds = putBefore anchor x f.topIds := by
  induction f with
  | nil => rfl
  | cons id n c rest _ ih =>
    rw [graftBefore, rewrite, topIds_cons, putBefore]
    split
    next heq => rw [heq]; rfl
    next => rw [topIds_cons, ← graftBefore, ih]

theorem topIds_graftBelow : (graftBelow anchor row f).topIds = f.topIds := by
  induction f with
  | nil => rfl
  | cons id n c rest _ ih =>
    rw [graftBelow, rewrite, topIds_cons]
    split
    next heq => rw [heq, topIds_cons]
    next => rw [topIds_cons, ← graftBelow, ih]

theorem topIds_dissolve (hf : f.ids.Nodup) (hs : f.site? x = some s) :
    (f.dissolve x).topIds = putFor x s.children.topIds f.topIds := by
  induction f with
  | nil => cases hs
  | cons id n c rest _ ih =>
    obtain ⟨-, hidr, -, hrest, hdisj⟩ := nodup_cons_iff.1 hf
    rw [site?] at hs
    rw [dissolve, rewrite, topIds_cons, putFor, List.flatMap_cons, ← putFor]
    split at hs
    next heq =>
      cases hs
      have hx : x ∉ rest.topIds := fun hx => hidr (heq ▸ mem_ids_of_mem_topIds hx)
      rw [if_pos heq, if_pos heq, topIds_append, putFor_of_notMem hx]
    next hne =>
      rw [if_neg hne, if_neg hne, topIds_cons, List.singleton_append, ← dissolve]
      rcases Option.or_eq_some_iff.1 hs with hs | ⟨-, hs⟩
      · have hx := hdisj x (mem_ids_of_site? hs)
        rw [dissolve, rewrite_of_notMem hx, putFor_of_notMem fun h => hx (mem_ids_of_mem_topIds h)]
      · rw [ih hrest hs]

/-! ## The children of a node -/

/-- The identities of the children of a node; an unknown node has none. -/
def childIds (q : NodeId) (f : Forest) : List NodeId :=
  ((f.site? q).map fun s => s.children.topIds).getD []

theorem childIds_of_site? (hs : f.site? q = some s) : f.childIds q = s.children.topIds := by
  rw [childIds, hs]
  rfl

theorem childIds_of_map {g : Forest} {change : Site → Site}
    (h : g.site? q = (f.site? q).map change)
    (hchange : ∀ s, (change s).children.topIds = s.children.topIds) :
    g.childIds q = f.childIds q := by
  rw [childIds, childIds, h, Option.map_map]
  cases f.site? q with
  | none => rfl
  | some s => exact hchange s

section Graft

variable (hf : f.ids.Nodup) (hdisj : ∀ y ∈ (single x node children).ids, y ∉ f.ids)
variable (hanchor : anchor ∈ f.ids)
include hf hdisj hanchor

/-- A node put after another one keeps what is below it, and joins the siblings of that one. -/
theorem childIds_graftAfter (htree : (single x node children).ids.Nodup) :
    (graftAfter anchor (single x node children) f).childIds q =
      if q ∈ (single x node children).ids then (single x node children).childIds q
      else putAfter anchor x (f.childIds q) := by
  obtain ⟨s, hs⟩ := exists_site? hanchor
  split
  next hq =>
    refine childIds_of_map (site?_graftAfter_row hf htree hs (hdisj q hq)) fun t => ?_
    split <;> rfl
  next hq =>
    by_cases hne : q = anchor
    · subst hne
      rw [childIds_of_site? (site?_graftAfter_self hf hs), childIds_of_site? hs,
        putAfter_of_notMem fun h => notMem_children_self hf hs (mem_ids_of_mem_topIds h)]
    · rw [childIds, childIds, site?_graftAfter hf htree hs hne hq]
      cases f.site? q with
      | none => rfl
      | some t => exact topIds_graftAfter_single

/-- A node put before another one keeps what is below it, and joins the siblings of that one. -/
theorem childIds_graftBefore (htree : (single x node children).ids.Nodup) :
    (graftBefore anchor (single x node children) f).childIds q =
      if q ∈ (single x node children).ids then (single x node children).childIds q
      else putBefore anchor x (f.childIds q) := by
  obtain ⟨s, hs⟩ := exists_site? hanchor
  split
  next hq =>
    refine childIds_of_map (site?_graftBefore_row hf htree hs (hdisj q hq)) fun t => ?_
    split <;> rfl
  next hq =>
    by_cases hne : q = anchor
    · subst hne
      rw [childIds_of_site? (site?_graftBefore_self hf htree hs hq), childIds_of_site? hs,
        putBefore_of_notMem fun h => notMem_children_self hf hs (mem_ids_of_mem_topIds h)]
    · rw [childIds, childIds, site?_graftBefore hf htree hs hne hq]
      cases f.site? q with
      | none => rfl
      | some t => exact topIds_graftBefore_single

/-- A node put below another one keeps what is below it, and comes last among the children. -/
theorem childIds_graftBelow :
    (graftBelow anchor (single x node children) f).childIds q =
      if q ∈ (single x node children).ids then (single x node children).childIds q
      else if q = anchor then f.childIds q ++ [x]
      else f.childIds q := by
  obtain ⟨s, hs⟩ := exists_site? hanchor
  split
  next hq =>
    exact childIds_of_map ((site?_graftBelow_row hf hs (hdisj q hq)).trans Option.map_id'.symm)
      fun _ => rfl
  next hq =>
    split
    next heq =>
      subst heq
      rw [childIds_of_site? (site?_graftBelow_self hf hs), childIds_of_site? hs, topIds_append]
      rfl
    next hne =>
      have hsite := site?_graftBelow hf hs hne hq
      split at hsite
      · exact childIds_of_map hsite fun _ => rfl
      · exact childIds_of_map hsite fun _ => topIds_graftBelow

end Graft

end Forest

namespace Document

open Forest

variable {d e : Document} {x y p q anchor target : NodeId} {s t : Site}
variable {place : Forest → Forest → Option Forest} {graft : Forest → Forest → Forest}

theorem childIds_forest (hq : q < d.next) : d.forest.childIds q = d.children q := by
  rw [childIds, ← site?_eq_forest hq, children_eq_site?]

theorem children_of_site? (hs : d.site? q = some s) : d.children q = s.children.topIds := by
  rw [children_eq_site?, hs]
  rfl

theorem children_of_notMem (hq : q ∉ d.ids) : d.children q = [] := by
  rw [children_eq_site?, site?_eq_none_iff.2 hq]
  rfl

/-- The children of a node within another do not include that one. -/
theorem Distinct.notMem_children_of_mem_descendants (hd : d.Distinct)
    (hq : q ∈ d.descendants x) : x ∉ d.children q := by
  intro hx
  have heq := hd.mem_descendants_antisymm (mem_descendants_of_mem_children hx) hq
  subst heq
  exact hd.notMem_children_self hx

/-! ## Moves -/

/-- What a move does to a document: the moved node is taken out, and put into what is left. -/
structure Relocates (d : Document) (graft : Forest → Forest → Forest) (target x : NodeId)
    (e : Document) : Prop where
  frame : d.SameFrame e
  perm : e.nodes.Perm d.nodes
  mem : x ∈ d.ids
  mem_target : target ∈ d.ids
  outside : target ∉ d.descendants x
  placed : ∃ s left, d.site? x = some s ∧ d.TakenOut x s left ∧ left.Distinct ∧
    ∀ y < d.next, e.site? y = (graft (s.tree x) left.forest).site? y

/-- A move is possible when the target does not stand within the moved node, and only then. -/
theorem Distinct.exists_relocates {change : Forest → Site → Forest} (hd : d.Distinct)
    (hplace : ∀ tree row : Forest, row.ids.Nodup →
      place tree row = (row.site? target).map fun _ => row.rewrite target (change tree))
    (hperm : ∀ tree row new, place tree row = some new →
      new.nodes.Perm (tree.nodes ++ row.nodes))
    (hx : x ∈ d.ids) (htarget : target ∈ d.ids) :
    (target ∈ d.descendants x ∧ d.move place target x = none) ∨
      ∃ e, d.move place target x = some e ∧
        d.Relocates (fun tree => rewrite target (change tree)) target x e := by
  obtain ⟨s, hs⟩ := exists_site? hx
  obtain ⟨left, hleft⟩ := hd.takenOut hs
  have htree : (s.tree x).ids = d.descendants x := ids_tree_of_site? hs
  by_cases hin : target ∈ d.descendants x
  · refine .inl ⟨hin, ?_⟩
    rw [move, hleft.eq]
    exact if_pos ((contains_eq_true_iff target _).2 (htree ▸ hin))
  · have hcontains : (s.tree x).contains target = false := by
      rw [Bool.eq_false_iff]
      exact fun h => hin (htree ▸ (contains_eq_true_iff target _).1 h)
    have hmem : target ∈ left.ids := by
      have hids := (hleft.perm.map Prod.fst).mem_iff.1 (ids_eq_map_nodes d ▸ htarget)
      rw [List.map_append, List.mem_append, ← ids_eq_map_nodes] at hids
      exact hids.resolve_left fun h => hin (htree ▸ h)
    obtain ⟨t, ht⟩ := exists_site? hmem
    have hdistinct := hd.of_takeOut (fun _ _ _ h => extract?_perm h) hleft.eq
    obtain ⟨e, hchange, hsites⟩ := hdistinct.change_eq (hplace (s.tree x)) ht
    refine .inr ⟨e, ?_, hleft.frame.trans (change_sameFrame hchange), ?_, hx, htarget, hin, s, left,
      hs, hleft, hdistinct, fun y hy => hsites y (hleft.frame.next ▸ hy)⟩
    · rw [move, hleft.eq]
      simp only [hcontains, Bool.false_eq_true, if_false, hchange]
    · exact (change_perm (hperm _) hchange).trans hleft.perm.symm

theorem TakenOut.children {left : Document} (hd : d.Distinct) (h : d.TakenOut x s left)
    (hs : d.site? x = some s) (hq : q ∉ d.descendants x) :
    left.children q = (d.children q).filter (· ≠ x) := by
  have hbelow : q ≠ x ∧ q ∉ s.children.ids := by
    constructor
    · exact fun heq => hq (mem_descendants_iff.2 ⟨s, hs, .inl heq⟩)
    · exact fun hin => hq (mem_descendants_iff.2 ⟨s, hs, .inr hin⟩)
  rw [children_eq_site?, children_eq_site?, h.site? q hbelow.1 hbelow.2]
  cases hsq : d.site? q with
  | none => rfl
  | some t => exact topIds_without (hd.nodup_childrenIds hsq)

theorem Distinct.childIds_tree (hd : d.Distinct) (hs : d.site? x = some s)
    (hq : q ∈ d.descendants x) : (single x s.node s.children).childIds q = d.children q := by
  rw [children_eq_site?, childIds, single, Forest.site?]
  split
  next heq =>
    rw [← heq, hs]
    rfl
  next hne =>
    have hin : q ∈ s.children.ids := by
      obtain ⟨t, ht, hqt⟩ := mem_descendants_iff.1 hq
      rw [hs] at ht
      cases ht
      exact hqt.resolve_left (Ne.symm hne)
    rw [hd.site?_of_mem_children hs hin, Forest.site?, Option.or_none]

/-- Where a move puts a node is told by what a graft does to the lists of children. -/
theorem Relocates.children (list : NodeId → List NodeId → List NodeId) (hd : d.Distinct)
    (h : d.Relocates graft target x e)
    (hlist : ∀ q xs, target ∉ xs → q ≠ target → list q xs = xs)
    (hgraft : ∀ (f : Forest) node children, f.ids.Nodup → (single x node children).ids.Nodup →
      (∀ y ∈ (single x node children).ids, y ∉ f.ids) → target ∈ f.ids → ∀ q,
      (graft (single x node children) f).childIds q =
        if q ∈ (single x node children).ids then (single x node children).childIds q
        else list q (f.childIds q)) :
    e.children q = list q ((d.children q).filter (· ≠ x)) := by
  obtain ⟨s, left, hs, hleft, hdistinct, hsites⟩ := h.placed
  by_cases hq : q ∈ d.ids
  · have hlt := hd.numbered q hq
    have htree : (single x s.node s.children).ids = d.descendants x := ids_tree_of_site? hs
    have hout : ∀ y ∈ d.descendants x, y ∉ left.forest.ids := by
      intro y hy
      rw [mem_ids_forest (hleft.frame.next ▸ hd.numbered y (mem_ids_of_mem_descendants hy))]
      obtain ⟨t, ht, hyt⟩ := mem_descendants_iff.1 hy
      rw [hs] at ht
      cases ht
      exact hleft.gone y hyt
    have htarget : target ∈ left.forest.ids := by
      rw [mem_ids_forest (hleft.frame.next ▸ hd.numbered target h.mem_target)]
      have hids := (hleft.perm.map Prod.fst).mem_iff.1 (ids_eq_map_nodes d ▸ h.mem_target)
      rw [List.map_append, List.mem_append, ← ids_eq_map_nodes] at hids
      exact hids.resolve_left fun hin => h.outside (htree ▸ hin)
    have hplaced : e.children q = (graft (s.tree x) left.forest).childIds q := by
      rw [children_eq_site?, hsites q hlt, childIds]
    rw [hplaced, Site.tree, hgraft _ _ _ hdistinct.nodup_forest (htree ▸ hd.nodup_descendants x)
      (htree ▸ hout) htarget q, htree]
    split
    next hin =>
      -- Within the moved node nothing changes: neither that node nor the target stands there.
      have hx := hd.notMem_children_of_mem_descendants hin
      have hnot : target ∉ d.children q := fun hmem =>
        h.outside (hd.mem_descendants_trans (mem_descendants_of_mem_children hmem) hin)
      have hne : q ≠ target := fun heq => h.outside (heq ▸ hin)
      rw [filter_ne_of_notMem hx, hlist q _ hnot hne, hd.childIds_tree hs hin]
    next hin =>
      rw [childIds_forest (hleft.frame.next ▸ hlt), hleft.children hd hs hin]
  · have hout : q ∉ e.ids := by
      rwa [ids_eq_map_nodes, (h.perm.map Prod.fst).mem_iff, ← ids_eq_map_nodes]
    rw [children_of_notMem hq, children_of_notMem hout, List.filter_nil,
      hlist q [] List.not_mem_nil fun heq => hq (heq ▸ h.mem_target)]

section Move

variable (hd : d.Distinct) (hx : x ∈ d.ids)
include hd hx

theorem Distinct.relocates_appendChild (hp : p ∈ d.ids) :
    (p ∈ d.descendants x ∧ d.appendChild p x = none) ∨
      ∃ e, d.appendChild p x = some e ∧ d.Relocates (graftBelow p) p x e :=
  hd.exists_relocates (fun _ _ hrow => appendChild?_eq_site? hrow)
    (fun _ _ _ h => appendChild?_perm h) hx hp

theorem Distinct.relocates_insertAfter (hanchor : anchor ∈ d.ids) :
    (anchor ∈ d.descendants x ∧ d.insertAfter anchor x = none) ∨
      ∃ e, d.insertAfter anchor x = some e ∧ d.Relocates (graftAfter anchor) anchor x e :=
  hd.exists_relocates (fun _ _ hrow => insertAfter?_eq_site? hrow)
    (fun _ _ _ h => insertAfter?_perm h) hx hanchor

theorem Distinct.relocates_insertBefore (hanchor : anchor ∈ d.ids) :
    (anchor ∈ d.descendants x ∧ d.insertBefore anchor x = none) ∨
      ∃ e, d.insertBefore anchor x = some e ∧ d.Relocates (graftBefore anchor) anchor x e :=
  hd.exists_relocates (fun _ _ hrow => insertBefore?_eq_site? hrow)
    (fun _ _ _ h => insertBefore?_perm h) hx hanchor

end Move

theorem Relocates.children_appendChild (hd : d.Distinct)
    (h : d.Relocates (graftBelow p) p x e) (q : NodeId) :
    e.children q =
      if q = p then (d.children q).filter (· ≠ x) ++ [x] else (d.children q).filter (· ≠ x) :=
  h.children (fun q xs => if q = p then xs ++ [x] else xs) hd
    (fun _ _ _ hne => if_neg hne)
    (fun _ _ _ hf _ hdisj hp _ => childIds_graftBelow hf hdisj hp)

theorem Relocates.children_insertAfter (hd : d.Distinct)
    (h : d.Relocates (graftAfter anchor) anchor x e) (q : NodeId) :
    e.children q = putAfter anchor x ((d.children q).filter (· ≠ x)) :=
  h.children (fun _ => putAfter anchor x) hd (fun _ _ hout _ => putAfter_of_notMem hout)
    (fun _ _ _ hf htree hdisj hanchor _ => childIds_graftAfter hf hdisj hanchor htree)

theorem Relocates.children_insertBefore (hd : d.Distinct)
    (h : d.Relocates (graftBefore anchor) anchor x e) (q : NodeId) :
    e.children q = putBefore anchor x ((d.children q).filter (· ≠ x)) :=
  h.children (fun _ => putBefore anchor x) hd (fun _ _ hout _ => putBefore_of_notMem hout)
    (fun _ _ _ hf htree hdisj hanchor _ => childIds_graftBefore hf hdisj hanchor htree)

/-! ## What nodes hold -/

theorem mem_nodes_of_node? {n : Node} (h : d.node? x = some n) : (x, n) ∈ d.nodes := by
  rw [node?_eq_site?] at h
  obtain ⟨s, hs, rfl⟩ := Option.map_eq_some_iff.1 h
  obtain ⟨row, hrow, hsite⟩ := exists_row_of_site? hs
  exact List.mem_flatMap.2 ⟨row, hrow,
    (nodes_sublist_of_site? hsite).subset List.mem_cons_self⟩

/-- Documents with the same nodes up to order hold the same at each. -/
theorem Distinct.node?_of_perm {e : Document} (hd : d.Distinct) (h : e.nodes.Perm d.nodes) (x : NodeId) :
    e.node? x = d.node? x := by
  have hids : x ∈ e.ids ↔ x ∈ d.ids := by
    rw [ids_eq_map_nodes, ids_eq_map_nodes, (h.map Prod.fst).mem_iff]
  by_cases hx : x ∈ d.ids
  · obtain ⟨n, hn⟩ := Option.isSome_iff_exists.1 (isSome_node?_iff.2 hx)
    obtain ⟨m, hm⟩ := Option.isSome_iff_exists.1 (isSome_node?_iff.2 (hids.2 hx))
    have hnodup : (d.nodes.map Prod.fst).Nodup := ids_eq_map_nodes d ▸ hd.nodup
    have heq := List.inj_on_of_nodup_map hnodup (h.mem_iff.1 (mem_nodes_of_node? hm))
      (mem_nodes_of_node? hn) rfl
    cases heq
    rw [hm, hn]
  · rw [Option.not_isSome_iff_eq_none.1 (mt isSome_node?_iff.1 hx),
      Option.not_isSome_iff_eq_none.1 (mt isSome_node?_iff.1 (mt hids.1 hx))]

/-! ## Other edits -/

/-- No node is a child of two others. -/
theorem Distinct.children_unique (hd : d.Distinct) (hp : x ∈ d.children p) (hq : x ∈ d.children q) :
    p = q := by
  have houter : ∀ {a b}, x ∈ d.children a → x ∈ d.children b → a ∈ d.descendants b → a = b := by
    intro a b ha hb hin
    obtain ⟨s, hs, rfl | hbelow⟩ := mem_descendants_iff.1 hin
    · rfl
    obtain ⟨t, ht, hxt⟩ := mem_children_iff.1 ha
    obtain ⟨u, hu, hxu⟩ := mem_children_iff.1 hb
    rw [hs] at hu
    cases hu
    rw [hd.site?_of_mem_children hs hbelow] at ht
    exact absurd (mem_ids_of_mem_topIds hxt) (notMem_of_mem_topIds (hd.nodup_childrenIds hs) hxu ht)
  rcases hd.mem_descendants_total (mem_descendants_of_mem_children hp)
    (mem_descendants_of_mem_children hq) with hin | hin
  · exact houter hp hq hin
  · exact (houter hq hp hin).symm

theorem Distinct.mem_children_iff_parent? (hd : d.Distinct) :
    x ∈ d.children p ↔ d.parent? x = some p := by
  refine ⟨fun hx => ?_, hd.mem_children_of_parent?⟩
  obtain ⟨q, hq⟩ := Option.isSome_iff_exists.1 (hd.parent?_isSome hx)
  rw [hq, hd.children_unique (hd.mem_children_of_parent? hq) hx]

/-- Detached nodes without a parent leave all children where they are. -/
theorem Distinct.children_detach_of_root (hd : d.Distinct) (hparent : d.parent? x = none)
    (q : NodeId) : (d.detach x).children q = d.children q := by
  rw [hd.children_detach, filter_ne_of_notMem]
  intro hx
  have hsome := hd.parent?_isSome hx
  rw [hparent] at hsome
  cases hsome

/-- The children of a node with a parent take its place. -/
theorem Distinct.children_unwrap (hd : d.Distinct) (hparent : (d.parent? x).isSome) (q : NodeId) :
    (d.unwrap x).children q = if q = x then [] else putFor x (d.children x) (d.children q) := by
  obtain ⟨s, hs⟩ := exists_site?_of_parent? hparent
  have hown := children_of_site? hs
  by_cases hne : q = x
  · subst hne
    rw [if_pos rfl, children_of_site? (hd.site?_unwrap_self hparent hs)]
    rfl
  have hsite := hd.site?_unwrap hparent hs hne
  rw [if_neg hne]
  cases hsq : d.site? q with
  | none =>
    rw [hsq, Option.map_none] at hsite
    rw [children_of_notMem (site?_eq_none_iff.1 hsite),
      children_of_notMem (site?_eq_none_iff.1 hsq)]
    rfl
  | some t =>
    rw [hsq, Option.map_some] at hsite
    rw [children_of_site? hsite, children_of_site? hsq]
    by_cases hq : q ∈ s.children.topIds
    · have hx := hd.notMem_children_of_mem_descendants
        (mem_descendants_of_mem_children (hown ▸ hq))
      rw [children_of_site? hsq] at hx
      rw [if_pos hq, putFor_of_notMem hx]
      rfl
    rw [if_neg hq, Site.map_children, hown]
    by_cases hx : x ∈ t.children.ids
    · have hsx := (hd.site?_of_mem_children hsq hx).symm.trans hs
      exact topIds_dissolve (hd.nodup_childrenIds hsq) hsx
    · rw [dissolve, rewrite_of_notMem hx,
        putFor_of_notMem fun hin => hx (mem_ids_of_mem_topIds hin)]

/-- Nodes that come without a parent leave all children where they are. -/
theorem Spares.children (hd : d.Distinct) (h : d.Spares d.allRows e) (hq : q ∈ d.ids) :
    e.children q = d.children q := by
  rw [children_eq_site?, children_eq_site?, h.apart.site?_eq hd.apart hq]

/-- All children are taken out of one node only. -/
theorem Distinct.children_clearChildren (hd : d.Distinct) (x q : NodeId) :
    (d.clearChildren x).children q = if q = x then [] else d.children q := by
  rw [clearChildren, hd.children_detachAll]
  split
  next heq =>
    subst heq
    exact List.filter_eq_nil_iff.2 fun y hy => by simp [hy]
  next hne =>
    refine List.filter_eq_self.2 fun y hy => decide_eq_true fun hin => ?_
    exact hne (hd.children_unique hy hin)

theorem mem_ids_clearChildren : q ∈ (d.clearChildren x).ids ↔ q ∈ d.ids := by
  rw [clearChildren, ids_eq_map_nodes, ((detachAll_perm d _).map Prod.fst).mem_iff,
    ← ids_eq_map_nodes]

/-- Making a node and moving it is putting it there at once. -/
theorem Distinct.move_create (hd : d.Distinct) (hx : x ∈ d.ids) (node : Node)
    (place : Forest → Forest → Option Forest) :
    (d.create node).2.move place x d.next =
      (d.change (place (single d.next node .nil))).map fun e => { e with next := d.next + 1 } := by
  have htaken : (d.create node).2.takeOut (·.extract? d.next) =
      some (single d.next node .nil, { d with next := d.next + 1 }) := by
    rw [Document.takeOut, Document.create, takeFrom, single, extract?, if_pos rfl]
    rfl
  have hne : x ≠ d.next := Nat.ne_of_lt (hd.numbered x hx)
  have hout : (single d.next node .nil).contains x = false := by
    rw [Bool.eq_false_iff]
    intro h
    exact hne (by simpa [single] using (contains_eq_true_iff x _).1 h)
  rw [move, htaken]
  simp only [hout, Bool.false_eq_true, if_false, Document.change]
  cases changeRow (place (single d.next node .nil)) d.rows with
  | some rows => rfl
  | none => cases changeRow (place (single d.next node .nil)) d.aside <;> rfl

/-- Giving a node a text is taking out its children, making the text and moving it there. -/
theorem Distinct.appendChild_setText (hd : d.Distinct) (hx : x ∈ d.ids) (content : String) :
    ((d.clearChildren x).createText content).2.appendChild x d.next = some (d.setText x content) ∧
      ((d.clearChildren x).createText content).2.Relocates (graftBelow x) x d.next
        (d.setText x content) := by
  have hnext : (d.clearChildren x).next = d.next := (detachAll_sameFrame d _).next
  have hleft : (d.clearChildren x).Distinct := hd.detachAll _
  have hmem : x ∈ (d.clearChildren x).ids := mem_ids_clearChildren.2 hx
  have happend := hleft.move_create hmem (.text content) (appendChild? x)
  change (Document.createText _ content).2.appendChild x _ = _ at happend
  rw [Document.setText]
  generalize d.clearChildren x = left at hnext hleft hmem happend ⊢
  rw [← hnext]
  rcases (hleft.create (.text content)).relocates_appendChild List.mem_cons_self
    (List.mem_cons_of_mem _ hmem) with ⟨hin, -⟩ | ⟨e, he, hmoved⟩
  · obtain ⟨s, hs, hbelow⟩ := mem_descendants_iff.1 hin
    have hsite : (left.create (.text content)).2.site? left.next =
        some ⟨.text content, .nil, .nil⟩ := by
      rw [(hleft.create (.text content)).site?_of_row List.mem_cons_self (by simp [single]), single,
        Forest.site?, if_pos rfl]
    rw [hsite] at hs
    cases hs
    exact absurd hbelow (not_or.2 ⟨Nat.ne_of_lt (hleft.numbered x hmem), List.not_mem_nil⟩)
  · have heq := he.symm.trans happend
    obtain ⟨new, hnew, rfl⟩ := Option.map_eq_some_iff.1 heq.symm
    simp only [hnew, Option.getD_some]
    exact ⟨he, hmoved⟩

theorem Distinct.next_notMem_children (hd : d.Distinct) (q : NodeId) : d.next ∉ d.children q :=
  fun hin => hd.next_notMem (mem_ids_of_mem_children hin).2

theorem Distinct.relocates_setText (hd : d.Distinct) (hx : x ∈ d.ids) (content : String) :
    ((d.clearChildren x).createText content).2.Relocates (graftBelow x) x d.next
      (d.setText x content) := (hd.appendChild_setText hx content).2

/-- A text that is put in the place of all children. -/
theorem Distinct.children_setText (hd : d.Distinct) (hx : x ∈ d.ids) (content : String)
    (hq : q ∈ d.ids) :
    (d.setText x content).children q = if q = x then [d.next] else d.children q := by
  have hleft : (d.clearChildren x).Distinct := hd.detachAll _
  have hmem : q ∈ (d.clearChildren x).ids := mem_ids_clearChildren.2 hq
  have hcreated := (hleft.apart.create (.text content)).children hleft hmem
  rw [(hd.relocates_setText hx content).children_appendChild (hleft.create _), hcreated,
    hd.children_clearChildren]
  split
  · rfl
  · exact filter_ne_of_notMem (hd.next_notMem_children q)

/-! ## Payloads -/

/-- Nodes that have the same parents in two documents. -/
theorem parent?_eq_of_children (hd : d.Distinct) (he : e.Distinct)
    (h : ∀ p, x ∈ e.children p ↔ x ∈ d.children p) : e.parent? x = d.parent? x :=
  Option.ext fun p => by rw [← hd.mem_children_iff_parent?, ← he.mem_children_iff_parent?, h]

theorem below_update (d : Document) (x : NodeId) (change : Node → Node) (y : NodeId) :
    (d.update x change).below y = (d.below y).update x change := by
  rw [below_eq_site?, below_eq_site?, d.site?_update x change]
  cases d.site? y <;> rfl

theorem children_update (d : Document) (x : NodeId) (change : Node → Node) (y : NodeId) :
    (d.update x change).children y = d.children y := by
  rw [Document.children, below_update]
  exact topIds_update x change _

theorem Distinct.parent?_update (hd : d.Distinct) (change : Node → Node) (y : NodeId) :
    (d.update x change).parent? y = d.parent? y :=
  parent?_eq_of_children hd (hd.update x change) fun p => by rw [children_update]

end Document

end MailMerge.Xml
