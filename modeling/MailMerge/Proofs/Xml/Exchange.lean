import MailMerge.Proofs.Xml.Holds
import MailMerge.Proofs.Xml.Place
import MailMerge.Proofs.Xml.Unwrap

/-!
# Rows in the place of nodes

The nodes of a tree stand in document order, and an edit changes this list at one place: nodes that are
taken out are left out of it (`Distinct.nodes_detachAll`), and a row that takes the place of a node stands
between the same nodes as the node did (`Holds.exchanged`). All other trees stay what they were.
-/

namespace MailMerge.Xml

/-- The characters of some nodes, in their order. -/
def characters (nodes : List (NodeId × Node)) : List Char :=
  nodes.flatMap fun entry => entry.2.characters.toList

@[simp] theorem characters_nil : characters [] = [] := rfl

@[simp] theorem characters_cons (entry : NodeId × Node) (nodes : List (NodeId × Node)) :
    characters (entry :: nodes) = entry.2.characters.toList ++ characters nodes := rfl

@[simp] theorem characters_append (nodes more : List (NodeId × Node)) :
    characters (nodes ++ more) = characters nodes ++ characters more := List.flatMap_append

theorem characters_eq_nil_iff {nodes : List (NodeId × Node)} :
    characters nodes = [] ↔ ∀ entry ∈ nodes, entry.2.characters = "" := by
  simp [characters]

/-- A list without repetition is cut in one way in front of a member. -/
theorem eq_of_nodup_append {α : Type} {a : α} {before after left right : List α}
    (hnodup : (before ++ a :: after).Nodup) (h : before ++ a :: after = left ++ a :: right) :
    before = left ∧ after = right := by
  obtain ⟨-, hlater, hdisj⟩ := List.nodup_append.1 hnodup
  have hbefore : a ∉ before := fun hin => hdisj a hin a List.mem_cons_self rfl
  obtain ⟨hleft, -, hright⟩ :=
    (List.append_cons_inj_of_notMem hbefore (List.nodup_cons.1 hlater).1).1 h
  exact ⟨hleft, hright⟩

namespace Forest

variable {x y r : NodeId} {f around : Forest} {s : Site}

/-- The characters of a row are those of its nodes in document order. -/
theorem toList_text (f : Forest) : f.text.toList = characters f.nodes := by
  induction f with
  | nil => rfl
  | cons id node children rest ihc ihr =>
    simp [Forest.text, Forest.nodes, ihc, ihr]

/-- Whatever stands below a node, the other nodes of the row are the same. -/
theorem exists_nodes_refill (haround : around.ids.Nodup) (hs : around.site? r = some s) :
    ∃ before after, ∀ f,
      (around.refill r f).nodes = before ++ (r, s.node) :: (f.nodes ++ after) := by
  induction around with
  | nil => cases hs
  | cons id node children rest ihc ihr =>
    obtain ⟨-, -, hchildren, hrest, hdisj⟩ := nodup_cons_iff.1 haround
    rw [site?] at hs
    split at hs
    next heq =>
      subst heq
      cases hs
      exact ⟨[], rest.nodes, fun f => by rw [refill, rewrite_cons_self]; rfl⟩
    next hne =>
      rcases Option.or_eq_some_iff.1 hs with hs | ⟨-, hs⟩
      · have hr := mem_ids_of_site? hs
        obtain ⟨before, after, hnodes⟩ := ihc hchildren hs
        refine ⟨(id, node) :: before, after ++ rest.nodes, fun f => ?_⟩
        rw [refill_cons_of_ne _ _ _ hne, refill_of_notMem (hdisj r hr), Forest.nodes, hnodes f]
        simp
      · have hr : r ∉ children.ids := fun hin => hdisj r hin (mem_ids_of_site? hs)
        obtain ⟨before, after, hnodes⟩ := ihr hrest hs
        refine ⟨(id, node) :: (children.nodes ++ before), after, fun f => ?_⟩
        rw [refill_cons_of_ne _ _ _ hne, refill_of_notMem hr, Forest.nodes, hnodes f]
        simp

/-- What is filled in below a node stands between the nodes that come before and after its tree. -/
theorem nodes_refill (haround : around.ids.Nodup) (hs : around.site? r = some s)
    {before after : List (NodeId × Node)} (hnodes : around.nodes = before ++ ((s.tree r).nodes ++ after))
    (f : Forest) : (around.refill r f).nodes = before ++ (r, s.node) :: (f.nodes ++ after) := by
  obtain ⟨before', after', hrefill⟩ := exists_nodes_refill haround hs
  have hself := hrefill s.children
  have htree : (s.tree r).nodes = (r, s.node) :: s.children.nodes := by
    simp [Site.tree, single, Forest.nodes]
  rw [refill_self hs haround, hnodes, htree, List.cons_append] at hself
  rw [htree, List.cons_append] at hnodes
  obtain ⟨rfl, hafter⟩ := eq_of_nodup_append (hnodes ▸ haround.of_map) hself
  rw [hrefill, List.append_cancel_left hafter]

theorem filter_nodes_eq_self {xs : List NodeId} (h : ∀ y ∈ f.ids, y ∉ xs) :
    (f.nodes.filter fun entry => entry.1 ∉ xs) = f.nodes := by
  rw [List.filter_eq_self]
  intro entry hentry
  simpa using h entry.1 (List.mem_map_of_mem hentry)

theorem filter_nodes_eq_nil {xs : List NodeId} (h : ∀ y ∈ f.ids, y ∈ xs) :
    (f.nodes.filter fun entry => entry.1 ∉ xs) = [] := by
  rw [List.filter_eq_nil_iff]
  intro entry hentry
  simpa using h entry.1 (List.mem_map_of_mem hentry)

/-- A row without a node has all nodes but this one and those below it. -/
theorem nodes_without (hf : f.ids.Nodup) (hs : f.site? x = some s) :
    (f.without x).nodes = f.nodes.filter fun entry => entry.1 ∉ x :: s.children.ids := by
  induction f with
  | nil => cases hs
  | cons id node children rest ihc ihr =>
    obtain ⟨hidc, hidr, hchildren, hrest, hdisj⟩ := nodup_cons_iff.1 hf
    rw [site?] at hs
    rw [without, rewrite, Forest.nodes, List.filter_cons, List.filter_append]
    split at hs
    next heq =>
      -- the node itself goes with all of its children, and the rest stays
      subst heq
      cases hs
      have hgone : (children.nodes.filter fun entry => entry.1 ∉ id :: children.ids) = [] :=
        filter_nodes_eq_nil fun y hy => List.mem_cons_of_mem _ hy
      have hkept : (rest.nodes.filter fun entry => entry.1 ∉ id :: children.ids) = rest.nodes := by
        apply filter_nodes_eq_self
        intro y hy hin
        rcases List.mem_cons.1 hin with rfl | hin
        · exact hidr hy
        · exact hdisj y hin hy
      rw [if_pos rfl, hgone, hkept, if_neg (by simp)]
      rfl
    next hne =>
      rw [if_neg hne]
      rcases Option.or_eq_some_iff.1 hs with hs | ⟨-, hs⟩
      · have hbelow : x :: s.children.ids ⊆ children.ids :=
          List.cons_subset.2 ⟨mem_ids_of_site? hs, fun y hy => mem_of_mem_children hs hy⟩
        have hkept : (rest.nodes.filter fun entry => entry.1 ∉ x :: s.children.ids) = rest.nodes :=
          filter_nodes_eq_self fun y hy hin => hdisj y (hbelow hin) hy
        have hself : id ∉ x :: s.children.ids := fun hin => hidc (hbelow hin)
        rw [rewrite_of_notMem (hdisj x (mem_ids_of_site? hs)), hkept, if_pos (by simpa using hself)]
        exact congrArg (fun inner => (id, node) :: (inner ++ rest.nodes)) (ihc hchildren hs)
      · have hlater : x :: s.children.ids ⊆ rest.ids :=
          List.cons_subset.2 ⟨mem_ids_of_site? hs, fun y hy => mem_of_mem_children hs hy⟩
        have hkept : (children.nodes.filter fun entry => entry.1 ∉ x :: s.children.ids) =
            children.nodes := filter_nodes_eq_self fun y hy hin => hdisj y hy (hlater hin)
        have hself : id ∉ x :: s.children.ids := fun hin => hidr (hlater hin)
        have hout : x ∉ children.ids := fun hin => hdisj x hin (mem_ids_of_site? hs)
        rw [rewrite_of_notMem hout, hkept, if_pos (by simpa using hself)]
        exact congrArg (fun more => (id, node) :: (children.nodes ++ more)) (ihr hrest hs)

/-- When a node without characters gives way to those below it, the text of its row is the same. -/
theorem text_dissolve (hf : f.ids.Nodup) (hs : f.site? x = some s) (hnone : s.node.characters = "") :
    (f.dissolve x).text = f.text := by
  induction f with
  | nil => cases hs
  | cons id node children rest ihc ihr =>
    obtain ⟨-, -, hchildren, hrest, hdisj⟩ := nodup_cons_iff.1 hf
    rw [site?] at hs
    rw [dissolve, rewrite]
    split at hs
    next heq =>
      cases hs
      rw [if_pos heq, text_append, Forest.text, hnone, String.empty_append]
    next hne =>
      rw [if_neg hne, Forest.text, Forest.text]
      rcases Option.or_eq_some_iff.1 hs with hs | ⟨-, hs⟩
      · rw [rewrite_of_notMem (hdisj x (mem_ids_of_site? hs))]
        exact congrArg (fun inner => node.characters ++ (inner ++ rest.text)) (ihc hchildren hs)
      · rw [rewrite_of_notMem fun hin => hdisj x hin (mem_ids_of_site? hs)]
        exact congrArg (fun more => node.characters ++ (children.text ++ more)) (ihr hrest hs)

/-- A node in a row that is none of the siblings stands right below another one. -/
theorem exists_parent_of_mem_ids (hf : f.ids.Nodup) (hx : x ∈ f.ids) (hout : x ∉ f.topIds) :
    ∃ r s, f.site? r = some s ∧ x ∈ s.children.topIds := by
  obtain ⟨above, habove⟩ := exists_ancestors? hx
  cases above with
  | nil => exact absurd (mem_topIds_of_ancestors? habove) hout
  | cons entry above =>
    obtain ⟨s, hs, hin⟩ := exists_site?_of_ancestors?_cons hf habove
    exact ⟨_, s, hs, hin⟩

/-- Exchanging what stands below a node exchanges it in the trees of all nodes that do not stand below
it. -/
theorem exists_site?_refill (haround : around.ids.Nodup) (hs : around.site? r = some s)
    (hy : y ∈ around.ids) (hne : y ≠ r) (hout : y ∉ s.children.ids) (hnew : y ∉ f.ids) :
    ∃ t t', around.site? y = some t ∧ (around.refill r f).site? y = some t' ∧ t'.node = t.node ∧
      t'.children = t.children.refill r f := by
  obtain ⟨t, ht⟩ := exists_site? hy
  have hsite : (around.refill r f).site? y =
      if y ∈ around.ids ∧ y ∉ s.children.ids ∧ y ∉ s.rest.ids then
        (around.site? y).map (Site.map (rewrite r fun s => cons r s.node f s.rest))
      else (cons r s.node f s.rest).site? y :=
    site?_rewrite haround hs hne fun _ _ hrest => by simp [hne, hnew, hrest]
  by_cases hrest : y ∈ s.rest.ids
  · have hself : (cons r s.node f s.rest).site? y = s.rest.site? y := by
      rw [site?, if_neg (Ne.symm hne), site?_eq_none_iff.2 hnew, Option.none_or]
    have hinner := site?_of_mem_rest haround hs hrest
    rw [if_neg fun h => h.2.2 hrest, hself, ← hinner, ht] at hsite
    have hr : r ∉ t.children.ids := by
      intro hin
      rw [ht] at hinner
      exact notMem_rest_self haround hs (mem_of_mem_children hinner.symm hin)
    exact ⟨t, t, ht, hsite, rfl, (refill_of_notMem hr).symm⟩
  · rw [if_pos ⟨hy, hout, hrest⟩, ht, Option.map_some] at hsite
    exact ⟨t, _, ht, hsite, Site.map_node .., Site.map_children ..⟩

/-- Exchanging what stands below a node leaves the trees that neither hold the node nor stand below it. -/
theorem tree_refill (haround : around.ids.Nodup) (hs : around.site? r = some s) (hy : y ∈ around.ids)
    (hne : y ≠ r) (hout : y ∉ s.children.ids) (hnew : y ∉ f.ids)
    (habove : ∀ t, around.site? y = some t → r ∉ t.children.ids) :
    ∃ t t', around.site? y = some t ∧ (around.refill r f).site? y = some t' ∧ t'.tree y = t.tree y := by
  obtain ⟨t, t', ht, ht', hnode, hchildren⟩ := exists_site?_refill haround hs hy hne hout hnew
  refine ⟨t, t', ht, ht', ?_⟩
  rw [Site.tree, Site.tree, hnode, hchildren, refill_of_notMem (habove t ht)]

end Forest

namespace Document

open Forest

variable {d e : Document} {x y z r t root : NodeId} {look shown f row : Forest} {node : Node}
variable {rest more : List Forest} {s : Site}

theorem nodes_tree (hs : d.site? x = some s) : (d.tree x).nodes = (x, s.node) :: s.children.nodes := by
  rw [tree_of_site? hs]
  simp [single, Forest.nodes]

theorem descendants_of_nodes {before after : List (NodeId × Node)} {g : Forest}
    (h : (d.tree x).nodes = before ++ (g.nodes ++ after)) :
    d.descendants x = before.map Prod.fst ++ (g.ids ++ after.map Prod.fst) := by
  rw [descendants, Forest.ids, h, List.map_append, List.map_append]
  rfl

/-! ## Taking nodes out of a tree -/

/-- A tree loses the nodes at and below the one that is taken out. -/
theorem Distinct.nodes_detach (hd : d.Distinct) (hout : y ∉ d.descendants x) :
    ((d.detach x).tree y).nodes =
      (d.tree y).nodes.filter fun entry => entry.1 ∉ d.descendants x := by
  have hsite := hd.site?_detach x y
  cases hs : d.site? y with
  | none =>
    rw [hs] at hsite
    rw [tree_eq_site?, tree_eq_site?, hs, hsite]
    rfl
  | some s =>
    have hne : y ≠ x := by
      rintro rfl
      exact hout (mem_descendants_self (mem_ids_of_site? hs))
    rw [hs, Option.map_some, if_neg hne] at hsite
    rw [tree_of_site? hsite, tree_of_site? hs]
    by_cases hx : x ∈ s.children.ids
    · obtain ⟨t, ht⟩ := Forest.exists_site? hx
      have hbelow : d.descendants x = x :: t.children.ids := by
        rw [descendants_eq_site?, hd.site?_of_mem_children hs hx, ht]
        rfl
      have hinner := nodes_without (hd.nodup_childrenIds hs) ht
      rw [← hbelow] at hinner
      simp [single, Forest.nodes, hinner, hout]
    · have hdisj : ∀ z ∈ (single y s.node s.children).ids, z ∉ d.descendants x := by
        intro z hz hin
        have hzy : z ∈ d.descendants y := ids_tree_of_site? hs ▸ hz
        rcases hd.mem_descendants_total hin hzy with hxy | hyx
        · obtain ⟨s', hs', rfl | hxs⟩ := mem_descendants_iff.1 hxy
          · exact hne rfl
          · cases hs.symm.trans hs'
            exact hx hxs
        · exact hout hyx
      have hsame : s.children.without x = s.children := rewrite_of_notMem hx
      rw [Site.map_children, Site.map_node, hsame, filter_nodes_eq_self hdisj]

/-- A tree without the nodes that are taken out, where none of these is above it. -/
theorem Distinct.nodes_detachAll (hd : d.Distinct) {xs : List NodeId}
    (hout : ∀ x ∈ xs, y ∉ d.descendants x) :
    ((d.detachAll xs).tree y).nodes =
      (d.tree y).nodes.filter fun entry => ∀ x ∈ xs, entry.1 ∉ d.descendants x := by
  induction xs generalizing d with
  | nil => exact (List.filter_eq_self.2 fun _ _ => by simp).symm
  | cons x xs ih =>
    have hsame : ∀ z, z ∉ d.descendants x → ∀ a, z ∈ (d.detach x).descendants a ↔ z ∈ d.descendants a := by
      intro z hz a
      rw [hd.mem_descendants_detach]
      exact and_iff_left fun _ _ => hz
    have hfirst := hout x List.mem_cons_self
    have hlater : ∀ a ∈ xs, y ∉ (d.detach x).descendants a := by
      intro a ha
      rw [hsame y hfirst]
      exact hout a (List.mem_cons_of_mem _ ha)
    change (((d.detach x).detachAll xs).tree y).nodes = _
    rw [ih (hd.detach x) hlater, hd.nodes_detach hfirst, List.filter_filter]
    refine List.filter_congr fun entry _ => ?_
    rw [Bool.eq_iff_iff, Bool.and_eq_true, decide_eq_true_eq, decide_eq_true_eq, decide_eq_true_eq,
      List.forall_mem_cons, and_comm]
    exact and_congr_right fun hz => forall₂_congr fun a _ => not_congr (hsame entry.1 hz a)

theorem Distinct.mem_detachAll (hd : d.Distinct) {xs : List NodeId}
    (hout : ∀ x ∈ xs, z ∉ d.descendants x) :
    y ∈ (d.detachAll xs).descendants z ↔ y ∈ d.descendants z ∧ ∀ x ∈ xs, y ∉ d.descendants x := by
  have hids : (d.detachAll xs).descendants z =
      (d.descendants z).filter fun y => ∀ x ∈ xs, y ∉ d.descendants x := by
    rw [descendants, Forest.ids, hd.nodes_detachAll hout, descendants, Forest.ids, List.filter_map]
    rfl
  rw [hids, List.mem_filter, decide_eq_true_eq]

/-- A tree stays as it is when nothing in it is taken out. -/
theorem Distinct.tree_detachAll (hd : d.Distinct) {xs : List NodeId} (hy : y ∈ d.ids)
    (hout : ∀ x ∈ xs, x ∉ d.descendants y) : (d.detachAll xs).tree y = d.tree y := by
  induction xs generalizing d with
  | nil => rfl
  | cons x xs ih =>
    obtain ⟨s, hs⟩ := exists_site? hy
    have hfirst := hout x List.mem_cons_self
    have hsame : (d.detach x).tree y = d.tree y := by
      have hx : x ∉ s.children.ids := fun hin => hfirst (mem_descendants_iff.2 ⟨s, hs, .inr hin⟩)
      have hne : y ≠ x := by
        rintro rfl
        exact hfirst (mem_descendants_self hy)
      have hsite := hd.site?_detach x y
      have hunchanged : s.children.without x = s.children := rewrite_of_notMem hx
      rw [hs, Option.map_some, if_neg hne] at hsite
      rw [tree_of_site? hsite, tree_of_site? hs, Site.map_children, Site.map_node, hunchanged]
    have hdescendants : (d.detach x).descendants y = d.descendants y := congrArg Forest.ids hsame
    have hy' : y ∈ (d.detach x).ids :=
      mem_ids_of_mem_descendants (x := y) (hdescendants ▸ mem_descendants_self hy)
    change ((d.detach x).detachAll xs).tree y = _
    rw [ih (hd.detach x) hy' fun a ha => hdescendants ▸ hout a (List.mem_cons_of_mem _ ha), hsame]

namespace Apex

/-- What stands below a node that stands alone has a parent there. -/
theorem exists_parent (h : d.Apex root rest) (hx : x ∈ d.descendants root) (hne : x ≠ root) :
    ∃ r s, (d.tree root).site? r = some s ∧ x ∈ s.children.topIds := by
  obtain ⟨node, children, -, hs⟩ := h.site?
  have hout : x ∉ (d.tree root).topIds := by
    rw [tree_of_site? hs]
    simpa [single] using hne
  exact exists_parent_of_mem_ids (h.distinct.shows_tree root).nodup hx hout

/-- A node that stands alone has no parent. -/
theorem parent?_self (h : d.Apex root rest) : d.parent? root = none := by
  cases hparent : d.parent? root with
  | none => rfl
  | some p =>
    have hchild := h.distinct.mem_children_of_parent? hparent
    have hin := mem_descendants_of_mem_children hchild
    have hp := h.mem_of_mem_descendants (mem_descendants_self h.mem_ids) hin
    cases h.distinct.mem_descendants_antisymm hin hp
    exact absurd hchild h.distinct.notMem_children_self

theorem notMem_following (h : d.Apex root rest) (hy : y ∈ d.descendants root) :
    root ∉ (d.following y).ids := by
  intro hin
  have hlt := (h.past_of_mem_following hy hin).place_lt (mem_ids_of_mem_descendants hy)
  exact absurd hlt (Nat.not_lt.2 (h.distinct.place_le (mem_descendants_self h.mem_ids) hy))

/-- The text of a tree is the same when a node without characters in it gives way to those below it. -/
theorem text_unwrap (h : d.Apex root rest) (hx : x ∈ d.descendants root)
    (hnode : d.node? x = some node) (hnone : node.characters = "") :
    (d.unwrap x).text root = d.text root := by
  obtain ⟨s, hs⟩ := Document.exists_site? (mem_ids_of_mem_descendants hx)
  rw [node?_eq_site?, hs] at hnode
  cases hnode
  obtain ⟨node, children, -, hroot⟩ := h.site?
  have htext : d.text root = (single root node children).text := by rw [text, tree_of_site? hroot]
  by_cases hne : x = root
  · -- there is nothing that the root could give way to
    subst hne
    have hdetach := h.distinct.site?_detach x x
    rw [hroot, Option.map_some, if_pos rfl] at hdetach
    rw [unwrap, h.parent?_self, htext, text, tree_of_site? hdetach]
  · obtain ⟨r, t, ht, hchild⟩ := h.exists_parent hx hne
    have hchildren : x ∈ d.children r := by
      refine mem_children_iff.2 ⟨t, ?_, hchild⟩
      rw [h.distinct.site?_of_row h.tree_mem (Forest.mem_ids_of_site? ht), ht]
    have hout : root ∉ s.children.topIds := by
      intro hin
      have hroot : root ∈ d.descendants x :=
        mem_descendants_of_mem_children (mem_children_iff.2 ⟨s, hs, hin⟩)
      exact hne (h.distinct.mem_descendants_antisymm hx hroot)
    have hunwrap := h.distinct.site?_unwrap (h.distinct.parent?_isSome hchildren) hs (Ne.symm hne)
    rw [hroot, Option.map_some, if_neg hout] at hunwrap
    have hinner : x ∈ children.ids := by
      obtain ⟨s', hs', rfl | hin⟩ := mem_descendants_iff.1 hx
      · exact absurd rfl hne
      · cases hroot.symm.trans hs'
        exact hin
    have hsite : children.site? x = some s := by
      rw [← h.distinct.site?_of_mem_children hroot hinner, hs]
    have hsame := text_dissolve (h.distinct.nodup_childrenIds hroot) hsite hnone
    rw [htext, text, tree_of_site? hunwrap, Site.map_node, Site.map_children, single, single,
      Forest.text, Forest.text, hsame]
    rfl

/-- What stands below a node could be filled in there. -/
theorem holds_below (h : d.Apex root rest) (hx : x ∈ d.descendants root) :
    d.Holds (d.tree root) x (d.below x) rest ∧
      (d.tree root).refill x (d.below x) = d.tree root := by
  obtain ⟨s, hs⟩ := Forest.exists_site? hx
  have hbelow : d.below x = s.children := by
    rw [below_eq_site?, h.distinct.site?_of_row h.tree_mem hx, hs]
    rfl
  have hself := refill_self hs (h.distinct.shows_tree root).nodup
  obtain ⟨n, children, hrows, hroot⟩ := h.site?
  rw [hbelow]
  refine ⟨⟨h.distinct, hx, ?_⟩, hself⟩
  rw [hself, tree_of_site? hroot]
  exact hrows

/-- A node below one that stands alone stands in the row of the children of another one. -/
theorem exists_holds (h : d.Apex root rest) (ht : t ∈ d.descendants root) (hne : t ≠ root) :
    ∃ r look node shown f, d.Holds (d.tree root) r (look ++ cons t node shown f) rest ∧
      (d.tree root).refill r (look ++ cons t node shown f) = d.tree root := by
  obtain ⟨r, s, hs, hchild⟩ := h.exists_parent ht hne
  have hbelow : d.below r = s.children := by
    rw [below_eq_site?, h.distinct.site?_of_row h.tree_mem (Forest.mem_ids_of_site? hs), hs]
    rfl
  obtain ⟨look, node, shown, f, hchildren⟩ := exists_eq_append_of_mem_topIds hchild
  have hholds := h.holds_below (Forest.mem_ids_of_site? hs)
  rw [hbelow, hchildren] at hholds
  exact ⟨r, look, node, shown, f, hholds⟩

end Apex

/-! ## Rows in the place of nodes -/

/-- A row stands in the place of a node of a tree. The trees that neither hold the node nor stand in it
are the same. -/
structure Exchanged (d : Document) (root t : NodeId) (row : Forest) (e : Document) : Prop where
  distinct : e.Distinct
  apex : ∃ rest, e.Apex root rest
  nodes : ∃ before after, (d.tree root).nodes = before ++ ((d.tree t).nodes ++ after) ∧
    (e.tree root).nodes = before ++ (row.nodes ++ after)
  new : ∀ y ∈ row.ids, y ∉ d.descendants root
  tree : ∀ y ∈ d.descendants root, t ∉ d.descendants y → y ∉ d.descendants t → e.tree y = d.tree y

/-- What is filled in below a node of the tree of a root leaves the root in its place. -/
theorem Holds.apex_tree (h : e.Holds (d.tree root) r f more) (ha : d.Apex root rest) :
    e.Apex root more ∧ e.tree root = (d.tree root).refill r f := by
  obtain ⟨n, children, -, hroot⟩ := ha.site?
  obtain ⟨inner, hrow⟩ : ∃ inner, (d.tree root).refill r f = single root n inner := by
    rw [tree_of_site? hroot]
    by_cases hr : root = r
    · subst hr
      exact ⟨f, refill_single ..⟩
    · exact ⟨children.refill r f, by rw [single, refill_cons_of_ne _ _ _ hr]; rfl⟩
  have hrows := h.rows
  rw [hrow] at hrows ⊢
  have hmem : single root n inner ∈ e.allRows := hrows.mem_iff.2 List.mem_cons_self
  exact ⟨⟨h.distinct, n, inner, hrows⟩, h.distinct.tree_of_row hmem⟩

section Exchange

variable (h : d.Holds (d.tree root) r (look ++ cons t node shown f) rest)
variable (hself : (d.tree root).refill r (look ++ cons t node shown f) = d.tree root)
variable (h' : e.Holds (d.tree root) r (look ++ (row ++ f)) (single t node shown :: more))
variable (ha : d.Apex root rest)
include h hself h' ha

theorem Holds.nodes_of_exchange : ∃ before after,
    (d.tree root).nodes = before ++ ((d.tree t).nodes ++ after) ∧
      (e.tree root).nodes = before ++ (row.nodes ++ after) := by
  obtain ⟨s, hs⟩ := Forest.exists_site? h.mem
  obtain ⟨before, after, hcut⟩ := exists_nodes_refill (ha.distinct.shows_tree root).nodup hs
  refine ⟨before ++ (r, s.node) :: look.nodes, f.nodes ++ after, ?_, ?_⟩
  · rw [← hself, hcut, h.shows.right.tree_eq]
    simp [single, Forest.nodes]
  · rw [(h'.apex_tree ha).2, hcut]
    simp

/-- The nodes of the row, those around it and those that gave way to it are all in one document. -/
theorem Holds.new_of_exchange (hy : y ∈ row.ids) : y ∉ d.descendants root := by
  obtain ⟨before, after, hnodes, hnodes'⟩ := h.nodes_of_exchange hself h' ha
  rw [h.shows.right.tree_eq] at hnodes
  have hall := (h'.rows.flatMap_right Forest.ids).nodup_iff.1 h'.distinct.nodup
  rw [List.flatMap_cons, ← (h'.apex_tree ha).2, ← descendants, descendants_of_nodes hnodes',
    List.flatMap_cons] at hall
  obtain ⟨hrow, -, hgone⟩ := List.nodup_append.1 hall
  obtain ⟨-, hright, hleft⟩ := List.nodup_append.1 hrow
  intro hin
  rw [descendants_of_nodes hnodes, List.mem_append, List.mem_append] at hin
  rcases hin with hin | hin | hin
  · exact hleft y hin y (List.mem_append_left _ hy) rfl
  · have hy' : y ∈ before.map Prod.fst ++ (row.ids ++ after.map Prod.fst) :=
      List.mem_append_right _ (List.mem_append_left _ hy)
    exact hgone y hy' y (List.mem_append_left _ hin) rfl
  · exact (List.nodup_append.1 hright).2.2 y hy y hin rfl

theorem Holds.tree_of_exchange (hy : y ∈ d.descendants root) (hyt : t ∉ d.descendants y)
    (hty : y ∉ d.descendants t) : e.tree y = d.tree y := by
  have hchild : t ∈ d.descendants r := by
    refine mem_descendants_of_mem_children ?_
    rw [h.children_eq]
    simp
  by_cases hyf : y ∈ (look ++ cons t node shown f).ids
  · -- siblings of the node, and what stands below them
    rw [ids_append, List.mem_append, ids_cons, ← List.cons_append, List.mem_append] at hyf
    rcases hyf with hyl | hyt' | hyk
    · obtain ⟨s, hs⟩ := Forest.exists_site? hyl
      rw [h.shows.left.tree_eq_site hs, h'.shows.left.tree_eq_site hs]
    · refine absurd ?_ hty
      rw [descendants, h.shows.right.tree_eq]
      simpa [single] using hyt'
    · obtain ⟨s, hs⟩ := Forest.exists_site? hyk
      rw [h.shows.right.later.tree_eq_site hs, h'.shows.right.right.tree_eq_site hs]
  · obtain ⟨s, hs⟩ := Forest.exists_site? h.mem
    have hbelow : s.children = look ++ cons t node shown f := by
      have hrefilled := site?_refill_self (f := look ++ cons t node shown f) hs
      rw [hself, hs] at hrefilled
      exact congrArg Site.children (Option.some.inj hrefilled)
    have hout : y ∉ (look ++ (row ++ f)).ids := by
      intro hin
      rw [ids_append, ids_append, List.mem_append, List.mem_append] at hin
      rw [ids_append, List.mem_append, ids_cons] at hyf
      rcases hin with hin | hin | hin
      · exact hyf (.inl hin)
      · exact h.new_of_exchange hself h' ha hin hy
      · exact hyf (.inr (List.mem_cons_of_mem _ (List.mem_append_right _ hin)))
    have hne : y ≠ r := fun heq => hyt (heq ▸ hchild)
    have habove : ∀ u, (d.tree root).site? y = some u → r ∉ u.children.ids := by
      intro u hu hin
      have hsite : d.site? y = some u := by
        rw [ha.distinct.site?_of_row ha.tree_mem hy, hu]
      exact hyt (ha.distinct.mem_descendants_trans hchild (mem_descendants_iff.2 ⟨u, hsite, .inr hin⟩))
    obtain ⟨u, u', hu, hu', hsame⟩ := tree_refill (ha.distinct.shows_tree root).nodup hs hy hne
      (hbelow ▸ hyf) hout habove
    rw [← (h'.apex_tree ha).2] at hu'
    rw [(h'.distinct.shows_tree root).tree_eq_site hu',
      (ha.distinct.shows_tree root).tree_eq_site hu, hsame]

/-- A row that stands where a node has stood in a tree stands in the place of this node. -/
theorem Holds.exchanged : d.Exchanged root t row e where
  distinct := h'.distinct
  apex := ⟨_, (h'.apex_tree ha).1⟩
  nodes := h.nodes_of_exchange hself h' ha
  new := fun _ hy => h.new_of_exchange hself h' ha hy
  tree := fun _ hy hyt hty => h.tree_of_exchange hself h' ha hy hyt hty

end Exchange

namespace Exchanged

/-- There is only one place in a tree where a node stands. -/
theorem nodes_eq (h : d.Exchanged root t row e) (hd : d.Distinct) (ht : t ∈ d.ids)
    {before after : List (NodeId × Node)}
    (hnodes : (d.tree root).nodes = before ++ ((d.tree t).nodes ++ after)) :
    (e.tree root).nodes = before ++ (row.nodes ++ after) := by
  obtain ⟨before', after', hsplit, hnodes'⟩ := h.nodes
  obtain ⟨s, hs⟩ := Document.exists_site? ht
  have htree := nodes_tree hs
  have hnodup := (hd.shows_tree root).nodup.of_map
  rw [htree, List.cons_append] at hsplit hnodes
  obtain ⟨rfl, hafter⟩ := eq_of_nodup_append (hnodes ▸ hnodup) (hnodes.symm.trans hsplit)
  rw [hnodes', List.append_cancel_left hafter]

/-- Of the nodes in a tree only those at and below the one that gave way have left it. -/
theorem mem_descendants (h : d.Exchanged root t row e) (hd : d.Distinct) (hy : y ∈ d.descendants root) :
    y ∈ e.descendants root ↔ y ∉ d.descendants t := by
  obtain ⟨before, after, hnodes, hnodes'⟩ := h.nodes
  have hids := descendants_of_nodes hnodes
  have hnodup := hd.nodup_descendants root
  rw [hids] at hnodup hy
  obtain ⟨-, hright, hleft⟩ := List.nodup_append.1 hnodup
  have hnew : y ∉ row.ids := fun hin => h.new y hin (hids ▸ hy)
  rw [List.mem_append, List.mem_append] at hy
  rw [descendants_of_nodes hnodes', List.mem_append, List.mem_append]
  constructor
  · rintro (hin | hin | hin) hgone
    · exact hleft y hin y (List.mem_append_left _ hgone) rfl
    · exact hnew hin
    · exact (List.nodup_append.1 hright).2.2 y hgone y hin rfl
  · intro hgone
    exact hy.imp_right fun h => .inr (h.resolve_left hgone)

end Exchanged

/-! ## What is gone -/

/-- Of the nodes of a document exactly those at and below the given ones are gone. The trees that stand
apart from these are the same. -/
structure Lacks (d : Document) (gone : List NodeId) (e : Document) : Prop where
  attached : ∀ y ∈ d.descendants d.root, (e.isAttached y = true ↔ ∀ x ∈ gone, y ∉ d.descendants x)
  tree : ∀ y ∈ d.descendants d.root, (∀ x ∈ gone, x ∉ d.descendants y ∧ y ∉ d.descendants x) →
    e.tree y = d.tree y

theorem WellFormed.detachAll_lacks (hd : d.WellFormed) {xs : List NodeId}
    (hout : ∀ x ∈ xs, d.root ∉ d.descendants x) : d.Lacks xs (d.detachAll xs) where
  attached := by
    intro y hy
    rw [(hd.detachAll xs).isAttached_iff, (detachAll_sameFrame d xs).root, hd.mem_detachAll hout]
    exact and_iff_right hy
  tree := by
    intro y hy hapart
    exact hd.tree_detachAll (mem_ids_of_mem_descendants hy) fun x hx => (hapart x hx).1

/-- When a row has taken the place of a node, and then other nodes are taken out that stand apart from it,
these nodes are gone. -/
theorem Exchanged.detachAll_lacks (h : d.Exchanged d.root t row e) (hd : d.Distinct)
    (hroot : e.root = d.root) {xs : List NodeId}
    (hxs : ∀ x ∈ xs, x ∈ d.descendants d.root) (hout : ∀ x ∈ xs, d.root ∉ d.descendants x)
    (hapart : ∀ x ∈ xs, t ∉ d.descendants x ∧ x ∉ d.descendants t) :
    d.Lacks (t :: xs) (e.detachAll xs) where
  attached := by
    intro y hy
    have hsame : ∀ x ∈ xs, e.descendants x = d.descendants x := fun x hx =>
      congrArg Forest.ids (h.tree x (hxs x hx) (hapart x hx).1 (hapart x hx).2)
    obtain ⟨rest, hapex⟩ := h.apex
    have hwell : e.WellFormed := ⟨h.distinct, hroot ▸ hapex.mem_ids⟩
    have hout' : ∀ x ∈ xs, d.root ∉ e.descendants x := fun x hx => hsame x hx ▸ hout x hx
    rw [(hwell.detachAll xs).isAttached_iff, (detachAll_sameFrame e xs).root, hroot,
      h.distinct.mem_detachAll hout', h.mem_descendants hd hy, List.forall_mem_cons]
    exact and_congr_right fun _ => forall₂_congr fun x hx => by rw [hsame x hx]
  tree := by
    intro y hy hout
    obtain ⟨hself, hothers⟩ := List.forall_mem_cons.1 hout
    have hsame := h.tree y hy hself.1 hself.2
    have hy' : y ∈ e.ids := mem_ids_of_mem_descendants ((h.mem_descendants hd hy).2 hself.2)
    rw [h.distinct.tree_detachAll hy' fun x hx => ?_, hsame]
    rw [descendants, hsame]
    exact (hothers x hx).1

end Document

end MailMerge.Xml
