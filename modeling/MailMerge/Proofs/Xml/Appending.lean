import MailMerge.Proofs.Xml.Exchange
import MailMerge.Proofs.Xml.Parse

/-!
# Rows added below a node

A row that comes to the end of the children of a node is found there in every tree that holds the
node, and no other tree changes (`Document.Holds.tree_append`). The written form of such a tree gets
longer (`Forest.length_markup_refill_lt`).
-/

namespace MailMerge.Xml

/-! ## Trees -/

namespace Document

open Forest
variable {d e : Document} {x z : NodeId} {row f g : Forest} {rest : List Forest}

theorem notMem_of_mem_below (hd : d.Distinct) (hz : z ∈ (d.below x).ids) : x ∉ d.descendants z := by
  intro hin
  have hzx : z ∈ d.descendants x := mem_descendants_of_mem_below hz
  have heq : x = z := hd.mem_descendants_antisymm hin hzx
  subst heq
  exact hd.notMem_below_self x hz

theorem Holds.free_self (h : d.Holds row x f rest) (hself : row.refill x f = row) :
    d.Free rest x := by
  have hperm := h.rows.flatMap_right Forest.ids
  rw [hself, List.flatMap_cons] at hperm
  refine ⟨hperm.mem_iff.2 (List.mem_append_left _ h.mem), fun hin => ?_⟩
  exact (List.nodup_append.1 (hperm.nodup_iff.1 h.distinct.nodup)).2.2 x h.mem x hin rfl

/-- What comes below a node is new to the rest of its row. -/
theorem Holds.notMem_of_outer (h : d.Holds row x f rest) (hself : row.refill x f = row)
    (h' : e.Holds row x g rest) (hz : z ∈ row.ids) (hne : z ≠ x) (hf : z ∉ f.ids) : z ∉ g.ids := by
  obtain ⟨s, hs⟩ := Forest.exists_site? h.mem
  obtain ⟨before, after, hnodes⟩ :=
    exists_nodes_refill (h.distinct.nodup_row (hself ▸ h.row_mem)) hs
  have hids : ∀ f, (row.refill x f).ids =
      before.map Prod.fst ++ x :: (f.ids ++ after.map Prod.fst) := fun f => by
    simp [Forest.ids, hnodes f]
  have hnodup := h'.nodup_row
  rw [hids g] at hnodup
  rw [← hself, hids f] at hz
  grind

/-- A row that comes to the end of the children of a node is added there in all trees. -/
theorem Holds.tree_append (h : d.Holds row x f rest) (hself : row.refill x f = row)
    (h' : e.Holds row x (f ++ g) rest) (hz : z ∈ d.ids) :
    e.tree z = (d.tree z).refill x (f ++ g) := by
  obtain ⟨s, hs⟩ := Forest.exists_site? h.mem
  have hrow : row ∈ d.allRows := hself ▸ h.row_mem
  have hnodup := h.distinct.nodup_row hrow
  have hf : s.children = f := by
    have hsame := site?_refill_self (f := f) hs
    rw [hself, hs] at hsame
    exact congrArg Site.children (Option.some.inj hsame)
  have hkept (hx : x ∉ d.descendants z) (heq : d.tree z = e.tree z) :
      e.tree z = (d.tree z).refill x (f ++ g) := by
    rw [refill_of_notMem hx, heq]
  have hids := (h.rows.flatMap_right Forest.ids).mem_iff.1 hz
  rw [hself, List.flatMap_cons, List.mem_append] at hids
  -- hin|The node stands in the row of the added one: it is the parent itself, below it, or
  -- elsewhere.
  rcases hids with hin | hin
  · by_cases heq : z = x
    · subst heq
      rw [h.tree_eq hs, h'.tree_eq hs, refill_single]
    by_cases hbelow : z ∈ f.ids
    · refine hkept (notMem_of_mem_below h.distinct (h.below.symm ▸ hbelow)) ?_
      obtain ⟨t, ht⟩ := Forest.exists_site? hbelow
      have ht' : (f ++ g).site? z = some (if z ∈ f.topIds then t.before g else t) := by
        rw [site?_append z f g h.nodup, ht]
        rfl
      have hmem : z ∈ (f ++ g).ids := by
        rw [ids_append]
        exact List.mem_append_left _ hbelow
      rw [tree_of_site? ((h.site? hbelow).trans ht), tree_of_site? ((h'.site? hmem).trans ht')]
      split <;> rfl
    · have hnew : z ∉ (f ++ g).ids := h.notMem_of_outer hself h' hin heq hbelow
      obtain ⟨t, t', ht, ht', hnode, hchildren⟩ :=
        exists_site?_refill hnodup hs hin heq (hf ▸ hbelow) hnew
      have hd : d.site? z = some t := by rw [h.distinct.site?_of_row hrow hin, ht]
      have he : e.site? z = some t' := by
        rw [h'.distinct.site?_of_row h'.row_mem (Forest.mem_ids_of_site? ht'), ht']
      rw [tree_of_site? hd, tree_of_site? he, hnode, hchildren]
      exact (refill_cons_of_ne t.node t.children .nil heq).symm
  · refine hkept (fun hx => ?_) (h.apart.tree_eq h'.apart hin)
    have hfree := h.free_self hself
    obtain ⟨t, ht, rfl | hbelow⟩ := mem_descendants_iff.1 hx
    · exact hfree.out hin
    · have hancestor : z ∈ d.ancestors x := h.distinct.mem_ancestors_iff.2 ⟨t, ht, hbelow⟩
      exact (h.apart.free_of_mem_ancestors hfree hancestor).out hin

end Document

/-! ## The written form -/

namespace Forest


variable {f g h : Forest} {x : NodeId} {s : Site}

theorem markup_cons (id : NodeId) (node : Node) (children rest : Forest) :
    (cons id node children rest).markup = (single id node children).markup ++ rest.markup := by
  cases node with
  | text content => simp [single, markup]
  | cdata content => simp [single, markup]
  | element tag => cases children <;> simp [single, markup, String.append_assoc]

theorem markup_append (f g : Forest) : (f ++ g).markup = f.markup ++ g.markup := by
  induction f with
  | nil => simp [markup]
  | cons id node children rest _ ih =>
    rw [cons_append, markup_cons, ih, markup_cons id node children rest, String.append_assoc]

theorem markup_element_ne_nil (id : NodeId) (tag : Element) (hg : g ≠ nil) :
    (single id (.element tag) g).markup =
      tagMarkup tag ++ ">" ++ g.markup ++ "</" ++ tag.name ++ ">" := by
  cases g with
  | nil => exact absurd rfl hg
  | cons id' node children rest => simp [single, markup]

/-- The longer the written form of its children, the longer is that of an element. -/
theorem length_markup_element_lt (id : NodeId) (tag : Element)
    (h : f.markup.length < g.markup.length) :
    (single id (.element tag) f).markup.length < (single id (.element tag) g).markup.length := by
  have hg : g ≠ nil := by
    rintro rfl
    exact absurd h (Nat.not_lt_zero _)
  rw [markup_element_ne_nil id tag hg]
  by_cases hf : f = nil
  · subst hf
    have hempty : (single id (.element tag) nil).markup.length = (tagMarkup tag).length + 2 := by
      simp only [single, markup, String.length_append]
      rfl
    have hclosing : "</".length = 2 := rfl
    rw [hempty]
    simp only [String.length_append, hclosing]
    omega
  · rw [markup_element_ne_nil id tag hf]
    simp
    omega

/-- What is added to the children of an element makes the written form of every row that holds the
element longer. -/
theorem length_markup_refill_lt {tag : Element} (hf : f.ids.Nodup) (hleaves : f.Leaves)
    (hs : f.site? x = some s) (hnode : s.node = .element tag) (hg : 0 < g.markup.length) :
    f.markup.length < (f.refill x (s.children ++ g)).markup.length := by
  induction f with
  | nil => cases hs
  | cons id node children rest ihc ihr =>
    obtain ⟨-, -, hchildren, hrest, hdisj⟩ := nodup_cons_iff.1 hf
    obtain ⟨hself, hbelow, hlater⟩ := hleaves
    rw [site?] at hs
    split at hs
    next heq =>
      subst heq
      cases hs
      have hlonger : children.markup.length < (children ++ g).markup.length := by
        rw [markup_append, String.length_append]
        omega
      have hlt := length_markup_element_lt id tag hlonger
      dsimp only at hnode
      subst hnode
      rw [refill, rewrite_cons_self, markup_cons, markup_cons id _ (children ++ g) rest,
        String.length_append, String.length_append]
      exact Nat.add_lt_add_right hlt _
    next hne =>
      rw [refill_cons_of_ne _ _ _ hne, markup_cons, markup_cons id node (children.refill _ _) _,
        String.length_append, String.length_append]
      rcases Option.or_eq_some_iff.1 hs with hs | ⟨-, hs⟩
      · have hx := mem_ids_of_site? hs
        -- Something stands below this node, so it is an element.
        obtain ⟨outer, rfl⟩ : ∃ outer, node = .element outer := by
          cases node with
          | element outer => exact ⟨outer, rfl⟩
          | text content => exact absurd hx (by simp [hself rfl])
          | cdata content => exact absurd hx (by simp [hself rfl])
        rw [refill_of_notMem (hdisj x hx)]
        exact Nat.add_lt_add_right
          (length_markup_element_lt id outer (ihc hchildren hbelow hs)) _
      · have hx : x ∉ children.ids := fun hin => hdisj x hin (mem_ids_of_site? hs)
        rw [refill_of_notMem hx]
        exact Nat.add_lt_add_left (ihr hrest hlater hs) _

end Forest

end MailMerge.Xml
