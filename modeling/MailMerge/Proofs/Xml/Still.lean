import MailMerge.Proofs.Xml.Apart
import MailMerge.Proofs.Xml.Unwrap

/-!
# What follows a node

What follows a node in its row stays as it is under every edit elsewhere (`Still`). It is kept as a
whole or lost as a whole where nodes are taken out, if that node is taken out with all that follow
it (`Whole`).
-/

namespace MailMerge.Xml.Document

open Forest

variable {c d e : Document} {anchor f x : NodeId} {xs : List NodeId} {p q : NodeId → Prop}

/-- In a later document the same follows the given nodes. -/
structure Still (p : NodeId → Prop) (d e : Document) : Prop where
  distinct : e.Distinct
  ids : d.ids ⊆ e.ids
  following : ∀ f, p f → e.following f = d.following f

/-- In a later document the given nodes are followed by what followed them, or by nothing. -/
structure Whole (p : NodeId → Prop) (d e : Document) : Prop where
  distinct : e.Distinct
  ids : d.ids ⊆ e.ids
  following : ∀ f, p f → e.following f = .nil ∨ e.following f = d.following f

/-- A node does not stand at or below another one, nor before it or what it stands in. -/
structure Elsewhere (d : Document) (x f : NodeId) : Prop where
  mem : f ∈ d.ids
  out : f ∉ d.descendants x
  after : x ∉ (d.following f).ids

namespace Elsewhere

theorem ne (h : d.Elsewhere x f) : f ≠ x := by
  rintro rfl
  exact h.out (mem_descendants_self h.mem)

/-- What is elsewhere than a node is elsewhere than all that stands below it. -/
theorem below (h : d.Elsewhere x f) (hd : d.Distinct) {y : NodeId} (hy : y ∈ d.descendants x) :
    d.Elsewhere y f where
  mem := h.mem
  out hin := h.out (hd.mem_descendants_trans hin hy)
  after := hd.notMem_following_of_below hy h.out h.after

end Elsewhere

namespace Still

theorem refl (hd : d.Distinct) : Still p d d := ⟨hd, List.Subset.refl _, fun _ _ => rfl⟩

theorem trans (h : Still p c d) (h' : Still p d e) : Still p c e where
  distinct := h'.distinct
  ids := List.Subset.trans h.ids h'.ids
  following f hf := (h'.following f hf).trans (h.following f hf)

theorem imp (h : Still q d e) (hpq : ∀ f, p f → q f) : Still p d e :=
  ⟨h.distinct, h.ids, fun f hf => h.following f (hpq f hf)⟩

theorem whole (h : Still p d e) : Whole p d e :=
  ⟨h.distinct, h.ids, fun f hf => .inr (h.following f hf)⟩

end Still

namespace Whole

theorem refl (hd : d.Distinct) : Whole p d d := (Still.refl hd).whole

theorem trans (h : Whole p c d) (h' : Whole p d e) : Whole p c e where
  distinct := h'.distinct
  ids := List.Subset.trans h.ids h'.ids
  following f hf := by
    rcases h'.following f hf with hnone | hsame
    · exact .inl hnone
    · exact hsame ▸ h.following f hf

theorem imp (h : Whole q d e) (hpq : ∀ f, p f → q f) : Whole p d e :=
  ⟨h.distinct, h.ids, fun f hf => h.following f (hpq f hf)⟩

/-- Nothing follows a node that nothing new can follow. -/
theorem subset (h : Whole p d e) (hf : p f) : (e.following f).ids ⊆ (d.following f).ids := by
  rcases h.following f hf with hnone | hsame
  · rw [hnone]
    exact List.nil_subset _
  · exact hsame ▸ List.Subset.refl _

end Whole

/-! ## Taking out -/

theorem Distinct.following_detach (hd : d.Distinct) (hne : f ≠ x)
    (hout : x ∉ (d.following f).ids) : (d.detach x).following f = d.following f := by
  rw [following_eq_site?, following_eq_site?, hd.site?_detach]
  cases hs : d.site? f with
  | none => rfl
  | some s =>
    have hrest : x ∉ s.rest.ids := fun hin => hout (mem_following_iff.2 ⟨s, hs, hin⟩)
    simp only [Option.map_some, if_neg hne, Site.map_rest, Option.getD_some]
    exact rewrite_of_notMem hrest

theorem Distinct.still_detach (hd : d.Distinct)
    (h : ∀ f, p f → f ≠ x ∧ x ∉ (d.following f).ids) : Still p d (d.detach x) where
  distinct := hd.detach x
  ids := by
    rw [ids_eq_map_nodes, ids_eq_map_nodes]
    exact ((detach_perm d x).map Prod.fst).symm.subset
  following f hf := hd.following_detach (h f hf).1 (h f hf).2

theorem Distinct.still_detachAll (hd : d.Distinct)
    (h : ∀ f, p f → ∀ x ∈ xs, f ≠ x ∧ x ∉ (d.following f).ids) : Still p d (d.detachAll xs) := by
  induction xs generalizing d with
  | nil => exact .refl hd
  | cons x xs ih =>
    have hfirst := hd.still_detach (p := p) fun f hf => h f hf x List.mem_cons_self
    refine hfirst.trans (ih hfirst.distinct fun f hf y hy => ?_)
    rw [hfirst.following f hf]
    exact h f hf y (List.mem_cons_of_mem _ hy)

/-- Nodes are taken out together with those that they follow. -/
theorem Still.whole_detachAll (h : Still (fun f => p f ∧ f ∉ xs) d e)
    (hout : ∀ f, p f → ∀ x ∈ xs, x ∈ (d.following f).ids → f ∈ xs) :
    Whole p d (e.detachAll xs) := by
  have hleft : Still (fun f => p f ∧ f ∉ xs) e (e.detachAll xs) := by
    refine h.distinct.still_detachAll fun f hf x hx => ?_
    rw [h.following f hf]
    exact ⟨fun heq => hf.2 (heq ▸ hx), fun hin => hf.2 (hout f hf.1 x hx hin)⟩
  refine ⟨hleft.distinct, (h.trans hleft).ids, fun f hf => ?_⟩
  by_cases hin : f ∈ xs
  · exact .inl (h.distinct.following_detachAll hin)
  · exact .inr ((h.trans hleft).following f ⟨hf, hin⟩)

theorem Distinct.still_unwrap (hd : d.Distinct) (hx : x ∈ d.ids)
    (h : ∀ f, p f → d.Elsewhere x f) : Still p d (d.unwrap x) := by
  cases hparent : d.parent? x with
  | none =>
    rw [Document.unwrap, hparent]
    exact hd.still_detach fun f hf => ⟨(h f hf).ne, (h f hf).after⟩
  | some parent =>
    have hsome : (d.parent? x).isSome := by rw [hparent]; rfl
    obtain ⟨s, hs⟩ := exists_site? hx
    refine ⟨hd.unwrap x, ?_, fun f hf => ?_⟩
    · rw [ids_eq_map_nodes, ids_eq_map_nodes]
      exact ((unwrap_perm d x).map Prod.fst).symm.subset
    · have hchild : f ∉ s.children.topIds := fun hin =>
        (h f hf).out (mem_descendants_iff.2 ⟨s, hs, .inr (mem_ids_of_mem_topIds hin)⟩)
      rw [following_eq_site?, following_eq_site?, hd.site?_unwrap hsome hs (h f hf).ne]
      cases ht : d.site? f with
      | none => rfl
      | some t =>
        have hrest : x ∉ t.rest.ids := fun hin => (h f hf).after (mem_following_iff.2 ⟨t, ht, hin⟩)
        simp only [Option.map_some, if_neg hchild, Site.map_rest, Option.getD_some]
        exact rewrite_of_notMem hrest

/-! ## Moving -/

/-- The same follows a node when a node that does not follow it is moved after a node that does not
follow it either. -/
theorem Distinct.following_insertAfter (hd : d.Distinct) (hmove : d.insertAfter anchor x = some e)
    (hout : f ∉ d.descendants x) (hx : x ∉ (d.following f).ids) (hne : f ≠ anchor)
    (hanchor : anchor ∉ (d.following f).ids) : e.following f = d.following f := by
  obtain ⟨s, t, hmoved⟩ := hd.movedAfter hmove
  have hself : f ≠ x := by
    rintro rfl
    exact hout (mem_descendants_self (mem_ids_of_site? hmoved.moved))
  have hleft := hd.following_detach hself hx
  rw [← hleft] at hanchor ⊢
  rw [following_eq_site? e, hmoved.outer f hout hne, following_eq_site? (d.detach x)]
  rw [mem_following_iff, not_exists] at hanchor
  cases hu : (d.detach x).site? f with
  | none => rfl
  | some u =>
    have hrest : anchor ∉ u.rest.ids := fun hin => hanchor u ⟨hu, hin⟩
    exact rewrite_of_notMem hrest

theorem Distinct.still_insertAfter (hd : d.Distinct) (hmove : d.insertAfter anchor x = some e)
    (h : ∀ f, p f → f ∉ d.descendants x ∧ x ∉ (d.following f).ids ∧ f ≠ anchor ∧
      anchor ∉ (d.following f).ids) : Still p d e := by
  obtain ⟨s, t, hmoved⟩ := hd.movedAfter hmove
  refine ⟨hmoved.distinct hd, ?_, fun f hf => ?_⟩
  · rw [ids_eq_map_nodes, ids_eq_map_nodes]
    exact (hmoved.perm.map Prod.fst).symm.subset
  · obtain ⟨hout, hx, hne, hanchor⟩ := h f hf
    exact hd.following_insertAfter hmove hout hx hne hanchor

/-- The same follows a node when a row of its own is put below a node that neither holds it nor
follows it. -/
theorem Distinct.following_appendChild {row inside : Forest} {rest : List Forest} {node : Node}
    (hd : d.Distinct) (hrows : d.allRows.Perm (row :: single x node inside :: rest))
    (htarget : anchor ∈ row.ids) (hmove : d.appendChild anchor x = some e)
    (hf : f ∈ (row :: rest).flatMap Forest.ids) (hout : f ∉ d.descendants anchor)
    (hanchor : anchor ∉ (d.following f).ids) : e.following f = d.following f := by
  obtain ⟨s, hs⟩ := Forest.exists_site? htarget
  have hx : (single x node inside).site? x = some ⟨node, inside, .nil⟩ := by
    rw [single, Forest.site?, if_pos rfl]
  obtain ⟨new, hnew, hmoved, hleft⟩ := hd.appendChild_rows hrows hs hx
  rw [hmove] at hnew
  cases hnew
  have he := hd.moved hmoved
  have hrow : row ∈ d.allRows := hrows.mem_iff.2 List.mem_cons_self
  rw [List.flatMap_cons, List.mem_append] at hf
  rw [following_eq_site? e, following_eq_site? d]
  rcases hf with hf | hf
  · -- In the row that is changed, nothing changes after the node.
    obtain ⟨t, ht⟩ := Forest.exists_site? hf
    have htd : d.site? f = some t := (hd.site?_of_row hrow hf).trans ht
    have hsd : d.site? anchor = some s := (hd.site?_of_row hrow htarget).trans hs
    have hne : f ≠ anchor := by
      rintro rfl
      exact hout (mem_descendants_iff.2 ⟨s, hsd, .inl rfl⟩)
    have hchild : f ∉ s.children.topIds := fun hin =>
      hout (mem_descendants_iff.2 ⟨s, hsd, .inr (mem_ids_of_mem_topIds hin)⟩)
    have hrest : anchor ∉ t.rest.ids := fun hin => hanchor (mem_following_iff.2 ⟨t, htd, hin⟩)
    have hnew : f ∉ (single x node inside).ids := by
      have hnodup := (hrows.flatMap_right Forest.ids).nodup_iff.1 hd.nodup
      rw [List.flatMap_cons, List.flatMap_cons] at hnodup
      exact fun hin => List.disjoint_of_nodup_append hnodup hf (List.mem_append_left _ hin)
    have hsite := site?_graftBelow (hd.nodup_row hrow) hs hne hnew
    rw [if_neg hchild, ht] at hsite
    rw [he.site?_of_row (hleft.mem_iff.2 List.mem_cons_self) (Forest.mem_ids_of_site? hsite), htd]
    refine (congrArg (fun site => (site.map Site.rest).getD .nil) hsite).trans ?_
    exact rewrite_of_notMem hrest
  · obtain ⟨other, hother, hin⟩ := List.mem_flatMap.1 hf
    have hkept := hleft.mem_iff.2 (List.mem_cons_of_mem _ (List.mem_append_right _ hother))
    have hold := hrows.mem_iff.2 (List.mem_cons_of_mem _ (List.mem_cons_of_mem _ hother))
    rw [he.site?_of_row hkept hin, hd.site?_of_row hold hin]

end MailMerge.Xml.Document
