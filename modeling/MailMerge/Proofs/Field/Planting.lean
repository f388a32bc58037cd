import MailMerge.Proofs.Field.Bodies
import MailMerge.Proofs.Statement.Simple

/-!
# Rows that are put in and taken out

When the turn of a block comes, what has been made of its body is put after its first anchor, and its
anchors and its body are taken out. Where one document is another one with fields unfolded, a node is
taken out of that document with all that has been made of it (`Continues.detachAll`), and fields that
are still there display what they did.
-/

namespace MailMerge

open Xml Xml.Forest Xml.Document Field Template

variable {c d d' e e' : Document} {u v v' : Unfolding} {a x y z : NodeId} {f row : Forest}
variable {w w' : Workspace} {xs ys : List NodeId} {copies : List (NodeId × Forest)}
variable {rest trees : List Forest}

/-! ## Tidy rows of siblings -/

theorem Field.tidy_join (h : ∀ x ∈ xs, Tidy (d.tree x)) : Tidy (join (xs.map d.tree)) := by
  induction xs with
  | nil => trivial
  | cons x xs ih =>
    rw [List.forall_mem_cons] at h
    rw [List.map_cons, join, tidy_append]
    exact ⟨h.1, ih h.2⟩

/-- The trees of siblings of a tidy row are tidy. -/
theorem Xml.Document.Shows.tidy_join (h : d.Shows f) (htidy : Tidy f) (hxs : xs ⊆ f.topIds) :
    Tidy (join (xs.map d.tree)) := by
  refine Field.tidy_join fun x hx => ?_
  obtain ⟨before, n, children, after, rfl⟩ := exists_eq_append_of_mem_topIds (hxs hx)
  rw [tidy_append] at htidy
  rw [h.right.tree_eq]
  exact ⟨htidy.2.1, htidy.2.2.1, htidy.2.2.2.1, trivial⟩

namespace Xml.Document

theorem Shows.ids_subset (h : d.Shows f) : f.ids ⊆ d.ids := fun y hy => by
  obtain ⟨s, hs⟩ := Forest.exists_site? hy
  obtain ⟨t, ht, -⟩ := h.has y s hs
  exact mem_ids_of_site? ht

/-- What is made of one of several siblings. -/
theorem Unfolds.shows_tree (hd : d.Shows f) (he : e.Shows (f.unfold v)) (hx : x ∈ f.topIds) :
    e.Shows ((d.tree x).unfold v) := by
  obtain ⟨before, n, children, after, rfl⟩ := exists_eq_append_of_mem_topIds hx
  rw [unfold_append, unfold_cons] at he
  rw [hd.right.tree_eq, unfold_single]
  exact he.right.left

/-- What is unfolded below a node fits, if that node is not unfolded. -/
theorem Unfolds.fitsIn_tree (h : d.Unfolds v e) (hframe : v.frame? x = none) {node : Node}
    (hf : ∀ entry ∈ f.nodes, entry ∈ d.nodes) : v.FitsIn (single x node f) := by
  intro entry hentry before after hsome
  rw [single, Forest.nodes, Forest.nodes, List.append_nil, List.mem_cons] at hentry
  rcases hentry with rfl | hentry
  · rw [hframe] at hsome
    cases hsome
  · exact h.fits entry (hf entry hentry) before after hsome

theorem Distinct.mem_nodes_of_mem_trees (hd : d.Distinct) {entry : NodeId × Node}
    (h : entry ∈ (join (ys.map d.tree)).nodes) : entry ∈ d.nodes := by
  rw [nodes_join, List.flatMap_map] at h
  obtain ⟨y, -, hentry⟩ := List.mem_flatMap.1 h
  exact mem_nodes_of_node? ((hd.shows_tree y).node? hentry)

/-- What comes after a node is not below it. -/
theorem Distinct.notMem_below_of_following (hd : d.Distinct) (hz : z ∈ (d.following x).ids) :
    z ∉ (d.below x).ids := by
  obtain ⟨s, hs, hrest⟩ := mem_following_iff.1 hz
  rw [below_eq_site?, hs]
  exact fun hin => notMem_rest_of_mem_children hd.nodup_forest (hd.forest_site? hs) hin hrest

/-- A container stands alone. -/
theorem Distinct.site?_container (hd : d.Distinct) {copy : NodeId × Forest}
    (hrow : container copy ∈ d.allRows) :
    d.site? copy.1 = some ⟨.element ⟨Block.containerName, []⟩, copy.2, .nil⟩ := by
  rw [hd.site?_of_row hrow List.mem_cons_self, container, single, Forest.site?, if_pos rfl]

/-- A document has a row that is put together from rows that it has. -/
theorem Has.append {f g : Forest} (hf : d.Has f) (hg : d.Has g) (hnodup : f.ids.Nodup) :
    d.Has (f ++ g) := by
  intro y s hs
  rw [site?_append y f g hnodup] at hs
  rcases Option.or_eq_some_iff.1 hs with hs | ⟨-, hs⟩
  · obtain ⟨r, hr, rfl⟩ := Option.map_eq_some_iff.1 hs
    obtain ⟨t, ht, hnode, hchildren⟩ := hf y r hr
    refine ⟨t, ht, hnode.trans ?_, hchildren.trans ?_⟩ <;> split <;> rfl
  · exact hg y s hs

theorem Distinct.below_container (hd : d.Distinct) {copy : NodeId × Forest}
    (hrow : container copy ∈ d.allRows) : d.below copy.1 = copy.2 := by
  have hsite := hd.site?_of_row hrow (List.mem_cons_self : copy.1 ∈ (container copy).ids)
  rw [container, single, Forest.site?, if_pos rfl] at hsite
  rw [below_eq_site?, hsite]
  rfl

theorem Distinct.has_containers (hd : d.Distinct) (hrows : ∀ copy ∈ copies, container copy ∈ d.allRows) :
    d.Has (join (copies.map Prod.snd)) := by
  induction copies with
  | nil => exact fun y s hs => by simp [join, Forest.site?] at hs
  | cons copy copies ih =>
    rw [List.forall_mem_cons] at hrows
    have hshows := hd.shows_below copy.1
    rw [hd.below_container hrows.1] at hshows
    rw [List.map_cons, join]
    exact hshows.has.append (ih hrows.2) hshows.nodup

namespace Planted

/-- What stands below the nodes of the row stood there before. -/
theorem below_row (h : d.Planted trees a row d') (hd : d.Distinct) (hhas : d.Has row) (hy : y ∈ row.ids) :
    d'.below y = d.below y := by
  obtain ⟨g, rest, left, ha, hrows, hrows'⟩ := h.rows
  obtain ⟨s, hs⟩ := Forest.exists_site? ha
  have hg := hd.nodup_row (hrows.mem_iff.2 (List.mem_append_right _ List.mem_cons_self))
  have hd' := hd.moved h.moved
  have hmem' : graftAfter a row g ∈ d'.allRows := hrows'.mem_iff.2 List.mem_cons_self
  have hmade := (((nodes_perm_graftAfter hg hs).map Prod.fst).nodup_iff.1 (hd'.nodup_row hmem'))
  rw [List.map_append] at hmade
  obtain ⟨hrow, -, hdisj⟩ := List.nodup_append.1 hmade
  obtain ⟨t, ht⟩ := Forest.exists_site? hy
  obtain ⟨r, hr, -, hchildren⟩ := hhas y t ht
  have hsite := hd'.site?_of_row hmem' ((mem_ids_graftAfter hg).2 (.inr ⟨ha, hy⟩))
  rw [site?_graftAfter_row hg hrow hs fun hin => hdisj y hy y hin rfl, ht] at hsite
  rw [below_eq_site?, below_eq_site?, hr, hsite, Option.map_some, Option.map_some, Option.map_some,
    Option.getD_some, Option.getD_some, hchildren]
  split <;> rfl

end Planted

end Xml.Document

namespace Field

/-! ## What is displayed after edits -/

theorem Shown.detach (h : Shown v d) (hd : d.Distinct)
    (hout : ∀ y ∈ d.ids, v.frame? y ≠ none → a ∉ (d.below y).ids) : Shown v (d.detach a) := by
  intro z hz hframe hparent
  have hz : z ∈ d.ids := by
    rwa [ids_eq_map_nodes, ((detach_perm d a).map Prod.fst).mem_iff, ← ids_eq_map_nodes] at hz
  have hne : z ≠ a := by
    rintro rfl
    rw [hd.parent?_detach_self] at hparent
    cases hparent
  rw [hd.parent?_detach hne] at hparent
  rw [hd.below_detach (hout z hz hframe)]
  exact h z hz hframe hparent

/-- What is put elsewhere goes on displaying what it did, and so do the fields around it. -/
theorem Shown.plant (h : Shown v d) (hd : d.Distinct)
    (hplanted : d.Planted (copies.map container) a (join (copies.map Prod.snd)) d')
    (hname : ∀ copy ∈ copies, v.frame? copy.1 = none)
    (hrows : ∀ copy ∈ copies, container copy ∈ d.allRows)
    (hout : ∀ y ∈ d.ids, v.frame? y ≠ none → a ∉ (d.below y).ids) : Shown v d' := by
  intro z hz hframe hparent
  have hz : z ∈ d.ids := by
    rwa [ids_eq_map_nodes, (hplanted.moved.perm.map Prod.fst).mem_iff, ← ids_eq_map_nodes] at hz
  by_cases hin : z ∈ (copies.map container).flatMap Forest.ids
  · obtain ⟨_, htree, hin⟩ := List.mem_flatMap.1 hin
    obtain ⟨copy, hcopy, rfl⟩ := List.mem_map.1 htree
    rw [container, single, ids_cons, ids_nil, List.append_nil, List.mem_cons] at hin
    have hcopied : z ∈ copy.2.ids := hin.resolve_left fun heq => hframe (heq ▸ hname copy hcopy)
    have hrow : z ∈ (join (copies.map Prod.snd)).ids := by
      rw [ids_join, List.flatMap_map]
      exact List.mem_flatMap.2 ⟨copy, hcopy, hcopied⟩
    rw [hplanted.below_row hd (hd.has_containers hrows) hrow]
    refine h z hz hframe (hd.isSome_parent?_of_mem_below (z := copy.1) ?_)
    rwa [hd.below_container (hrows copy hcopy)]
  · rw [hplanted.parent? hd hz hin] at hparent
    rw [hplanted.below hd hz hin, graftAfter, rewrite_of_notMem (hout z hz hframe)]
    exact h z hz hframe hparent

/-- What is added to two documents goes on displaying what it did, and so does what was there. -/
theorem Shown.spares (hshown : Shown v d) (hd : d.Distinct) (hspares : d.Spares d.allRows d')
    (hagrees : Unfolding.Extends d.ids v v') (h : d'.Unfolds v' e')
    (hnew : ∀ z ∈ d'.ids, z ∉ d.ids → v'.frame? z ≠ none → Display (d'.below z)) : Shown v' d' := by
  have hlasts : Lasts (fun z => d.isNamed z "w:fldSimple" = true) (fun _ => False) d d' :=
    .of_spares hd hspares (fun _ hz => mem_ids_of_isNamed hz) nofun
  exact Continues.shown ⟨hagrees, h, hlasts⟩ hd hshown (fun z hz => .inl hz)
    fun z hz hout hframe _ => hnew z hz hout hframe

/-! ## Taking out several nodes -/

variable {q p : NodeId → Prop}

/-- What is made of a field that goes on displaying the same is the same. -/
theorem Continues.field_eq (h : Continues c u q p v d e) (hc : c.Unfolds u e') (hq : q x)
    (hname : c.isNamed x "w:fldSimple" = true) (hdisplay : Display (c.below x))
    (instruction expression : String) :
    v.field d ⟨.simple x, instruction, expression⟩ =
        u.field c ⟨.simple x, instruction, expression⟩ ∧ v.runs d x = u.runs c x := by
  have hx := mem_ids_of_isNamed hname
  have hx' := h.lasts.ids hx
  have hsame := h.agrees.frame x hx
  cases hframe : u.frame? x with
  | none =>
    rw [hframe] at hsame
    rw [runs_of_none hx hframe, runs_of_none hx' hsame]
    simp [Unfolding.field, Unfolding.shape, hframe, hsame, h.agrees.name x hx]
  | some frame =>
    obtain ⟨before, after⟩ := frame
    rw [hframe] at hsame
    obtain ⟨hdisplay', hchildren⟩ := h.lasts.display x hq hname hdisplay
    obtain ⟨y, n, inner, hbelow, -⟩ := hdisplay.exists_single
    obtain ⟨y', n', inner', hbelow', -⟩ := hdisplay'.exists_single
    rw [Document.children, Document.children, hbelow, hbelow'] at hchildren
    obtain rfl : y' = y := (List.cons.inj hchildren).1
    have hyc : y' ∈ (c.below x).ids := by simp [hbelow, single]
    have hyd : y' ∈ (d.below x).ids := by simp [hbelow', single]
    have hplain := hc.frame?_of_display (hc.distinct.shows_below x) hdisplay y' hyc
    have hplain' := h.unfolds.frame?_of_display (h.lasts.distinct.shows_below x) hdisplay' y' hyd
    have hrename := h.agrees.name y' (mem_ids_of_mem_descendants (mem_descendants_of_mem_below hyc))
    obtain ⟨first, others, hruns, hfield⟩ :=
      field_of_some hc hx hframe hbelow hplain instruction expression
    obtain ⟨first', others', hruns', hfield'⟩ :=
      field_of_some h.unfolds hx' hsame hbelow' hplain' instruction expression
    rw [Unfolding.runs_eq hx hframe hbelow hplain, Unfolding.runs_eq hx' hsame hbelow' hplain', hfield,
      hfield', hrename]
    rw [hrename, hruns] at hruns'
    obtain ⟨rfl, rfl⟩ := List.cons.inj hruns'
    exact ⟨rfl, rfl⟩

theorem Continues.runs_eq (h : Continues c u q p v d e) (hc : c.Unfolds u e') (hy : y ∈ c.ids)
    (hq : c.isNamed y "w:fldSimple" = true → q y) (hdisplay : u.frame? y ≠ none → Display (c.below y)) :
    v.runs d y = u.runs c y := by
  cases hframe : u.frame? y with
  | none =>
    rw [runs_of_none hy hframe, runs_of_none (h.lasts.ids hy) ((h.agrees.frame y hy).trans hframe),
      h.agrees.name y hy]
  | some frame =>
    have hframe : u.frame? y ≠ none := by simp [hframe]
    have hname := hc.isNamed_of_unfolded hy hframe
    exact (h.field_eq hc (hq hname) hname (hdisplay hframe) "" "").2

/-- Nodes are taken out of one document, and what has been made of them out of the other one. -/
theorem Continues.detachAll (hc : c.Unfolds u e')
    (h : Continues c u (fun y => c.isNamed y "w:fldSimple" = true) (fun f => p f ∧ f ∉ ys) v d e)
    (hshown : Shown v d) (hp : ∀ f, p f → f ∈ c.ids) (hmem : ys ⊆ c.ids)
    (hdisplay : ∀ y ∈ ys, u.frame? y ≠ none → Display (c.below y))
    (hout : ∀ y, c.isNamed y "w:fldSimple" = true → ∀ z ∈ ys, z ∉ (c.below y).ids) :
    Continues c u (fun y => c.isNamed y "w:fldSimple" = true) p v (d.detachAll ys)
      (e.detachAll (ys.flatMap (u.runs c))) ∧ Shown v (d.detachAll ys) := by
  induction ys generalizing d e with
  | nil =>
    exact ⟨{ h with lasts := h.lasts.imp (fun _ hy => hy) fun f hf => ⟨hf, List.not_mem_nil⟩ }, hshown⟩
  | cons y ys ih =>
    obtain ⟨hy, hmem⟩ := List.cons_subset.1 hmem
    have hd := h.unfolds.distinct
    have hy' := h.lasts.ids hy
    have hlater : ∀ z, d.isNamed z "w:fldSimple" = true → y ∉ (d.below z).ids := fun z hz hin => by
      have hbefore := h.lasts.inner hy hin
      have hz' := mem_ids_of_descendants (mem_descendants_of_mem_below hbefore)
      exact hout z ((h.lasts.isNamed hz' _).symm.trans hz) y List.mem_cons_self hbefore
    have hsame := h.runs_eq hc hy id (hdisplay y List.mem_cons_self)
    have hdetached := detach_runs h.unfolds hy' fun hframe => by
      have hname := h.unfolds.isNamed_of_unfolded hy' hframe
      rw [h.lasts.isNamed hy] at hname
      rw [h.agrees.frame y hy] at hframe
      exact (h.lasts.display y hname hname (hdisplay y List.mem_cons_self hframe)).1
    rw [hsame] at hdetached
    rw [List.flatMap_cons, detachAll_append]
    refine ih ⟨h.agrees, hdetached, ?_⟩ ?_ hmem (fun z hz => hdisplay z (List.mem_cons_of_mem _ hz))
      fun z hz a ha => hout z hz a (List.mem_cons_of_mem _ ha)
    · refine Lasts.detach (h.lasts.imp (fun _ hz => hz) fun f hf => ⟨hf.1.1, ?_⟩)
        (fun z hz => mem_ids_of_isNamed hz) (fun f hf => hp f hf.1) hy' fun z _ => hlater z
      simp only [List.mem_cons, not_or]
      exact ⟨hf.2, hf.1.2⟩
    · exact hshown.detach hd fun z hz hframe => hlater z (h.unfolds.isNamed_of_unfolded hz hframe)

end Field
end MailMerge
