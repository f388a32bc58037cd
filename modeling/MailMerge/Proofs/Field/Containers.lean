import Mathlib.Data.List.Perm.Subperm
import MailMerge.Proofs.Block.Call
import MailMerge.Proofs.Field.Growth
import MailMerge.Proofs.Template.Copies

/-!
# Containers in documents with unfolded fields

What stands in containers is put after a node, in both of two documents that are unfoldings of one
another. Fields that are unfolded are moved there with all of their runs.
-/

namespace MailMerge

open Xml Xml.Forest Template

variable {u v : Unfolding} {w : Workspace} {f g left row : Forest} {c p x y : NodeId} {node : Node}
variable {rest rows rows' : List Forest} {s : Site} {copies : List (NodeId × Forest)}
variable {d e : Document} {lots : List Lot}

namespace Xml.Forest

theorem graftAfter_nil (p : NodeId) (f : Forest) : graftAfter p nil f = f := by
  induction f with
  | nil => rfl
  | cons y n c r ihc ihr =>
    simp only [graftAfter, rewrite] at ihc ihr ⊢
    split
    next heq => rw [heq, nil_append]
    next => rw [ihc, ihr]

theorem graftAfter_graftAfter (p : NodeId) (f g h : Forest) :
    graftAfter p f (graftAfter p g h) = graftAfter p (f ++ g) h := by
  induction h with
  | nil => rfl
  | cons y n c r ihc ihr =>
    simp only [graftAfter, rewrite] at ihc ihr ⊢
    split
    · rw [rewrite_cons_self, append_assoc]
    next hne => rw [rewrite, if_neg hne, ihc, ihr]

theorem exists_site?_graftAfter (hs : f.site? p = some s) (row : Forest) :
    ∃ t, (graftAfter p row f).site? p = some t := by
  refine exists_site? ?_
  rw [graftAfter]
  induction f with
  | nil => cases hs
  | cons y n c r ihc ihr =>
    rw [site?] at hs
    rw [rewrite]
    split at hs
    next heq => simp [heq]
    next hne =>
      rw [if_neg hne, ids_cons, List.mem_cons, List.mem_append]
      rcases Option.or_eq_some_iff.1 hs with hs | ⟨-, hs⟩
      · exact .inr (.inl (ihc hs))
      · exact .inr (.inr (ihr hs))

end Xml.Forest

namespace Merge

/-- The last children of a tree that stands alone are put right after a node, in their order. -/
theorem insertRow_rows (left : Forest) (hd : w.document.Distinct)
    (hrows : w.document.allRows.Perm (g :: single c node (left ++ row) :: rest))
    (hs : g.site? p = some s) :
    ∃ d, (row.topIds.reverse.forM fun y => move (·.insertAfter p y)) w =
        .ok () { w with document := d } ∧ w.document.Moved d ∧
      d.allRows.Perm (graftAfter p row g :: single c node left :: rest) := by
  induction row generalizing left with
  | nil =>
    refine ⟨w.document, rfl, ⟨.refl _, .refl _⟩, ?_⟩
    rwa [append_nil, ← graftAfter_nil p g] at hrows
  | cons y m inside more _ ih =>
    rw [← nil_append more, ← cons_append, ← append_assoc] at hrows
    obtain ⟨d₁, hlater, hmoved, hperm⟩ := ih _ hrows
    have hd₁ := hd.moved hmoved
    obtain ⟨t, ht⟩ := exists_site?_graftAfter hs more
    have hnodup := hd₁.nodup_row (hperm.mem_iff.2 (List.mem_cons_of_mem _ List.mem_cons_self))
    obtain ⟨-, -, hchildren, -, -⟩ := nodup_cons_iff.1 hnodup
    have hy : y ∉ left.ids := by
      rw [ids_append] at hchildren
      exact notMem_of_nodup_append hchildren (by simp)
    have hc : c ≠ y := fun heq => (nodup_cons_iff.1 hnodup).1 (heq ▸ by simp)
    have hsource : (single c node (left ++ cons y m inside nil)).site? y =
        some ⟨m, inside, nil⟩ := by
      rw [single, site?, if_neg hc, site?_append_cons m inside hy, Option.some_or]
    have hwithout : (single c node (left ++ cons y m inside nil)).without y = single c node left := by
      rw [without, single, rewrite, if_neg hc, rewrite_append_of_notMem hy, rewrite_cons_self,
        append_nil]
      rfl
    obtain ⟨d₂, hmove, hmoved', hperm'⟩ := hd₁.insertAfter_rows hperm ht hsource
    rw [hwithout, graftAfter_graftAfter] at hperm'
    refine ⟨d₂, ?_, ⟨hmoved.frame.trans hmoved'.frame, hmoved'.perm.trans hmoved.perm⟩, hperm'⟩
    rw [topIds_cons, List.reverse_cons, List.forM_eq_forM, List.forM_append]
    refine (bind_ok hlater).trans ?_
    rw [List.forM_cons]
    exact bind_ok (move_ok hmove)

/-- The rows of containers are put right after a node, in their order. -/
theorem insertContainers_rows (hd : w.document.Distinct)
    (hrows : w.document.allRows.Perm (g :: (copies.map container ++ rest)))
    (hs : g.site? p = some s) :
    ∃ d, insertAllAfter p (copies.flatMap (·.2.topIds)) w = .ok () { w with document := d } ∧
      w.document.Moved d ∧
      d.allRows.Perm (graftAfter p (join (copies.map Prod.snd)) g ::
        (copies.map (fun copy => container (copy.1, .nil)) ++ rest)) := by
  unfold insertAllAfter
  induction copies generalizing rest with
  | nil =>
    refine ⟨w.document, rfl, ⟨.refl _, .refl _⟩, ?_⟩
    rwa [← graftAfter_nil p g] at hrows
  | cons copy copies ih =>
    obtain ⟨d₁, hlater, hmoved, hperm⟩ := ih (hrows.trans (List.perm_middle.symm.cons _))
    obtain ⟨t, ht⟩ := exists_site?_graftAfter hs (join (copies.map Prod.snd))
    have hlater' : d₁.allRows.Perm (graftAfter p (join (copies.map Prod.snd)) g ::
        container copy :: (copies.map (fun copy => container (copy.1, .nil)) ++ rest)) :=
      hperm.trans (List.perm_middle.cons _)
    obtain ⟨d₂, hfirst, hmoved', hperm'⟩ :=
      insertRow_rows (w := { w with document := d₁ }) .nil (hd.moved hmoved) hlater' ht
    refine ⟨d₂, ?_, ⟨hmoved.frame.trans hmoved'.frame, hmoved'.perm.trans hmoved.perm⟩, ?_⟩
    · rw [List.flatMap_cons, List.reverse_append, List.forM_eq_forM, List.forM_append]
      exact (bind_ok hlater).trans hfirst
    · rw [graftAfter_graftAfter] at hperm'
      exact hperm'

/-- Trees that stand alone are put right after a node, in their order. -/
theorem insertTrees_rows (hd : w.document.Distinct)
    (hrows : w.document.allRows.Perm (g :: (row.trees ++ rest))) (hs : g.site? p = some s) :
    ∃ d, insertAllAfter p row.topIds w = .ok () { w with document := d } ∧ w.document.Moved d ∧
      d.allRows.Perm (graftAfter p row g :: rest) := by
  induction row generalizing rest with
  | nil =>
    refine ⟨w.document, rfl, ⟨.refl _, .refl _⟩, ?_⟩
    rwa [← graftAfter_nil p g] at hrows
  | cons x node children more _ ih =>
    obtain ⟨d₁, hlater, hmoved, hperm⟩ := ih (hrows.trans (List.perm_middle.symm.cons _))
    obtain ⟨t, ht⟩ := exists_site?_graftAfter hs more
    have hsource : (single x node children).site? x = some ⟨node, children, .nil⟩ := by
      rw [single, site?, if_pos rfl]
    obtain ⟨d₂, hmove, hmoved', hperm'⟩ := (hd.moved hmoved).insertAfter_rows hperm ht hsource
    refine ⟨d₂, ?_, ⟨hmoved.frame.trans hmoved'.frame, hmoved'.perm.trans hmoved.perm⟩, ?_⟩
    · rw [topIds_cons, insertAllAfter_cons]
      exact (bind_ok hlater).trans (move_ok hmove)
    · rw [graftAfter_graftAfter, without, single, rewrite_cons_self] at hperm'
      exact hperm'

end Merge

namespace Xml

/-- A row has been put after a node. It was made of trees that stood alone, of which others may be
left. -/
structure Document.Planted (d : Document) (trees : List Forest) (p : NodeId) (row : Forest)
    (d' : Document) : Prop where
  moved : d.Moved d'
  rows : ∃ g rest left, p ∈ g.ids ∧ d.allRows.Perm (trees ++ (g :: rest)) ∧
    d'.allRows.Perm (graftAfter p row g :: (left ++ rest))

theorem Unfolding.KeepsTops.containers (hname : ∀ copy ∈ copies, u.frame? copy.1 = none) :
    u.KeepsTops (copies.map container) := fun tree htree => by
  obtain ⟨copy, hcopy, rfl⟩ := List.mem_map.1 htree
  exact ⟨_, _, _, rfl, hname copy hcopy⟩

variable {trees : List Forest}

namespace Document.Unfolds

variable {w' : Workspace} {d' e' : Document} {husk? : Option (NodeId × Node)} {others : List Lot}

/-- Trees that stand alone are lots of their own, beside that of a node elsewhere. -/
theorem exists_lots_of_trees (h : d.Unfolds u e) (hrows : d.allRows.Perm (trees ++ rest))
    (htrees : u.KeepsTops trees) (hp : p ∈ rest.flatMap Forest.ids)
    (hstands : u.frame? p = none ∨ (d.parent? p).isSome) :
    ∃ husk? f others, Lots u d.allRows e.allRows (⟨husk?, f⟩ :: (aloneLots trees ++ others)) ∧
      p ∈ f.ids := by
  obtain ⟨lots, hlots⟩ := h.lots
  have hids := (hrows.flatMap_right Forest.ids).nodup_iff.1 h.distinct.nodup
  rw [List.flatMap_append] at hids
  have hmem : aloneLots trees ⊆ lots := by
    intro lot hlot
    obtain ⟨tree, htree, rfl⟩ := List.mem_map.1 hlot
    obtain ⟨x, node, children, rfl, hframe⟩ := htrees tree htree
    exact h.lot_mem_of_alone (hrows.mem_iff.2 (List.mem_append_left _ htree)) hframe hlots
  have hnodup : (aloneLots trees).Nodup := by
    have hdisj := (List.nodup_flatMap.1 (List.nodup_append.1 hids).1).2
    refine List.pairwise_map.2 (hdisj.imp_of_mem fun {a b} ha _ hab heq => ?_)
    obtain ⟨x, node, children, rfl, -⟩ := htrees a ha
    cases heq
    exact hab List.mem_cons_self List.mem_cons_self
  obtain ⟨front, hfront, hsub⟩ := List.subperm_of_subset hnodup hmem
  obtain ⟨others, hothers⟩ := hsub.exists_perm_append
  have hlots := hlots.perm (hothers.trans (hfront.append_right _))
  have hpd : p ∈ d.ids := (hrows.flatMap_right Forest.ids).mem_iff.2
    (by rw [List.flatMap_append]; exact List.mem_append_right _ hp)
  obtain ⟨⟨husk?, f⟩, hlot, hin⟩ := hlots.exists_lot_of_mem hpd
  -- The node stands in none of the trees, and so its lot is one of the others.
  have hother : (⟨husk?, f⟩ : Lot) ∈ others := by
    refine (List.mem_append.1 hlot).resolve_left fun halone => ?_
    obtain ⟨tree, htree, heq⟩ := List.mem_map.1 halone
    cases heq
    exact List.disjoint_of_nodup_append hids
      (List.mem_flatMap.2 ⟨_, htree, hin.resolve_right fun ⟨n, hsome⟩ => nomatch hsome⟩) hp
  obtain ⟨before, after, rfl⟩ := List.append_of_mem hother
  have hfirst := hlots.perm
    ((List.perm_middle.append_left _).trans (List.perm_append_comm_assoc _ [_] _))
  rw [List.singleton_append] at hfirst
  refine ⟨husk?, f, before ++ after, hfirst, hin.resolve_right fun ⟨n, hsome⟩ => ?_⟩
  cases hsome
  rcases hstands with hframe | hparent
  · exact (hfirst.sound _ List.mem_cons_self).husk _ rfl hframe
  · rw [h.parent?_of_husk hfirst] at hparent
    cases hparent

/-- Trees that stood alone have come after a node in both documents, and others are left of them. -/
theorem of_grafted (h : d.Unfolds u e) (row : Forest) {left : List Forest}
    (hlots : Lots u d.allRows e.allRows (⟨husk?, f⟩ :: (aloneLots trees ++ others)))
    (hp : p ∈ f.ids) (hd : d.Moved d') (he : e.Moved e') (hleft : u.KeepsTops left)
    (hplain : d'.allRows.Perm (graftAfter p row (Lot.row ⟨husk?, f⟩) ::
      (left ++ others.flatMap Lot.plain)))
    (hunfolded : e'.allRows.Perm (graftAfter (u.stop p) (row.unfold u) (f.unfold u) ::
      (left.map (unfold u) ++ (Lot.scraps u ⟨husk?, f⟩ ++ others.flatMap (Lot.unfolded u)))))
    (htops : p ∈ f.topIds → ∀ t ∈ row.topIds, u.frame? t = none) : d'.Unfolds u e' := by
  obtain ⟨s, hs⟩ := Forest.exists_site? hp
  have hnodup := h.nodup_inner hlots hp
  have hrow := h.nodup_row hlots hp
  have hsolid : ∀ {f : Forest} {p : NodeId} {row : Forest}, f ≠ .nil →
      (graftAfter p row f).solid = [graftAfter p row f] := fun hf =>
    solid_of_ne_nil (rewrite_ne_nil (fun _ => nofun) hf)
  have hsame := (unfold_after hnodup (h.nodup_unfold hlots hp) hs
    (fun _ _ hframe => h.after_ne_nil (h.mem_ids_of_inner hlots hp) hframe) row).2
  refine h.of_moved (⟨husk?, graftAfter p row f⟩ :: (aloneLots left ++ others)) hd he ⟨?_, ?_, ?_⟩
  · rw [List.flatMap_cons, List.flatMap_append, Lot.plain_alone hleft, graftAfter,
      ← Lot.solid_rewrite_row ⟨husk?, f⟩ hrow hp, ← graftAfter,
      hsolid (ne_nil_of_mem_ids (Forest.mem_ids_of_site? (Lot.site?_row ⟨husk?, f⟩ hrow hs)))]
    exact hplain
  · rw [List.flatMap_cons, List.flatMap_append, Lot.unfolded_alone hleft, Lot.unfolded, ← hsame,
      hsolid (h.unfold_ne_nil hlots hp), List.append_assoc]
    exact hunfolded.trans ((List.perm_append_comm_assoc _ _ _).cons _)
  · have hsound := List.forall_mem_cons.1 hlots.sound
    refine List.forall_mem_cons.2 ⟨⟨hsound.1.husk, fun t ht => ?_⟩, fun lot hlot => ?_⟩
    · rcases mem_topIds_rewrite (fun s => show _ = cons p s.node s.children row ++ s.rest from rfl)
        hnodup hs ht with ht | ⟨htop, ht⟩
      · exact hsound.1.tops t ht
      · rcases List.mem_cons.1 ht with rfl | ht
        · exact hsound.1.tops t htop
        · exact htops htop t ht
    · exact (List.mem_append.1 hlot).elim (Lot.sound_alone hleft)
        fun hlot => hsound.2 lot (List.mem_append_right _ hlot)

/-- What stands in containers is put after a node in both documents. -/
theorem insertContainers (h : w.document.Unfolds u w'.document)
    (hrows : w.document.allRows.Perm (copies.map container ++ rest))
    (hname : ∀ copy ∈ copies, u.frame? copy.1 = none) (hp : p ∈ rest.flatMap Forest.ids)
    (hparent : (w.document.parent? p).isSome)
    (hclear : ∀ z, w.document.parent? p = some z → u.frame? z = none) :
    ∃ d e, Merge.insertAllAfter p (copies.flatMap (·.2.topIds)) w =
        .ok () { w with document := d } ∧
      Merge.insertAllAfter (u.stop p) (copies.flatMap fun copy => (copy.2.unfold u).topIds) w' =
        .ok () { w' with document := e } ∧
      w.document.Planted (copies.map container) p (join (copies.map Prod.snd)) d ∧
      d.Unfolds u e := by
  have hcontainers := Unfolding.KeepsTops.containers hname
  obtain ⟨husk?, f, others, hlots, hmem⟩ :=
    h.exists_lots_of_trees hrows hcontainers hp (.inr hparent)
  obtain ⟨s, hs⟩ := Forest.exists_site? hmem
  have hplain := Unfolds.row_perm hlots hmem
  have hunfolded := h.unfolded_perm hlots hmem
  have hmade : (copies.map container).map (unfold u) =
      (copies.map fun copy => (u.name copy.1, copy.2.unfold u)).map container := by
    rw [List.map_map, List.map_map]
    refine List.map_congr_left fun copy hcopy => ?_
    rw [Function.comp_apply, container, unfold_single, Unfolding.slot_of_none (hname copy hcopy)]
    rfl
  rw [List.flatMap_append, Lot.plain_alone hcontainers] at hplain
  rw [List.flatMap_append, Lot.unfolded_alone hcontainers, hmade] at hunfolded
  -- The place is the last node that is made of the one in the first document.
  obtain ⟨⟨t, ht⟩, -⟩ := unfold_after (h.nodup_inner hlots hmem) (h.nodup_unfold hlots hmem) hs
    (fun _ _ hframe => h.after_ne_nil (h.mem_ids_of_inner hlots hmem) hframe) .nil
  have hrow := Lot.site?_row ⟨husk?, f⟩ (h.nodup_row hlots hmem) hs
  obtain ⟨d, hd, hmoved, hperm⟩ := Merge.insertContainers_rows h.distinct hplain hrow
  obtain ⟨e, he, hmoved', hperm'⟩ := Merge.insertContainers_rows h.distinct'
    (hunfolded.trans ((List.perm_append_comm_assoc _ _ _).cons _)) ht
  rw [List.flatMap_map] at he
  have hempty : ∀ copy ∈ copies.map fun copy => (copy.1, Forest.nil), u.frame? copy.1 = none :=
    List.forall_mem_map.2 hname
  refine ⟨d, e, hd, he, ⟨hmoved, _, _, _, Forest.mem_ids_of_site? hrow,
    hplain.trans List.perm_middle.symm, hperm⟩, h.of_grafted (join (copies.map Prod.snd)) hlots hmem hmoved
    hmoved' (Unfolding.KeepsTops.containers hempty) ?_ ?_ fun htop => absurd htop
      (h.notMem_topIds hlots hmem hparent hclear)⟩
  · rw [List.map_map]
    exact hperm
  · have hleft : ((copies.map fun copy => (copy.1, Forest.nil)).map container).map (unfold u) =
        copies.map fun copy => container (u.name copy.1, .nil) := by
      rw [List.map_map, List.map_map]
      refine List.map_congr_left fun copy hcopy => ?_
      rw [Function.comp_apply, Function.comp_apply, container, unfold_single,
        Unfolding.slot_of_none (hname copy hcopy)]
      rfl
    rw [hleft, unfold_join, List.map_map]
    rw [List.map_map, List.map_map] at hperm'
    exact hperm'

/-- Trees that stand alone are put after a node in both documents. -/
theorem insertTrees (h : w.document.Unfolds u w'.document)
    (hrows : w.document.allRows.Perm (row.trees ++ rest))
    (htops : ∀ t ∈ row.topIds, u.frame? t = none) (hp : p ∈ rest.flatMap Forest.ids)
    (hstands : u.frame? p = none ∨ (w.document.parent? p).isSome) :
    ∃ d e, Merge.insertAllAfter p row.topIds w = .ok () { w with document := d } ∧
      Merge.insertAllAfter (u.stop p) (row.unfold u).topIds w' =
        .ok () { w' with document := e } ∧
      w.document.Planted row.trees p row d ∧ d.Unfolds u e := by
  have htrees := Unfolding.KeepsTops.trees htops
  obtain ⟨husk?, f, others, hlots, hmem⟩ := h.exists_lots_of_trees hrows htrees hp hstands
  obtain ⟨s, hs⟩ := Forest.exists_site? hmem
  have hplain := Unfolds.row_perm hlots hmem
  have hunfolded := h.unfolded_perm hlots hmem
  rw [List.flatMap_append, Lot.plain_alone htrees] at hplain
  rw [List.flatMap_append, Lot.unfolded_alone htrees, ← trees_unfold htops] at hunfolded
  obtain ⟨⟨t, ht⟩, -⟩ := unfold_after (h.nodup_inner hlots hmem) (h.nodup_unfold hlots hmem) hs
    (fun _ _ hframe => h.after_ne_nil (h.mem_ids_of_inner hlots hmem) hframe) .nil
  have hrow := Lot.site?_row ⟨husk?, f⟩ (h.nodup_row hlots hmem) hs
  obtain ⟨d, hd, hmoved, hperm⟩ := Merge.insertTrees_rows h.distinct hplain hrow
  obtain ⟨e, he, hmoved', hperm'⟩ := Merge.insertTrees_rows h.distinct'
    (hunfolded.trans ((List.perm_append_comm_assoc _ _ _).cons _)) ht
  have hleft : u.KeepsTops [] := nofun
  exact ⟨d, e, hd, he, ⟨hmoved, _, _, [], Forest.mem_ids_of_site? hrow,
    hplain.trans List.perm_middle.symm, hperm⟩, h.of_grafted row hlots hmem hmoved hmoved'
    hleft hperm hperm' fun _ => htops⟩

end Document.Unfolds

end Xml

end MailMerge
