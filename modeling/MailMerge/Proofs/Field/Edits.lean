import MailMerge.Proofs.Field.Unfolds

/-!
# Edits of documents with unfolded fields

When a node is moved or taken out in a document with simple fields, the same can be done in the
document with unfolded fields, where a field that is unfolded is taken out by its runs. The two
documents stay unfoldings of one another.
-/

namespace MailMerge.Xml

open Forest

variable {u v : Unfolding} {rows rows' rest : List Forest} {lot : Lot} {lots others : List Lot}
variable {f g k l row : Forest} {x y : NodeId} {s : Site} {node : Node}
variable {husk? : Option (NodeId × Node)} {d e d' e' : Document}

theorem Forest.trees_append (f g : Forest) : (f ++ g).trees = f.trees ++ g.trees := by
  induction f with
  | nil => rfl
  | cons x node children rest _ ih => rw [cons_append, trees, trees, ih, List.cons_append]

/-! ## Rows put next to and below nodes -/

namespace Forest

variable {p : NodeId}

section Graft

variable (hf : f.ids.Nodup) (hmade : (f.unfold u).ids.Nodup) (hs : f.site? p = some s)

include hf hmade hs

/-- What is put after a node comes after the last node of what is made of it. -/
theorem unfold_after (hframe : ∀ before after, u.frame? p = some (before, after) → after ≠ nil)
    (row : Forest) :
    (∃ t, (f.unfold u).site? (u.stop p) = some t) ∧
      graftAfter (u.stop p) (row.unfold u) (f.unfold u) = (graftAfter p row f).unfold u := by
  obtain ⟨k, n, c, hslot⟩ := Unfolding.exists_slot_stop hframe s.node (s.children.unfold u)
  rw [unfold_graftAfter hf hs, hslot]
  rw [unfold_eq_fill hf hs, hslot] at hmade ⊢
  obtain ⟨r, hr, -⟩ := exists_site?_fill hf hs hmade
  refine ⟨⟨_, hr⟩, ?_⟩
  rw [graftAfter, rewrite_fill (single (u.stop p) n c ++ row.unfold u) hf hs hmade fun _ => rfl,
    append_nil, append_assoc]
  rfl

variable (hframe : u.frame? p = none)

include hframe

theorem unfold_below (row : Forest) :
    (∃ t, (f.unfold u).site? (u.name p) = some t) ∧
      graftBelow (u.name p) (row.unfold u) (f.unfold u) = (graftBelow p row f).unfold u := by
  rw [unfold_graftBelow hf hs, Unfolding.slot_of_none hframe]
  rw [unfold_eq_fill hf hs, Unfolding.slot_of_none hframe] at hmade ⊢
  obtain ⟨r, hr, -⟩ := exists_site?_fill (k := nil) (l := nil) hf hs hmade
  refine ⟨⟨_, hr⟩, ?_⟩
  have hgraft : graftBelow (u.name p) (row.unfold u)
      (fill u p (nil ++ cons (u.name p) s.node (s.children.unfold u) nil) f) = fill u p (nil ++
        (single (u.name p) s.node (s.children.unfold u ++ row.unfold u) ++ nil)) f :=
    rewrite_fill _ hf hs hmade fun _ => rfl
  rwa [nil_append, append_nil] at hgraft

theorem unfold_before (row : Forest) :
    (∃ t, (f.unfold u).site? (u.name p) = some t) ∧
      graftBefore (u.name p) (row.unfold u) (f.unfold u) = (graftBefore p row f).unfold u := by
  rw [unfold_graftBefore hf hs, Unfolding.slot_of_none hframe]
  rw [unfold_eq_fill hf hs, Unfolding.slot_of_none hframe] at hmade ⊢
  obtain ⟨r, hr, -⟩ := exists_site?_fill (k := nil) (l := nil) hf hs hmade
  refine ⟨⟨_, hr⟩, ?_⟩
  have hgraft : graftBefore (u.name p) (row.unfold u)
      (fill u p (nil ++ cons (u.name p) s.node (s.children.unfold u) nil) f) = fill u p (nil ++
        ((row.unfold u ++ single (u.name p) s.node (s.children.unfold u)) ++ nil)) f :=
    rewrite_fill _ hf hs hmade fun r => by
      rw [append_assoc]
      rfl
  rwa [nil_append, append_nil] at hgraft

end Graft

theorem rewrite_ne_nil {change : Site → Forest} (hchange : ∀ s, change s ≠ nil) (hf : f ≠ nil) :
    f.rewrite p change ≠ nil := by
  cases f with
  | nil => exact absurd rfl hf
  | cons y n c r =>
    rw [rewrite]
    split
    · exact hchange _
    · intro hnil
      cases hnil

theorem of_mem_nodes_update {change : Node → Node} {entry : NodeId × Node}
    (h : entry ∈ (f.update x change).nodes) : entry.1 = x ∨ entry ∈ f.nodes := by
  induction f with
  | nil => cases h
  | cons y n c r ihc ihr =>
    simp only [update, nodes, List.mem_cons, List.mem_append] at h ⊢
    rcases h with rfl | h | h
    · dsimp only
      split
      next heq => exact .inl heq
      next => exact .inr (.inl rfl)
    · exact (ihc h).imp_right fun h => .inr (.inl h)
    · exact (ihr h).imp_right fun h => .inr (.inr h)

/-- A node that is not unfolded gets another payload where it stands. -/
theorem unfold_update {change : Node → Node} (hf : f.ids.Nodup) (hmade : (f.unfold u).ids.Nodup)
    (hs : f.site? p = some s) (hframe : u.frame? p = none) :
    (f.unfold u).update (u.name p) change = (f.update p change).unfold u := by
  rw [update_eq_rewrite hf, update_eq_rewrite hmade,
    unfold_rewrite (single p (change s.node) s.children) hf hs rfl, unfold_single,
    Unfolding.slot_of_none hframe]
  rw [unfold_eq_fill hf hs, Unfolding.slot_of_none hframe] at hmade ⊢
  have hchanged : (fill u p (nil ++ cons (u.name p) s.node (s.children.unfold u) nil) f).rewrite
      (u.name p) (fun s => cons (u.name p) (change s.node) s.children s.rest) = fill u p (nil ++
        (single (u.name p) (change s.node) (s.children.unfold u) ++ nil)) f :=
    rewrite_fill _ hf hs hmade fun _ => rfl
  rwa [nil_append, append_nil] at hchanged

/-- What comes to the top of a row where one node of it is exchanged. -/
theorem mem_topIds_rewrite {change : Site → Forest} {made : Site → Forest} {t : NodeId}
    (hchange : ∀ s, change s = made s ++ s.rest) (hf : f.ids.Nodup) (hs : f.site? p = some s)
    (ht : t ∈ (f.rewrite p change).topIds) :
    t ∈ f.topIds ∨ (p ∈ f.topIds ∧ t ∈ (made s).topIds) := by
  induction f with
  | nil => cases hs
  | cons y n c r _ ih =>
    obtain ⟨-, -, -, hr, hdisj⟩ := nodup_cons_iff.1 hf
    rw [site?] at hs
    rw [rewrite] at ht
    split at hs
    next heq =>
      cases hs
      rw [if_pos heq, hchange, topIds_append, List.mem_append] at ht
      rw [topIds_cons, List.mem_cons, List.mem_cons]
      exact ht.symm.imp .inr fun ht => ⟨.inl heq.symm, ht⟩
    next hne =>
      rw [if_neg hne, topIds_cons, List.mem_cons] at ht
      rw [topIds_cons, List.mem_cons, List.mem_cons]
      rcases ht with ht | ht
      · exact .inl (.inl ht)
      · rcases Option.or_eq_some_iff.1 hs with hs | ⟨-, hs⟩
        · rw [rewrite_of_notMem (hdisj p (Forest.mem_ids_of_site? hs))] at ht
          exact .inl (.inr ht)
        · exact (ih hr hs ht).imp .inr (And.imp_left .inr)

end Forest

/-! ## Lots -/

namespace Lot

variable {children before after : Forest}

/-- A tree of its own, the first node of which is not unfolded. -/
theorem unfolded_tree (hframe : u.frame? x = none) (node : Node) (children : Forest) :
    unfolded u ⟨none, single x node children⟩ = [single (u.name x) node (children.unfold u)] := by
  rw [unfolded, unfold_single, Unfolding.slot_of_none hframe]
  rfl

theorem sound_tree (hframe : u.frame? x = none) (node : Node) (children : Forest) :
    Sound u ⟨none, single x node children⟩ where
  husk := nofun
  tops t ht := by
    cases List.mem_singleton.1 ht
    exact hframe

theorem unfolded_of_some (hframe : u.frame? x = some (before, after)) (node : Node) (f : Forest) :
    unfolded u ⟨some (x, node), f⟩ = (f.unfold u).solid ++ (before.trees ++ after.trees) := by
  simp [unfolded, scraps, hframe]

/-- The trees that are made of a field around a single node are those of a field that has been taken
out. -/
theorem unfolded_husk (hframe : u.frame? x = some (before, after)) (hy : u.frame? y = none)
    (node n : Node) (c : Forest) :
    (u.slot x node ((single y n c).unfold u)).trees.Perm
      (unfolded u ⟨some (x, node), single y n c⟩) := by
  rw [Unfolding.slot_of_some hframe, unfolded_of_some hframe, unfold_single, Unfolding.slot_of_none hy,
    trees_append, trees_append]
  exact List.perm_middle

theorem sound_husk (hframe : u.frame? x ≠ none) (hy : u.frame? y = none) (node n : Node)
    (c : Forest) : Sound u ⟨some (x, node), single y n c⟩ where
  husk entry hentry := by
    cases hentry
    exact hframe
  tops t ht := by
    cases List.mem_singleton.1 ht
    exact hy

/-- What is left of a row is sound when a node has been taken out. -/
theorem Sound.without (h : Sound u ⟨husk?, f⟩) (hf : f.ids.Nodup) :
    Sound u ⟨husk?, f.without x⟩ where
  husk := h.husk
  tops t ht := by
    rw [topIds_without hf] at ht
    exact h.tops t (List.mem_of_mem_filter ht)

/-- What is left of a row is sound when a node within it has been dissolved. -/
theorem Sound.dissolve (h : Sound u ⟨husk?, f⟩) (hf : f.ids.Nodup) (hx : x ∉ f.topIds) :
    Sound u ⟨husk?, f.dissolve x⟩ where
  husk := h.husk
  tops t ht := by
    rcases mem_topIds_dissolve hf ht with ht | ⟨htop, -⟩
    · exact h.tops t ht
    · exact absurd htop hx

end Lot

namespace Document

/-! ## Taking out what is made of a node -/

theorem Distinct.detach_alone (he : e.Distinct) {children : Forest}
    (hrows : e.allRows.Perm (single x node children :: rest)) :
    (e.detach x).allRows.Perm (single x node children :: rest) := by
  have hs : (single x node children).site? x = some ⟨node, children, .nil⟩ := by
    rw [single, Forest.site?, if_pos rfl]
  have hempty : (single x node children).without x = nil := by
    rw [without, single, rewrite_cons_self]
  have hdetached := he.detach_rows hrows hs
  rwa [hempty] at hdetached

/-- Nodes that stand alone stay where they are when they are taken out. -/
theorem Distinct.detachAll_alone (he : e.Distinct) (hrows : e.allRows.Perm (row.trees ++ rest)) :
    (e.detachAll row.topIds).allRows.Perm (row.trees ++ rest) := by
  induction row generalizing e rest with
  | nil => exact hrows
  | cons x node children row _ ih =>
    rw [trees, List.cons_append] at hrows
    have hdetached := (he.detach_alone hrows).trans List.perm_middle.symm
    rw [topIds_cons, Document.detachAll, List.foldl_cons, trees, List.cons_append]
    exact (ih (he.detach x) hdetached).trans List.perm_middle

/-- The siblings of a row are taken out of the row where it stands for a node. -/
theorem Distinct.detachAll_fill (k row l : Forest) (he : e.Distinct) (hf : f.ids.Nodup) (hs : f.site? x = some s)
    (hrows : e.allRows.Perm ((fill u x (k ++ (row ++ l)) f).solid ++ rest)) :
    (e.detachAll row.topIds).allRows.Perm
      (row.trees ++ ((fill u x (k ++ l) f).solid ++ rest)) := by
  induction row generalizing e rest with
  | nil => exact hrows
  | cons y node children row _ ih =>
    rw [cons_append] at hrows
    have hy : y ∈ (fill u x (k ++ cons y node children (row ++ l)) f).ids :=
      row_subset_fill (Forest.mem_ids_of_site? hs) (by simp)
    rw [solid_of_ne_nil (ne_nil_of_mem_ids hy)] at hrows
    have hnodup := he.nodup_row (hrows.mem_iff.2 List.mem_cons_self)
    obtain ⟨r, hr, -⟩ := exists_site?_fill hf hs hnodup
    have hdetached := he.detach_rows hrows hr
    rw [without, rewrite_fill nil hf hs hnodup fun _ => rfl, nil_append] at hdetached
    rw [topIds_cons, Document.detachAll, List.foldl_cons, trees, List.cons_append]
    exact (ih (he.detach y) (hdetached.trans List.perm_middle.symm)).trans
      ((List.perm_middle.append_left _).trans List.perm_middle)

/-! ## Documents after edits -/

theorem Distinct.update_rows (hd : d.Distinct) (change : Node → Node)
    (hrows : d.allRows.Perm (row :: rest)) (hx : x ∈ row.ids) :
    (d.update x change).allRows.Perm (row.update x change :: rest) := by
  have hnodup := (hrows.flatMap_right Forest.ids).nodup_iff.1 hd.nodup
  rw [List.flatMap_cons] at hnodup
  have hrest : rest.map (·.update x change) = rest := by
    refine (List.map_congr_left fun other hother => ?_).trans rest.map_id
    exact update_of_notMem fun hmem => List.disjoint_of_nodup_append hnodup hx
      (List.mem_flatMap.2 ⟨other, hother, hmem⟩)
  rw [update_allRows]
  exact (hrows.map _).trans (by rw [List.map_cons, hrest])

namespace Unfolds

/-- Edits that only move nodes leave documents unfoldings of one another, if their rows are. -/
theorem of_moved (h : d.Unfolds u e) (lots : List Lot) (hd : d.Moved d') (he : e.Moved e')
    (hlots : Lots u d'.allRows e'.allRows lots) : d'.Unfolds u e' where
  distinct := h.distinct.moved hd
  distinct' := h.distinct'.moved he
  rooted := by
    rw [hd.frame.root, ids_eq_map_nodes, (hd.perm.map _).mem_iff, ← ids_eq_map_nodes]
    exact h.rooted
  root := by rw [hd.frame.root, h.root]
  root_eq := by rw [he.frame.root, hd.frame.root, h.root_eq]
  declaration_eq := by rw [he.frame.declaration, hd.frame.declaration, h.declaration_eq]
  fits entry hentry := h.fits entry (hd.perm.mem_iff.1 hentry)
  lots := ⟨lots, hlots⟩

/-! ## Taking out -/

section Row

variable (h : d.Unfolds u e) (hlots : Lots u d.allRows e.allRows (⟨husk?, f⟩ :: others))
  (hs : f.site? x = some s)

include h hlots hs

theorem detach_plain : (d.detach x).allRows.Perm
    (single x s.node s.children ::
      (Lot.plain ⟨husk?, f.without x⟩ ++ others.flatMap Lot.plain)) := by
  have hx := Forest.mem_ids_of_site? hs
  have hnodup := h.nodup_row hlots hx
  have hrow := Lot.site?_row ⟨husk?, f⟩ hnodup hs
  have hdetached := h.distinct.detach_rows (row_perm hlots hx) hrow
  rwa [without, Lot.solid_rewrite_row ⟨husk?, f⟩ hnodup hx] at hdetached

theorem detach_unfolded :
    (e.detachAll (u.slot x s.node (s.children.unfold u)).topIds).allRows.Perm
      ((u.slot x s.node (s.children.unfold u)).trees ++
        (Lot.unfolded u ⟨husk?, f.without x⟩ ++ others.flatMap (Lot.unfolded u))) := by
  have hx := Forest.mem_ids_of_site? hs
  have hnodup := h.nodup_inner hlots hx
  have hrows := h.unfolded_perm hlots hx
  rw [← List.singleton_append, ← solid_of_ne_nil (h.unfold_ne_nil hlots hx),
    unfold_eq_fill hnodup hs] at hrows
  have hdetached := h.distinct'.detachAll_fill nil _ nil hnodup hs
    (by rwa [append_nil, nil_append])
  rw [append_nil, ← unfold_without hnodup hs] at hdetached
  rw [Lot.unfolded, List.append_assoc]
  exact hdetached

end Row

/-- A node that is not unfolded can be taken out. -/
theorem detach_of_none (h : d.Unfolds u e) (hx : x ∈ d.ids) (hframe : u.frame? x = none) :
    (d.detach x).Unfolds u (e.detach (u.name x)) := by
  obtain ⟨husk?, f, others, hlots, hmem⟩ := h.exists_lot_of_none hx hframe
  obtain ⟨s, hs⟩ := Forest.exists_site? hmem
  have hsound := List.forall_mem_cons.1 hlots.sound
  have hunfolded := h.detach_unfolded hlots hs
  rw [Unfolding.slot_of_none hframe] at hunfolded
  refine h.of_moved (⟨none, single x s.node s.children⟩ :: ⟨husk?, f.without x⟩ :: others)
    ⟨detach_sameFrame d x, detach_perm d x⟩ ⟨detach_sameFrame _ _, detach_perm _ _⟩
    ⟨h.detach_plain hlots hs, ?_, ?_⟩
  · rw [List.flatMap_cons, Lot.unfolded_tree hframe]
    exact hunfolded
  · exact List.forall_mem_cons.2 ⟨Lot.sound_tree hframe _ _,
      List.forall_mem_cons.2 ⟨hsound.1.without (h.nodup_inner hlots hmem), hsound.2⟩⟩

/-- A field that is unfolded, and displays a single node, can be taken out with all of its runs. -/
theorem detach_of_some (h : d.Unfolds u e) (hx : x ∈ d.ids) (hframe : u.frame? x ≠ none)
    (hbelow : d.below x = single y node f) (hy : u.frame? y = none) :
    (d.detach x).Unfolds u (e.detachAll ((d.tree x).unfold u).topIds) := by
  obtain ⟨⟨before, after⟩, hsome⟩ := Option.ne_none_iff_exists'.1 hframe
  have hmoved : d.Moved (d.detach x) := ⟨detach_sameFrame d x, detach_perm d x⟩
  have hmoved' : ∀ xs, e.Moved (e.detachAll xs) := fun xs =>
    ⟨detachAll_sameFrame e xs, detachAll_perm e xs⟩
  obtain ⟨s, hs⟩ := Document.exists_site? hx
  rw [below_eq_site?, hs, Option.map_some, Option.getD_some] at hbelow
  rw [tree_of_site? hs, unfold_single, hbelow]
  obtain ⟨husk?, g, others, hlots, hmem | ⟨n, rfl⟩⟩ := h.exists_lot hx
  · have hsite := (h.site?_eq hlots hmem).symm.trans hs
    have hsound := List.forall_mem_cons.1 hlots.sound
    have hplain := h.detach_plain hlots hsite
    have hunfolded := h.detach_unfolded hlots hsite
    rw [hbelow] at hplain hunfolded
    refine h.of_moved (⟨some (x, s.node), single y node f⟩ :: ⟨husk?, g.without x⟩ :: others)
      hmoved (hmoved' _) ⟨hplain, ?_, ?_⟩
    · exact hunfolded.trans ((Lot.unfolded_husk hsome hy s.node node f).append_right _)
    · exact List.forall_mem_cons.2 ⟨Lot.sound_husk hframe hy _ _ _,
        List.forall_mem_cons.2 ⟨hsound.1.without (h.nodup_inner hlots hmem), hsound.2⟩⟩
  · have hplain : d.allRows.Perm (single x n g :: others.flatMap Lot.plain) := hlots.plain
    have hrow : single x n g ∈ d.allRows := hplain.mem_iff.2 List.mem_cons_self
    have hsite := h.distinct.site?_of_row hrow (List.mem_cons_self : x ∈ (single x n g).ids)
    rw [hs, single, Forest.site?, if_pos rfl, Option.some.injEq] at hsite
    subst hsite
    subst hbelow
    have hunfolded := hlots.unfolded
    rw [List.flatMap_cons] at hunfolded
    have htrees := (Lot.unfolded_husk hsome hy n node f).append_right (others.flatMap (Lot.unfolded u))
    refine h.of_moved (⟨some (x, n), single y node f⟩ :: others) hmoved (hmoved' _)
      ⟨h.distinct.detach_alone hplain, ?_, hlots.sound⟩
    exact (h.distinct'.detachAll_alone (hunfolded.trans htrees.symm)).trans htrees

/-! ## Unwrapping -/

/-- A field that has been taken out encloses what it displays, and is not enclosed. -/
theorem parent?_of_husk (h : d.Unfolds u e)
    (hlots : Lots u d.allRows e.allRows (⟨some (x, node), f⟩ :: others)) : d.parent? x = none := by
  have hplain : d.allRows.Perm (single x node f :: others.flatMap Lot.plain) := hlots.plain
  have hrow : single x node f ∈ d.allRows := hplain.mem_iff.2 List.mem_cons_self
  have henclosing := h.distinct.enclosing_of_row hrow (List.mem_cons_self : x ∈ (single x node f).ids)
  rw [single, ancestors?, if_pos rfl] at henclosing
  rw [parent?, ancestors, henclosing]
  rfl

/-- A node with a parent stands below the first nodes of its row, if that parent is not unfolded. -/
theorem notMem_topIds (h : d.Unfolds u e)
    (hlots : Lots u d.allRows e.allRows (⟨husk?, f⟩ :: others)) (hx : x ∈ f.ids)
    (hparent : (d.parent? x).isSome) (hclear : ∀ z, d.parent? x = some z → u.frame? z = none) :
    x ∉ f.topIds := by
  intro htop
  obtain ⟨above, habove, henclosing⟩ := h.enclosing_eq hlots hx
  rw [ancestors?_of_mem_topIds (h.nodup_inner hlots hx) htop, Option.some.injEq] at habove
  subst habove
  cases husk? with
  | none =>
    rw [parent?, ancestors, henclosing] at hparent
    cases hparent
  | some entry =>
    refine (hlots.sound _ List.mem_cons_self).husk entry rfl (hclear _ ?_)
    rw [parent?, ancestors, henclosing]
    rfl

section Row

variable (h : d.Unfolds u e) (hlots : Lots u d.allRows e.allRows (⟨husk?, f⟩ :: others))
  (hs : f.site? x = some s)

include h hlots hs

theorem unwrap_plain (hparent : (d.parent? x).isSome) : (d.unwrap x).allRows.Perm
    (single x s.node nil :: (Lot.plain ⟨husk?, f.dissolve x⟩ ++ others.flatMap Lot.plain)) := by
  have hx := Forest.mem_ids_of_site? hs
  have hnodup := h.nodup_row hlots hx
  have hrow := Lot.site?_row ⟨husk?, f⟩ hnodup hs
  have hunwrapped := h.distinct.unwrap_rows (row_perm hlots hx) hrow hparent
  rwa [dissolve, Lot.solid_rewrite_row ⟨husk?, f⟩ hnodup hx] at hunwrapped

/-- The runs before and after what a field displays are taken out. -/
theorem unwrap_unfolded {before after : Forest} (hframe : u.frame? x = some (before, after)) :
    (e.detachAll (before.topIds ++ after.topIds)).allRows.Perm
      (before.trees ++ after.trees ++
        (Lot.unfolded u ⟨husk?, f.dissolve x⟩ ++ others.flatMap (Lot.unfolded u))) := by
  have hx := Forest.mem_ids_of_site? hs
  have hnodup := h.nodup_inner hlots hx
  have hrows := h.unfolded_perm hlots hx
  rw [← List.singleton_append, ← solid_of_ne_nil (h.unfold_ne_nil hlots hx),
    unfold_eq_fill hnodup hs, Unfolding.slot_of_some hframe] at hrows
  have hbefore := (h.distinct'.detachAll_fill nil _ _ hnodup hs hrows).trans
    (List.perm_append_comm_assoc _ _ _)
  rw [nil_append, ← append_nil after] at hbefore
  have hafter := (h.distinct'.detachAll before.topIds).detachAll_fill _ after nil hnodup hs hbefore
  rw [append_nil, ← unfold_dissolve hnodup hs] at hafter
  rw [Document.detachAll, List.foldl_append, Lot.unfolded, List.append_assoc]
  refine hafter.trans ?_
  rw [List.append_assoc]
  refine List.Perm.trans ?_ (List.perm_append_comm_assoc _ _ _)
  exact (List.perm_append_comm_assoc _ _ _).append_left _

end Row

/-- Where a field that is unfolded is unwrapped, its runs are taken out around what it displays. -/
theorem unwrap_of_some (h : d.Unfolds u e) (hx : x ∈ d.ids) {before after : Forest}
    (hframe : u.frame? x = some (before, after)) :
    (d.unwrap x).Unfolds u (e.detachAll (before.topIds ++ after.topIds)) := by
  have hmoved : d.Moved (d.unwrap x) := ⟨unwrap_sameFrame d x, unwrap_perm d x⟩
  have hmoved' : e.Moved (e.detachAll (before.topIds ++ after.topIds)) :=
    ⟨detachAll_sameFrame e _, detachAll_perm e _⟩
  obtain ⟨husk?, f, others, hlots, hmem | ⟨node, rfl⟩⟩ := h.exists_lot hx
  · obtain ⟨s, hs⟩ := Forest.exists_site? hmem
    have hsound := List.forall_mem_cons.1 hlots.sound
    have hnodup := h.nodup_inner hlots hmem
    have htop : x ∉ f.topIds := fun htop => by
      rw [hsound.1.tops x htop] at hframe
      cases hframe
    -- An unfolded field never stands at the top of its row, so it has a parent.
    have hparent : (d.parent? x).isSome := by
      obtain ⟨above, habove, henclosing⟩ := h.enclosing_eq hlots hmem
      rw [parent?, ancestors, henclosing]
      cases above with
      | nil => exact absurd (mem_topIds_of_ancestors? habove) htop
      | cons => rfl
    refine h.of_moved (⟨some (x, s.node), nil⟩ :: ⟨husk?, f.dissolve x⟩ :: others) hmoved hmoved'
      ⟨h.unwrap_plain hlots hs hparent, ?_, ?_⟩
    · refine (h.unwrap_unfolded hlots hs hframe).trans ?_
      rw [List.flatMap_cons, Lot.unfolded_of_some hframe, List.flatMap_cons]
      exact .refl _
    · refine List.forall_mem_cons.2 ⟨⟨fun entry hentry => ?_, fun _ htop => absurd htop List.not_mem_nil⟩,
        List.forall_mem_cons.2 ⟨hsound.1.dissolve hnodup htop, hsound.2⟩⟩
      cases hentry
      rw [hframe]
      exact Option.some_ne_none _
  · have hplain : d.allRows.Perm (single x node f :: others.flatMap Lot.plain) := hlots.plain
    have hsame : d.unwrap x = d.detach x := by rw [unwrap, h.parent?_of_husk hlots]
    have hunfolded := hlots.unfolded
    rw [List.flatMap_cons, Lot.unfolded_of_some hframe, ← trees_append,
      List.append_assoc] at hunfolded
    have hscraps := hunfolded.trans (List.perm_append_comm_assoc _ _ _)
    refine h.of_moved (⟨some (x, node), f⟩ :: others) hmoved hmoved' ⟨?_, ?_, hlots.sound⟩
    · rw [hsame]
      exact h.distinct.detach_alone hplain
    · rw [← topIds_append]
      refine ((h.distinct'.detachAll_alone hscraps).trans (List.perm_append_comm_assoc _ _ _)).trans ?_
      rw [List.flatMap_cons, Lot.unfolded_of_some hframe, ← trees_append, List.append_assoc]

/-- A node that is not unfolded can be unwrapped. -/
theorem unwrap_of_none (h : d.Unfolds u e) (hx : x ∈ d.ids) (hframe : u.frame? x = none)
    (hclear : ∀ z, d.parent? x = some z → u.frame? z = none) :
    (d.unwrap x).Unfolds u (e.unwrap (u.name x)) := by
  have hsame := h.parent?_eq hx hframe hclear
  cases hparent : d.parent? x with
  | none =>
    rw [hparent] at hsame
    rw [unwrap, unwrap, hparent, hsame]
    exact h.detach_of_none hx hframe
  | some z =>
    rw [hparent] at hsame
    have hsome : (d.parent? x).isSome := by rw [hparent]; rfl
    obtain ⟨husk?, f, others, hlots, hmem⟩ := h.exists_lot_of_none hx hframe
    obtain ⟨s, hs⟩ := Forest.exists_site? hmem
    have hsound := List.forall_mem_cons.1 hlots.sound
    have hnodup := h.nodup_inner hlots hmem
    have htop := h.notMem_topIds hlots hmem hsome hclear
    have hmade := h.nodup_unfold hlots hmem
    have hrows := h.unfolded_perm hlots hmem
    rw [unfold_eq_fill hnodup hs, Unfolding.slot_of_none hframe] at hmade hrows
    obtain ⟨r, hr, -⟩ := exists_site?_fill (k := nil) (l := nil) hnodup hs hmade
    have hunwrapped := h.distinct'.unwrap_rows hrows hr (by rw [hsame]; rfl)
    have hdissolved : (fill u x (single (u.name x) s.node (s.children.unfold u)) f).dissolve
        (u.name x) = fill u x (nil ++ (s.children.unfold u ++ nil)) f :=
      rewrite_fill (k := nil) (l := nil) _ hnodup hs hmade fun _ => rfl
    rw [hdissolved, nil_append, append_nil, ← unfold_dissolve hnodup hs] at hunwrapped
    refine h.of_moved (⟨none, single x s.node nil⟩ :: ⟨husk?, f.dissolve x⟩ :: others)
      ⟨unwrap_sameFrame d x, unwrap_perm d x⟩ ⟨unwrap_sameFrame _ _, unwrap_perm _ _⟩
      ⟨h.unwrap_plain hlots hs hsome, ?_, ?_⟩
    · rw [List.flatMap_cons, Lot.unfolded_tree hframe, List.flatMap_cons, Lot.unfolded,
        List.append_assoc]
      exact hunwrapped
    · exact List.forall_mem_cons.2 ⟨Lot.sound_tree hframe _ _,
        List.forall_mem_cons.2 ⟨hsound.1.dissolve hnodup htop, hsound.2⟩⟩

/-! ## Payloads -/

/-- A node that is not unfolded can be given another payload. -/
theorem update (h : d.Unfolds u e) (hx : x ∈ d.ids) (hframe : u.frame? x = none)
    (change : Node → Node) : (d.update x change).Unfolds u (e.update (u.name x) change) := by
  obtain ⟨husk?, f, others, hlots, hmem⟩ := h.exists_lot_of_none hx hframe
  obtain ⟨s, hs⟩ := Forest.exists_site? hmem
  have hsound := List.forall_mem_cons.1 hlots.sound
  have hrow := h.nodup_row hlots hmem
  have hnodup := h.nodup_inner hlots hmem
  have hmade := h.nodup_unfold hlots hmem
  have hsolid : ∀ {f : Forest} {y : NodeId}, y ∈ f.ids →
      (f.update y change).solid = [f.update y change] := fun hy =>
    solid_of_ne_nil (ne_nil_of_mem_ids (by rwa [ids_update]))
  refine ⟨h.distinct.update x change, h.distinct'.update _ change,
    (update_ids d x change).symm ▸ h.rooted, h.root, h.root_eq, h.declaration_eq, fun entry hentry before after hentryFrame => ?_,
    ⟨⟨husk?, f.update x change⟩ :: others, ?_, ?_, ?_⟩⟩
  · rw [nodes, update_allRows, List.flatMap_map, List.mem_flatMap] at hentry
    obtain ⟨row, hmemRow, hentry⟩ := hentry
    rcases of_mem_nodes_update hentry with heq | hentry
    · rw [heq, hframe] at hentryFrame
      cases hentryFrame
    · exact h.fits entry (List.mem_flatMap.2 ⟨row, hmemRow, hentry⟩) before after hentryFrame
  · have hin := Forest.mem_ids_of_site? (Lot.site?_row ⟨husk?, f⟩ hrow hs)
    have hplain := h.distinct.update_rows change (row_perm hlots hmem) hin
    rw [List.flatMap_cons, update_eq_rewrite hnodup, ← Lot.solid_rewrite_row ⟨husk?, f⟩ hrow hmem,
      ← update_eq_rewrite hrow, hsolid hin]
    exact hplain
  · have hin := mem_ids_unfold (u := u) hmem hframe
    have hunfolded := h.distinct'.update_rows change (h.unfolded_perm hlots hmem) hin
    rw [List.flatMap_cons, Lot.unfolded, List.append_assoc, ← unfold_update hnodup hmade hs hframe,
      hsolid hin]
    exact hunfolded
  · exact List.forall_mem_cons.2 ⟨⟨hsound.1.husk, fun t ht => hsound.1.tops t
      (topIds_update x change f ▸ ht)⟩, hsound.2⟩

/-! ## Moving a tree that stands alone -/

section Move

variable {c : Forest} {p : NodeId}
variable (h : d.Unfolds u e) (halone : single x node c ∈ d.allRows) (hx : u.frame? x = none)
  (hp : p ∈ d.ids) (hout : p ∉ (single x node c).ids)

include h halone hx

/-- A tree that stands alone is a lot of its own. -/
theorem lot_mem_of_alone (hlots : Lots u d.allRows e.allRows lots) :
    (⟨none, single x node c⟩ : Lot) ∈ lots := by
  have hself : x ∈ (single x node c).ids := List.mem_cons_self
  obtain ⟨⟨husk?, f⟩, hlot, hmem⟩ := hlots.exists_lot_of_mem (mem_ids_of_row halone hself)
  have hhusk := (hlots.sound _ hlot).husk
  replace hmem : x ∈ f.ids := hmem.resolve_right fun ⟨n, hsome⟩ => hhusk (x, n) hsome hx
  obtain ⟨others, hfront⟩ := hlots.exists_cons hlot
  have hrow : x ∈ (Lot.row ⟨husk?, f⟩).ids := by
    cases husk? with
    | none => exact hmem
    | some entry =>
      obtain ⟨y, m⟩ := entry
      change x ∈ (cons y m f nil).ids
      rw [ids_cons]
      exact List.mem_cons_of_mem _ (List.mem_append_left _ hmem)
  have hsame := h.distinct.row_unique (row_mem hfront hmem) halone hrow hself
  cases husk? with
  | none => exact (show f = single x node c from hsame) ▸ hlot
  | some entry =>
    cases hsame
    exact absurd hx (hhusk _ rfl)

theorem exists_lot_of_alone :
    ∃ others, Lots u d.allRows e.allRows (⟨none, single x node c⟩ :: others) := by
  obtain ⟨lots, hlots⟩ := h.lots
  exact hlots.exists_cons (h.lot_mem_of_alone halone hx hlots)

include hp hout

theorem exists_lots_of_alone : ∃ husk? f others,
    Lots u d.allRows e.allRows (⟨husk?, f⟩ :: ⟨none, single x node c⟩ :: others) ∧
      (p ∈ f.ids ∨ ∃ n, husk? = some (p, n)) := by
  obtain ⟨others, hlots⟩ := h.exists_lot_of_alone halone hx
  obtain ⟨⟨husk?, f⟩, hlot, hmem⟩ := hlots.exists_lot_of_mem hp
  rcases List.mem_cons.1 hlot with heq | hlot
  · cases heq
    exact hmem.elim (fun hin => absurd hin hout) fun hsome => nomatch hsome
  · obtain ⟨before, after, rfl⟩ := List.append_of_mem hlot
    exact ⟨husk?, f, before ++ after,
      hlots.perm ((List.perm_middle.cons _).trans (.swap _ _ _)), hmem⟩

variable (hstands : u.frame? p = none ∨ (d.parent? p).isSome)

include hstands

/-- A tree that stands alone is put into another row, where the same is done to what is made of both
rows. -/
theorem exists_moved {q : NodeId} {place place' : Forest → Forest → Option Forest}
    {graft graft' : Forest → Site → Forest} {made : Site → Forest}
    (hplace : ∀ tree row : Forest, row.ids.Nodup →
      place tree row = (row.site? p).map fun _ => row.rewrite p (graft tree))
    (hperm : ∀ tree row new, place tree row = some new → new.nodes.Perm (tree.nodes ++ row.nodes))
    (hplace' : ∀ tree row : Forest, row.ids.Nodup →
      place' tree row = (row.site? q).map fun _ => row.rewrite q (graft' tree))
    (hperm' : ∀ tree row new, place' tree row = some new →
      new.nodes.Perm (tree.nodes ++ row.nodes))
    (hgraft : ∀ f : Forest, f.ids.Nodup → (f.unfold u).ids.Nodup → ∀ s, f.site? p = some s →
      (∃ t, (f.unfold u).site? q = some t) ∧
        (f.unfold u).rewrite q (graft' ((single x node c).unfold u)) =
          (f.rewrite p (graft (single x node c))).unfold u)
    (hsolid : ∀ tree s, graft tree s ≠ nil) (hsolid' : ∀ tree s, graft' tree s ≠ nil)
    (hmade : ∀ s, graft (single x node c) s = made s ++ s.rest)
    (htops : ∀ s, ∀ t ∈ (made s).topIds, t = p ∨ t = x) :
    ∃ d' e', d.move place p x = some d' ∧ e.move place' q (u.name x) = some e' ∧
      d'.Unfolds u e' := by
  obtain ⟨husk?, f, others, hlots, hmem⟩ := h.exists_lots_of_alone halone hx hp hout
  have hmem : p ∈ f.ids := by
    refine hmem.resolve_right fun ⟨n, hhusk⟩ => ?_
    subst hhusk
    rcases hstands with hframe | hparent
    · exact (hlots.sound _ List.mem_cons_self).husk _ rfl hframe
    · rw [h.parent?_of_husk hlots] at hparent
      cases hparent
  obtain ⟨s, hs⟩ := Forest.exists_site? hmem
  have hsound := List.forall_mem_cons.1 hlots.sound
  have hnodup := h.nodup_inner hlots hmem
  have hrow := h.nodup_row hlots hmem
  obtain ⟨⟨t, ht⟩, hsame⟩ := hgraft f hnodup (h.nodup_unfold hlots hmem) s hs
  -- A tree that stands alone leaves an empty row behind.
  have hsource : ∀ (y : NodeId) (g : Forest), (single y node g).site? y = some ⟨node, g, .nil⟩ :=
    fun y g => by rw [single, Forest.site?, if_pos rfl]
  have hempty : ∀ (y : NodeId) (g : Forest), (single y node g).without y = nil := fun y g => by
    rw [without, single, rewrite_cons_self]
  obtain ⟨d', hd', hmoved, hplain⟩ := h.distinct.move_rows place graft hplace hperm
    (row_perm hlots hmem) (Lot.site?_row ⟨husk?, f⟩ hrow hs) (hsource x c)
  have hrows := h.unfolded_perm hlots hmem
  rw [List.flatMap_cons, Lot.unfolded_tree hx] at hrows
  obtain ⟨e', he', hmoved', hunfolded⟩ := h.distinct'.move_rows place' graft' hplace' hperm'
    (hrows.trans (List.perm_middle.cons _)) ht (hsource _ _)
  refine ⟨d', e', hd', he', h.of_moved
    (⟨husk?, f.rewrite p (graft (single x node c))⟩ :: others) hmoved hmoved' ⟨?_, ?_, ?_⟩⟩
  · rw [hempty] at hplain
    rw [List.flatMap_cons, ← Lot.solid_rewrite_row ⟨husk?, f⟩ hrow hmem,
      solid_of_ne_nil (rewrite_ne_nil (hsolid _) (ne_nil_of_mem_ids
        (Forest.mem_ids_of_site? (Lot.site?_row ⟨husk?, f⟩ hrow hs))))]
    exact hplain
  · rw [hempty] at hunfolded
    rw [unfold_single, Unfolding.slot_of_none hx] at hsame
    rw [List.flatMap_cons, Lot.unfolded, List.append_assoc, ← hsame,
      solid_of_ne_nil (rewrite_ne_nil (hsolid' _) (h.unfold_ne_nil hlots hmem))]
    exact hunfolded
  · refine List.forall_mem_cons.2 ⟨⟨hsound.1.husk, fun t ht => ?_⟩,
      (List.forall_mem_cons.1 hsound.2).2⟩
    rcases mem_topIds_rewrite hmade hnodup hs ht with ht | ⟨htop, ht⟩
    · exact hsound.1.tops t ht
    · rcases htops s t ht with rfl | rfl
      · exact hsound.1.tops t htop
      · exact hx

/-- A tree that stands alone comes after another node. -/
theorem insertAfter : ∃ d' e', d.insertAfter p x = some d' ∧
    e.insertAfter (u.stop p) (u.name x) = some e' ∧ d'.Unfolds u e' := by
  refine h.exists_moved halone hx hp hout hstands
    (fun _ _ h => insertAfter?_eq_site? h) (fun _ _ _ h => insertAfter?_perm h)
    (fun _ _ h => insertAfter?_eq_site? h) (fun _ _ _ h => insertAfter?_perm h)
    (fun f hf hmade s hs => unfold_after hf hmade hs (fun _ _ hframe => h.after_ne_nil hp hframe) _)
    (fun _ _ => nofun) (fun _ _ => nofun)
    (fun s => show _ = cons p s.node s.children (single x node c) ++ s.rest from rfl) fun s t ht => ?_
  simpa [single] using ht

omit hstands

variable (hframe : u.frame? p = none)

include hframe

/-- A tree that stands alone comes below another node. -/
theorem appendChild : ∃ d' e', d.appendChild p x = some d' ∧
    e.appendChild (u.name p) (u.name x) = some e' ∧ d'.Unfolds u e' := by
  refine h.exists_moved halone hx hp hout (.inl hframe)
    (fun _ _ h => appendChild?_eq_site? h) (fun _ _ _ h => appendChild?_perm h)
    (fun _ _ h => appendChild?_eq_site? h) (fun _ _ _ h => appendChild?_perm h)
    (fun f hf hmade s hs => unfold_below hf hmade hs hframe _)
    (fun _ _ => nofun) (fun _ _ => nofun)
    (fun s => show _ = single p s.node (s.children ++ single x node c) ++ s.rest from rfl)
    fun s t ht => ?_
  exact .inl (by simpa [single] using ht)

/-- A tree that stands alone comes before another node. -/
theorem insertBefore : ∃ d' e', d.insertBefore p x = some d' ∧
    e.insertBefore (u.name p) (u.name x) = some e' ∧ d'.Unfolds u e' := by
  have hsolid : ∀ tree (k : Forest) (y : NodeId) (s : Site),
      tree ++ cons y s.node s.children k ≠ nil := fun tree _ _ _ => by cases tree <;> nofun
  refine h.exists_moved halone hx hp hout (.inl hframe)
    (fun _ _ h => insertBefore?_eq_site? h) (fun _ _ _ h => insertBefore?_perm h)
    (fun _ _ h => insertBefore?_eq_site? h) (fun _ _ _ h => insertBefore?_perm h)
    (fun f hf hmade s hs => unfold_before hf hmade hs hframe _)
    (fun _ _ => hsolid _ _ _ _) (fun _ _ => hsolid _ _ _ _)
    (fun s => show _ = (single x node c ++ single p s.node s.children) ++ s.rest from rfl)
    fun s t ht => ?_
  simpa [single, or_comm] using ht

end Move

end Unfolds

end Document

end MailMerge.Xml
