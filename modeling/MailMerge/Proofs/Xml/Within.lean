import MailMerge.Proofs.Xml.Detach

/-!
# Nodes within nodes

A node stands within those that it is at or below. This is an order, in which taking nodes out only
undoes what they stood between (`mem_descendants_detachAll`). A node is attached when it stands
within the root, and the nodes within the root come in document order.
-/

namespace MailMerge.Xml

namespace Forest

variable {a x y : NodeId} {f : Forest} {s : Site}

theorem ancestors?_eq_none_iff : f.ancestors? x = none ↔ x ∉ f.ids := by
  induction f with
  | nil => simp [ancestors?]
  | cons id node children rest ihc ihr =>
    rw [ancestors?]
    split
    next h => simp [h]
    next h => simp [ihc, ihr, Ne.symm h]

/-- A node stands below those that enclose it. -/
theorem mem_ancestors?_iff (hf : f.ids.Nodup) {above : List (NodeId × Node)}
    (h : f.ancestors? x = some above) :
    a ∈ above.map Prod.fst ↔ ∃ s, f.site? a = some s ∧ x ∈ s.children.ids := by
  induction f generalizing above with
  | nil => cases h
  | cons id node children rest ihc ihr =>
    obtain ⟨hidc, hidr, hchildren, hrest, hdisj⟩ := nodup_cons_iff.1 hf
    rw [ancestors?] at h
    split at h
    next heq =>
      cases h
      subst heq
      refine ⟨fun hmem => by simp at hmem, ?_⟩
      rintro ⟨s, hs, hx⟩
      rw [site?] at hs
      split at hs
      next => cases hs; exact absurd hx hidc
      next =>
        rcases Option.or_eq_some_iff.1 hs with hs | ⟨-, hs⟩
        · exact absurd (mem_of_mem_children hs hx) hidc
        · exact absurd (mem_of_mem_children hs hx) hidr
    next hid =>
      rw [site?]
      rcases Option.or_eq_some_iff.1 h with hbelow | ⟨hnone, hlater⟩
      -- The node stands below this one, which is then the farthest of those that enclose it.
      · obtain ⟨inner, hinner, rfl⟩ := Option.map_eq_some_iff.1 hbelow
        have hxc : x ∈ children.ids := by
          by_contra hx
          rw [ancestors?_eq_none_iff.2 hx] at hinner
          cases hinner
        rw [List.map_append, List.mem_append, ihc hchildren hinner]
        by_cases hida : id = a
        · subst hida
          simp [hxc]
        · rw [if_neg hida]
          simp only [List.map_cons, List.map_nil, List.mem_singleton, Ne.symm hida, or_false]
          refine exists_congr fun s => and_congr_left fun hx => ?_
          rw [Option.or_eq_some_iff]
          refine ⟨.inl, fun hs => hs.resolve_right ?_⟩
          rintro ⟨-, hs⟩
          exact hdisj x hxc (mem_of_mem_children hs hx)
      · have hxc : x ∉ children.ids := ancestors?_eq_none_iff.1 (Option.map_eq_none_iff.1 hnone)
        rw [ihr hrest hlater]
        by_cases hida : id = a
        · subst hida
          simp only [if_true, Option.some.injEq, site?_eq_none_iff.2 hidr]
          constructor
          · rintro ⟨_, hnone, _⟩
            cases hnone
          · rintro ⟨s, rfl, hx⟩
            exact absurd hx hxc
        · rw [if_neg hida]
          refine exists_congr fun s => and_congr_left fun hx => ?_
          rw [Option.or_eq_some_iff]
          constructor
          · intro hs
            refine .inr ⟨site?_eq_none_iff.2 fun ha => ?_, hs⟩
            exact hdisj a ha (mem_ids_of_site? hs)
          · rintro (hs | ⟨-, hs⟩)
            · exact absurd (mem_of_mem_children hs hx) hxc
            · exact hs

end Forest

namespace Document

open Forest

variable {d : Document} {a x y z : NodeId} {s : Site}

/-! ## Standing within a node -/

theorem mem_descendants_iff :
    y ∈ d.descendants x ↔ ∃ s, d.site? x = some s ∧ (y = x ∨ y ∈ s.children.ids) := by
  rw [descendants_eq_site?]
  cases d.site? x <;> simp

theorem mem_descendants_self (hx : x ∈ d.ids) : x ∈ d.descendants x := by
  obtain ⟨s, hs⟩ := exists_site? hx
  exact mem_descendants_iff.2 ⟨s, hs, .inl rfl⟩

theorem mem_descendants_iff_below (hx : x ∈ d.ids) :
    y ∈ d.descendants x ↔ y = x ∨ y ∈ (d.below x).ids := by
  obtain ⟨s, hs⟩ := exists_site? hx
  simp [mem_descendants_iff, below_eq_site?, hs]

theorem mem_descendants_of_mem_below (h : y ∈ (d.below x).ids) : y ∈ d.descendants x := by
  rw [below_eq_site?] at h
  cases hs : d.site? x with
  | none =>
    rw [hs] at h
    cases h
  | some s =>
    rw [hs] at h
    exact mem_descendants_iff.2 ⟨s, hs, .inr h⟩

theorem mem_below_of_find? {name : String} (h : d.find? x name = some y) : y ∈ (d.below x).ids := by
  obtain ⟨⟨_, n⟩, hn, rfl⟩ := Option.map_eq_some_iff.1 h
  exact List.mem_map_of_mem (List.mem_of_find?_eq_some hn)

theorem mem_ids_of_mem_descendants (h : y ∈ d.descendants x) : y ∈ d.ids := by
  obtain ⟨s, hs, rfl | hy⟩ := mem_descendants_iff.1 h
  · exact mem_ids_of_site? hs
  · exact mem_of_mem_children hs hy

theorem mem_ids_of_descendants (h : y ∈ d.descendants x) : x ∈ d.ids := by
  obtain ⟨s, hs, -⟩ := mem_descendants_iff.1 h
  exact mem_ids_of_site? hs

/-- The site of a node below another is the one that it has there. -/
theorem Distinct.site?_of_mem_children (hd : d.Distinct) (hs : d.site? x = some s)
    (hy : y ∈ s.children.ids) : d.site? y = s.children.site? y := by
  rw [site?_eq_forest (hd.numbered y (mem_of_mem_children hs hy))]
  exact Forest.site?_of_mem_children hd.nodup_forest (hd.forest_site? hs) hy

/-- The site of a node after another or below such a node is the one that it has there. -/
theorem Distinct.site?_of_mem_rest (hd : d.Distinct) (hs : d.site? x = some s)
    (hy : y ∈ s.rest.ids) : d.site? y = s.rest.site? y := by
  rw [site?_eq_forest (hd.numbered y (mem_of_mem_rest hs hy))]
  exact Forest.site?_of_mem_rest hd.nodup_forest (hd.forest_site? hs) hy

theorem Distinct.notMem_below_self (hd : d.Distinct) (x : NodeId) : x ∉ (d.below x).ids := by
  intro hin
  obtain ⟨s, hs⟩ := exists_site? (mem_ids_of_mem_descendants (mem_descendants_of_mem_below hin))
  rw [below_eq_site?, hs] at hin
  exact Forest.notMem_children_self hd.nodup_forest (hd.forest_site? hs) hin

theorem Distinct.mem_descendants_trans (hd : d.Distinct) (hzy : z ∈ d.descendants y)
    (hyx : y ∈ d.descendants x) : z ∈ d.descendants x := by
  obtain ⟨s, hs, rfl | hy⟩ := mem_descendants_iff.1 hyx
  · exact hzy
  · obtain ⟨t, ht, rfl | hz⟩ := mem_descendants_iff.1 hzy
    · exact hyx
    · rw [hd.site?_of_mem_children hs hy] at ht
      exact mem_descendants_iff.2 ⟨s, hs, .inr (Forest.mem_of_mem_children ht hz)⟩

theorem Distinct.nodup_descendants (hd : d.Distinct) (x : NodeId) : (d.descendants x).Nodup := by
  rw [descendants_eq_site?]
  cases hs : d.site? x with
  | none => exact List.nodup_nil
  | some s =>
    have hforest := hd.forest_site? hs
    exact List.nodup_cons.2
      ⟨notMem_children_self hd.nodup_forest hforest, nodup_children hd.nodup_forest hforest⟩

/-- Two nodes that stand within each other are one. -/
theorem Distinct.mem_descendants_antisymm (hd : d.Distinct) (hxy : x ∈ d.descendants y)
    (hyx : y ∈ d.descendants x) : x = y := by
  obtain ⟨s, hs, rfl | hy⟩ := mem_descendants_iff.1 hyx
  · rfl
  · obtain ⟨t, ht, rfl | hx⟩ := mem_descendants_iff.1 hxy
    · rfl
    · rw [hd.site?_of_mem_children hs hy] at ht
      exact absurd (Forest.mem_of_mem_children ht hx)
        (notMem_children_self hd.nodup_forest (hd.forest_site? hs))

/-! ## What is taken out -/

/-- Taking a node out undoes that it and what stands within it stand within others. -/
theorem Distinct.mem_descendants_detach (hd : d.Distinct) :
    y ∈ (d.detach x).descendants z ↔
      y ∈ d.descendants z ∧ (x ∈ d.descendants z → z ≠ x → y ∉ d.descendants x) := by
  rw [mem_descendants_iff, mem_descendants_iff, hd.site?_detach]
  cases hz : d.site? z with
  | none => simp
  | some s =>
    by_cases hzx : z = x
    · simp [hzx]
    · have hforest := hd.forest_site? hz
      by_cases hx : x ∈ s.children.ids
      · obtain ⟨t, ht⟩ := Forest.exists_site? hx
        have hsite : d.site? x = some t := (hd.site?_of_mem_children hz hx).trans ht
        have hxz : x ∈ d.descendants z := mem_descendants_iff.2 ⟨s, hz, .inr hx⟩
        have hbelow : y ∈ d.descendants x ↔ y = x ∨ y ∈ t.children.ids := by
          simp [mem_descendants_iff, hsite]
        have hzt : z ∉ t.children.ids := fun h =>
          notMem_children_self hd.nodup_forest hforest (Forest.mem_of_mem_children ht h)
        simp only [Option.map_some, hzx, if_false, Option.some.injEq, exists_eq_left',
          Site.map_children, mem_ids_without (nodup_children hd.nodup_forest hforest) ht, hbelow,
          not_or, hxz, not_false_eq_true, true_implies, ne_eq]
        constructor
        · rintro (rfl | ⟨h, hne, hnot⟩)
          · exact ⟨.inl rfl, hzx, hzt⟩
          · exact ⟨.inr h, hne, hnot⟩
        · rintro ⟨rfl | h, hne, hnot⟩
          · exact .inl rfl
          · exact .inr ⟨h, hne, hnot⟩
      · have hxz : x ∉ d.descendants z := by
          simp [mem_descendants_iff, hz, hx, Ne.symm hzx]
        simp [hzx, hxz, without, rewrite_of_notMem hx]

/-- Taking nodes out undoes that they and what stands within them stand within others. -/
theorem Distinct.mem_descendants_detachAll (hd : d.Distinct) (xs : List NodeId) :
    y ∈ (d.detachAll xs).descendants z ↔
      y ∈ d.descendants z ∧
        ∀ x ∈ xs, x ∈ d.descendants z → z ≠ x → y ∉ d.descendants x := by
  induction xs generalizing d with
  | nil => simp [Document.detachAll]
  | cons x xs ih =>
    rw [Document.detachAll, List.foldl_cons, ← Document.detachAll, ih (hd.detach x)]
    simp only [hd.mem_descendants_detach, List.forall_mem_cons, and_assoc]
    refine and_congr_right fun hyz => and_congr_right fun hx => ?_
    refine forall₂_congr fun w _ => ⟨fun h hwz hzw hyw => ?_, ?_⟩
    · refine h ⟨hwz, fun hxz hzx hwx => ?_⟩ hzw ⟨hyw, fun hxw hwx hyx => ?_⟩
      · exact hx hxz hzx (hd.mem_descendants_trans hyw hwx)
      · have hxz := hd.mem_descendants_trans hxw hwz
        refine hx hxz (fun hzx => hzw ?_) hyx
        exact hd.mem_descendants_antisymm (hzx ▸ hxw) hwz
    · exact fun h hwz hzw hyw => h hwz.1 hzw hyw.1

/-! ## Attached nodes -/

theorem mem_ancestors_rows {rows : List Forest} (hrows : (rows.flatMap Forest.ids).Nodup) :
    a ∈ ((rows.findSome? (·.ancestors? x)).getD []).map Prod.fst ↔
      ∃ s, rows.findSome? (·.site? a) = some s ∧ x ∈ s.children.ids := by
  induction rows with
  | nil => simp
  | cons row rows ih =>
    rw [List.flatMap_cons] at hrows
    obtain ⟨hrow, hlater, hdisj⟩ := List.nodup_append.1 hrows
    rw [List.findSome?_cons, List.findSome?_cons]
    have hin : ∀ s, row.site? a = some s → x ∈ s.children.ids → x ∈ row.ids :=
      fun s hs hx => Forest.mem_of_mem_children hs hx
    have hout : ∀ s, rows.findSome? (·.site? a) = some s → x ∈ s.children.ids →
        x ∈ rows.flatMap Forest.ids := by
      intro s hs hx
      obtain ⟨row', hmem, hsite⟩ := List.exists_of_findSome?_eq_some hs
      exact List.mem_flatMap.2 ⟨row', hmem, Forest.mem_of_mem_children hsite hx⟩
    -- The row that holds the node decides, and no other row holds one that encloses it.
    cases habove : row.ancestors? x with
    | some above =>
      have hx : x ∈ row.ids := by
        by_contra hx
        rw [ancestors?_eq_none_iff.2 hx] at habove
        cases habove
      rw [Option.getD_some, mem_ancestors?_iff hrow habove]
      refine exists_congr fun s => and_congr_left fun hxs => ?_
      cases hsite : row.site? a with
      | some t => rfl
      | none =>
        refine ⟨fun h => (by cases h), fun h => ?_⟩
        exact absurd rfl (hdisj x hx x (hout s h hxs))
    | none =>
      have hx : x ∉ row.ids := ancestors?_eq_none_iff.1 habove
      rw [ih hlater]
      refine exists_congr fun s => and_congr_left fun hxs => ?_
      cases hsite : row.site? a with
      | none => rfl
      | some t =>
        constructor
        · intro h
          obtain ⟨row', hmem, hlate⟩ := List.exists_of_findSome?_eq_some h
          have ha := List.mem_flatMap.2 ⟨row', hmem, Forest.mem_ids_of_site? hlate⟩
          exact absurd rfl (hdisj a (Forest.mem_ids_of_site? hsite) a ha)
        · intro h
          cases h
          exact absurd (hin _ hsite hxs) hx

/-- The nodes that enclose a node are those below which it stands. -/
theorem Distinct.mem_ancestors_iff (hd : d.Distinct) :
    a ∈ d.ancestors x ↔ ∃ s, d.site? a = some s ∧ x ∈ s.children.ids := by
  rw [ancestors, enclosing, search_eq_findSome?, site?_eq_findSome?]
  exact mem_ancestors_rows hd.nodup

/-- A node is attached when it stands within the root. -/
theorem WellFormed.isAttached_iff (hd : d.WellFormed) :
    d.isAttached x = true ↔ x ∈ d.descendants d.root := by
  obtain ⟨s, hs⟩ := exists_site? hd.rooted
  rw [isAttached, Bool.or_eq_true, beq_iff_eq, List.contains_iff_mem, hd.mem_ancestors_iff,
    mem_descendants_iff]
  simp only [hs, Option.some.injEq, exists_eq_left']

end Document

end MailMerge.Xml
