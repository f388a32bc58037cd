import MailMerge.Proofs.Xml.Rows

/-!
# Rows below a node

Most edits concern the children of one node. A row is seen as what surrounds them, filled with the
row of these children, so that an edit of the children is an edit of the whole.
-/

namespace MailMerge.Xml

namespace Forest

variable {x y r : NodeId} {f g h around : Forest} {s : Site} {change : Site → Forest}

/-- Puts a row in the place of the children of a node. -/
def refill (around : Forest) (r : NodeId) (f : Forest) : Forest :=
  around.rewrite r fun s => cons r s.node f s.rest

/-! ## A row and one after it -/

@[simp] theorem rewrite_cons_self (node : Node) (children rest : Forest) :
    (cons x node children rest).rewrite x change = change ⟨node, children, rest⟩ := by
  rw [rewrite, if_pos rfl]

theorem rewrite_append_of_notMem (hx : x ∉ f.ids) :
    (f ++ g).rewrite x change = f ++ g.rewrite x change := by
  induction f with
  | nil => rfl
  | cons id node children rest _ ih =>
    simp only [ids_cons, List.mem_cons, List.mem_append, not_or] at hx
    rw [cons_append, rewrite, if_neg (Ne.symm hx.1), rewrite_of_notMem hx.2.1, ih hx.2.2,
      cons_append]

theorem graftAfter_append_cons (row : Forest) (node : Node) (children : Forest) (hx : x ∉ f.ids) :
    graftAfter x row (f ++ cons x node children g) = f ++ cons x node children (row ++ g) := by
  rw [graftAfter, rewrite_append_of_notMem hx, rewrite_cons_self]

theorem site?_append_cons (node : Node) (children : Forest) (hx : x ∉ f.ids) :
    (f ++ cons x node children g).site? x = some ⟨node, children, g⟩ := by
  induction f with
  | nil => rw [nil_append, site?, if_pos rfl]
  | cons id n c rest _ ih =>
    simp only [ids_cons, List.mem_cons, List.mem_append, not_or] at hx
    rw [cons_append, site?, if_neg (Ne.symm hx.1), site?_eq_none_iff.2 hx.2.1, Option.none_or,
      ih hx.2.2]

/-! ## What is filled in -/

theorem refill_cons_of_ne {id : NodeId} (node : Node) (children rest : Forest) (hne : id ≠ r) :
    (cons id node children rest).refill r f =
      cons id node (children.refill r f) (rest.refill r f) := by
  rw [refill, rewrite, if_neg hne]
  rfl

theorem refill_of_notMem (hr : r ∉ around.ids) : around.refill r f = around :=
  rewrite_of_notMem hr

theorem site?_refill_self (hs : around.site? r = some s) :
    (around.refill r f).site? r = some { s with children := f } := by
  induction around with
  | nil => cases hs
  | cons id node children rest ihc ihr =>
    rw [site?] at hs
    split at hs
    next heq =>
      cases hs
      rw [heq, refill, rewrite_cons_self, site?, if_pos rfl]
    next hne =>
      rw [refill_cons_of_ne node children rest hne, site?, if_neg hne]
      rcases Option.or_eq_some_iff.1 hs with hs | ⟨hnone, hs⟩
      · rw [ihc hs, Option.some_or]
      · rw [refill_of_notMem (site?_eq_none_iff.1 hnone), hnone, Option.none_or, ihr hs]

theorem refill_self (hs : around.site? r = some s) (haround : around.ids.Nodup) :
    around.refill r s.children = around := by
  induction around with
  | nil => rfl
  | cons id node children rest ihc ihr =>
    obtain ⟨-, -, hchildren, hrest, hdisj⟩ := nodup_cons_iff.1 haround
    rw [site?] at hs
    split at hs
    next heq =>
      cases hs
      rw [heq, refill, rewrite_cons_self]
    next hne =>
      rw [refill_cons_of_ne node children rest hne]
      rcases Option.or_eq_some_iff.1 hs with hs | ⟨hnone, hs⟩
      · rw [ihc hs hchildren, refill_of_notMem (hdisj r (mem_ids_of_site? hs))]
      · rw [ihr hs hrest, refill_of_notMem (site?_eq_none_iff.1 hnone)]

theorem refill_single (x : NodeId) (node : Node) (children row : Forest) :
    (single x node children).refill x row = single x node row := rewrite_cons_self ..

/-- A row put below a node comes after what is filled in there. -/
theorem graftBelow_refill (around f g : Forest) (r : NodeId) :
    graftBelow r g (around.refill r f) = around.refill r (f ++ g) := by
  induction around with
  | nil => rfl
  | cons id node children rest ihc ihr =>
    by_cases heq : id = r
    · rw [heq, graftBelow, refill, refill, rewrite_cons_self, rewrite_cons_self,
        rewrite_cons_self]
    · rw [refill_cons_of_ne _ _ _ heq, refill_cons_of_ne _ _ _ heq, graftBelow, rewrite,
        if_neg heq]
      exact congrArg₂ (cons id node) ihc ihr

theorem mem_ids_refill (hr : r ∈ around.ids) (hy : y ∈ f.ids) : y ∈ (around.refill r f).ids := by
  obtain ⟨s, hs⟩ := exists_site? hr
  exact mem_of_mem_children (site?_refill_self hs) hy

theorem mem_ids_refill_self (hr : r ∈ around.ids) : r ∈ (around.refill r f).ids := by
  obtain ⟨s, hs⟩ := exists_site? hr
  exact mem_ids_of_site? (site?_refill_self hs)

theorem nodup_of_refill (hr : r ∈ around.ids) (hnodup : (around.refill r f).ids.Nodup) :
    f.ids.Nodup := by
  obtain ⟨s, hs⟩ := exists_site? hr
  exact nodup_children hnodup (site?_refill_self hs)

theorem notMem_of_refill (hr : r ∈ around.ids) (hnodup : (around.refill r f).ids.Nodup) :
    r ∉ f.ids := by
  obtain ⟨s, hs⟩ := exists_site? hr
  exact notMem_children_self hnodup (site?_refill_self hs)

theorem solid_refill (hr : r ∈ around.ids) : (around.refill r f).solid = [around.refill r f] := by
  cases h : around.refill r f with
  | nil =>
    have hmem := mem_ids_refill_self (f := f) hr
    rw [h] at hmem
    cases hmem
  | cons id node children rest => rfl

/-- Nodes that are filled in have the sites that they have in what is filled in. -/
theorem site?_refill (hr : r ∈ around.ids) (hnodup : (around.refill r f).ids.Nodup)
    (hy : y ∈ f.ids) : (around.refill r f).site? y = f.site? y := by
  obtain ⟨s, hs⟩ := exists_site? hr
  exact site?_of_mem_children hnodup (site?_refill_self hs) hy

/-- An edit of what is filled in is an edit of the whole. -/
theorem rewrite_refill (hr : r ∈ around.ids) (hnodup : (around.refill r f).ids.Nodup)
    (hx : x ∈ f.ids) : (around.refill r f).rewrite x change = around.refill r (f.rewrite x change) := by
  induction around with
  | nil => cases hr
  | cons id node children rest ihc ihr =>
    have hrx : r ≠ x := fun h => notMem_of_refill hr hnodup (h ▸ hx)
    by_cases heq : id = r
    · rw [heq, refill, rewrite_cons_self] at hnodup
      obtain ⟨-, -, -, -, hdisj⟩ := nodup_cons_iff.1 hnodup
      rw [heq, refill, refill, rewrite_cons_self, rewrite_cons_self, rewrite, if_neg hrx,
        rewrite_of_notMem (hdisj x hx)]
    · rw [refill_cons_of_ne _ _ _ heq] at hnodup ⊢
      rw [refill_cons_of_ne _ _ _ heq]
      obtain ⟨hidc, hidr, hchildren, hrest, hdisj⟩ := nodup_cons_iff.1 hnodup
      rw [ids_cons, List.mem_cons, List.mem_append] at hr
      rcases hr.resolve_left (Ne.symm heq) with hr | hr
      · have hmem := mem_ids_refill hr hx
        have hid : id ≠ x := fun h => hidc (h ▸ hmem)
        have hout : r ∉ rest.ids := fun h =>
          hdisj r (mem_ids_refill_self hr) (mem_ids_refill_self h)
        rw [rewrite, if_neg hid, ihc hr hchildren, rewrite_of_notMem (hdisj x hmem),
          refill_of_notMem hout, refill_of_notMem hout]
      · have hmem := mem_ids_refill hr hx
        have hid : id ≠ x := fun h => hidr (h ▸ hmem)
        have hx' : x ∉ (children.refill r f).ids := fun h => hdisj x h hmem
        have hout : r ∉ children.ids := fun h =>
          hdisj r (mem_ids_refill_self h) (mem_ids_refill_self hr)
        rw [rewrite, if_neg hid, ihr hr hrest, rewrite_of_notMem hx', refill_of_notMem hout,
          refill_of_notMem hout]

theorem exists_ancestors? (hx : x ∈ f.ids) : ∃ above, f.ancestors? x = some above :=
  Option.ne_none_iff_exists'.1 fun h => ancestors?_eq_none_iff.1 h hx

/-- Nodes that are filled in are enclosed by the node around them, and by what encloses that. -/
theorem ancestors?_refill {above inner : List (NodeId × Node)} (hs : around.site? r = some s)
    (habove : around.ancestors? r = some above) (hnodup : (around.refill r f).ids.Nodup)
    (hy : f.ancestors? y = some inner) :
    (around.refill r f).ancestors? y = some (inner ++ (r, s.node) :: above) := by
  have hyf : y ∈ f.ids := by
    by_contra hout
    rw [ancestors?_eq_none_iff.2 hout] at hy
    cases hy
  induction around generalizing above with
  | nil => cases hs
  | cons id node children rest ihc ihr =>
    -- The node around the row is none of its own.
    have hry : r ≠ y := fun h => notMem_of_refill (mem_ids_of_site? hs) hnodup (h ▸ hyf)
    rw [site?] at hs
    rw [ancestors?] at habove
    by_cases heq : id = r
    · rw [if_pos heq] at hs habove
      cases hs
      cases habove
      rw [heq, refill, rewrite_cons_self, ancestors?, if_neg hry, hy]
      rfl
    · rw [if_neg heq] at hs habove
      rw [refill_cons_of_ne _ _ _ heq] at hnodup ⊢
      obtain ⟨hidc, hidr, hchildren, hrest, hdisj⟩ := nodup_cons_iff.1 hnodup
      rw [ancestors?]
      rcases Option.or_eq_some_iff.1 hs with hs | ⟨hnone, hs⟩
      · have hmem := mem_ids_refill (mem_ids_of_site? hs) hyf
        have hid : id ≠ y := fun h => hidc (h ▸ hmem)
        obtain ⟨a, ha⟩ := exists_ancestors? (mem_ids_of_site? hs)
        rw [ha, Option.map_some, Option.some_or] at habove
        cases habove
        rw [if_neg hid, ihc hs ha hchildren, Option.map_some, Option.some_or, List.append_assoc,
          List.cons_append]
      · have hmem := mem_ids_refill (mem_ids_of_site? hs) hyf
        have hid : id ≠ y := fun h => hidr (h ▸ hmem)
        have hout := Forest.site?_eq_none_iff.1 hnone
        rw [ancestors?_eq_none_iff.2 hout, Option.map_none, Option.none_or] at habove
        have hout' : y ∉ (children.refill r f).ids := fun h => hdisj y h hmem
        rw [if_neg hid, ancestors?_eq_none_iff.2 hout', Option.map_none, Option.none_or,
          ihr hs habove hrest]

theorem ancestors?_append_cons (node : Node) (children : Forest) (hx : x ∉ f.ids) :
    (f ++ cons x node children g).ancestors? x = some [] := by
  induction f with
  | nil => rw [nil_append, ancestors?, if_pos rfl]
  | cons id n c rest _ ih =>
    simp only [ids_cons, List.mem_cons, List.mem_append, not_or] at hx
    rw [cons_append, ancestors?, if_neg (Ne.symm hx.1), ancestors?_eq_none_iff.2 hx.2.1,
      Option.map_none, Option.none_or, ih hx.2.2]

theorem update_of_notMem {f : Forest} {change : Node → Node} (hx : x ∉ f.ids) :
    f.update x change = f := by
  induction f with
  | nil => rfl
  | cons id node children rest ihc ihr =>
    simp only [ids_cons, List.mem_cons, List.mem_append, not_or] at hx
    rw [update, if_neg (Ne.symm hx.1), ihc hx.2.1, ihr hx.2.2]

theorem ids_update (x : NodeId) (change : Node → Node) (f : Forest) :
    (f.update x change).ids = f.ids := by
  induction f with
  | nil => rfl
  | cons id node children rest ihc ihr => rw [update, ids_cons, ids_cons, ihc, ihr]

theorem nodes_update (x : NodeId) (change : Node → Node) (f : Forest) :
    (f.update x change).nodes =
      f.nodes.map fun entry => (entry.1, if entry.1 = x then change entry.2 else entry.2) := by
  induction f with
  | nil => rfl
  | cons y node children rest ihc ihr =>
    rw [update, nodes, nodes, ihc, ihr, List.map_cons, List.map_append]

theorem topIds_update (x : NodeId) (change : Node → Node) (f : Forest) :
    (f.update x change).topIds = f.topIds := by
  induction f with
  | nil => rfl
  | cons y n c r _ ih => rw [update, topIds_cons, topIds_cons, ih]

theorem site?_update (x : NodeId) (change : Node → Node) (f : Forest) (y : NodeId) :
    (f.update x change).site? y = (f.site? y).map fun s =>
      ⟨if y = x then change s.node else s.node, s.children.update x change,
        s.rest.update x change⟩ := by
  induction f with
  | nil => rfl
  | cons id node children rest ihc ihr =>
    rw [update, site?, site?, ihc, ihr]
    split
    next heq => simp [heq]
    next =>
      cases children.site? y with
      | none => rfl
      | some s => rfl

theorem refill_sublist (h : f.ids.Sublist g.ids) :
    (around.refill r f).ids.Sublist (around.refill r g).ids := by
  induction around with
  | nil => exact .refl _
  | cons id node children rest ihc ihr =>
    by_cases heq : id = r
    · rw [heq, refill, refill, rewrite_cons_self, rewrite_cons_self, ids_cons, ids_cons]
      exact (h.append_right _).cons_cons r
    · rw [refill_cons_of_ne _ _ _ heq, refill_cons_of_ne _ _ _ heq, ids_cons, ids_cons]
      exact (ihc.append ihr).cons_cons id

/-- The children of a child that is filled in can be filled in on their own. -/
theorem refill_inner {p : NodeId} {node : Node} {children : Forest} (hr : r ∈ around.ids)
    (hnodup : (around.refill r (f ++ cons p node children g)).ids.Nodup) (row : Forest) :
    (around.refill r (f ++ cons p node nil g)).refill p row =
      around.refill r (f ++ cons p node row g) := by
  have hsub : (f ++ cons p node nil g).ids.Sublist (f ++ cons p node children g).ids := by
    simp only [ids_append, ids_cons, ids_nil, List.nil_append]
    exact ((List.sublist_append_right _ _).cons_cons p).append_left _
  have hp : p ∉ f.ids := by
    have hf := nodup_of_refill hr hnodup
    rw [ids_append, ids_cons] at hf
    exact fun hmem => (List.nodup_append.1 hf).2.2 p hmem p List.mem_cons_self rfl
  rw [refill, rewrite_refill hr (hnodup.sublist (refill_sublist hsub)) (by simp),
    rewrite_append_of_notMem hp, rewrite_cons_self]

end Forest

end MailMerge.Xml
