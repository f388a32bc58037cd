import MailMerge.Proofs.Xml.Site

/-!
# Edits as exchanges of a row

Every edit of a forest exchanges the rest of a row at one site. In a forest without repeated
identities an edit is described by what it does to the sites of all other nodes (`site?_rewrite`).
-/

namespace MailMerge.Xml.Forest

variable {x y : NodeId} {f g : Forest} {s : Site}

/-- Exchanges the row that begins with a node. -/
def rewrite (x : NodeId) (change : Site → Forest) : Forest → Forest
  | nil => nil
  | cons id node children rest =>
    if id = x then change ⟨node, children, rest⟩
    else cons id node (children.rewrite x change) (rest.rewrite x change)

/-! ## Edits are exchanges -/

theorem rewrite_of_notMem {change : Site → Forest} (h : x ∉ f.ids) : f.rewrite x change = f := by
  induction f with
  | nil => rfl
  | cons id node children rest ihc ihr =>
    simp only [ids_cons, List.mem_cons, List.mem_append, not_or] at h
    rw [rewrite, if_neg (Ne.symm h.1), ihc h.2.1, ihr h.2.2]

theorem map_rewrite_of_notMem {change : Site → Forest} (h : x ∉ f.ids) (hs : f.site? y = some s) :
    s.map (rewrite x change) = s := by
  have hc : x ∉ s.children.ids := fun hx => h (mem_of_mem_children hs hx)
  have hr : x ∉ s.rest.ids := fun hx => h (mem_of_mem_rest hs hx)
  simp [Site.map, rewrite_of_notMem hc, rewrite_of_notMem hr]

theorem map_site?_of_notMem (change : Site → Forest) (h : x ∉ f.ids) :
    (f.site? y).map (Site.map (rewrite x change)) = f.site? y := by
  cases hs : f.site? y with
  | none => rfl
  | some s => exact congrArg some (map_rewrite_of_notMem h hs)

/-- Exchanges the row that begins with a node, if there is such a node. -/
def edit? (x : NodeId) (change : Site → Forest) : Forest → Option Forest
  | nil => none
  | cons id node children rest =>
    if id = x then some (change ⟨node, children, rest⟩)
    else
      match edit? x change children with
      | some children => some (cons id node children rest)
      | none => (edit? x change rest).map (cons id node children)

/-- Without repeated identities an edit exchanges the row at one site and nothing else. -/
theorem edit?_eq_site? {change : Site → Forest} (hf : f.ids.Nodup) :
    edit? x change f = (f.site? x).map fun _ => f.rewrite x change := by
  induction f with
  | nil => rfl
  | cons id node children rest ihc ihr =>
    obtain ⟨-, -, hchildren, hrest, hne⟩ := nodup_cons_iff.1 hf
    rw [edit?, site?, rewrite]
    split
    next => rfl
    next =>
      rw [ihc hchildren, ihr hrest]
      cases hc : children.site? x with
      | none => cases rest.site? x <;> simp [rewrite_of_notMem (site?_eq_none_iff.1 hc)]
      | some s => simp [rewrite_of_notMem (hne x (mem_ids_of_site? hc))]

/-- A row put after a node. -/
def graftAfter (anchor : NodeId) (row : Forest) : Forest → Forest :=
  rewrite anchor fun s => cons anchor s.node s.children (row ++ s.rest)

/-- A row put before a node. -/
def graftBefore (anchor : NodeId) (row : Forest) : Forest → Forest :=
  rewrite anchor fun s => row ++ cons anchor s.node s.children s.rest

/-- A row put at the end of the row below a node. -/
def graftBelow (parent : NodeId) (row : Forest) : Forest → Forest :=
  rewrite parent fun s => cons parent s.node (s.children ++ row) s.rest

/-- A forest without a node and what stands below it. -/
def without (x : NodeId) : Forest → Forest := rewrite x Site.rest

/-- A forest with what stands below a node in its place. -/
def dissolve (x : NodeId) : Forest → Forest := rewrite x fun s => s.children ++ s.rest

theorem insertAfter?_eq_edit? (anchor : NodeId) (row f : Forest) :
    insertAfter? anchor row f =
      edit? anchor (fun s => cons anchor s.node s.children (row ++ s.rest)) f := by
  induction f with
  | nil => rfl
  | cons id node children rest ihc ihr =>
    rw [insertAfter?, edit?, ihc, ihr]
    split
    next h => rw [h]
    next => rfl

theorem insertBefore?_eq_edit? (anchor : NodeId) (row f : Forest) :
    insertBefore? anchor row f =
      edit? anchor (fun s => row ++ cons anchor s.node s.children s.rest) f := by
  induction f with
  | nil => rfl
  | cons id node children rest ihc ihr =>
    rw [insertBefore?, edit?, ihc, ihr]
    split
    next h => rw [h]
    next => rfl

theorem appendChild?_eq_edit? (parent : NodeId) (row f : Forest) :
    appendChild? parent row f =
      edit? parent (fun s => cons parent s.node (s.children ++ row) s.rest) f := by
  induction f with
  | nil => rfl
  | cons id node children rest ihc ihr =>
    rw [appendChild?, edit?, ihc, ihr]
    split
    next h => rw [h]
    next => rfl

theorem insertAfter?_eq_site? {row : Forest} (hf : f.ids.Nodup) :
    insertAfter? x row f = (f.site? x).map fun _ => graftAfter x row f := by
  rw [insertAfter?_eq_edit?, edit?_eq_site? hf]
  rfl

theorem insertBefore?_eq_site? {row : Forest} (hf : f.ids.Nodup) :
    insertBefore? x row f = (f.site? x).map fun _ => graftBefore x row f := by
  rw [insertBefore?_eq_edit?, edit?_eq_site? hf]
  rfl

theorem appendChild?_eq_site? {row : Forest} (hf : f.ids.Nodup) :
    appendChild? x row f = (f.site? x).map fun _ => graftBelow x row f := by
  rw [appendChild?_eq_edit?, edit?_eq_site? hf]
  rfl

theorem extract?_eq_site? (hf : f.ids.Nodup) :
    f.extract? x = (f.site? x).map fun s => (s.tree x, f.without x) := by
  induction f with
  | nil => rfl
  | cons id node children rest ihc ihr =>
    obtain ⟨-, -, hchildren, hrest, hne⟩ := nodup_cons_iff.1 hf
    rw [extract?, site?, without, rewrite, ihc hchildren, ihr hrest]
    split
    next h => simp [Site.tree, h]
    next =>
      cases hc : children.site? x with
      | none =>
        cases rest.site? x <;>
          simp [without, rewrite_of_notMem (site?_eq_none_iff.1 hc)]
      | some s => simp [without, rewrite_of_notMem (hne x (mem_ids_of_site? hc))]

theorem dissolve?_eq_site? (hf : f.ids.Nodup) :
    f.dissolve? x = (f.site? x).map fun s => (single x s.node nil, f.dissolve x) := by
  induction f with
  | nil => rfl
  | cons id node children rest ihc ihr =>
    obtain ⟨-, -, hchildren, hrest, hne⟩ := nodup_cons_iff.1 hf
    rw [dissolve?, site?, dissolve, rewrite, ihc hchildren, ihr hrest]
    split
    next h => simp [h]
    next =>
      cases hc : children.site? x with
      | none =>
        cases rest.site? x <;>
          simp [dissolve, rewrite_of_notMem (site?_eq_none_iff.1 hc)]
      | some s => simp [dissolve, rewrite_of_notMem (hne x (mem_ids_of_site? hc))]

/-! ## What an edit does to the sites of other nodes -/

/-- After the row at a site has been exchanged, the nodes that stood below or after that site are
to be looked for in the new row, and for all others the exchange happened in their rows. -/
theorem site?_rewrite {change : Site → Forest} (hf : f.ids.Nodup) (hs : f.site? x = some s)
    (hne : y ≠ x)
    (hnew : y ∈ f.ids → y ∉ s.children.ids → y ∉ s.rest.ids → y ∉ (change s).ids) :
    (f.rewrite x change).site? y =
      if y ∈ f.ids ∧ y ∉ s.children.ids ∧ y ∉ s.rest.ids then
        (f.site? y).map (Site.map (rewrite x change))
      else (change s).site? y := by
  induction f with
  | nil => cases hs
  | cons id node children rest ihc ihr =>
    obtain ⟨hidc, hidr, hchildren, hrest, hdisj⟩ := nodup_cons_iff.1 hf
    rw [site?] at hs
    rw [rewrite]
    split at hs
    next heq =>
      cases hs
      rw [if_pos heq]
      refine (if_neg ?_).symm
      rintro ⟨hmem, hc, hr⟩
      simp only [ids_cons, List.mem_cons, List.mem_append, hc, hr, or_false] at hmem
      exact hne (hmem.trans heq)
    next hid =>
      rw [if_neg hid, site?, site?]
      -- The exchange happens below or after this node: it is the wanted one, or the search goes on.
      by_cases hidy : id = y
      · subst hidy
        have hpart : id ∉ s.children.ids ∧ id ∉ s.rest.ids := by
          rcases Option.or_eq_some_iff.1 hs with h | ⟨-, h⟩
          · exact ⟨fun h' => hidc (mem_of_mem_children h h'), fun h' => hidc (mem_of_mem_rest h h')⟩
          · exact ⟨fun h' => hidr (mem_of_mem_children h h'), fun h' => hidr (mem_of_mem_rest h h')⟩
        rw [if_pos rfl, if_pos rfl, if_pos ⟨by simp, hpart⟩]
        rfl
      · rw [if_neg hidy, if_neg hidy]
        have hmem : y ∈ (cons id node children rest).ids ↔ y ∈ children.ids ∨ y ∈ rest.ids := by
          simp [Ne.symm hidy]
        simp only [hmem] at hnew ⊢
        rcases Option.or_eq_some_iff.1 hs with h | ⟨hnone, h⟩
        · rw [rewrite_of_notMem (hdisj x (mem_ids_of_site? h)),
            ihc hchildren h fun hy => hnew (.inl hy)]
          by_cases hc : y ∈ children.ids
          · simp [hc, site?_eq_none_iff.2 (hdisj y hc)]
          · have hpart : y ∉ s.children.ids ∧ y ∉ s.rest.ids :=
              ⟨fun h' => hc (mem_of_mem_children h h'), fun h' => hc (mem_of_mem_rest h h')⟩
            by_cases hr : y ∈ rest.ids
            · have hnone := site?_eq_none_iff.2 (hnew (.inr hr) hpart.1 hpart.2)
              have hkeep := map_site?_of_notMem change (y := y)
                (hdisj x (mem_ids_of_site? h))
              simp [hc, hr, hpart, hnone, site?_eq_none_iff.2 hc, hkeep]
            · simp [hc, hr, site?_eq_none_iff.2 hr]
        · have hxc := site?_eq_none_iff.1 hnone
          rw [rewrite_of_notMem hxc, ihr hrest h fun hy => hnew (.inr hy)]
          by_cases hc : y ∈ children.ids
          · have hr : y ∉ rest.ids := hdisj y hc
            have hpart : y ∉ s.children.ids ∧ y ∉ s.rest.ids :=
              ⟨fun h' => hr (mem_of_mem_children h h'), fun h' => hr (mem_of_mem_rest h h')⟩
            have hkeep := map_site?_of_notMem change (y := y) hxc
            have hgone := site?_eq_none_iff.2 (hnew (.inl hc) hpart.1 hpart.2)
            simp [hc, hr, hpart, hgone, site?_eq_none_iff.2 hr, hkeep]
          · simp [hc, site?_eq_none_iff.2 hc]

/-- The node at an exchanged row has the site that it has in the new row. -/
theorem site?_rewrite_self {change : Site → Forest} (hf : f.ids.Nodup)
    (hs : f.site? x = some s) : (f.rewrite x change).site? x = (change s).site? x := by
  induction f with
  | nil => cases hs
  | cons id node children rest ihc ihr =>
    obtain ⟨-, -, hchildren, hrest, hdisj⟩ := nodup_cons_iff.1 hf
    rw [site?] at hs
    rw [rewrite]
    split at hs
    next heq =>
      cases hs
      rw [if_pos heq]
    next hid =>
      rw [if_neg hid, site?, if_neg hid]
      rcases Option.or_eq_some_iff.1 hs with h | ⟨hnone, h⟩
      · have hr : x ∉ rest.ids := hdisj x (mem_ids_of_site? h)
        rw [ihc hchildren h, rewrite_of_notMem hr, site?_eq_none_iff.2 hr, Option.or_none]
      · rw [rewrite_of_notMem (site?_eq_none_iff.1 hnone), hnone, Option.none_or, ihr hrest h]

/-- A node that stood below or after a site and is still found there has its site without change,
because its rows do not hold the node of that site. -/
theorem or_site?_eq_map {change : Site → Forest} (hf : f.ids.Nodup) (hs : f.site? x = some s)
    (hy : ¬(y ∈ f.ids ∧ y ∉ s.children.ids ∧ y ∉ s.rest.ids)) :
    (s.children.site? y).or (s.rest.site? y) =
      (f.site? y).map (Site.map (rewrite x change)) := by
  by_cases hmem : y ∈ s.children.ids ∨ y ∈ s.rest.ids
  · rw [site?_of_mem hf hs hmem, Option.map_or, map_site?_of_notMem _ (notMem_children_self hf hs),
      map_site?_of_notMem _ (notMem_rest_self hf hs)]
  · have hc : y ∉ s.children.ids := fun h => hmem (.inl h)
    have hr : y ∉ s.rest.ids := fun h => hmem (.inr h)
    have hyf : y ∉ f.ids := fun h => hy ⟨h, hc, hr⟩
    rw [site?_eq_none_iff.2 hc, site?_eq_none_iff.2 hr, site?_eq_none_iff.2 hyf]
    rfl

/-! ## Taking out -/

theorem nodes_perm_without (hf : f.ids.Nodup) (hs : f.site? x = some s) :
    f.nodes.Perm ((s.tree x).nodes ++ (f.without x).nodes) :=
  extract?_perm (by rw [extract?_eq_site? hf, hs, Option.map_some])

theorem ids_perm_without (hf : f.ids.Nodup) (hs : f.site? x = some s) :
    f.ids.Perm ((x :: s.children.ids) ++ (f.without x).ids) := by
  have h := (nodes_perm_without hf hs).map Prod.fst
  rw [List.map_append] at h
  simpa [Site.tree, single, ids, nodes] using h

/-- What is left when a node is taken out is all that is neither the node nor below it. -/
theorem mem_ids_without (hf : f.ids.Nodup) (hs : f.site? x = some s) :
    y ∈ (f.without x).ids ↔ y ∈ f.ids ∧ y ≠ x ∧ y ∉ s.children.ids := by
  have hperm := ids_perm_without hf hs
  have hnodup := hperm.nodup_iff.1 hf
  rw [hperm.mem_iff, List.mem_append]
  constructor
  · intro h
    have hout : y ∉ x :: s.children.ids :=
      fun h' => (List.disjoint_of_nodup_append hnodup) h' h
    simp only [List.mem_cons, not_or] at hout
    exact ⟨.inr h, hout.1, hout.2⟩
  · rintro ⟨h | h, hne, hnot⟩
    · exact absurd h (by simp [hne, hnot])
    · exact h

/-- A node that is left keeps its site, without what was taken out. -/
theorem site?_without (hf : f.ids.Nodup) (hs : f.site? x = some s) (hne : y ≠ x)
    (hy : y ∉ s.children.ids) :
    (f.without x).site? y = (f.site? y).map (Site.map (without x)) := by
  rw [without, site?_rewrite hf hs hne fun _ _ h => h]
  split
  next => rfl
  next h =>
    rw [← or_site?_eq_map hf hs h, site?_eq_none_iff.2 hy, Option.none_or]

/-- A node in whose place its children stand leaves all other nodes where they were. -/
theorem nodes_perm_dissolve (hf : f.ids.Nodup) (hs : f.site? x = some s) :
    f.nodes.Perm ((x, s.node) :: (f.dissolve x).nodes) := by
  have h := dissolve?_perm (x := x) (f := f) (by rw [dissolve?_eq_site? hf, hs, Option.map_some])
  simpa [single, nodes] using h

theorem ids_perm_dissolve (hf : f.ids.Nodup) (hs : f.site? x = some s) :
    f.ids.Perm (x :: (f.dissolve x).ids) := by
  simpa [ids] using (nodes_perm_dissolve hf hs).map Prod.fst

theorem site?_dissolve (hf : f.ids.Nodup) (hs : f.site? x = some s) (hne : y ≠ x) :
    (f.dissolve x).site? y =
      if y ∈ s.children.topIds then (s.children.site? y).map (Site.before s.rest)
      else (f.site? y).map (Site.map (dissolve x)) := by
  have happend := site?_append y s.children s.rest (nodup_children hf hs)
  rw [dissolve, site?_rewrite hf hs hne fun _ hyc hyr => by simp [hyc, hyr]]
  by_cases htop : y ∈ s.children.topIds
  · have hyc := mem_ids_of_mem_topIds htop
    have hyr := site?_eq_none_iff.2 (notMem_rest_of_mem_children hf hs hyc)
    rw [if_neg fun h => h.2.1 hyc, if_pos htop, happend, hyr, Option.or_none]
    simp only [htop, if_true]
  · rw [if_neg htop]
    split
    next => rfl
    next h =>
      simp only [htop, if_false, Option.map_id'] at happend
      rw [happend, or_site?_eq_map hf hs h]

/-! ## Putting in -/

theorem nodes_perm_graftAfter {row : Forest} (hf : f.ids.Nodup) (hs : f.site? x = some s) :
    (graftAfter x row f).nodes.Perm (row.nodes ++ f.nodes) :=
  insertAfter?_perm (by rw [insertAfter?_eq_site? hf, hs, Option.map_some])

/-- A node after which a row is put is followed by it. -/
theorem site?_graftAfter_self {row : Forest} (hf : f.ids.Nodup) (hs : f.site? x = some s) :
    (graftAfter x row f).site? x = some { s with rest := row ++ s.rest } := by
  rw [graftAfter, site?_rewrite_self hf hs, site?, if_pos rfl]

/-- Other nodes keep their sites, with the new row in them. -/
theorem site?_graftAfter {row : Forest} (hf : f.ids.Nodup) (hrow : row.ids.Nodup)
    (hs : f.site? x = some s) (hne : y ≠ x) (hy : y ∉ row.ids) :
    (graftAfter x row f).site? y = (f.site? y).map (Site.map (graftAfter x row)) := by
  rw [graftAfter, site?_rewrite hf hs hne fun _ hyc hyr => by simp [hne, hyc, hyr, hy]]
  split
  next => rfl
  next h =>
    rw [site?, if_neg (Ne.symm hne), site?_append y row s.rest hrow, site?_eq_none_iff.2 hy,
      Option.map_none, Option.none_or, or_site?_eq_map hf hs h]

/-- The nodes of the new row have the sites that they have in it; the siblings of the row itself
are followed by what came after the node. -/
theorem site?_graftAfter_row {row : Forest} (hf : f.ids.Nodup) (hrow : row.ids.Nodup)
    (hs : f.site? x = some s) (hyf : y ∉ f.ids) :
    (graftAfter x row f).site? y =
      (row.site? y).map fun t => if y ∈ row.topIds then Site.before s.rest t else t := by
  have hne : y ≠ x := fun h => hyf (h ▸ mem_ids_of_site? hs)
  have hc : y ∉ s.children.ids := fun h => hyf (mem_of_mem_children hs h)
  have hr : y ∉ s.rest.ids := fun h => hyf (mem_of_mem_rest hs h)
  rw [graftAfter, site?_rewrite hf hs hne fun h => absurd h hyf, if_neg fun h => hyf h.1, site?,
    if_neg (Ne.symm hne), site?_eq_none_iff.2 hc, Option.none_or, site?_append y row s.rest hrow,
    site?_eq_none_iff.2 hr, Option.or_none]

/-- Other nodes keep their sites, with the new row in them or after them. -/
theorem site?_graftBelow {row : Forest} (hf : f.ids.Nodup) (hs : f.site? x = some s) (hne : y ≠ x)
    (hy : y ∉ row.ids) :
    (graftBelow x row f).site? y =
      if y ∈ s.children.topIds then (f.site? y).map (Site.before row)
      else (f.site? y).map (Site.map (graftBelow x row)) := by
  have happend := site?_append y s.children row (nodup_children hf hs)
  rw [graftBelow, site?_rewrite hf hs hne fun _ hyc hyr => by simp [hne, hyc, hyr, hy]]
  by_cases htop : y ∈ s.children.topIds
  · have hyc := mem_ids_of_mem_topIds htop
    have hyr := site?_eq_none_iff.2 (notMem_rest_of_mem_children hf hs hyc)
    rw [if_neg fun h => h.2.1 hyc, if_pos htop, site?, if_neg (Ne.symm hne), happend, hyr,
      Option.or_none, site?_eq_none_iff.2 hy, Option.or_none, site?_of_mem_children hf hs hyc]
    simp only [htop, if_true]
  · rw [if_neg htop]
    split
    next => rfl
    next h =>
      simp only [htop, if_false, Option.map_id'] at happend
      rw [site?, if_neg (Ne.symm hne), happend, site?_eq_none_iff.2 hy, Option.or_none,
        or_site?_eq_map hf hs h]

/-- A node before which a row is put keeps its site. -/
theorem site?_graftBefore_self {row : Forest} (hf : f.ids.Nodup) (hrow : row.ids.Nodup)
    (hs : f.site? x = some s) (hx : x ∉ row.ids) : (graftBefore x row f).site? x = some s := by
  rw [graftBefore, site?_rewrite_self hf hs, site?_append x row _ hrow, site?_eq_none_iff.2 hx,
    Option.map_none, Option.none_or, site?, if_pos rfl]

/-- Other nodes keep their sites, with the new row in them. -/
theorem site?_graftBefore {row : Forest} (hf : f.ids.Nodup) (hrow : row.ids.Nodup)
    (hs : f.site? x = some s) (hne : y ≠ x) (hy : y ∉ row.ids) :
    (graftBefore x row f).site? y = (f.site? y).map (Site.map (graftBefore x row)) := by
  rw [graftBefore, site?_rewrite hf hs hne fun _ hyc hyr => by simp [hne, hyc, hyr, hy]]
  split
  next => rfl
  next h =>
    rw [site?_append y row _ hrow, site?_eq_none_iff.2 hy, Option.map_none, Option.none_or, site?,
      if_neg (Ne.symm hne), or_site?_eq_map hf hs h]

/-- The nodes of the new row have the sites that they have in it; the siblings of the row itself
are followed by the node and what came after it. -/
theorem site?_graftBefore_row {row : Forest} (hf : f.ids.Nodup) (hrow : row.ids.Nodup)
    (hs : f.site? x = some s) (hyf : y ∉ f.ids) :
    (graftBefore x row f).site? y = (row.site? y).map fun t =>
      if y ∈ row.topIds then t.before (cons x s.node s.children s.rest) else t := by
  have hne : y ≠ x := fun h => hyf (h ▸ mem_ids_of_site? hs)
  have hc : y ∉ s.children.ids := fun h => hyf (mem_of_mem_children hs h)
  have hr : y ∉ s.rest.ids := fun h => hyf (mem_of_mem_rest hs h)
  rw [graftBefore, site?_rewrite hf hs hne fun h => absurd h hyf, if_neg fun h => hyf h.1,
    site?_append y row _ hrow, site?, if_neg (Ne.symm hne), site?_eq_none_iff.2 hc,
    site?_eq_none_iff.2 hr, Option.none_or, Option.or_none]

/-- A node below which a row is put has it after its children. -/
theorem site?_graftBelow_self {row : Forest} (hf : f.ids.Nodup) (hs : f.site? x = some s) :
    (graftBelow x row f).site? x = some { s with children := s.children ++ row } := by
  rw [graftBelow, site?_rewrite_self hf hs, site?, if_pos rfl]

/-- The nodes of a row put below a node have the sites that they have in it. -/
theorem site?_graftBelow_row {row : Forest} (hf : f.ids.Nodup) (hs : f.site? x = some s)
    (hyf : y ∉ f.ids) : (graftBelow x row f).site? y = row.site? y := by
  have hne : y ≠ x := fun h => hyf (h ▸ mem_ids_of_site? hs)
  have hc : y ∉ s.children.ids := fun h => hyf (mem_of_mem_children hs h)
  have hr : y ∉ s.rest.ids := fun h => hyf (mem_of_mem_rest hs h)
  rw [graftBelow, site?_rewrite hf hs hne fun h => absurd h hyf, if_neg fun h => hyf h.1, site?,
    if_neg (Ne.symm hne), site?_append y s.children row (nodup_children hf hs),
    site?_eq_none_iff.2 hc, site?_eq_none_iff.2 hr, Option.map_none, Option.none_or, Option.or_none]

end MailMerge.Xml.Forest
