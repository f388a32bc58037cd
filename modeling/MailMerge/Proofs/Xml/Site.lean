import Mathlib.Data.List.Nodup
import MailMerge.Xml.Forest.Lemmas

/-!
# Sites of nodes

Every search of a forest answers a part of the same thing: the site of a node, that is what it
holds, the row below it and the siblings after it. In a forest without repeated identities a node
below or after another has the site that it has in that row (`site?_of_mem`).
-/

namespace MailMerge.Xml

/-- A node where it stands: what it holds, the row below it and the siblings after it. -/
structure Site where
  node : Node
  children : Forest
  rest : Forest

namespace Site

/-- A change of the rows at a site. -/
def map (f : Forest → Forest) (s : Site) : Site := ⟨s.node, f s.children, f s.rest⟩

/-- The node with what stands below it. -/
def tree (s : Site) (x : NodeId) : Forest := .single x s.node s.children

/-- The site of a node of a row that is followed by more siblings. -/
def before (more : Forest) (s : Site) : Site := { s with rest := s.rest ++ more }

@[simp] theorem map_node (f : Forest → Forest) (s : Site) : (s.map f).node = s.node := rfl

@[simp] theorem map_children (f : Forest → Forest) (s : Site) :
    (s.map f).children = f s.children := rfl

@[simp] theorem map_rest (f : Forest → Forest) (s : Site) : (s.map f).rest = f s.rest := rfl

end Site

namespace Forest

variable {x y : NodeId} {f g : Forest} {s : Site}

/-- The site of a node. -/
def site? (x : NodeId) : Forest → Option Site
  | nil => none
  | cons id node children rest =>
    if id = x then some ⟨node, children, rest⟩ else (children.site? x).or (rest.site? x)

/-! ## Which nodes have a site -/

theorem isSome_site?_iff : (f.site? x).isSome ↔ x ∈ f.ids := by
  induction f with
  | nil => simp [site?]
  | cons id node children rest ihc ihr =>
    rw [site?]
    split
    next h => simp [h]
    next h => simp [ihc, ihr, Ne.symm h]

theorem site?_eq_none_iff : f.site? x = none ↔ x ∉ f.ids := by
  rw [← isSome_site?_iff, Option.not_isSome_iff_eq_none]

theorem mem_ids_of_site? (h : f.site? x = some s) : x ∈ f.ids :=
  isSome_site?_iff.1 (by simp [h])

theorem exists_site? (h : x ∈ f.ids) : ∃ s, f.site? x = some s :=
  Option.isSome_iff_exists.1 (isSome_site?_iff.2 h)

/-- What stands at a site is part of the forest. -/
theorem nodes_sublist_of_site? (h : f.site? x = some s) :
    ((x, s.node) :: (s.children.nodes ++ s.rest.nodes)).Sublist f.nodes := by
  induction f with
  | nil => cases h
  | cons id node children rest ihc ihr =>
    rw [site?] at h
    rw [nodes]
    split at h
    next heq =>
      cases h
      exact heq ▸ .refl _
    next =>
      refine .cons _ ?_
      rcases Option.or_eq_some_iff.1 h with hbelow | ⟨-, hlater⟩
      · exact (ihc hbelow).trans (List.sublist_append_left _ _)
      · exact (ihr hlater).trans (List.sublist_append_right _ _)

theorem sublist_of_site? (h : f.site? x = some s) :
    (x :: (s.children.ids ++ s.rest.ids)).Sublist f.ids := by
  have hsub := (nodes_sublist_of_site? h).map Prod.fst
  rwa [List.map_cons, List.map_append] at hsub

theorem mem_of_mem_children (h : f.site? x = some s) (hy : y ∈ s.children.ids) : y ∈ f.ids :=
  (sublist_of_site? h).subset (List.mem_cons_of_mem _ (List.mem_append_left _ hy))

theorem mem_of_mem_rest (h : f.site? x = some s) (hy : y ∈ s.rest.ids) : y ∈ f.ids :=
  (sublist_of_site? h).subset (List.mem_cons_of_mem _ (List.mem_append_right _ hy))

/-! ## Forests without repeated identities -/

/-- The parts of a row without repeated identities have none either, and share none. -/
theorem nodup_cons_iff {id : NodeId} {node : Node} {children rest : Forest} :
    (cons id node children rest).ids.Nodup ↔
      id ∉ children.ids ∧ id ∉ rest.ids ∧ children.ids.Nodup ∧ rest.ids.Nodup ∧
        ∀ z ∈ children.ids, z ∉ rest.ids := by
  rw [ids_cons, List.nodup_cons, List.nodup_append, List.mem_append]
  constructor
  · rintro ⟨hid, hchildren, hrest, hne⟩
    exact ⟨fun h => hid (.inl h), fun h => hid (.inr h), hchildren, hrest,
      fun z hz hz' => hne z hz z hz' rfl⟩
  · rintro ⟨hc, hr, hchildren, hrest, hne⟩
    exact ⟨fun h => h.elim hc hr, hchildren, hrest, fun z hz w hw hzw => hne z hz (hzw ▸ hw)⟩

/-- What is said of all sites of a row is said of the site of its first node, of those below it and of
those after it. -/
theorem forall_site?_cons {id : NodeId} {node : Node} {children rest : Forest} {p : Site → Prop}
    (hf : (cons id node children rest).ids.Nodup) :
    (∀ x s, (cons id node children rest).site? x = some s → p s) ↔
      p ⟨node, children, rest⟩ ∧ (∀ x s, children.site? x = some s → p s) ∧
        ∀ x s, rest.site? x = some s → p s := by
  obtain ⟨hidc, hidr, -, -, hdisj⟩ := nodup_cons_iff.1 hf
  constructor
  · intro h
    refine ⟨h id ⟨node, children, rest⟩ (by rw [site?, if_pos rfl]), fun x s hs => ?_, fun x s hs => ?_⟩
    · have hmem := mem_ids_of_site? hs
      refine h x s ?_
      rw [site?, if_neg fun heq : id = x => hidc (heq ▸ hmem), hs, Option.some_or]
    · have hmem := mem_ids_of_site? hs
      refine h x s ?_
      rw [site?, if_neg fun heq : id = x => hidr (heq ▸ hmem),
        site?_eq_none_iff.2 fun hin => hdisj x hin hmem, Option.none_or, hs]
  · rintro ⟨hself, hbelow, hlater⟩ x s hs
    rw [site?] at hs
    split at hs
    next =>
      cases hs
      exact hself
    next =>
      rcases Option.or_eq_some_iff.1 hs with hs | ⟨-, hs⟩
      · exact hbelow x s hs
      · exact hlater x s hs

theorem nodup_of_site? (hf : f.ids.Nodup) (h : f.site? x = some s) :
    (x :: (s.children.ids ++ s.rest.ids)).Nodup := hf.sublist (sublist_of_site? h)

theorem nodup_children (hf : f.ids.Nodup) (h : f.site? x = some s) : s.children.ids.Nodup :=
  (nodup_cons_iff.1 (ids_cons x s.node s.children s.rest ▸ nodup_of_site? hf h)).2.2.1

theorem nodup_rest (hf : f.ids.Nodup) (h : f.site? x = some s) : s.rest.ids.Nodup :=
  (nodup_cons_iff.1 (ids_cons x s.node s.children s.rest ▸ nodup_of_site? hf h)).2.2.2.1

theorem notMem_children_self (hf : f.ids.Nodup) (h : f.site? x = some s) : x ∉ s.children.ids :=
  (nodup_cons_iff.1 (ids_cons x s.node s.children s.rest ▸ nodup_of_site? hf h)).1

theorem notMem_rest_self (hf : f.ids.Nodup) (h : f.site? x = some s) : x ∉ s.rest.ids :=
  (nodup_cons_iff.1 (ids_cons x s.node s.children s.rest ▸ nodup_of_site? hf h)).2.1

theorem notMem_rest_of_mem_children (hf : f.ids.Nodup) (h : f.site? x = some s)
    (hy : y ∈ s.children.ids) : y ∉ s.rest.ids :=
  (nodup_cons_iff.1 (ids_cons x s.node s.children s.rest ▸ nodup_of_site? hf h)).2.2.2.2 y hy

/-- A node below or after another has the site that it has in that row. -/
theorem site?_of_mem (hf : f.ids.Nodup) (h : f.site? x = some s)
    (hy : y ∈ s.children.ids ∨ y ∈ s.rest.ids) :
    f.site? y = (s.children.site? y).or (s.rest.site? y) := by
  induction f with
  | nil => cases h
  | cons id node children rest ihc ihr =>
    obtain ⟨hidc, hidr, hchildren, hrest, hne⟩ := nodup_cons_iff.1 hf
    rw [site?] at h
    split at h
    next heq =>
      cases h
      have hid : id ≠ y := by
        rintro rfl
        exact hy.elim hidc hidr
      rw [site?, if_neg hid]
    next =>
      rcases Option.or_eq_some_iff.1 h with hbelow | ⟨-, hlater⟩
      · have hmem : y ∈ children.ids :=
          hy.elim (mem_of_mem_children hbelow) (mem_of_mem_rest hbelow)
        have hid : id ≠ y := fun heq => hidc (heq ▸ hmem)
        rw [site?, if_neg hid, site?_eq_none_iff.2 (hne y hmem), Option.or_none,
          ihc hchildren hbelow]
      · have hmem : y ∈ rest.ids :=
          hy.elim (mem_of_mem_children hlater) (mem_of_mem_rest hlater)
        have hid : id ≠ y := fun heq => hidr (heq ▸ hmem)
        have hnot : y ∉ children.ids := fun hc => hne y hc hmem
        rw [site?, if_neg hid, site?_eq_none_iff.2 hnot, Option.none_or, ihr hrest hlater]

theorem site?_of_mem_children (hf : f.ids.Nodup) (h : f.site? x = some s)
    (hy : y ∈ s.children.ids) : f.site? y = s.children.site? y := by
  rw [site?_of_mem hf h (.inl hy),
    site?_eq_none_iff.2 (notMem_rest_of_mem_children hf h hy), Option.or_none]

theorem site?_of_mem_rest (hf : f.ids.Nodup) (h : f.site? x = some s)
    (hy : y ∈ s.rest.ids) : f.site? y = s.rest.site? y := by
  have hnot : y ∉ s.children.ids := fun hc => notMem_rest_of_mem_children hf h hc hy
  rw [site?_of_mem hf h (.inr hy), site?_eq_none_iff.2 hnot, Option.none_or]

/-! ## Rows one after the other -/

/-- The identities of the siblings of the row itself. -/
def topIds (f : Forest) : List NodeId := f.tops.map Prod.fst

@[simp] theorem topIds_nil : (nil : Forest).topIds = [] := rfl

@[simp] theorem topIds_cons (id : NodeId) (node : Node) (children rest : Forest) :
    (cons id node children rest).topIds = id :: rest.topIds := rfl

@[simp] theorem topIds_append (f g : Forest) : (f ++ g).topIds = f.topIds ++ g.topIds := by
  simp [topIds]

theorem topIds_sublist (f : Forest) : f.topIds.Sublist f.ids := by
  induction f with
  | nil => exact .refl _
  | cons id node children rest _ ih =>
    rw [topIds_cons, ids_cons]
    exact (ih.trans (List.sublist_append_right _ _)).cons_cons _

theorem mem_ids_of_mem_topIds (h : x ∈ f.topIds) : x ∈ f.ids := f.topIds_sublist.subset h

/-- The sites of two rows one after the other. -/
theorem site?_append (y : NodeId) (f g : Forest) (hf : f.ids.Nodup) :
    (f ++ g).site? y =
      ((f.site? y).map fun s => if y ∈ f.topIds then Site.before g s else s).or (g.site? y) := by
  induction f with
  | nil => simp [site?]
  | cons id node children rest _ ih =>
    obtain ⟨hidc, hidr, -, hrest, hne⟩ := nodup_cons_iff.1 hf
    rw [cons_append, site?, site?]
    split
    next heq => simp [heq, Site.before]
    next hid =>
      have hid' : y ≠ id := Ne.symm hid
      rw [ih hrest]
      cases hc : children.site? y with
      | none => simp [hid']
      | some s =>
        have hnot : y ∉ rest.topIds :=
          fun h => hne y (mem_ids_of_site? hc) (mem_ids_of_mem_topIds h)
        simp [hid', hnot]

/-! ## Searches -/

theorem tree?_eq_site? (x : NodeId) (f : Forest) : f.tree? x = (f.site? x).map (·.tree x) := by
  induction f with
  | nil => rfl
  | cons id node children rest ihc ihr =>
    rw [tree?, site?]
    split
    next h => simp [Site.tree, h]
    next => rw [ihc, ihr, Option.map_or]

theorem following?_eq_site? (x : NodeId) (f : Forest) :
    f.following? x = (f.site? x).map Site.rest := by
  induction f with
  | nil => rfl
  | cons id node children rest ihc ihr =>
    rw [following?, site?]
    split
    next => rfl
    next => rw [ihc, ihr, Option.map_or]

end Forest

end MailMerge.Xml
