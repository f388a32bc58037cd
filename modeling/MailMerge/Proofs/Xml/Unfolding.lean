import MailMerge.Proofs.Xml.Rename

/-!
# Rows with unfolded nodes

A node is unfolded when its children stand in its place, between two rows that come for it. A row in
which some nodes are unfolded and all others are renamed is searched and changed like the row that it
is made from. An edit at a node concerns what has been made of this node, and it is followed there
with the rest of the row left as it is (`Forest.fill`).
-/

namespace MailMerge.Xml

/-- What becomes of nodes: some of them are unfolded between two rows, the others are renamed. -/
structure Unfolding where
  name : NodeId → NodeId
  frame? : NodeId → Option (Forest × Forest)

namespace Unfolding

/-- What becomes of a node, with a row for its children. -/
def slot (u : Unfolding) (x : NodeId) (node : Node) (inner : Forest) : Forest :=
  match u.frame? x with
  | none => .single (u.name x) node inner
  | some (before, after) => before ++ (inner ++ after)

/-- What becomes of the nodes that enclose another one: those that are unfolded enclose nothing. -/
def path (u : Unfolding) (above : List (NodeId × Node)) : List (NodeId × Node) :=
  (above.filter fun entry => (u.frame? entry.1).isNone).map (Prod.map u.name id)

variable {u : Unfolding} {x : NodeId} {node : Node} {inner before after : Forest}

theorem slot_of_none (h : u.frame? x = none) (node : Node) (inner : Forest) :
    u.slot x node inner = .single (u.name x) node inner := by
  rw [slot, h]

theorem slot_of_some (h : u.frame? x = some (before, after)) (node : Node) (inner : Forest) :
    u.slot x node inner = before ++ (inner ++ after) := by
  rw [slot, h]

theorem path_append (u : Unfolding) (inner outer : List (NodeId × Node)) :
    u.path (inner ++ outer) = u.path inner ++ u.path outer := by
  simp [path]

end Unfolding

namespace Forest

variable {u v : Unfolding} {f g h k l row before after : Forest} {x y p : NodeId} {s : Site}
variable {node : Node} {children : Forest}

/-- The row with its nodes unfolded or renamed. -/
def unfold (u : Unfolding) : Forest → Forest
  | nil => nil
  | cons x node children rest => u.slot x node (children.unfold u) ++ rest.unfold u

@[simp] theorem unfold_nil : nil.unfold u = nil := rfl

theorem unfold_cons (x : NodeId) (node : Node) (children rest : Forest) :
    (cons x node children rest).unfold u = u.slot x node (children.unfold u) ++ rest.unfold u :=
  rfl

theorem unfold_single (x : NodeId) (node : Node) (children : Forest) :
    (single x node children).unfold u = u.slot x node (children.unfold u) := append_nil _

theorem unfold_append (f g : Forest) : (f ++ g).unfold u = f.unfold u ++ g.unfold u := by
  induction f with
  | nil => rfl
  | cons x node children rest _ ih =>
    rw [cons_append, unfold_cons, unfold_cons, ih, append_assoc]

theorem unfold_join (rows : List Forest) : (join rows).unfold u = join (rows.map (unfold u)) := by
  induction rows with
  | nil => rfl
  | cons row rows ih => rw [join, unfold_append, ih, List.map_cons, join]

theorem unfold_congr (hname : ∀ y ∈ f.ids, v.name y = u.name y)
    (hframe : ∀ y ∈ f.ids, v.frame? y = u.frame? y) : f.unfold v = f.unfold u := by
  induction f with
  | nil => rfl
  | cons x node children rest ihc ihr =>
    simp only [ids_cons, List.forall_mem_cons, List.forall_mem_append] at hname hframe
    rw [unfold_cons, unfold_cons, ihc hname.2.1 hframe.2.1, ihr hname.2.2 hframe.2.2,
      Unfolding.slot, Unfolding.slot, hname.1, hframe.1]

/-- Where no node is unfolded, all are renamed. -/
theorem unfold_eq_rename (h : ∀ y ∈ f.ids, u.frame? y = none) : f.unfold u = f.rename u.name := by
  induction f with
  | nil => rfl
  | cons x node children rest ihc ihr =>
    simp only [ids_cons, List.forall_mem_cons, List.forall_mem_append] at h
    rw [unfold_cons, ihc h.2.1, ihr h.2.2, Unfolding.slot_of_none h.1]
    rfl

theorem ids_slot_subset (u : Unfolding) (x : NodeId) (node : Node) (inner : Forest) :
    inner.ids ⊆ (u.slot x node inner).ids := by
  unfold Unfolding.slot
  split <;> simp [single]

/-- What becomes of a node is among what becomes of its row. -/
theorem slot_sublist_unfold (hs : f.site? x = some s) :
    (u.slot x s.node (s.children.unfold u)).nodes.Sublist (f.unfold u).nodes := by
  induction f with
  | nil => cases hs
  | cons y n c r ihc ihr =>
    rw [unfold_cons, nodes_append]
    rw [site?] at hs
    split at hs
    next heq =>
      cases hs
      rw [heq]
      exact List.sublist_append_left _ _
    next =>
      rcases Option.or_eq_some_iff.1 hs with hs | ⟨-, hs⟩
      · refine (ihc hs).trans (.trans ?_ (List.sublist_append_left _ _))
        unfold Unfolding.slot
        split
        · simp [single, nodes]
        · simp
      · exact (ihr hs).trans (List.sublist_append_right _ _)

theorem mem_ids_unfold (hx : x ∈ f.ids) (h : u.frame? x = none) : u.name x ∈ (f.unfold u).ids := by
  obtain ⟨s, hs⟩ := exists_site? hx
  have hsub := ((slot_sublist_unfold (u := u) hs).map Prod.fst).subset
  refine hsub ?_
  rw [Unfolding.slot_of_none h]
  exact List.mem_cons_self

/-- All nodes that are not unfolded are still there, in their order. -/
theorem map_name_sublist (u : Unfolding) (f : Forest) :
    ((f.ids.filter fun y => (u.frame? y).isNone).map u.name).Sublist (f.unfold u).ids := by
  induction f with
  | nil => exact .slnil
  | cons x node children rest ihc ihr =>
    rw [ids_cons, unfold_cons, ids_append, List.filter_cons, List.filter_append]
    cases hframe : u.frame? x with
    | none =>
      rw [Unfolding.slot_of_none hframe, single, ids_cons, ids_nil, List.append_nil]
      rw [Option.isNone_none, if_pos rfl, List.map_cons, List.map_append]
      exact (ihc.append ihr).cons_cons _
    | some frame =>
      rw [Unfolding.slot_of_some hframe, Option.isNone_some, if_neg (by simp), List.map_append,
        ids_append, ids_append]
      exact ((ihc.trans (List.sublist_append_left _ _)).trans
        (List.sublist_append_right _ _)).append ihr

/-! ## What is made of one node -/

/-- The row with another row in place of what has been made of a node. -/
def fill (u : Unfolding) (x : NodeId) (row : Forest) : Forest → Forest
  | nil => nil
  | cons y node children rest =>
    if y = x then row ++ rest.unfold u
    else u.slot y node (fill u x row children) ++ fill u x row rest

theorem fill_of_notMem (h : x ∉ f.ids) : fill u x row f = f.unfold u := by
  induction f with
  | nil => rfl
  | cons y n c r ihc ihr =>
    simp only [ids_cons, List.mem_cons, List.mem_append, not_or] at h
    rw [fill, if_neg (Ne.symm h.1), ihc h.2.1, ihr h.2.2, unfold_cons]

/-- What has been made of a node stands in its place. -/
theorem unfold_eq_fill (hf : f.ids.Nodup) (hs : f.site? x = some s) :
    f.unfold u = fill u x (u.slot x s.node (s.children.unfold u)) f := by
  induction f with
  | nil => cases hs
  | cons y n c r ihc ihr =>
    obtain ⟨-, -, hc, hr, hdisj⟩ := nodup_cons_iff.1 hf
    rw [site?] at hs
    rw [unfold_cons, fill]
    split at hs
    next heq =>
      cases hs
      rw [if_pos heq, heq]
    next hne =>
      rw [if_neg hne]
      rcases Option.or_eq_some_iff.1 hs with hs | ⟨hnone, hs⟩
      · rw [ihc hc hs, fill_of_notMem (hdisj x (mem_ids_of_site? hs))]
      · rw [ihr hr hs, fill_of_notMem (site?_eq_none_iff.1 hnone)]

/-- A row put in the place of a node is unfolded there. -/
theorem unfold_rewrite (row : Forest) {change : Site → Forest} (hf : f.ids.Nodup) (hs : f.site? x = some s)
    (hchange : change s = row ++ s.rest) : (f.rewrite x change).unfold u = fill u x (row.unfold u) f := by
  induction f with
  | nil => cases hs
  | cons y n c r ihc ihr =>
    obtain ⟨-, -, hc, hr, hdisj⟩ := nodup_cons_iff.1 hf
    rw [site?] at hs
    rw [rewrite, fill]
    split at hs
    next heq =>
      cases hs
      rw [if_pos heq, if_pos heq, hchange, unfold_append]
    next hne =>
      rw [if_neg hne, if_neg hne, unfold_cons]
      rcases Option.or_eq_some_iff.1 hs with hs | ⟨hnone, hs⟩
      · have hout := hdisj x (mem_ids_of_site? hs)
        rw [ihc hc hs, rewrite_of_notMem hout, fill_of_notMem hout]
      · have hout := site?_eq_none_iff.1 hnone
        rw [ihr hr hs, rewrite_of_notMem hout, fill_of_notMem hout]

theorem unfold_without (hf : f.ids.Nodup) (hs : f.site? x = some s) :
    (f.without x).unfold u = fill u x nil f := unfold_rewrite nil hf hs rfl

theorem unfold_dissolve (hf : f.ids.Nodup) (hs : f.site? x = some s) :
    (f.dissolve x).unfold u = fill u x (s.children.unfold u) f := unfold_rewrite _ hf hs rfl

theorem unfold_graftAfter (hf : f.ids.Nodup) (hs : f.site? x = some s) (row : Forest) :
    (graftAfter x row f).unfold u =
      fill u x (u.slot x s.node (s.children.unfold u) ++ row.unfold u) f := by
  rw [graftAfter, unfold_rewrite (single x s.node s.children ++ row) hf hs rfl,
    unfold_append, unfold_single]

theorem unfold_graftBefore (hf : f.ids.Nodup) (hs : f.site? x = some s) (row : Forest) :
    (graftBefore x row f).unfold u =
      fill u x (row.unfold u ++ u.slot x s.node (s.children.unfold u)) f := by
  rw [graftBefore, unfold_rewrite (row ++ single x s.node s.children) hf hs
    (by simp [single, append_assoc]), unfold_append, unfold_single]

theorem unfold_graftBelow (hf : f.ids.Nodup) (hs : f.site? x = some s) (row : Forest) :
    (graftBelow x row f).unfold u =
      fill u x (u.slot x s.node (s.children.unfold u ++ row.unfold u)) f := by
  rw [graftBelow, unfold_rewrite (single x s.node (s.children ++ row)) hf hs rfl,
    unfold_single, unfold_append]

theorem row_subset_fill (hx : x ∈ f.ids) : row.ids ⊆ (fill u x row f).ids := by
  induction f with
  | nil => cases hx
  | cons y n c r ihc ihr =>
    rw [fill]
    split
    next => simp
    next hne =>
      simp only [ids_cons, List.mem_cons, List.mem_append] at hx
      rw [ids_append]
      rcases hx with heq | hx | hx
      · exact absurd heq.symm hne
      · exact List.Subset.trans (List.Subset.trans (ihc hx) (ids_slot_subset u y n _))
          (List.subset_append_left _ _)
      · exact List.Subset.trans (ihr hx) (List.subset_append_right _ _)

/-! ## Edits of what is made of a node -/

/-- An edit in the first of two rows, at a node whose later siblings it keeps. -/
theorem rewrite_append_of_site {change : Site → Forest} (hf : f.ids.Nodup) (hs : f.site? p = some s)
    (hout : p ∉ g.ids) (hchange : ∀ r, change ⟨s.node, s.children, r⟩ = row ++ r) :
    (f ++ g).rewrite p change = f.rewrite p change ++ g := by
  induction f with
  | nil => cases hs
  | cons y n c r _ ih =>
    obtain ⟨-, -, -, hr, hdisj⟩ := nodup_cons_iff.1 hf
    rw [site?] at hs
    rw [cons_append, rewrite, rewrite]
    split at hs
    next heq =>
      cases hs
      rw [if_pos heq, if_pos heq, hchange, hchange, append_assoc]
    next hne =>
      rw [if_neg hne, if_neg hne, cons_append]
      congr 1
      rcases Option.or_eq_some_iff.1 hs with hs | ⟨-, hs⟩
      · have hnot := hdisj p (mem_ids_of_site? hs)
        rw [rewrite_append_of_notMem hnot, rewrite_of_notMem hnot, rewrite_of_notMem hout]
      · exact ih hr hs

/-- A site in the first of two rows. -/
theorem exists_site?_append (g : Forest) (hf : f.ids.Nodup) (hs : f.site? p = some s) :
    ∃ r, (f ++ g).site? p = some ⟨s.node, s.children, r⟩ ∧ (p ∉ f.topIds → r = s.rest) := by
  refine ⟨if p ∈ f.topIds then s.rest ++ g else s.rest, ?_, fun hout => if_neg hout⟩
  rw [site?_append p f g hf, hs, Option.map_some, Option.some_or]
  split <;> rfl

theorem site?_append_of_notMem (g : Forest) (hp : p ∉ f.ids) : (f ++ g).site? p = g.site? p := by
  induction f with
  | nil => rfl
  | cons y n c r _ ih =>
    simp only [ids_cons, List.mem_cons, List.mem_append, not_or] at hp
    rw [cons_append, site?, if_neg (Ne.symm hp.1), site?_eq_none_iff.2 hp.2.1, Option.none_or,
      ih hp.2.2]

theorem notMem_of_nodup_append {xs ys : List NodeId} (h : (xs ++ ys).Nodup) (hy : p ∈ ys) :
    p ∉ xs := fun hx => (List.nodup_append.1 h).2.2 p hx p hy rfl

/-- The site of a node in what stands for the children of another one. -/
theorem exists_site?_slot (hslot : (u.slot y node h).ids.Nodup) (hs : h.site? p = some s) :
    ∃ r, (u.slot y node h).site? p = some ⟨s.node, s.children, r⟩ ∧
      (u.frame? y = none ∨ p ∉ h.topIds → r = s.rest) := by
  have hp := mem_ids_of_site? hs
  unfold Unfolding.slot at hslot ⊢
  split at hslot
  next =>
    obtain ⟨hself, -⟩ := nodup_cons_iff.1 hslot
    refine ⟨s.rest, ?_, fun _ => rfl⟩
    rw [single, site?, if_neg (fun heq : u.name y = p => hself (heq ▸ hp)), hs, Option.some_or]
  next before after hframe =>
    rw [ids_append, ids_append] at hslot
    have hnodup := (List.nodup_append.1 (List.nodup_append.1 hslot).2.1).1
    obtain ⟨r, hr, hrest⟩ := exists_site?_append after hnodup hs
    refine ⟨r, ?_, fun hcase => hrest (hcase.resolve_left fun h => by simp [hframe] at h)⟩
    rw [site?_append_of_notMem _ (notMem_of_nodup_append hslot (List.mem_append_left _ hp)), hr]

theorem rewrite_slot {change : Site → Forest} (hslot : (u.slot y node h).ids.Nodup)
    (hs : h.site? p = some s) (hchange : ∀ r, change ⟨s.node, s.children, r⟩ = row ++ r) :
    (u.slot y node h).rewrite p change = u.slot y node (h.rewrite p change) := by
  have hp := mem_ids_of_site? hs
  unfold Unfolding.slot at hslot ⊢
  split at hslot
  next =>
    obtain ⟨hself, -⟩ := nodup_cons_iff.1 hslot
    rw [single, rewrite, if_neg fun heq : u.name y = p => hself (heq ▸ hp)]
    rfl
  next =>
    rw [ids_append, ids_append] at hslot
    have hinner := (List.nodup_append.1 hslot).2.1
    have hafter := fun hin => notMem_of_nodup_append hinner hin hp
    rw [rewrite_append_of_notMem (notMem_of_nodup_append hslot (List.mem_append_left _ hp)),
      rewrite_append_of_site (List.nodup_append.1 hinner).1 hs hafter hchange]

theorem nodup_of_slot (hslot : (u.slot y node h).ids.Nodup) : h.ids.Nodup := by
  unfold Unfolding.slot at hslot
  split at hslot
  next => exact (nodup_cons_iff.1 hslot).2.2.1
  next =>
    rw [ids_append, ids_append] at hslot
    exact (List.nodup_append.1 (List.nodup_append.1 hslot).2.1).1

/-- The children of a node that is unfolded come to the top with it. -/
theorem mem_topIds_of_slot (hslot : (u.slot y node h).ids.Nodup) (hp : p ∈ h.ids)
    (htop : p ∈ (u.slot y node h).topIds) : u.frame? y ≠ none ∧ p ∈ h.topIds := by
  cases hframe : u.frame? y with
  | none =>
    rw [Unfolding.slot_of_none hframe] at hslot htop
    cases List.mem_singleton.1 htop
    exact absurd hp (nodup_cons_iff.1 hslot).1
  | some frame =>
    rw [Unfolding.slot_of_some hframe] at hslot htop
    rw [ids_append, ids_append] at hslot
    rw [topIds_append, topIds_append, List.mem_append, List.mem_append] at htop
    refine ⟨by simp, ?_⟩
    rcases htop with hin | hin | hin
    · exact absurd (mem_ids_of_mem_topIds hin)
        (notMem_of_nodup_append hslot (List.mem_append_left _ hp))
    · exact hin
    · exact absurd hp
        (notMem_of_nodup_append (List.nodup_append.1 hslot).2.1 (mem_ids_of_mem_topIds hin))

/-- A node is not a child of one that is unfolded. -/
def Clear (u : Unfolding) (x : NodeId) (f : Forest) : Prop :=
  ∀ above, f.ancestors? x = some above → ∀ entry ∈ above.head?, u.frame? entry.1 = none

theorem ancestors?_of_mem_topIds (hf : f.ids.Nodup) (hx : x ∈ f.topIds) :
    f.ancestors? x = some [] := by
  obtain ⟨g, node, children, h, rfl⟩ := exists_eq_append_of_mem_topIds hx
  rw [ids_append, List.nodup_append] at hf
  exact ancestors?_append_cons node children fun hin => hf.2.2 x hin x (by simp) rfl

theorem Clear.of_children (h : Clear u x (cons y node children g)) (hne : y ≠ x)
    (hf : children.ids.Nodup) (hx : x ∈ children.ids) :
    Clear u x children ∧ (x ∈ children.topIds → u.frame? y = none) := by
  obtain ⟨above, habove⟩ := exists_ancestors? hx
  have hall : (cons y node children g).ancestors? x = some (above ++ [(y, node)]) := by
    rw [ancestors?, if_neg hne, habove, Option.map_some, Option.some_or]
  constructor
  · intro above' habove' entry hentry
    rw [habove] at habove'
    cases habove'
    refine h _ hall entry ?_
    rw [List.head?_append, hentry, Option.some_or]
    rfl
  · intro htop
    rw [ancestors?_of_mem_topIds hf htop] at habove
    cases habove
    exact h _ hall (y, node) rfl

theorem Clear.of_rest (h : Clear u x (cons y node children g)) (hne : y ≠ x)
    (hx : x ∉ children.ids) : Clear u x g := by
  intro above habove
  refine h above ?_
  rw [ancestors?, if_neg hne, ancestors?_eq_none_iff.2 hx, Option.map_none, Option.none_or, habove]

/-- Only what is made of a top-level node stands at the top. -/
theorem notMem_topIds_fill (hf : f.ids.Nodup) (hnodup : (fill u x row f).ids.Nodup) (hx : x ∈ f.ids)
    (hclear : Clear u x f) (hout : x ∉ f.topIds) (hp : p ∈ row.ids) :
    p ∉ (fill u x row f).topIds := by
  induction f with
  | nil => cases hx
  | cons y n c r ihc ihr =>
    obtain ⟨-, -, hc, hr, hdisj⟩ := nodup_cons_iff.1 hf
    rw [topIds_cons, List.mem_cons, not_or] at hout
    have hne : y ≠ x := Ne.symm hout.1
    rw [fill, if_neg hne] at hnodup ⊢
    rw [ids_append] at hnodup
    rw [topIds_append, List.mem_append, not_or]
    rw [ids_cons, List.mem_cons, List.mem_append] at hx
    rcases hx with heq | hx | hx
    · exact absurd heq hout.1
    · have hpc : p ∈ (fill u x row c).ids := row_subset_fill hx hp
      obtain ⟨hinner, hparent⟩ := hclear.of_children hne hc hx
      have hslot := (List.nodup_append.1 hnodup).1
      refine ⟨fun hin => ?_, fun hin => ?_⟩
      · obtain ⟨hframe, htop⟩ := mem_topIds_of_slot hslot hpc hin
        exact ihc hc (nodup_of_slot hslot) hx hinner (fun h => hframe (hparent h)) htop
      · exact notMem_of_nodup_append hnodup (mem_ids_of_mem_topIds hin)
          (ids_slot_subset u y n _ hpc)
    · have hpr : p ∈ (fill u x row r).ids := row_subset_fill hx hp
      have hxc : x ∉ c.ids := fun hin => hdisj x hin hx
      refine ⟨fun hin => ?_, ihr hr (List.nodup_append.1 hnodup).2.1 hx (hclear.of_rest hne hxc) hout.2⟩
      exact notMem_of_nodup_append hnodup hpr (mem_ids_of_mem_topIds hin)

/-- The site of a node of a row that has been made of another one. -/
theorem exists_site?_fill (hf : f.ids.Nodup) (hs : f.site? x = some s)
    (hnodup : (fill u x (k ++ cons p node children l) f).ids.Nodup) :
    ∃ r, (fill u x (k ++ cons p node children l) f).site? p = some ⟨node, children, r⟩ ∧
      (Clear u x f → r = l ++ s.rest.unfold u) := by
  have hp : p ∈ (k ++ cons p node children l).ids := by simp
  induction f with
  | nil => cases hs
  | cons y n c r ihc ihr =>
    obtain ⟨-, -, hc, hr, hdisj⟩ := nodup_cons_iff.1 hf
    rw [site?] at hs
    rw [fill] at hnodup ⊢
    split at hs
    next heq =>
      cases hs
      rw [if_pos heq, append_assoc, ids_append] at hnodup
      have hout := notMem_of_nodup_append hnodup (p := p) (by simp)
      refine ⟨l ++ r.unfold u, ?_, fun _ => rfl⟩
      rw [if_pos heq, append_assoc, cons_append, site?_append_cons node children hout]
    next hne =>
      rw [if_neg hne, ids_append] at hnodup
      rw [if_neg hne]
      rcases Option.or_eq_some_iff.1 hs with hs | ⟨hnone, hs⟩
      · have hx := mem_ids_of_site? hs
        have hslot := (List.nodup_append.1 hnodup).1
        obtain ⟨t, ht, hrest⟩ := ihc hc hs (nodup_of_slot hslot)
        obtain ⟨t', ht', hrest'⟩ := exists_site?_slot hslot ht
        obtain ⟨t'', ht'', hrest''⟩ := exists_site?_append (fill u x (k ++ cons p node children l) r)
          hslot ht'
        refine ⟨t'', ht'', fun hclear => ?_⟩
        obtain ⟨hinner, hparent⟩ := hclear.of_children hne hc hx
        -- What follows a child of this node is its own only if the node is not unfolded.
        have htop : u.frame? y = none ∨ p ∉ (fill u x (k ++ cons p node children l) c).topIds := by
          by_cases hframe : u.frame? y = none
          · exact .inl hframe
          · exact .inr (notMem_topIds_fill hc (nodup_of_slot hslot) hx hinner
              (fun h => hframe (hparent h)) hp)
        have hout := fun hin =>
          have hin := mem_topIds_of_slot hslot (row_subset_fill hx hp) hin
          htop.elim hin.1 fun h => h hin.2
        rw [hrest'' hout, hrest' htop, hrest hinner]
      · have hx := mem_ids_of_site? hs
        have hxc : x ∉ c.ids := site?_eq_none_iff.1 hnone
        obtain ⟨t, ht, hrest⟩ := ihr hr hs (List.nodup_append.1 hnodup).2.1
        refine ⟨t, ?_, fun hclear => hrest (hclear.of_rest hne hxc)⟩
        rw [site?_append_of_notMem _ (notMem_of_nodup_append hnodup (mem_ids_of_site? ht)), ht]

theorem rewrite_fill (row : Forest) {change : Site → Forest} (hf : f.ids.Nodup) (hs : f.site? x = some s)
    (hnodup : (fill u x (k ++ cons p node children l) f).ids.Nodup)
    (hchange : ∀ r, change ⟨node, children, r⟩ = row ++ r) :
    (fill u x (k ++ cons p node children l) f).rewrite p change = fill u x (k ++ (row ++ l)) f := by
  induction f with
  | nil => cases hs
  | cons y n c r ihc ihr =>
    obtain ⟨-, -, hc, hr, hdisj⟩ := nodup_cons_iff.1 hf
    rw [site?] at hs
    rw [fill] at hnodup ⊢
    rw [fill]
    split at hs
    next heq =>
      rw [if_pos heq, append_assoc, ids_append] at hnodup
      have hout := notMem_of_nodup_append hnodup (p := p) (by simp)
      rw [if_pos heq, if_pos heq, append_assoc, rewrite_append_of_notMem hout, cons_append,
        rewrite_cons_self, hchange, append_assoc, append_assoc]
    next hne =>
      rw [if_neg hne, ids_append] at hnodup
      rw [if_neg hne, if_neg hne]
      rcases Option.or_eq_some_iff.1 hs with hs | ⟨hnone, hs⟩
      · have hx := mem_ids_of_site? hs
        have hslot := (List.nodup_append.1 hnodup).1
        obtain ⟨t, ht, -⟩ := exists_site?_fill hc hs (nodup_of_slot hslot)
        obtain ⟨t', ht', -⟩ := exists_site?_slot hslot ht
        have hout : p ∉ (fill u x (k ++ cons p node children l) r).ids := fun hin =>
          notMem_of_nodup_append hnodup hin (mem_ids_of_site? ht')
        rw [rewrite_append_of_site hslot ht' hout hchange, rewrite_slot hslot ht hchange,
          ihc hc hs (nodup_of_slot hslot), fill_of_notMem (hdisj x hx), fill_of_notMem (hdisj x hx)]
      · have hx := mem_ids_of_site? hs
        have hxc : x ∉ c.ids := site?_eq_none_iff.1 hnone
        have hpr : p ∈ (fill u x (k ++ cons p node children l) r).ids := row_subset_fill hx (by simp)
        rw [rewrite_append_of_notMem (notMem_of_nodup_append hnodup hpr),
          ihr hr hs (List.nodup_append.1 hnodup).2.1, fill_of_notMem hxc, fill_of_notMem hxc]

/-! ## What encloses a node -/

theorem ancestors?_append_left (g : Forest) (hp : p ∈ f.ids) :
    (f ++ g).ancestors? p = f.ancestors? p := by
  induction f with
  | nil => cases hp
  | cons y n c r _ ih =>
    rw [cons_append, ancestors?, ancestors?]
    by_cases hr : p ∈ r.ids
    · rw [ih hr]
    split
    next => rfl
    next hne =>
      have hc : p ∈ c.ids := by
        simp only [ids_cons, List.mem_cons, List.mem_append] at hp
        exact (hp.resolve_left (Ne.symm hne)).resolve_right hr
      obtain ⟨above, habove⟩ := exists_ancestors? hc
      rw [habove, Option.map_some, Option.some_or, Option.some_or]

theorem ancestors?_append_right (g : Forest) (hp : p ∉ f.ids) :
    (f ++ g).ancestors? p = g.ancestors? p := by
  induction f with
  | nil => rfl
  | cons y n c r _ ih =>
    simp only [ids_cons, List.mem_cons, List.mem_append, not_or] at hp
    rw [cons_append, ancestors?, if_neg (Ne.symm hp.1), ancestors?_eq_none_iff.2 hp.2.1,
      Option.map_none, Option.none_or, ih hp.2.2]

theorem ancestors?_slot (hslot : (u.slot y node h).ids.Nodup) (hp : p ∈ h.ids) :
    (u.slot y node h).ancestors? p = (h.ancestors? p).map (· ++ u.path [(y, node)]) := by
  cases hframe : u.frame? y with
  | none =>
    rw [Unfolding.slot_of_none hframe] at hslot ⊢
    have hself : u.name y ≠ p := fun heq => (nodup_cons_iff.1 hslot).1 (heq ▸ hp)
    rw [single, ancestors?, if_neg hself, ancestors?, Option.or_none]
    simp [Unfolding.path, hframe]
  | some frame =>
    rw [Unfolding.slot_of_some hframe] at hslot ⊢
    rw [ids_append, ids_append] at hslot
    rw [ancestors?_append_right _ (notMem_of_nodup_append hslot (List.mem_append_left _ hp)),
      ancestors?_append_left _ hp]
    simp [Unfolding.path, hframe]

/-- What is made of a node is enclosed by what is made of those that enclose it. -/
theorem ancestors?_fill (hf : f.ids.Nodup) (hx : x ∈ f.ids)
    (hnodup : (fill u x (k ++ cons p node children l) f).ids.Nodup) :
    (fill u x (k ++ cons p node children l) f).ancestors? p = (f.ancestors? x).map u.path := by
  have hp : p ∈ (k ++ cons p node children l).ids := by simp
  induction f with
  | nil => cases hx
  | cons y n c r ihc ihr =>
    obtain ⟨-, -, hc, hr, hdisj⟩ := nodup_cons_iff.1 hf
    rw [fill] at hnodup ⊢
    rw [ancestors?]
    split
    next heq =>
      rw [if_pos heq, append_assoc, ids_append] at hnodup
      have hout := notMem_of_nodup_append hnodup (p := p) (by simp)
      rw [append_assoc, cons_append, ancestors?_append_cons node children hout]
      rfl
    next hne =>
      rw [if_neg hne, ids_append] at hnodup
      simp only [ids_cons, List.mem_cons, List.mem_append] at hx
      rcases hx with heq | hx | hx
      · exact absurd heq.symm hne
      · have hslot := (List.nodup_append.1 hnodup).1
        have hpc := row_subset_fill (u := u) hx hp
        obtain ⟨above, habove⟩ := exists_ancestors? hx
        rw [ancestors?_append_left _ (ids_slot_subset u y n _ hpc), ancestors?_slot hslot hpc,
          ihc hc hx (nodup_of_slot hslot), habove]
        simp [Unfolding.path_append]
      · have hxc : x ∉ c.ids := fun hin => hdisj x hin hx
        have hpr := row_subset_fill (u := u) hx hp
        rw [ancestors?_append_right _ (notMem_of_nodup_append hnodup hpr),
          ihr hr hx (List.nodup_append.1 hnodup).2.1, ancestors?_eq_none_iff.2 hxc, Option.map_none,
          Option.none_or]

/-! ## Nodes of a kind -/

/-- Where frames hold no node of a kind, and no such node is unfolded, the nodes of this kind are
renamed. -/
theorem filter_nodes_unfold {q : Node → Bool}
    (h : ∀ entry ∈ f.nodes, ∀ before after, u.frame? entry.1 = some (before, after) →
      q entry.2 = false ∧ (∀ e ∈ before.nodes, q e.2 = false) ∧ ∀ e ∈ after.nodes, q e.2 = false) :
    (f.unfold u).nodes.filter (fun e => q e.2) =
      (f.nodes.filter fun e => q e.2).map (Prod.map u.name id) := by
  induction f with
  | nil => rfl
  | cons x node children rest ihc ihr =>
    simp only [nodes, List.forall_mem_cons, List.forall_mem_append] at h
    rw [unfold_cons, nodes_append, List.filter_append, ihr h.2.2, nodes, List.filter_cons,
      List.filter_append]
    cases hframe : u.frame? x with
    | none =>
      rw [Unfolding.slot_of_none hframe, single, nodes, List.filter_cons, List.filter_append,
        ihc h.2.1]
      split <;> simp [nodes]
    | some frame =>
      obtain ⟨before, after⟩ := frame
      obtain ⟨hself, hbefore, hafter⟩ := h.1 before after hframe
      have hnone : ∀ g : Forest, (∀ e ∈ g.nodes, q e.2 = false) →
          g.nodes.filter (fun e => q e.2) = [] := fun g hg =>
        List.filter_eq_nil_iff.2 fun e he => by simp [hg e he]
      rw [Unfolding.slot_of_some hframe, nodes_append, nodes_append, List.filter_append,
        List.filter_append, ihc h.2.1, hnone before hbefore, hnone after hafter, hself]
      simp

/-- The same for the nodes of the row itself. -/
theorem filter_tops_unfold {q : Node → Bool} (hf : f.ids.Nodup)
    (h : ∀ y s, y ∈ f.topIds → f.site? y = some s → ∀ before after,
      u.frame? y = some (before, after) → q s.node = false ∧
        ∀ e ∈ (before ++ (s.children.unfold u ++ after)).tops, q e.2 = false) :
    (f.unfold u).tops.filter (fun e => q e.2) =
      (f.tops.filter fun e => q e.2).map (Prod.map u.name id) := by
  induction f with
  | nil => rfl
  | cons x node children rest _ ih =>
    obtain ⟨-, hxr, -, hr, hdisj⟩ := nodup_cons_iff.1 hf
    have hrest := ih hr fun y s hy hs before after hframe => by
      have hmem := mem_ids_of_mem_topIds hy
      refine h y s (List.mem_cons_of_mem _ hy) ?_ before after hframe
      rw [site?, if_neg fun heq : x = y => hxr (heq ▸ hmem),
        site?_eq_none_iff.2 fun hin => hdisj y hin hmem, Option.none_or, hs]
    rw [unfold_cons, tops_append, List.filter_append, hrest, tops, List.filter_cons]
    cases hframe : u.frame? x with
    | none =>
      rw [Unfolding.slot_of_none hframe, single, tops, List.filter_cons]
      split <;> simp [tops]
    | some frame =>
      obtain ⟨before, after⟩ := frame
      obtain ⟨hself, hslot⟩ := h x _ List.mem_cons_self (by rw [site?, if_pos rfl]) _ _ hframe
      have hnone : (before ++ (children.unfold u ++ after)).tops.filter (fun e => q e.2) = [] :=
        List.filter_eq_nil_iff.2 fun e he => by simp [hslot e he]
      rw [Unfolding.slot_of_some hframe, hnone, hself]
      simp

/-! ## Payloads -/

theorem update_eq_rewrite (hf : f.ids.Nodup) (change : Node → Node) :
    f.update x change = f.rewrite x fun s => cons x (change s.node) s.children s.rest := by
  induction f with
  | nil => rfl
  | cons y n c r ihc ihr =>
    obtain ⟨hyc, hyr, hc, hr, -⟩ := nodup_cons_iff.1 hf
    rw [update, rewrite, ihc hc, ihr hr]
    split
    next heq =>
      subst heq
      rw [rewrite_of_notMem hyc, rewrite_of_notMem hyr]
    next => rfl

end Forest

end MailMerge.Xml
