import MailMerge.Proofs.Xml.Refill
import MailMerge.Proofs.Xml.Unwrap

/-!
# Unwrapping by single moves

A node is unwrapped at once, which can also be done node by node: its children are moved before it one
after the other, and then it is taken out. While that goes on, the row in which the node stands is the
only one that changes, and it stays in its place among the others. No move is refused, since a child
that is moved is not yet an older sibling of the node. Main statement: `Distinct.unwrap_eq_moves`.
-/

namespace MailMerge.Xml

namespace Forest

variable {x y : NodeId} {f tree left : Forest} {change : Site → Forest} {s : Site}

theorem rewrite_rewrite (f : Forest) (change again : Site → Forest) :
    (f.rewrite x change).rewrite x again = f.rewrite x fun s => (change s).rewrite x again := by
  induction f with
  | nil => rfl
  | cons id node children rest ihc ihr =>
    rw [rewrite, rewrite]
    split
    next => rfl
    next hne => rw [rewrite, if_neg hne, ihc, ihr]

theorem rewrite_congr {again : Site → Forest} (hf : f.ids.Nodup) (hs : f.site? x = some s)
    (h : change s = again s) : f.rewrite x change = f.rewrite x again := by
  induction f with
  | nil => rfl
  | cons id node children rest ihc ihr =>
    obtain ⟨-, -, hchildren, hrest, hdisj⟩ := nodup_cons_iff.1 hf
    rw [site?] at hs
    rw [rewrite, rewrite]
    split
    next heq =>
      rw [if_pos heq] at hs
      cases hs
      exact h
    next hne =>
      rw [if_neg hne] at hs
      rcases Option.or_eq_some_iff.1 hs with hs | ⟨hnone, hs⟩
      · have hout : x ∉ rest.ids := hdisj x (mem_ids_of_site? hs)
        rw [ihc hchildren hs, rewrite_of_notMem hout, rewrite_of_notMem hout]
      · have hout : x ∉ children.ids := site?_eq_none_iff.1 hnone
        rw [ihr hrest hs, rewrite_of_notMem hout, rewrite_of_notMem hout]

theorem extract?_eq_none (h : y ∉ f.ids) : f.extract? y = none := by
  induction f with
  | nil => rfl
  | cons id node children rest ihc ihr =>
    simp only [ids_cons, List.mem_cons, List.mem_append, not_or] at h
    obtain ⟨hne, hchildren, hrest⟩ := h
    rw [extract?, if_neg (Ne.symm hne), ihc hchildren, ihr hrest]
    rfl

theorem mem_ids_of_extract? (h : f.extract? y = some (tree, left)) : y ∈ f.ids := by
  by_contra hout
  rw [extract?_eq_none hout] at h
  cases h

/-- What is taken out of the row that has come to the site of a node is taken out of the forest. -/
theorem extract?_rewrite (hf : f.ids.Nodup) (hnodup : (f.rewrite x change).ids.Nodup)
    (hs : f.site? x = some s) (hy : (change s).extract? y = some (tree, left)) :
    (f.rewrite x change).extract? y = some (tree, f.rewrite x fun _ => left) := by
  induction f with
  | nil => cases hs
  | cons id node children rest ihc ihr =>
    obtain ⟨-, -, hchildren, hrest, hdisj⟩ := nodup_cons_iff.1 hf
    rw [site?] at hs
    rw [rewrite] at hnodup ⊢
    rw [rewrite]
    split at hs
    next heq =>
      cases hs
      rw [if_pos heq, if_pos heq]
      exact hy
    next hne =>
      rw [if_neg hne] at hnodup
      rw [if_neg hne, if_neg hne]
      obtain ⟨hid, hid', hleft, hright, happart⟩ := nodup_cons_iff.1 hnodup
      rcases Option.or_eq_some_iff.1 hs with hs | ⟨hnone, hs⟩
      · -- The node stands below this one; nothing happens to the siblings.
        have hout : x ∉ rest.ids := hdisj x (mem_ids_of_site? hs)
        have hinner := ihc hchildren hleft hs
        have hey : id ≠ y := fun h => hid (h ▸ mem_ids_of_extract? hinner)
        rw [extract?, if_neg hey, hinner, rewrite_of_notMem hout, rewrite_of_notMem hout]
      · have hout : x ∉ children.ids := site?_eq_none_iff.1 hnone
        have hlater := ihr hrest hright hs
        have hmem := mem_ids_of_extract? hlater
        have hey : id ≠ y := fun h => hid' (h ▸ hmem)
        have hnot : (children.rewrite x change).extract? y = none :=
          extract?_eq_none fun h => happart y h hmem
        rw [rewrite_of_notMem hout] at hnot
        rw [extract?, if_neg hey, rewrite_of_notMem hout, rewrite_of_notMem hout, hnot, hlater]
        rfl

theorem extract?_append (hy : y ∉ f.ids) (g : Forest) :
    (f ++ g).extract? y = (g.extract? y).map fun (tree, left) => (tree, f ++ left) := by
  induction f with
  | nil =>
    rw [nil_append]
    cases g.extract? y <;> rfl
  | cons id node children rest _ ih =>
    simp only [ids_cons, List.mem_cons, List.mem_append, not_or] at hy
    obtain ⟨hne, hchildren, hrest⟩ := hy
    rw [cons_append, extract?, if_neg (Ne.symm hne), extract?_eq_none hchildren, ih hrest]
    cases g.extract? y <;> rfl

theorem rewrite_perm {again : Site → Forest} (h : ∀ s, (change s).ids.Perm (again s).ids)
    (f : Forest) : (f.rewrite x change).ids.Perm (f.rewrite x again).ids := by
  induction f with
  | nil => exact .refl _
  | cons id node children rest ihc ihr =>
    rw [rewrite, rewrite]
    split
    · exact h _
    · simpa using ihc.append ihr

theorem rewrite_sublist {again : Site → Forest} (h : ∀ s, (change s).ids.Sublist (again s).ids)
    (f : Forest) : (f.rewrite x change).ids.Sublist (f.rewrite x again).ids := by
  induction f with
  | nil => exact .refl _
  | cons id node children rest ihc ihr =>
    rw [rewrite, rewrite]
    split
    · exact h _
    · simpa using ihc.append ihr

/-- The row that has come to the site of a node is part of the forest. -/
theorem sublist_rewrite (hs : f.site? x = some s) :
    (change s).ids.Sublist (f.rewrite x change).ids := by
  induction f with
  | nil => cases hs
  | cons id node children rest ihc ihr =>
    rw [site?] at hs
    rw [rewrite]
    split at hs
    next heq =>
      cases hs
      rw [if_pos heq]
    next hne =>
      rw [if_neg hne, ids_cons]
      rcases Option.or_eq_some_iff.1 hs with hs | ⟨-, hs⟩
      · exact ((ihc hs).trans (List.sublist_append_left ..)).cons _
      · exact ((ihr hs).trans (List.sublist_append_right ..)).cons _

/-! ## A node that is being unwrapped -/

/-- Some children of a node already stand before it, and the other ones still stand below it. -/
def unwrapping (x : NodeId) (done left f : Forest) : Forest :=
  f.rewrite x fun s => done ++ cons x s.node left s.rest

theorem unwrapping_perm (x y : NodeId) (n : Node) (done c left f : Forest) :
    (unwrapping x done (cons y n c left) f).ids.Perm
      (unwrapping x (done ++ single y n c) left f).ids := by
  refine rewrite_perm (fun s => ?_) f
  simp only [ids_append, ids_cons, single, ids_nil, List.append_nil, List.append_assoc]
  refine List.Perm.append_left _ ?_
  -- The node itself comes after the child and what stands below that.
  have hmiddle : (x :: (y :: c.ids ++ (left.ids ++ s.rest.ids))).Perm
      (y :: c.ids ++ x :: (left.ids ++ s.rest.ids)) := List.perm_middle.symm
  simpa using hmiddle

theorem unwrapping_ne_nil {done left : Forest} (hx : x ∈ f.ids) : unwrapping x done left f ≠ nil := by
  obtain ⟨s, hs⟩ := exists_site? hx
  intro hnil
  have hsub : (f.rewrite x fun s => cons x s.node left s.rest).ids.Sublist
      (unwrapping x done left f).ids := rewrite_sublist (fun s => by simp) f
  rw [hnil] at hsub
  cases f with
  | nil => cases hx
  | cons id node children rest =>
    rw [rewrite] at hsub
    split at hsub <;> simp at hsub

end Forest

namespace Document

open Forest

variable {d e : Document} {x y : NodeId} {row : Forest} {s : Site}

/-! ## Rows in their places -/

theorem takeFrom_append_cons {f : Forest → Option (Forest × Forest)} {before after : List Forest}
    {tree left : Forest} (hbefore : ∀ other ∈ before, f other = none)
    (hrow : f row = some (tree, left)) (hleft : left ≠ .nil) :
    takeFrom f (before ++ row :: after) = some (tree, before ++ left :: after) := by
  induction before with
  | nil =>
    cases left with
    | nil => exact absurd rfl hleft
    | cons id node children rest => simp [takeFrom, hrow]
  | cons other before ih =>
    have hother := hbefore other List.mem_cons_self
    have hlater := ih fun other h => hbefore other (List.mem_cons_of_mem _ h)
    rw [List.cons_append, takeFrom, hother, hlater]
    rfl

theorem changeRow_append_cons {f : Forest → Option Forest} {before after : List Forest}
    {new : Forest} (hbefore : ∀ other ∈ before, f other = none) (hrow : f row = some new) :
    changeRow f (before ++ row :: after) = some (before ++ new :: after) := by
  induction before with
  | nil => simp [changeRow, hrow]
  | cons other before ih =>
    have hother := hbefore other List.mem_cons_self
    have hlater := ih fun other h => hbefore other (List.mem_cons_of_mem _ h)
    rw [List.cons_append, changeRow, hother, hlater]
    rfl

theorem changeRow_eq_none {f : Forest → Option Forest} {rows : List Forest}
    (h : ∀ row ∈ rows, f row = none) : changeRow f rows = none := by
  induction rows with
  | nil => rfl
  | cons row rows ih =>
    rw [changeRow, h row List.mem_cons_self, ih fun r hr => h r (List.mem_cons_of_mem _ hr)]
    rfl

/-- A place for a row among other ones, which say whatever a search asks for before the row does. -/
structure Hosts (put : Forest → Document) (others : List Forest) : Prop where
  allRows : ∀ row, (put row).allRows.Perm (row :: others)
  next : ∀ row, (put row).next = (put .nil).next
  takeOut : ∀ {f : Forest → Option (Forest × Forest)} {row tree left : Forest},
    (∀ other ∈ others, f other = none) → f row = some (tree, left) → left ≠ .nil →
      (put row).takeOut f = some (tree, put left)
  change : ∀ {f : Forest → Option Forest} {row new : Forest},
    (∀ other ∈ others, f other = none) → f row = some new → (put row).change f = some (put new)

/-- Each row of a document has its place. -/
theorem exists_hosts (h : row ∈ d.allRows) :
    ∃ put others, Hosts put others ∧ put row = d := by
  rcases List.mem_append.1 h with h | h
  · obtain ⟨before, after, hrows⟩ := List.append_of_mem h
    refine ⟨fun row => { d with rows := before ++ row :: after }, before ++ after ++ d.aside,
      ⟨fun row => ?_, fun _ => rfl, ?_, ?_⟩, by simp only [← hrows]⟩
    · exact (List.perm_middle.append_right _).trans (.of_eq (by simp))
    · intro f row tree left hothers hrow hleft
      have hbefore : ∀ other ∈ before, f other = none :=
        fun other h => hothers other (by simp [h])
      simp only [Document.takeOut, takeFrom_append_cons hbefore hrow hleft]
    · intro f row new hothers hrow
      have hbefore : ∀ other ∈ before, f other = none :=
        fun other h => hothers other (by simp [h])
      simp only [Document.change, changeRow_append_cons hbefore hrow]
  · obtain ⟨before, after, hrows⟩ := List.append_of_mem h
    refine ⟨fun row => { d with aside := before ++ row :: after }, d.rows ++ (before ++ after),
      ⟨fun row => ?_, fun _ => rfl, ?_, ?_⟩, by simp only [← hrows]⟩
    · rw [Document.allRows, ← List.append_assoc]
      exact (List.perm_middle).trans (.of_eq (by simp))
    · intro f row tree left hothers hrow hleft
      have hbefore : ∀ other ∈ before, f other = none :=
        fun other h => hothers other (by simp [h])
      have hnone : takeFrom f d.rows = none :=
        takeFrom_eq_none fun other h => hothers other (by simp [h])
      simp only [Document.takeOut, hnone, takeFrom_append_cons hbefore hrow hleft]
      rfl
    · intro f row new hothers hrow
      have hbefore : ∀ other ∈ before, f other = none :=
        fun other h => hothers other (by simp [h])
      have hnone : changeRow f d.rows = none :=
        changeRow_eq_none fun other h => hothers other (by simp [h])
      simp only [Document.change, hnone, changeRow_append_cons hbefore hrow]
      rfl

/-! ## Children moved before their parent -/

namespace Hosts

variable {put : Forest → Document} {others : List Forest} {f done left c : Forest} {n : Node}

/-- The first child that still stands below a node is moved before it. -/
theorem insertBefore (h : Hosts put others) (hf : f.ids.Nodup) (hx : x ∈ f.ids)
    (hnodup : ((unwrapping x done (cons y n c left) f).ids ++ others.flatMap Forest.ids).Nodup) :
    (put (unwrapping x done (cons y n c left) f)).insertBefore x y =
      some (put (unwrapping x (done ++ single y n c) left f)) := by
  obtain ⟨s, hs⟩ := Forest.exists_site? hx
  obtain ⟨hrow, -, hapart⟩ := List.nodup_append.1 hnodup
  have hchange := hrow.sublist (sublist_rewrite hs)
  rw [ids_append, ids_cons, ids_cons] at hchange
  obtain ⟨-, hself, hdone⟩ := List.nodup_append.1 hchange
  have hxdone : x ∉ done.ids := fun h => hdone x h x (by simp) rfl
  have hydone : y ∉ done.ids := fun h => hdone y h y (by simp) rfl
  have hne : x ≠ y := fun h => (List.nodup_cons.1 hself).1 (by simp [h])
  have hxc : x ∉ c.ids := fun h => (List.nodup_cons.1 hself).1 (by simp [h])
  have hy : y ∈ (unwrapping x done (cons y n c left) f).ids :=
    (sublist_rewrite hs).subset (by simp)
  -- The child comes out of the row, which keeps the node.
  have hextract : (unwrapping x done (cons y n c left) f).extract? y =
      some (single y n c, unwrapping x done left f) := by
    have hpiece : (done ++ cons x s.node (cons y n c left) s.rest).extract? y =
        some (single y n c, done ++ cons x s.node left s.rest) := by
      rw [extract?_append hydone, extract?, if_neg hne, extract?, if_pos rfl]
      rfl
    have h : (unwrapping x done (cons y n c left) f).extract? y =
        some (single y n c, f.rewrite x fun _ => done ++ cons x s.node left s.rest) :=
      extract?_rewrite hf hrow hs hpiece
    rw [h, unwrapping]
    congr 2
    exact rewrite_congr hf hs rfl
  have htaken := h.takeOut (f := (·.extract? y)) (fun other hother => extract?_eq_none fun hin =>
    hapart y hy y (List.mem_flatMap.2 ⟨other, hother, hin⟩) rfl) hextract (unwrapping_ne_nil hx)
  -- It comes in again before the node.
  have hleft : (unwrapping x done left f).ids.Nodup := by
    refine hrow.sublist (rewrite_sublist (fun s => ?_) f)
    simp
  have hinsert : insertBefore? x (single y n c) (unwrapping x done left f) =
      some (unwrapping x (done ++ single y n c) left f) := by
    have hsite : (unwrapping x done left f).site? x = some ⟨s.node, left, s.rest⟩ := by
      rw [unwrapping, site?_rewrite_self hf hs, site?_append_cons _ _ hxdone]
    rw [insertBefore?_eq_site? hleft, hsite, Option.map_some, graftBefore, unwrapping,
      rewrite_rewrite]
    congr 2
    funext t
    rw [rewrite_append_of_notMem hxdone, rewrite_cons_self, append_assoc]
  have hothers : ∀ other ∈ others, insertBefore? x (single y n c) other = none := by
    intro other hother
    have hnodup' := (List.nodup_append.1 hnodup).2.1
    have hout : x ∉ other.ids := fun hin =>
      hapart x ((sublist_rewrite hs).subset (by simp)) x (List.mem_flatMap.2 ⟨other, hother, hin⟩) rfl
    rw [insertBefore?_eq_site? ((List.nodup_flatMap.1 hnodup').1 other hother),
      Forest.site?_eq_none_iff.2 hout, Option.map_none]
  have hout : (single y n c).contains x = false := by
    rw [← Bool.not_eq_true, contains_eq_true_iff]
    simp [single, hne, hxc]
  rw [Document.insertBefore, Document.move, htaken]
  simp only [hout, Bool.false_eq_true, if_false]
  exact h.change hothers hinsert

/-- All children that still stand below a node are moved before it, one after the other. -/
theorem insertAllBefore (h : Hosts put others) (hf : f.ids.Nodup) (hx : x ∈ f.ids)
    (hnodup : ((unwrapping x done left f).ids ++ others.flatMap Forest.ids).Nodup) :
    left.topIds.foldlM (fun e y => Document.insertBefore e x y) (put (unwrapping x done left f)) =
      some (put (unwrapping x (done ++ left) .nil f)) := by
  induction left generalizing done with
  | nil => rw [append_nil]; rfl
  | cons y n c left _ ih =>
    have hperm := (unwrapping_perm x y n done c left f).append_right (others.flatMap Forest.ids)
    rw [topIds_cons, List.foldlM_cons, h.insertBefore hf hx hnodup]
    have hlater := ih (hperm.nodup_iff.1 hnodup)
    rw [append_assoc] at hlater
    exact hlater

end Hosts

/-- A row in which a node stands below another one is not that node's tree alone. -/
theorem rewrite_ne_nil_of_parent {change : Site → Forest} (hd : d.Distinct) (hrow : row ∈ d.allRows)
    (hx : x ∈ row.ids) (hparent : (d.parent? x).isSome) : row.rewrite x change ≠ .nil := by
  cases row with
  | nil => cases hx
  | cons id node children rest =>
    by_cases heq : id = x
    · rw [parent?, ancestors, hd.enclosing_of_row hrow hx, ancestors?, if_pos heq] at hparent
      cases hparent
    · rw [rewrite, if_neg heq]
      intro h
      cases h

/-- Unwrapping a node that has a parent is moving its children before it, none of which is refused,
and taking it out. -/
theorem Distinct.unwrap_eq_moves (hd : d.Distinct) (hparent : (d.parent? x).isSome) :
    ∃ e, (d.children x).foldlM (fun e y => Document.insertBefore e x y) d = some e ∧
      e.detach x = d.unwrap x := by
  obtain ⟨_, hsite⟩ := exists_site?_of_parent? hparent
  obtain ⟨row, hrow, hx⟩ := exists_row (mem_ids_of_site? hsite)
  obtain ⟨s, hs⟩ := Forest.exists_site? hx
  obtain ⟨put, others, hhosts, rfl⟩ := exists_hosts hrow
  have hf : row.ids.Nodup := hd.nodup_row hrow
  have hnodup : (row.ids ++ others.flatMap Forest.ids).Nodup :=
    ((hhosts.allRows row).flatMap_right _).nodup_iff.1 hd.nodup
  have hothers : ∀ other ∈ others, x ∉ other.ids := fun other hother hin =>
    (List.nodup_append.1 hnodup).2.2 x hx x (List.mem_flatMap.2 ⟨other, hother, hin⟩) rfl
  have hself : unwrapping x .nil s.children row = row := refill_self hs hf
  have hchildren : (put row).children x = s.children.topIds := by
    rw [children_eq_site?, hd.site?_of_row hrow hx, hs]
    rfl
  have hmoves := hhosts.insertAllBefore hf hx (hself.symm ▸ hnodup)
  rw [hself, nil_append] at hmoves
  refine ⟨_, by rw [hchildren]; exact hmoves, ?_⟩
  have hrest : ∀ other ∈ others, other.extract? x = none := fun other hother =>
    extract?_eq_none (hothers other hother)
  -- Both ways leave the row with the children in the place of the node.
  have hleft : row.dissolve x ≠ .nil := rewrite_ne_nil_of_parent hd hrow hx hparent
  have hextract : (unwrapping x s.children .nil row).extract? x =
      some (single x s.node .nil, row.dissolve x) := by
    have hperm : (unwrapping x s.children .nil row).ids.Perm row.ids := by
      nth_rewrite 2 [← hself]
      refine rewrite_perm (fun t => ?_) row
      simp
    have hchildren : x ∉ s.children.ids := Forest.notMem_children_self hf hs
    have hpiece : (s.children ++ cons x s.node .nil s.rest).extract? x =
        some (single x s.node .nil, s.children ++ s.rest) := by
      rw [extract?_append hchildren, extract?, if_pos rfl]
      rfl
    have h : (unwrapping x s.children .nil row).extract? x =
        some (single x s.node .nil, row.rewrite x fun _ => s.children ++ s.rest) :=
      extract?_rewrite hf (hperm.nodup_iff.2 hf) hs hpiece
    rw [h, dissolve]
    congr 2
    exact rewrite_congr hf hs rfl
  have hdissolve : row.dissolve? x = some (single x s.node .nil, row.dissolve x) := by
    rw [dissolve?_eq_site? hf, hs, Option.map_some]
  have hrest' : ∀ other ∈ others, other.dissolve? x = none := by
    intro other hother
    have hnodup' := (List.nodup_flatMap.1 (List.nodup_append.1 hnodup).2.1).1 other hother
    rw [dissolve?_eq_site? hnodup', Forest.site?_eq_none_iff.2 (hothers other hother), Option.map_none]
  obtain ⟨p, hp⟩ := Option.isSome_iff_exists.1 hparent
  rw [Document.detach, hhosts.takeOut hrest hextract hleft, Document.unwrap, hp]
  dsimp only
  rw [hhosts.takeOut hrest' hdissolve hleft]

end Document

end MailMerge.Xml
