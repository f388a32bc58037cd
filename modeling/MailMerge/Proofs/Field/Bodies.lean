import MailMerge.Proofs.Block.Copies
import MailMerge.Proofs.Field.Replacing

/-!
# Bodies of blocks with unfolded fields

The body of a block in a document with unfolded fields is made of what becomes of the nodes of its
body in the other one (`Unfolds.span_eq`), as no two nodes become the same (`Unfolds.eq_of_own`).
Copies of the one body are unfoldings of copies of the other.
-/

namespace MailMerge

open Xml Xml.Forest Xml.Document Field

variable {u v : Unfolding} {d e : Document} {f g inner before after : Forest} {x y z t : NodeId}
variable {node : Node} {lot : Lot} {lots : List Lot} {b : Block}

namespace Xml

/-! ## Which nodes are made of one -/

/-- The nodes that are made of one node alone: the node itself, or the runs of its frame. -/
def Unfolding.own (u : Unfolding) (x : NodeId) : List NodeId :=
  match u.frame? x with
  | none => [u.name x]
  | some (before, after) => before.ids ++ after.ids

namespace Unfolding

theorem own_of_none (h : u.frame? x = none) : u.own x = [u.name x] := by simp [own, h]

theorem own_of_some (h : u.frame? x = some (before, after)) : u.own x = before.ids ++ after.ids := by
  simp [own, h]

theorem ids_slot_perm (u : Unfolding) (x : NodeId) (node : Node) (inner : Forest) :
    (u.slot x node inner).ids.Perm (u.own x ++ inner.ids) := by
  cases h : u.frame? x with
  | none =>
    rw [slot_of_none h, own_of_none h, single, ids_cons, ids_nil, List.append_nil]
    exact .refl _
  | some frame =>
    obtain ⟨before, after⟩ := frame
    rw [slot_of_some h, own_of_some h, ids_append, ids_append, List.append_assoc]
    exact List.perm_append_comm.append_left _

theorem start_mem_own (h : ∀ before after, u.frame? x = some (before, after) → before ≠ .nil) :
    u.start x ∈ u.own x := by
  cases hframe : u.frame? x with
  | none =>
    rw [own_of_none hframe, start, hframe]
    exact List.mem_singleton_self _
  | some frame =>
    obtain ⟨before, after⟩ := frame
    rw [own_of_some hframe, start, hframe]
    cases before with
    | nil => exact absurd rfl (h _ _ hframe)
    | cons first n c more => exact List.mem_cons_self

end Unfolding

theorem Forest.ids_unfold_perm (u : Unfolding) (f : Forest) :
    (f.unfold u).ids.Perm (f.ids.flatMap u.own) := by
  induction f with
  | nil => exact .refl _
  | cons x node children rest ihc ihr =>
    rw [unfold_cons, ids_append, ids_cons, List.flatMap_cons, List.flatMap_append]
    have hslot := (u.ids_slot_perm x node (children.unfold u)).trans (ihc.append_left _)
    exact (hslot.append ihr).trans (.of_eq (List.append_assoc _ _ _))

theorem Lot.ids_perm (h : lot.Sound u) :
    ((lot.unfolded u).flatMap Forest.ids).Perm ((lot.plain.flatMap Forest.ids).flatMap u.own) := by
  obtain ⟨husk?, f⟩ := lot
  rw [unfolded, List.flatMap_append, ids_solid]
  cases husk? with
  | none =>
    rw [plain, ids_solid, scraps, Option.bind_none, List.flatMap_nil, List.append_nil]
    exact ids_unfold_perm u f
  | some entry =>
    obtain ⟨x, node⟩ := entry
    obtain ⟨⟨before, after⟩, hframe⟩ := Option.ne_none_iff_exists'.1 (h.husk (x, node) rfl)
    simp only [plain, scraps, Option.bind_some, hframe, List.flatMap_append, flatMap_ids_trees,
      List.flatMap_cons, List.flatMap_nil, List.append_nil, single, ids_cons, ids_nil,
      Unfolding.own_of_some hframe]
    exact List.perm_append_comm.trans ((ids_unfold_perm u f).append_left _)

namespace Document

theorem Shows.join_tree (h : e.Shows g) : join (g.topIds.map e.tree) = g := by
  induction g with
  | nil => rfl
  | cons x node children rest _ ih =>
    rw [topIds_cons, List.map_cons, join, h.tree_eq, ih h.later]
    rfl

namespace Unfolds

theorem ids_perm (h : d.Unfolds u e) : e.ids.Perm (d.ids.flatMap u.own) := by
  obtain ⟨lots, hlots⟩ := h.lots
  have hplain := (hlots.plain.flatMap_right Forest.ids).flatMap_right u.own
  refine (hlots.unfolded.flatMap_right Forest.ids).trans (List.Perm.trans ?_ hplain.symm)
  have hsound := hlots.sound
  clear hplain hlots
  induction lots with
  | nil => exact .refl _
  | cons lot lots ih =>
    simp only [List.flatMap_cons, List.flatMap_append]
    exact (Lot.ids_perm (hsound lot List.mem_cons_self)).append
      (ih fun lot hlot => hsound lot (List.mem_cons_of_mem _ hlot))

/-- No two nodes become the same one. -/
theorem eq_of_own (h : d.Unfolds u e) (hx : x ∈ d.ids) (hy : y ∈ d.ids) (hz : z ∈ u.own x)
    (hz' : z ∈ u.own y) : x = y := by
  have hnodup := h.ids_perm.nodup_iff.1 h.distinct'.nodup
  by_contra hne
  have hsymm : Std.Symm (Function.onFun List.Disjoint u.own) := ⟨fun _ _ hd _ hz hz' => hd hz' hz⟩
  exact (List.nodup_flatMap.1 hnodup).2.forall hx hy hne hz hz'

/-! ## The nodes of a body -/

section Runs

variable (h : d.Unfolds v e)
include h

theorem exists_runs_cons (hx : x ∈ d.ids) : ∃ more, v.runs d x = v.start x :: more := by
  obtain ⟨s, hs⟩ := Document.exists_site? hx
  obtain ⟨n, c, l, hslot⟩ := Unfolding.exists_slot_start
    (fun _ _ hframe => h.before_ne_nil hx hframe) s.node (s.children.unfold v)
  refine ⟨l.topIds, ?_⟩
  rw [Unfolding.runs, tree_of_site? hs, unfold_single, hslot]
  rfl

/-- Only the runs of a node, and what is displayed there, begin with what is made of the node. -/
theorem start_notMem_runs (hx : x ∈ d.ids) (hdisplay : v.frame? x ≠ none → Display (d.below x))
    (ht : t ∈ d.ids) (hne : x ≠ t) (hclear : ∀ z, d.parent? t = some z → v.frame? z = none) :
    v.start t ∉ v.runs d x := by
  intro hin
  have hown := Unfolding.start_mem_own fun _ _ hframe => h.before_ne_nil ht hframe
  cases hframe : v.frame? x with
  | none =>
    rw [runs_of_none hx hframe, ← Unfolding.own_of_none hframe] at hin
    exact hne (h.eq_of_own hx ht hin hown)
  | some frame =>
    obtain ⟨before, after⟩ := frame
    have hdisplay := hdisplay (by simp [hframe])
    obtain ⟨y, n, inner, hbelow, -⟩ := hdisplay.exists_single
    have hyx : y ∈ (d.below x).ids := by simp [hbelow, single]
    have hy := h.frame?_of_display (h.distinct.shows_below x) hdisplay y hyx
    rw [Unfolding.runs_eq hx hframe hbelow hy, List.mem_append, List.mem_cons] at hin
    have hframed : v.start t ∈ v.own x → False := fun hin => hne (h.eq_of_own hx ht hin hown)
    rw [Unfolding.own_of_some hframe, List.mem_append] at hframed
    rcases hin with hin | hin | hin
    · exact hframed (.inl (mem_ids_of_mem_topIds hin))
    · have hymem := mem_ids_of_mem_descendants (mem_descendants_of_mem_below hyx)
      have hsame : y = t := by
        refine h.eq_of_own hymem ht ?_ hown
        rw [Unfolding.own_of_none hy, hin]
        exact List.mem_singleton_self _
      subst hsame
      have hchild : y ∈ d.children x := by
        rw [Document.children, hbelow]
        exact List.mem_singleton_self y
      rw [hclear x (h.distinct.mem_children_iff_parent?.1 hchild)] at hframe
      cases hframe
    · exact hframed (.inr (mem_ids_of_mem_topIds hin))

/-- What follows the last node that is made of one is what is made of what follows that. After a field
that has been taken out nothing follows in either document. -/
theorem following_stop (hx : x ∈ d.ids) (hclear : ∀ z, d.parent? x = some z → v.frame? z = none) :
    e.following (v.stop x) = (d.following x).unfold v := by
  obtain ⟨s, hs⟩ := Document.exists_site? hx
  rw [following_eq_site?, following_eq_site?, hs]
  obtain ⟨husk?, g, others, hlots, hmem | ⟨n, rfl⟩⟩ := h.exists_lot hx
  · obtain ⟨k, n, c, hslot⟩ := Unfolding.exists_slot_stop
      (fun _ _ hframe => h.after_ne_nil hx hframe) s.node (s.children.unfold v)
    have hs' := (h.site?_eq hlots hmem).symm.trans hs
    obtain ⟨r, hr, hrest⟩ := (h.exists_site?_of_slot hlots hmem hs' hslot).1
    rw [hr, hrest hclear]
    rfl
  · obtain ⟨⟨before, after⟩, hframe⟩ :=
      Option.ne_none_iff_exists'.1 ((hlots.sound _ List.mem_cons_self).husk _ rfl)
    obtain ⟨k, y, m, c, rfl, hlast⟩ := Forest.exists_eq_append_single (h.after_ne_nil hx hframe)
    have hrow : single y m c ∈ e.allRows := by
      refine hlots.unfolded.mem_iff.2 (List.mem_flatMap.2 ⟨_, List.mem_cons_self, ?_⟩)
      rw [Lot.unfolded_of_some hframe, trees_append]
      simp [trees, single]
    have hplain : single x n g ∈ d.allRows :=
      hlots.plain.mem_iff.2 (List.mem_flatMap.2 ⟨_, List.mem_cons_self, List.mem_singleton_self _⟩)
    have hsite := h.distinct.site?_of_row hplain (show x ∈ (single x n g).ids from List.mem_cons_self)
    have hsite' := h.distinct'.site?_of_row hrow (show y ∈ (single y m c).ids from List.mem_cons_self)
    rw [single, Forest.site?, if_pos rfl] at hsite hsite'
    rw [hs, Option.some.injEq] at hsite
    have hstop : v.stop x = y := by simp only [Unfolding.stop, hframe, hlast, Option.getD_some]
    rw [hstop, hsite', hsite]
    rfl

/-- All that is made of a field that displays a run are runs. -/
theorem isNamed_run_of_slot (hd : d.Shows f) (hfits : Field.Fits node before after) (hdisplay : Display f)
    {entry : NodeId × Node} (hentry : entry ∈ (before ++ (f.unfold v ++ after)).tops) :
    entry.2.isNamed "w:r" = true := by
  rw [unfold_eq_rename (h.frame?_of_display hd hdisplay), tops_append, tops_append, tops_rename,
    List.mem_append, List.mem_append, List.mem_map] at hentry
  rcases hentry with hentry | ⟨top, htop, rfl⟩ | hentry
  · exact hfits.allRuns.1 entry hentry
  · obtain ⟨y, m, inner, rfl, hrun⟩ := hdisplay.exists_single
    obtain ⟨tag, rfl, hname, -⟩ := hrun.elim
    obtain rfl := List.mem_singleton.1 htop
    exact hname
  · exact hfits.allRuns.2 entry hentry

/-- The elements of a row are what is made of the elements of the other one. -/
theorem elements_unfold (hd : d.Shows f)
    (htops : ∀ x ∈ f.topIds, v.frame? x ≠ none → Display (d.below x)) :
    ((f.unfold v).tops.filter (·.2.isElement)).map Prod.fst =
      ((f.tops.filter (·.2.isElement)).map Prod.fst).flatMap (v.runs d) := by
  induction f with
  | nil => rfl
  | cons x n children rest _ ih =>
    rw [topIds_cons, List.forall_mem_cons] at htops
    have hlater := ih hd.later htops.2
    have hx : x ∈ d.ids := by
      obtain ⟨t, ht, -⟩ := hd.site?
      exact mem_ids_of_site? ht
    have hruns : v.runs d x = (v.slot x n (children.unfold v)).topIds := by
      rw [Unfolding.runs, hd.tree_eq, unfold_single]
    rw [unfold_cons, tops_append, List.filter_append, List.map_append, hlater]
    cases hframe : v.frame? x with
    | none =>
      rw [Unfolding.slot_of_none hframe]
      have hname := runs_of_none hx hframe
      cases helement : n.isElement <;> simp [single, tops, helement, hname]
    | some frame =>
      obtain ⟨before, after⟩ := frame
      have hnode : d.node? x = some n := by
        obtain ⟨t, ht, hnode, -⟩ := hd.site?
        rw [node?_eq_site?, ht, ← hnode]
        rfl
      have hfits := h.fits (x, n) (mem_nodes_of_node? hnode) before after hframe
      have hdisplay := htops.1 (by simp [hframe])
      rw [hd.below_eq] at hdisplay
      have hall : ∀ entry ∈ (v.slot x n (children.unfold v)).tops, entry.2.isElement = true := by
        intro entry hentry
        rw [Unfolding.slot_of_some hframe] at hentry
        exact isElement_of_isNamed (h.isNamed_run_of_slot hd.below hfits hdisplay hentry)
      have helement : n.isElement = true := isElement_of_isNamed hfits.name
      rw [List.filter_eq_self.2 hall, tops, List.filter_cons, if_pos (by exact helement),
        List.map_cons, List.flatMap_cons, hruns]
      rfl

omit h in
theorem takeWhile_flatMap {runs : NodeId → List NodeId} {xs : List NodeId} {a : NodeId}
    (hself : ∃ more, runs x = a :: more) (hother : ∀ y ∈ xs, y ≠ x → a ∉ runs y) :
    (xs.flatMap runs).takeWhile (· ≠ a) = (xs.takeWhile (· ≠ x)).flatMap runs := by
  induction xs with
  | nil => rfl
  | cons y ys ih =>
    rw [List.forall_mem_cons] at hother
    have hlater := ih hother.2
    by_cases heq : y = x
    · obtain ⟨more, hmore⟩ := hself
      subst heq
      simp [hmore]
    · have hall : ∀ z ∈ runs y, decide (z ≠ a) = true := fun z hz =>
        decide_eq_true fun hza => hother.1 heq (hza ▸ hz)
      rw [List.flatMap_cons, List.takeWhile_append_of_pos hall, hlater,
        List.takeWhile_cons_of_pos (by simpa using heq), List.flatMap_cons]

/-- The body of a block is made of what becomes of the nodes of its body. -/
theorem span_eq (hfirst : b.first ∈ d.ids) (hlast : b.last ∈ d.ids)
    (hclear : ∀ z, d.parent? b.first = some z → v.frame? z = none)
    (hclear' : ∀ z, d.parent? b.last = some z → v.frame? z = none)
    (htops : ∀ x ∈ (d.following b.first).topIds, v.frame? x ≠ none → Display (d.below x)) :
    (v.block d b).span e = (b.span d).flatMap (v.runs d) := by
  rw [Block.span, Block.span]
  have helements : e.followingElements (v.block d b).first =
      (d.followingElements b.first).flatMap (v.runs d) := by
    rw [followingElements, followingElements, ← h.elements_unfold (h.distinct.shows_following _) htops]
    change ((e.following (v.stop b.first)).tops.filter _).map _ = _
    rw [h.following_stop hfirst hclear]
  rw [helements]
  apply takeWhile_flatMap (h.exists_runs_cons hlast)
  intro y hy hne
  have htop := mem_topIds_of_mem_followingElements hy
  exact h.start_notMem_runs (mem_ids_of_mem_following (mem_ids_of_mem_topIds htop)) (htops y htop)
    hlast hne hclear'

end Runs

/-! ## Their trees -/

theorem join_runs (hd : d.Shows f) (he : e.Shows (f.unfold v)) {xs : List NodeId}
    (hxs : xs ⊆ f.topIds) :
    join ((xs.flatMap (v.runs d)).map e.tree) = (join (xs.map d.tree)).unfold v := by
  induction xs with
  | nil => rfl
  | cons x xs ih =>
    obtain ⟨before, n, children, after, rfl⟩ :=
      exists_eq_append_of_mem_topIds (hxs List.mem_cons_self)
    have hslot := he
    rw [unfold_append, unfold_cons] at hslot
    rw [List.flatMap_cons, List.map_append, join_append, ih fun y hy => hxs (List.mem_cons_of_mem _ hy),
      List.map_cons, join, unfold_append, Unfolding.runs, hd.right.tree_eq, unfold_single,
      hslot.right.left.join_tree]

end Unfolds

end Document

end Xml

/-! ## Tidy rows -/

namespace Field

theorem tidy_append : Tidy (f ++ g) ↔ Tidy f ∧ Tidy g := by
  induction f with
  | nil => simp [Tidy]
  | cons x node children rest _ ih => simp [Tidy, ih, and_assoc]

/-- Whether a row displays a text does not depend on identities. -/
theorem Display.of_bare (h : Display f) (heq : g.bare = f.bare) : Display g := by
  obtain ⟨y, n, inner, rfl, h⟩ := h.exists_single
  obtain ⟨tag, rfl, hname, htext, hpure⟩ := h.elim
  obtain ⟨z, c, r, rfl, hc, hr⟩ := exists_cons_of_bare heq
  obtain rfl := eq_nil_of_bare hr
  have hpayloads := payloads_eq_of_bare hc
  refine display_single hname ?_ fun entry hentry => ?_
  · have hcount := congrArg (List.countP fun node : Node => node.isNamed "w:t") hpayloads
    rw [List.countP_map, List.countP_map] at hcount
    exact hcount.trans htext
  · have hmem := List.mem_map_of_mem (f := Prod.snd) hentry
    rw [hpayloads] at hmem
    obtain ⟨other, hother, hsame⟩ := List.mem_map.1 hmem
    rw [← hsame]
    exact hpure other hother

theorem Tidy.of_bare (h : Tidy f) (heq : g.bare = f.bare) : Tidy g := by
  induction f generalizing g with
  | nil => rw [eq_nil_of_bare heq]; trivial
  | cons x node children rest ihc ihr =>
    obtain ⟨hmarker, hdisplay, hc, hr⟩ := h
    obtain ⟨y, c, r, rfl, hceq, hreq⟩ := exists_cons_of_bare heq
    exact ⟨hmarker, fun hname => (hdisplay hname).of_bare hceq, ihc hc hceq, ihr hr hreq⟩

end Field

end MailMerge
