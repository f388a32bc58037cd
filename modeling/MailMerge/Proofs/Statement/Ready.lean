import MailMerge.Proofs.Block.Interior
import MailMerge.Proofs.Statement.Waiting
import MailMerge.Proofs.Xml.Bounds

/-!
# Blocks that stay ready

A block that waits for its turn is ready when its last anchor still follows the first one, and what
stands between its fields is still covered or has been taken out already. The edits that earlier
statements make leave it so, unless they touch a node that the block is told by. Main statement: a
block that is ready takes out all that stands between its fields (`Ready.mem_taken`).
-/

namespace MailMerge

open Xml Xml.Forest Xml.Document

variable {d e e' : Document} {b : Block} {a m m' x y z : NodeId} {rest : List Forest}
variable {p : NodeId → Node → Prop} {takes : NodeId → Prop}

/-- What encloses a node below the one that stands alone is still below that one. -/
theorem Kept.mem_descendants_top (h : Kept d x e) (ha : d.Apex x rest) (hmem : a ∈ d.descendants x)
    (hne : a ≠ x) (hz : z ∈ e.descendants x) (hin : z ∈ e.descendants a) :
    a ∈ e.descendants x ∧ x ∉ e.descendants a := by
  have hout : x ∉ e.descendants a := by
    intro hx
    have hself := mem_descendants_self ha.mem_ids
    exact hne (ha.distinct.mem_descendants_antisymm hmem (h.below a hmem x hself hx))
  exact ⟨(h.distinct.mem_descendants_total hin hz).resolve_right hout, hout⟩

namespace Block

/-- What a block relies on while it waits for its turn. -/
structure Ready (d : Document) (x m m' : NodeId) (b : Block) (e : Document) : Prop where
  beside : b.last ∈ (e.following b.first).topIds
  covers : ∀ z, Between d x m m' z → z ∈ e.descendants x → ∃ a, b.Covers d x e a z

namespace Ready

theorem gains (h : b.Ready d x m m' e) (hk : Kept d x e) (ha : d.Apex x rest)
    (hfirst : b.first ∈ d.descendants x) (hg : Gains (d.descendants x) p e e')
    (hp : ∀ z n, p z n → z ∉ d.descendants x) : b.Ready d x m m' e' := by
  have hold : d.descendants x ⊆ e.ids := fun y hy => hk.ids (mem_ids_of_mem_descendants hy)
  have hlater := hg.topIds_following_subset hfirst
  refine ⟨hlater h.beside, fun z hz hin => ?_⟩
  have hself := mem_descendants_self ha.mem_ids
  have hbefore := (hg.bounds hold).mem_descendants hold hself hin fun n hn => hp z n hn hz.mem
  obtain ⟨a, hcovers⟩ := h.covers z hz hbefore
  exact ⟨a, hcovers.mem, hcovers.ne, hcovers.isElement,
    hg.descendants_subset hcovers.mem hcovers.encloses, hcovers.taken.imp_right (hlater ·)⟩

theorem detach (h : b.Ready d x m m' e) (hk : Kept d x e) (ha : d.Apex x rest)
    (hy : y ∉ b.border) : b.Ready d x m m' (e.detach y) := by
  rw [border, List.mem_cons, List.mem_cons, not_or, not_or] at hy
  obtain ⟨hfirst, hlast, hframe⟩ := hy
  have hlater : ∀ a, a ≠ y → a ∈ (e.following b.first).topIds →
      a ∈ ((e.detach y).following b.first).topIds := fun a hne hin =>
    hk.distinct.mem_topIds_following_detach (Ne.symm hfirst) hne hin
  refine ⟨hlater b.last (Ne.symm hlast) h.beside, fun z hz hin => ?_⟩
  obtain ⟨hin, hout⟩ := hk.distinct.mem_descendants_detach.1 hin
  obtain ⟨a, hcovers⟩ := h.covers z hz hin
  obtain ⟨htop, hxout⟩ := hk.mem_descendants_top ha hcovers.mem hcovers.ne hin hcovers.encloses
  have hne : a ≠ y := by
    rintro rfl
    exact hout htop (Ne.symm hcovers.ne) hcovers.encloses
  refine ⟨a, hcovers.mem, hcovers.ne, hcovers.isElement, ?_, hcovers.taken.imp_right (hlater a hne)⟩
  refine hk.distinct.mem_descendants_detach.2 ⟨hcovers.encloses, fun hya _ => ?_⟩
  have hxy : x ≠ y := by
    rintro rfl
    exact hxout hya
  exact hout (hk.distinct.mem_descendants_trans hya htop) hxy

theorem melts (h : b.Ready d x m m' e) (hk : Kept d x e) (hm : e.Melts y e') (hy : y ∉ b.border)
    (hlt : d.place x y < d.place x m) (hfirst : b.first ∈ d.descendants x)
    (hpast : ∀ z, d.Past x b.first z → d.place x m < d.place x z) : b.Ready d x m m' e' := by
  rw [border, List.mem_cons, List.mem_cons, not_or, not_or] at hy
  obtain ⟨hyfirst, hylast, hframe⟩ := hy
  have hlater : ∀ a, a ≠ y → a ∈ (e.following b.first).topIds →
      a ∈ (e'.following b.first).topIds := fun a hne hin =>
    hm.mem_following_of_ne hin (Ne.symm hyfirst) hne
  refine ⟨hlater b.last (Ne.symm hylast) h.beside, fun z hz hin => ?_⟩
  obtain ⟨a, hcovers⟩ := h.covers z hz (hm.mem_descendants hin)
  have hne : a ≠ y := by
    rintro rfl
    rcases hcovers.taken with hin | hin
    · exact hframe hin
    · have hlate := hpast a (hk.after b.first hfirst a hcovers.mem (mem_ids_of_mem_topIds hin))
      exact Nat.lt_asymm hlt hlate
  have hzy : z ≠ y := by
    rintro rfl
    exact Nat.lt_asymm hlt hz.lt
  exact ⟨a, hcovers.mem, hcovers.ne, hcovers.isElement,
    hm.mem_descendants_of_ne hcovers.encloses hne hzy, hcovers.taken.imp_right (hlater a hne)⟩

end Ready

/-- The body is made of the elements between the anchors. -/
theorem mem_span_iff (hd : e.Distinct) (h : b.last ∈ e.followingElements b.first) :
    y ∈ b.span e ↔ y ∈ e.followingElements b.first ∧ b.last ∈ (e.following y).topIds := by
  obtain ⟨s, before, node, children, after, hs, hrest, hspan⟩ := exists_rest_eq_append hd h
  have hfollowing : e.following b.first = before ++ cons b.last node children after := by
    rw [← hrest, following_eq_site?, hs]
    rfl
  have hcut : e.followingElements b.first =
      b.span e ++ ((cons b.last node children after).tops.filter (·.2.isElement)).map Prod.fst := by
    rw [followingElements, hfollowing, tops_append, List.filter_append, List.map_append, hspan]
  constructor
  · intro hy
    refine ⟨hcut ▸ List.mem_append_left _ hy, ?_⟩
    have hin : y ∈ before.topIds := (hspan ▸ List.filter_sublist.map Prod.fst).subset hy
    obtain ⟨f, n, below, g, rfl⟩ := exists_eq_append_of_mem_topIds hin
    rw [append_assoc, cons_append] at hfollowing
    rw [hd.following_of_append hfollowing, topIds_append, topIds_cons]
    exact List.mem_append_right _ List.mem_cons_self
  · rintro ⟨hy, hbefore⟩
    rw [hcut, List.mem_append] at hy
    refine hy.resolve_right fun hy => ?_
    have hin : y ∈ (cons b.last node children after).topIds :=
      (List.filter_sublist.map Prod.fst).subset hy
    rw [topIds_cons, List.mem_cons] at hin
    rcases hin with heq | hin
    · rw [heq] at hbefore
      exact hd.notMem_following_self b.last hbefore
    · rw [← hd.following_of_append hfollowing] at hin
      exact hd.notMem_following_self b.last (hd.mem_following_trans hin hbefore)

end Block

namespace Statement.Spans

variable {opening : Opening}

theorem anchored (h : Spans d x m m' (.block opening b)) :
    ∃ start stop, Block.Anchored d start stop b ∧ start.FoundAt d x m ∧ stop.FoundAt d x m' := by
  cases h with
  | block _ first last => exact ⟨_, _, Block.anchored_between d _ _, first, last⟩

theorem first_mem (h : Spans d x m m' (.block opening b)) (ha : d.Apex x rest) :
    b.first ∈ d.descendants x := h.foundAt.anchor_mem ha rfl

theorem place_lt_of_past (h : Spans d x m m' (.block opening b)) (ha : d.Apex x rest)
    (hz : d.Past x b.first z) : d.place x m < d.place x z := h.foundAt.place_lt_of_past ha rfl hz

theorem reaches (h : Spans d x m m' (.block opening b)) (ha : d.Apex x rest) (hy : y ∈ b.border) :
    Block.Reaches d x m y := by
  obtain ⟨start, stop, hanchored, hstart, hstop⟩ := h.anchored
  exact hanchored.reaches ha hstart.begins hstart.mem hstop.begins hstop.mem h.le hy

theorem lastAnchor_mem (h : Spans d x m m' (.block opening b)) (ha : d.Apex x rest) :
    b.last ∈ d.descendants x :=
  (h.reaches ha (List.mem_cons_of_mem _ List.mem_cons_self)).mem ha

theorem last_mem (h : Spans d x m m' (.block opening b)) (ha : d.Apex x rest) :
    m' ∈ d.descendants b.last := by
  obtain ⟨start, stop, hanchored, -, hstop⟩ := h.anchored
  exact hanchored.last_mem ha.distinct hstop.begins

theorem last_mem_frame (h : Spans d x m m' (.block opening b)) (ha : d.Apex x rest) :
    b.last ∈ b.frame ∨ b.last = m' := by
  obtain ⟨start, stop, hanchored, -, hstop⟩ := h.anchored
  exact hanchored.last_mem_frame ha.distinct hstop.begins

/-- A block whose last anchor follows the first one is ready at first. -/
theorem ready (h : Spans d x m m' (.block opening b)) (hd : d.Proper) (ha : d.Apex x rest)
    (hlast : b.last ∈ d.followingElements b.first) : b.Ready d x m m' d := by
  obtain ⟨start, stop, hanchored, hstart, hstop⟩ := h.anchored
  have hbeside := mem_topIds_of_mem_followingElements hlast
  refine ⟨hbeside, fun z hz _ => ?_⟩
  exact hanchored.exists_covers hd ha hstart.begins hstart.mem hstop.begins
    h.foundAt.first_mem_frame hbeside hz

end Statement.Spans

namespace Block

variable {opening : Opening}

theorem Covers.of_bounds (h : b.Covers d x e' a z) (hk : Kept d x e)
    (hb : Bounds (d.descendants x) p e e') (hp : ∀ z n, p z n → z ∉ d.descendants x)
    (hfirst : b.first ∈ d.descendants x) (hz : z ∈ d.descendants x) : b.Covers d x e a z where
  mem := h.mem
  ne := h.ne
  isElement := h.isElement
  encloses := hb.mem_descendants (fun _ hy => hk.ids (mem_ids_of_mem_descendants hy)) h.mem
    h.encloses fun n hn => hp z n hn hz
  taken := h.taken.imp_right fun hin =>
    (hb.following b.first hfirst).mem_topIds hin fun n hn => hp a n hn h.mem

namespace Ready

theorem last_mem_followingElements (h : b.Ready d x m m' e) (hk : Kept d x e) (ha : d.Apex x rest)
    (hspans : (Statement.block opening b).Spans d x m m')
    (hlast : b.last ∈ d.followingElements b.first) : b.last ∈ e.followingElements b.first := by
  obtain ⟨n, hn, helement⟩ := ha.distinct.isElement_of_mem_followingElements hlast
  have hmem := hspans.lastAnchor_mem ha
  exact hk.distinct.mem_followingElements h.beside ((hk.node _ hmem).trans hn) helement

/-- What covers a node between the fields is in the body of the block or in its frame. -/
theorem mem_taken (h : b.Ready d x m m' e) (hk : Kept d x e) (ha : d.Apex x rest)
    (hspans : (Statement.block opening b).Spans d x m m')
    (hlast : b.last ∈ d.followingElements b.first) (hz : Between d x m m' z)
    (hcovers : b.Covers d x e a z) : a ∈ b.span e ++ b.frame := by
  have hlast' := h.last_mem_followingElements hk ha hspans hlast
  have hmem := hspans.lastAnchor_mem ha
  have hbelow := hk.below a hcovers.mem z hz.mem hcovers.encloses
  rw [List.mem_append]
  rcases hcovers.taken with hin | hin
  · exact .inr hin
  rcases hk.distinct.eq_or_mem_following_of_mem h.beside hin with rfl | hbefore | hafter
  · refine .inr ((hspans.last_mem_frame ha).resolve_right fun heq => ?_)
    rw [heq] at hbelow hmem
    exact Nat.not_le_of_lt hz.lt' (ha.distinct.place_le hmem hbelow)
  · obtain ⟨n, hn, helement⟩ := hcovers.isElement
    have hnode := (hk.node a hcovers.mem).trans hn
    refine .inl ((mem_span_iff hk.distinct hlast').2 ⟨?_, hbefore⟩)
    exact hk.distinct.mem_followingElements hin hnode helement
  · -- After the last anchor, all comes after the end of the block.
    have hpast := hk.after b.last hmem a hcovers.mem (mem_ids_of_mem_topIds hafter)
    have hlate := hpast.lt m' (hspans.last_mem ha)
    exact absurd (ha.distinct.place_le hcovers.mem hbelow) (by have := hz.lt'; omega)

/-- A later block is told by no node of the body. -/
theorem notMem_border (h : b.Ready d x m m' e) (hk : Kept d x e) (ha : d.Apex x rest)
    (hspans : (Statement.block opening b).Spans d x m m')
    (hlast : b.last ∈ d.followingElements b.first) (hy : y ∈ b.span e) {opening' : Opening}
    {b' : Block} {l l' : NodeId} (hlater : (Statement.block opening' b').Spans d x l l')
    (hlt : d.place x m' < d.place x l) : y ∉ b'.border := by
  intro hin
  have hreaches := hlater.reaches ha hin
  have hlast' := h.last_mem_followingElements hk ha hspans hlast
  have hmem := hspans.lastAnchor_mem ha
  have hbefore := ((mem_span_iff hk.distinct hlast').1 hy).2
  have hpast := hk.after y (hreaches.mem ha) b.last hmem (mem_ids_of_mem_topIds hbefore)
  have hlate := hreaches.place_lt hpast
  have hle := ha.distinct.place_le hmem (hspans.last_mem ha)
  omega

end Ready

end Block

/-! ## All blocks that wait -/

namespace Statement

/-- The nodes that the block of a statement is told by. -/
def border : Statement → List NodeId
  | insertion _ _ => []
  | block _ b => b.border

/-- All blocks that wait for their turn are ready. -/
structure Poised (d : Document) (x : NodeId) (turns : List Turn) (e : Document) : Prop where
  kept : Kept d x e
  ready : ∀ turn ∈ turns, ∀ opening b, turn.statement = .block opening b →
    b.Ready d x turn.first turn.last e

/-- Nodes of the template that have been taken out do not come back. -/
def NoReturn (d : Document) (x : NodeId) (e e' : Document) : Prop :=
  ∀ z ∈ d.descendants x, z ∈ e'.descendants x → z ∈ e.descendants x

theorem NoReturn.trans {c : Document} (h : NoReturn d x c e) (h' : NoReturn d x e e') :
    NoReturn d x c e' := fun z hz hin => h z hz (h' z hz hin)

/-- What a block is told by is in the template. -/
theorem Spans.border_subset {t : Statement} (h : t.Spans d x m m') (ha : d.Apex x rest) :
    t.border ⊆ d.descendants x := by
  intro y hy
  cases t with
  | insertion expression field => cases hy
  | block opening b => exact (h.reaches ha hy).mem ha

namespace Poised

variable {turns : List Turn} {turn : Turn}

theorem old_subset (h : Poised d x turns e) : d.descendants x ⊆ e.ids :=
  fun _ hy => h.kept.ids (mem_ids_of_mem_descendants hy)

theorem tail (h : Poised d x (turn :: turns) e) : Poised d x turns e :=
  ⟨h.kept, fun t ht => h.ready t (List.mem_cons_of_mem _ ht)⟩

theorem edits (h : Poised d x turns e) (hs : Schedule d x turns) (ha : d.Apex x rest)
    (hedits : Edits (d.descendants x) p takes e e') (hp : ∀ z n, p z n → z ∉ d.descendants x)
    (htakes : ∀ y, takes y → ∀ turn ∈ turns, y ∉ turn.statement.border) :
    Poised d x turns e' ∧ NoReturn d x e e' := by
  have hb := hedits.bounds h.kept.distinct h.old_subset
  refine ⟨?_, fun z hz hin => hb.mem_descendants h.old_subset (mem_descendants_self ha.mem_ids) hin
    fun n hn => hp z n hn hz⟩
  induction hedits with
  | refl => exact h
  | @tail c e' hbefore hedit ih =>
    have hc := ih (Edits.bounds hbefore h.kept.distinct h.old_subset)
    refine ⟨hc.kept.bounds (hedit.bounds hc.kept.distinct hc.old_subset) hp, ?_⟩
    intro turn hturn opening b heq
    have hready := hc.ready turn hturn opening b heq
    have hspans := hs.spans turn hturn
    rw [heq] at hspans
    cases hedit with
    | gain gains => exact hready.gains hc.kept ha (hspans.first_mem ha) gains hp
    | @detach y taken =>
      have hout := htakes y taken turn hturn
      rw [heq] at hout
      exact hready.detach hc.kept ha hout

theorem unwrap (h : Poised d x turns e) (hs : Schedule d x turns) (ha : d.Apex x rest)
    (hy : y ∈ d.descendants x) (hout : ∀ turn ∈ turns, y ∉ turn.statement.border)
    (hlt : ∀ turn ∈ turns, d.place x y < d.place x turn.first) :
    Poised d x turns (e.unwrap y) ∧ NoReturn d x e (e.unwrap y) := by
  cases hparent : e.parent? y with
  | none =>
    have hdetach : Edits (d.descendants x) (fun _ _ => False) (· = y) e (e.detach y) :=
      .single (.detach rfl)
    rw [Document.unwrap, hparent]
    exact h.edits hs ha hdetach (fun _ _ hp => hp.elim) fun _ heq => heq ▸ hout
  | some parent =>
    have hm := h.kept.distinct.unwrap_melts (x := y) (by rw [hparent]; rfl)
    refine ⟨⟨h.kept.melts hm hy ha.distinct, ?_⟩, fun z _ hin => hm.mem_descendants hin⟩
    intro turn hturn opening b heq
    have hready := h.ready turn hturn opening b heq
    have hspans := hs.spans turn hturn
    have hnot := hout turn hturn
    rw [heq] at hspans hnot
    exact hready.melts h.kept hm hnot (hlt turn hturn) (hspans.first_mem ha)
      fun z hz => hspans.place_lt_of_past ha hz

end Poised

end Statement

end MailMerge
