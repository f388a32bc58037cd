import MailMerge.Proofs.Rendering.Nesting
import MailMerge.Proofs.Rendering.Whole
import MailMerge.Proofs.Statement.Matched

/-!
# Bodies that wait

While statements are evaluated in turn, the body of each block that waits stays as it is in the
template, or is taken out as a whole together with the anchor that it follows (`Intact`). An
insertion and a block keep this up for the later statements (`evaluateInsertion_intact`,
`replace_intact`).
-/

namespace MailMerge

open Xml Xml.Forest Xml.Document

variable {d e : Document} {x m m' k : NodeId} {w : Workspace} {host : Host} {context : Context}
variable {rest : List Forest} {b : Block} {nodes : List NodeId} {opening : Opening}

/-! ## What a block takes out -/

namespace Block

theorem mem_span_of_following (hd : e.Distinct) {f z : NodeId} {node : Node} (hz : z ∈ b.span e)
    (hin : z ∈ (e.following f).ids) (hnode : e.node? f = some node)
    (helement : node.isElement = true) (hne : b.first ≠ f)
    (hout : b.first ∉ (e.following f).ids) : f ∈ b.span e := by
  have hspan : b.span e <+: e.followingElements b.first := List.takeWhile_prefix _
  have hfollow := mem_topIds_of_mem_followingElements (hspan.subset hz)
  obtain ⟨s, hs, hbelow⟩ := hd.exists_sibling_of_mem_following hin
  by_cases heq : z = s
  · subst heq
    rcases hd.eq_or_mem_following hs hfollow with heq | hlater | hearlier
    · exact absurd heq.symm hne
    · exact hd.mem_of_isPrefix hspan hz (hd.mem_followingElements hlater hnode helement) hs
    · exact absurd (mem_ids_of_mem_topIds hearlier) hout
  · have hfirst := hd.mem_descendants_of_following hfollow hbelow heq
    have hrow := (hd.shows_following f).has
    exact absurd ((hrow.mem_ids_iff (hd.nodup_following f)).2 ⟨s, hs, hfirst⟩) hout

/-- A body is kept as a whole or lost as a whole with what follows its anchor. -/
theorem span_of_whole {p : NodeId → Prop} (b : Block) (h : Whole p d e) (hfirst : p b.first) :
    b.span e = [] ∨ b.span e = b.span d ∧ e.following b.first = d.following b.first := by
  rcases h.following b.first hfirst with hnone | hsame
  · left
    rw [Block.span, followingElements, hnone]
    rfl
  · right
    refine ⟨?_, hsame⟩
    rw [Block.span, Block.span, followingElements, followingElements, hsame]

theorem content_of_whole {p : NodeId → Prop} (b : Block) (h : Whole p d e) (hd : d.Distinct)
    (hfirst : p b.first) : b.content e = .nil ∨ b.content e = b.content d := by
  rcases b.span_of_whole h hfirst with hnone | ⟨hspan, hsame⟩
  · left
    rw [Block.content, hnone]
    rfl
  · right
    have hshows := h.distinct.shows_following b.first
    rw [hsame] at hshows
    rw [Block.content, Block.content, hspan]
    congr 1
    refine List.map_congr_left fun y hy => ?_
    have hfollow := mem_topIds_of_mem_followingElements (List.takeWhile_subset _ hy)
    obtain ⟨s, hs⟩ := Forest.exists_site? (mem_ids_of_mem_topIds hfollow)
    rw [hshows.tree_eq_site hs, (hd.shows_following b.first).tree_eq_site hs]

end Block

namespace Statement

/-- What a block is told by does not follow a later one, unless that one is taken out with it. -/
theorem Spans.mem_frame_of_following (h : Spans d x m m' (.block opening b)) (ha : d.Apex x rest)
    (hframed : Field.Framed d x) {opening' : Opening} {b' : Block}
    (ht : FoundAt d x k (.block opening' b'))
    (hlt : d.place x m' < d.place x k) {z : NodeId} (hz : z ∈ b.frame)
    (hin : z ∈ (d.following b'.first).ids) (hout : b.first ∉ (d.following b'.first).ids) :
    b'.first ∈ b.frame := by
  have hfirst := ht.anchor_mem ha (f := b'.first) rfl
  obtain ⟨node, hnode, helement⟩ := ht.anchor_isElement ha hframed (f := b'.first) rfl
  have hnot : ∀ l, d.place x l ≤ d.place x m' → ¬d.Past x b'.first l := by
    intro l hle hpast
    have := ht.place_lt_of_past ha rfl hpast
    omega
  have hle := h.le
  have hlast := h.last_mem ha
  cases h with
  | block opens first last lt =>
    cases Block.anchored_between d _ _ with
    | around _ _ _ hframe =>
      rw [hframe, List.mem_cons, List.mem_singleton] at hz
      rcases hz with rfl | rfl
      · exact absurd hin hout
      · have hpast := (ha.past_of_mem_following hfirst hin).below ha.distinct hlast
        exact absurd hpast (hnot _ (Nat.le_refl _))
    | inline _ _ hframe =>
      rw [hframe, List.mem_append] at hz ⊢
      refine hz.imp (fun hz => ?_) fun hz => ?_
      · rw [(first.opens opens).1] at hz ⊢
        exact first.begins.mem_nodes_of_following ha first.mem hfirst hnode helement (hnot _ hle)
          hz hin
      · have hsame := Field.removed_eq_nodes hz
        rw [hsame] at hz ⊢
        exact last.begins.mem_nodes_of_following ha last.mem hfirst hnode helement
          (hnot _ (Nat.le_refl _)) hz hin

/-! ## What waiting blocks rely on -/

/-- A node after which the body of a waiting block stands. -/
def Opens (turns : List Turn) (f : NodeId) : Prop := ∃ turn ∈ turns, f ∈ turn.statement.opener?

/-- What waiting statements rely on, the bodies of blocks among them. -/
structure Intact (d : Document) (x : NodeId) (turns : List Turn) (e : Document) : Prop where
  waits : Waits d x (turns.map fun turn => (turn.first, turn.statement)) e
  whole : Whole (Opens turns) d e

variable {turns : List Turn} {turn : Turn} {fails : MergeError → Prop} {f : NodeId}

theorem Opens.tail (h : Opens turns f) : Opens (turn :: turns) f := by
  obtain ⟨t, ht, hf⟩ := h
  exact ⟨t, List.mem_cons_of_mem _ ht, hf⟩

/-- A body that waits belongs to a block that is found in the template. -/
theorem Schedule.exists_of_opens (h : Schedule d x turns) (hf : Opens turns f) :
    ∃ turn ∈ turns, ∃ opening b, turn.statement = .block opening b ∧ f = b.first ∧
      FoundAt d x turn.first (.block opening b) := by
  obtain ⟨turn, hturn, hopens⟩ := hf
  cases hstatement : turn.statement with
  | insertion expression field =>
    rw [hstatement] at hopens
    cases hopens
  | block opening b =>
    rw [hstatement] at hopens
    cases hopens
    exact ⟨turn, hturn, opening, b, hstatement, rfl, hstatement ▸ (h.spans turn hturn).foundAt⟩

/-- When the turn of a block has come, nothing that it takes out follows a later block, unless that
one is taken out as well. -/
theorem Intact.taken (h : Intact d x (⟨m, m', .block opening b⟩ :: turns) e)
    (hs : Schedule d x (⟨m, m', .block opening b⟩ :: turns)) (ha : d.Apex x rest)
    (hframed : Field.Framed d x) (hf : Opens turns f) (hout : f ∉ b.span e ++ b.frame) :
    f ∈ d.descendants x ∧ b.first ≠ f ∧ ∀ z ∈ b.span e ++ b.frame, z ∉ (e.following f).ids := by
  obtain ⟨turn, hturn, opening', b', -, rfl, hfound⟩ := hs.tail.exists_of_opens hf
  obtain ⟨node, hnode, helement⟩ := hfound.anchor_isElement ha hframed (f := b'.first) rfl
  have hmem := hfound.anchor_mem ha (f := b'.first) rfl
  have hspans := hs.spans _ List.mem_cons_self
  have hlt := hs.lt turn hturn
  rw [List.mem_append, not_or] at hout
  have hlt' : d.place x m < d.place x turn.first := Nat.lt_of_le_of_lt hspans.le hlt
  have hframe := mem_frame_of_following ha hframed h.waits.kept hspans.foundAt
    (h.waits.led _ List.mem_cons_self) hfound hlt' (f := b'.first) rfl
  have hne : b.first ≠ b'.first := fun heq => hout.2 (hframe (.inl heq))
  have hafter : b.first ∉ (e.following b'.first).ids := fun hin => hout.2 (hframe (.inr hin))
  refine ⟨hmem, hne, fun z hz hin => ?_⟩
  rcases List.mem_append.1 hz with hz | hz
  · exact hout.1 (Block.mem_span_of_following h.waits.kept.distinct hz hin
      ((h.waits.kept.node _ hmem).trans hnode) helement hne hafter)
  · -- The frame is told by the template, where the later anchor is followed by the same nodes.
    rcases h.whole.following _ hf.tail with hnone | hsame
    · rw [hnone] at hin
      cases hin
    · rw [hsame] at hin hafter
      exact hout.2 (hspans.mem_frame_of_following ha hframed hfound hlt hz hin hafter)

theorem intact_self (ha : d.Apex x rest) (hs : Schedule d x turns) : Intact d x turns d :=
  ⟨waits_self ha hs.queue, .refl ha.distinct⟩

/-- When the turn of a block has come, its body is the one in the template, or there is none. -/
theorem Intact.content (h : Intact d x (⟨m, m', .block opening b⟩ :: turns) e) (hd : d.Distinct) :
    b.content e = .nil ∨ b.content e = b.content d :=
  b.content_of_whole h.whole hd ⟨_, List.mem_cons_self, rfl⟩

/-! ## Each turn -/

/-- A block that is found has not been given its body yet. -/
theorem FoundAt.body_eq (h : FoundAt d x m (.block opening b)) (e : Document) :
    b.body e = b.span e := by
  cases h
  rfl

/-- A waiting body is not taken out with a block. -/
def Stays (turns : List Turn) (b : Block) (e : Document) (f : NodeId) : Prop :=
  Opens turns f ∧ f ∉ b.span e ++ b.frame

/-- The nodes that come for a block do not come after an anchor that stays. -/
theorem Intact.insertAllAfter (hfails : fails .misplacedNode)
    (h : Intact d x (⟨m, m', .block opening b⟩ :: turns) e)
    (hs : Schedule d x (⟨m, m', .block opening b⟩ :: turns)) (ha : d.Apex x rest)
    (hframed : Field.Framed d x) (hrendered : Block.Rendered e nodes w.document) :
    (Merge.insertAllAfter b.first nodes).Returns w fails fun _ d' =>
      Yields d x (turns.map fun turn => (turn.first, turn.statement)) b d' ∧
        Still (Stays turns b e) e d' := by
  have hd := h.waits.kept.distinct
  have hold := h.waits.old_subset
  have hq := hs.queue
  have hwaits := h.waits.bounds hq ha ((hrendered.1.fresh hd hold).bounds hold)
  have hspared : Still (Stays turns b e) e w.document := by
    refine ⟨hrendered.1.apart.distinct, hrendered.1.ids, fun f hf => ?_⟩
    exact hrendered.1.apart.following_eq hd.apart (hold (h.taken hs ha hframed hf.1 hf.2).1)
  refine Merge.returns_forM ⟨.of_waits hwaits hq ha hframed, hspared⟩ fun y hy w' hafter => ?_
  obtain ⟨hyields, hstill⟩ := hafter
  have hnew : y ∉ d.descendants x := fun hin =>
    (hrendered.2 y (List.mem_reverse.1 hy)).out (hold hin)
  refine Merge.returns_move hfails fun d' hmove => ⟨hyields.insertAfter hq.tail ha hnew hmove, ?_⟩
  refine hstill.trans (hstill.distinct.still_insertAfter hmove fun f hf => ?_)
  obtain ⟨hmem, hne, hout⟩ := h.taken hs ha hframed hf.1 hf.2
  have hfirst : b.first ∈ b.frame := (hs.spans _ List.mem_cons_self).foundAt.first_mem_frame
  rw [hstill.following f hf]
  refine ⟨hyields.kept.closed y hnew f hmem, fun hin => hnew ?_, Ne.symm hne, ?_⟩
  · exact ha.mem_of_mem_following hmem (h.whole.subset hf.1.tail hin)
  · exact hout _ (List.mem_append_right _ hfirst)

/-- What is taken out for a block is taken out of no body whose anchor stays. -/
theorem Intact.removeFrame (h : Intact d x (⟨m, m', .block opening b⟩ :: turns) e)
    (hs : Schedule d x (⟨m, m', .block opening b⟩ :: turns)) (ha : d.Apex x rest)
    (hframed : Field.Framed d x) {d' : Document} (hstill : Still (Stays turns b e) e d') :
    Whole (Opens turns) e (b.removeFrame (d'.detachAll (b.span e))) := by
  rw [b.removeFrame_detachAll]
  refine hstill.whole_detachAll fun f hf z hz hin => ?_
  by_contra hout
  exact (h.taken hs ha hframed hf hout).2.2 z hz hin

/-- A block leaves the waiting bodies as they are, or takes them out as a whole. -/
theorem replace_intact (hfails : fails .misplacedNode)
    (h : Intact d x (⟨m, m', .block opening b⟩ :: turns) e)
    (hs : Schedule d x (⟨m, m', .block opening b⟩ :: turns)) (ha : d.Apex x rest)
    (hframed : Field.Framed d x) (hrendered : Block.Rendered e nodes w.document) :
    ((b.settle e).replace nodes).Returns w fails fun _ => Intact d x turns := by
  have hbody : b.body e = b.span e := (hs.spans _ List.mem_cons_self).foundAt.body_eq e
  have hinserted := h.insertAllAfter hfails hs ha hframed hrendered
  unfold Block.replace
  refine Merge.returns_document (hinserted.bind fun _ w' hafter _ => Merge.returns_ok rfl ?_)
  obtain ⟨hyields, hstill⟩ := hafter
  rw [Block.body, Block.settle, hbody]
  refine ⟨hyields.removeFrame hs.queue.tail ha _, ?_⟩
  exact (h.whole.imp fun f hf => hf.tail).trans (h.removeFrame hs ha hframed hstill)

/-- An insertion leaves waiting statements what they rely on, if no body begins within what it
displays. -/
theorem evaluateInsertion_intact {expression : Expression} {field : Field} (hplain : context.Plain)
    (hoverflow : fails .overflow) (hfails : fails .misplacedNode)
    (hfails' : ∀ value, fails (.unsupportedContent value))
    (h : Intact d x (⟨m, m', .insertion expression field⟩ :: turns) w.document)
    (hs : Schedule d x (⟨m, m', .insertion expression field⟩ :: turns)) (ha : d.Apex x rest)
    (hframed : Field.Framed d x)
    (hclear : ∀ y ∈ field.displays, ∀ f, Opens turns f → f ∉ d.descendants y) :
    (evaluateInsertion host context expression field).Returns w fails
      fun _ => Intact d x turns := by
  have hfound := (hs.spans _ List.mem_cons_self).foundAt
  have hfield : field.FoundAt d x m := by
    cases hfound
    assumption
  have hbeside : ∀ f, Opens turns f → field.Beside w.document f := by
    intro f hf
    obtain ⟨turn, hturn, opening, b, -, rfl, hlater⟩ := hs.tail.exists_of_opens hf
    have hlt : d.place x m < d.place x turn.first :=
      Nat.lt_of_le_of_lt (hs.spans _ List.mem_cons_self).le (hs.lt turn hturn)
    have hstart := hlater.beside ha hframed hfield hlt fun y hy => hclear y hy _ hf
    exact hstart.later ha hfield.found (hlater.anchor_mem ha rfl) h.waits.kept h.whole hf.tail
  have hmem : ∀ y ∈ field.handles, y ∈ w.document.ids := fun y hy =>
    h.waits.old_subset (Field.mem_descendants_of_mem_discover ha hfield.found hy)
  have hwaits : (evaluateInsertion host context expression field).Ends w
      fun _ => Waits d x (turns.map fun turn => (turn.first, turn.statement)) :=
    evaluateInsertion_waits hplain ha hframed hs.queue h.waits
  have hrun : (evaluateInsertion host context expression field).Returns w fails
      fun _ => Whole (Opens turns) w.document :=
    evaluateInsertion_returns hplain hoverflow hfails hfails' h.waits.kept.distinct hmem hbeside
  refine (hrun.and_leaves hwaits.leaves).imp fun _ e hafter => ⟨hafter.2.2, ?_⟩
  exact (h.whole.imp fun f hf => hf.tail).trans hafter.1

end Statement

end MailMerge
