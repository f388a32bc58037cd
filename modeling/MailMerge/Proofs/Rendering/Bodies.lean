import MailMerge.Proofs.Rendering.Intact
import MailMerge.Proofs.Rendering.Steady

/-!
# Bodies in the face of any content

While statements are evaluated in turn, the body of each block that waits stays as it is in the
template, or is taken out as a whole together with the anchor that it follows. This is so for any
content, markup with fields among it, where no block begins at or below the nodes at which an
earlier insertion takes its content (`Statement.evaluate_steadies`).
-/

namespace MailMerge

open Xml Xml.Forest Xml.Document Merge

variable {d e : Document} {x m m' f : NodeId} {w : Workspace} {host : Host} {context : Context}
variable {rest : List Forest} {r : Renderer} {b : Block} {nodes : List NodeId} {opening : Opening}
variable {p : NodeId → Prop}

namespace Field

/-- What a field has beside it in a template it has in a later document. -/
theorem Beside.steady {field : Field} (h : field.Beside d f) (hsteady : Steady p d e) (hf : p f) :
    field.Beside e f where
  mem := hsteady.ids h.mem
  out y hy hin := h.out y hy (hsteady.below f h.mem y hin)
  taken y hy hin := h.taken y hy (hsteady.subset hf hin)

end Field

namespace Statement

variable {turns : List Turn}

/-- The nodes at or below which the content of an insertion is put. -/
def takers : Statement → List NodeId
  | insertion _ field => field.takers
  | block _ _ => []

/-- No block begins at or below the nodes at which an earlier insertion takes its content. -/
def Unmixed (d : Document) (statements : List Statement) : Prop :=
  statements.Pairwise fun s t => ∀ y ∈ s.takers, ∀ f ∈ t.opener?, f ∉ d.descendants y

instance (d : Document) (statements : List Statement) : Decidable (Unmixed d statements) :=
  inferInstanceAs (Decidable (List.Pairwise _ _))

theorem Schedule.mem_of_opens (hs : Schedule d x turns) (ha : d.Apex x rest) (hf : Opens turns f) :
    f ∈ d.descendants x := by
  obtain ⟨turn, -, opening, b, -, rfl, hfound⟩ := hs.exists_of_opens hf
  exact hfound.anchor_mem ha rfl

/-! ## What a block takes out -/

section Turn

variable (hs : Schedule d x (⟨m, m', .block opening b⟩ :: turns)) (ha : d.Apex x rest)
  (hframed : Field.Framed d x)

include hs ha hframed

/-- What a block is told by does not follow a later one, unless that one is taken out with it. -/
theorem Schedule.frame_off (hf : Opens turns f) (hout : f ∉ b.frame) :
    b.first ≠ f ∧ ∀ z ∈ b.frame, z ∉ (d.following f).ids := by
  obtain ⟨turn, hturn, opening', b', -, rfl, hfound⟩ := hs.tail.exists_of_opens hf
  have hspans := hs.spans _ List.mem_cons_self
  have hlt := hs.lt turn hturn
  have hlt' : d.place x m < d.place x turn.first := Nat.lt_of_le_of_lt hspans.le hlt
  have hframe := mem_frame_of_following ha hframed (.refl ha) hspans.foundAt
    (hspans.foundAt.led ha) hfound hlt' (f := b'.first) rfl
  refine ⟨fun heq => hout (hframe (.inl heq)), fun z hz hin => hout ?_⟩
  refine hspans.mem_frame_of_following ha hframed hfound hlt hz hin fun hafter => ?_
  exact hout (hframe (.inr hafter))

/-- When the turn of a block has come, nothing that it takes out follows a later block, unless that
one is taken out as well. -/
theorem Schedule.taken_off (h : Whole (Opens (⟨m, m', .block opening b⟩ :: turns)) d e)
    (hf : Opens turns f) (hout : f ∉ b.span e ++ b.frame) :
    b.first ≠ f ∧ ∀ z ∈ b.span e ++ b.frame, z ∉ (d.following f).ids := by
  obtain ⟨hne, hoff⟩ := hs.frame_off ha hframed hf fun hin => hout (List.mem_append_right _ hin)
  refine ⟨hne, fun z hz => ?_⟩
  rcases List.mem_append.1 hz with hz | hz
  · rcases b.span_of_whole h ⟨_, List.mem_cons_self, rfl⟩ with hnone | ⟨hsame, -⟩
    · rw [hnone] at hz
      cases hz
    · rw [hsame] at hz hout
      exact ((intact_self ha hs).taken hs ha hframed hf hout).2.2 z (List.mem_append_left _ hz)
  · exact hoff z hz

/-- A block leaves the waiting bodies as they are, or takes them out as a whole. -/
theorem replace_steadies (h : Steady (Opens (⟨m, m', .block opening b⟩ :: turns)) d e)
    (hrendered : Block.Rendered e nodes w.document) :
    ((b.settle e).replace nodes).Steadies (Opens turns) d w := by
  have hfound := (hs.spans _ List.mem_cons_self).foundAt
  have hbody : b.body e = b.span e := hfound.body_eq e
  have htaken := fun f hf => hs.taken_off ha hframed h.toWhole (f := f) hf
  have hrefilled := h.spares (fun f hf => mem_ids_of_mem_descendants (hs.mem_of_opens ha hf))
    hrendered.1
  have hinserted : (Merge.insertAllAfter b.first nodes).Steadies (Stays turns b e) d w := by
    refine insertAllAfter_steadies (hrefilled.imp fun f hf => hf.1.tail)
      (fun f hf => mem_ids_of_mem_descendants (hs.tail.mem_of_opens ha hf.1)) (fun _ f hf => ?_)
      (fun f hf => (htaken f hf.1 hf.2).1.symm) fun y hy hin => ?_
    · exact (htaken f hf.1 hf.2).2 _ (List.mem_append_right _ hfound.first_mem_frame)
    · exact (hrendered.2 y hy).out (h.ids hin)
  unfold Block.replace
  refine Merge.returns_document (Returns.bind hinserted fun _ w' hafter _ => steadies_edit ?_)
  rw [Block.body, Block.settle, hbody]
  change Steady _ d (b.removeFrame (w'.document.detachAll (b.span e)))
  rw [b.removeFrame_detachAll]
  exact hafter.detachAll fun z hz _ f hf => (htaken f hf.1 hf.2).2 z hz

end Turn

/-! ## Each turn -/

/-- An insertion of any content leaves the waiting bodies as they are, or takes them out as a
whole. -/
theorem evaluateInsertion_opens {expression : Expression} {field : Field}
    (h : Steady (Opens (⟨m, m', .insertion expression field⟩ :: turns)) d w.document)
    (hs : Schedule d x (⟨m, m', .insertion expression field⟩ :: turns)) (ha : d.Apex x rest)
    (hframed : Field.Framed d x)
    (hunmixed : ∀ y ∈ field.takers, ∀ f, Opens turns f → f ∉ d.descendants y) :
    (evaluateInsertion host context expression field).Steadies (Opens turns) d w := by
  have hfield : field.FoundAt d x m := by
    cases (hs.spans _ List.mem_cons_self).foundAt
    assumption
  have hmem := fun f hf => mem_ids_of_mem_descendants (hs.tail.mem_of_opens (f := f) ha hf)
  have hlater : Steady (Opens turns) d w.document := h.imp fun f hf => hf.tail
  have hbeside : ∀ f, Opens turns f → field.Beside w.document f := by
    intro f hf
    obtain ⟨turn, hturn, opening, b, -, rfl, hfound⟩ := hs.tail.exists_of_opens hf
    have hlt : d.place x m < d.place x turn.first :=
      Nat.lt_of_le_of_lt (hs.spans _ List.mem_cons_self).le (hs.lt turn hturn)
    exact (hfound.beside ha hframed hfield hlt fun y hy =>
      hunmixed y (field.displays_subset_takers hy) _ hf).steady hlater hf
  have hhandles : ∀ y ∈ field.handles, y ∈ w.document.ids := fun y hy =>
    h.ids (mem_ids_of_mem_descendants
      (Field.mem_descendants_of_mem_discover ha hfield.found hy))
  have hrun := evaluateInsertion_steady host context expression h.distinct hhandles hbeside
    fun y hy f hf hin => hunmixed y hy f hf (h.below f (hmem f hf) y hin)
  exact Returns.imp hrun fun _ e hsteady => hlater.trans hsteady

section Evaluation

variable (hapart : Block.RendersApart r) (hpassive : context.Passive)

include hapart hpassive

/-- A block leaves the waiting bodies as they are, or takes them out as a whole, whatever content
the context holds for the copies of its body. -/
theorem evaluateBlock_steadies
    (h : Steady (Opens (⟨m, m', .block opening b⟩ :: turns)) d w.document)
    (hs : Schedule d x (⟨m, m', .block opening b⟩ :: turns)) (ha : d.Apex x rest)
    (hframed : Field.Framed d x) :
    (evaluateBlock host r context opening b).Steadies (Opens turns) d w := by
  have hapex := h.distinct.apart
  have hreplace : ∀ {nodes w'}, Block.Rendered w.document nodes w'.document →
      ((b.settle w.document).replace nodes).Steadies (Opens turns) d w' :=
    fun hrendered => replace_steadies hs ha hframed h hrendered
  have hnothing : ((b.settle w.document).replace []).Steadies (Opens turns) d w :=
    hreplace ⟨.refl hapex, by simp⟩
  have hbody : b.body w.document = b.span w.document :=
    (hs.spans _ List.mem_cons_self).foundAt.body_eq w.document
  have hmem : ∀ y ∈ b.body w.document, y ∈ w.document.ids :=
    fun y hy => Block.span_subset_ids _ b (hbody ▸ hy)
  obtain ⟨course, hcourse, hrun⟩ := exists_course hpassive opening
  rw [hrun]
  refine Merge.returns_document ?_
  cases hcourse with
  | fail => exact steadies_throw _
  | drop => exact hnothing
  | keep =>
    have hcopy := Block.render_spares hapart hpassive hapex (b := b.settle w.document) hmem
    exact hcopy.returns.bind fun copied w₁ hrendered _ => hreplace hrendered
  | @loop path name items hlist =>
    have hitems := (Expression.passive_of_evaluate? hpassive hlist).items
    have hrows := Block.renderEach_spares hapart hpassive hapex (b := b.settle w.document) rfl hmem
      name hitems
    exact hrows.returns.bind fun rows w₁ hrendered _ => hreplace hrendered

/-- What a statement leaves to the later ones. -/
theorem evaluate_steadies {turn : Turn} (h : Steady (Opens (turn :: turns)) d w.document)
    (hs : Schedule d x (turn :: turns)) (ha : d.Apex x rest) (hframed : Field.Framed d x)
    (hunmixed : Unmixed d ((turn :: turns).map Turn.statement)) :
    (evaluate host r context turn.statement).Steadies (Opens turns) d w := by
  obtain ⟨m, m', statement⟩ := turn
  cases statement with
  | block opening b => exact evaluateBlock_steadies hapart hpassive h hs ha hframed
  | insertion expression field =>
    refine evaluateInsertion_opens h hs ha hframed fun y hy f hf => ?_
    obtain ⟨turn, hturn, hopens⟩ := hf
    exact (List.pairwise_cons.1 hunmixed).1 _ (List.mem_map_of_mem hturn) y hy f hopens

end Evaluation

end Statement

end MailMerge
