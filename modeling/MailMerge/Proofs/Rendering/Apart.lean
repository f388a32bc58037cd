import MailMerge.Proofs.Field.Apart
import MailMerge.Proofs.Value.Passive
import MailMerge.Rendering

/-!
# Rendering apart

A copy of a body stands in rows of its own while it is rendered. All fields below it, their blocks
and what is put in their place stand there too, so that the document is spared. Main statement:
`renderBelow_spares`.
-/

namespace MailMerge

open Xml Merge

variable {rest : List Forest} {w : Workspace} {d e : Document}

namespace Statement

variable {host : Host} {context : Context} {expression : Expression} {field : Field}

theorem evaluateInsertion_spares (h : w.document.Apart rest)
    (hfield : ∀ x ∈ field.handles, w.document.Free rest x) :
    (evaluateInsertion host context expression field).Spares rest w fun _ _ => True := by
  unfold evaluateInsertion
  cases expression.evaluate? context with
  | error e => exact spares_throw h e
  | ok value? =>
    simp only [ofExcept_ok_bind]
    split
    next => exact spares_edit (field.remove_spares h hfield)
    next => exact spares_edit (field.remove_spares h hfield)
    next value _ =>
      refine (spares_ofExcept h (Content.wrap value)).bind fun content w₁ h₁ _ => ?_
      exact field.replace_spares h₁.apart (fun x hx => (hfield x hx).later h₁) content

end Statement

/-! ## Blocks -/

namespace Block

variable {b : Block} {renderBelow : Renderer} {context : Context} {nodes : List NodeId}

/-- All nodes by which a block is evaluated stand in none of some given rows. -/
structure Free (d : Document) (rest : List Forest) (b : Block) : Prop where
  first : d.Free rest b.first
  start : ∀ x ∈ b.start.handles, d.Free rest x
  stop : ∀ x ∈ b.stop.handles, d.Free rest x
  last : d.Free rest b.last

theorem free_between {start stop : Field} (h : d.Apart rest)
    (hstart : ∀ x ∈ start.handles, d.Free rest x) (hstop : ∀ x ∈ stop.handles, d.Free rest x) :
    (between d start stop).Free d rest := by
  have hanchor : ∀ (kind : BlockKind) (field : Field) (inner : NodeId),
      (∀ x ∈ field.handles, d.Free rest x) → inner ∈ field.nodes →
        d.Free rest (anchor d kind field inner) := by
    intro kind field inner hfield hinner
    have hinner := hfield inner (field.nodes_subset_handles hinner)
    have hself := hfield field.start (field.nodes_subset_handles field.start_mem_nodes)
    have houter : ∀ name, d.Free rest ((field.ancestor? d name).getD inner) := by
      intro name
      cases habove : field.ancestor? d name with
      | none => exact hinner
      | some a => exact h.free_of_ancestor? hself habove
    cases kind with
    | row => exact houter _
    | paragraph => exact houter _
    | inline => exact hinner
  exact ⟨hanchor _ start _ hstart start.stop_mem_nodes, hstart, hstop,
    hanchor _ stop _ hstop stop.start_mem_nodes⟩

theorem Free.frame (hb : b.Free d rest) : ∀ x ∈ b.frame, d.Free rest x := by
  intro x hx
  unfold Block.frame at hx
  cases hkind : b.kind with
  | inline =>
    simp only [hkind, List.mem_append] at hx
    rcases hx with hx | hx
    · exact hb.start x (b.start.removed_subset_handles hx)
    · exact hb.stop x (b.stop.removed_subset_handles hx)
  | row | paragraph =>
    simp only [hkind, List.mem_cons, List.not_mem_nil, or_false] at hx
    rcases hx with rfl | rfl
    · exact hb.first
    · exact hb.last

theorem Free.later (hb : b.Free d rest) (h : d.Spares rest e) : b.Free e rest :=
  ⟨hb.first.later h, fun x hx => (hb.start x hx).later h, fun x hx => (hb.stop x hx).later h,
    hb.last.later h⟩

theorem Free.span (hb : b.Free d rest) (h : d.Apart rest) : ∀ x ∈ b.span d, d.Free rest x :=
  fun _ hx => h.free_of_mem_followingElements hb.first ((List.takeWhile_sublist _).subset hx)

/-- The body of a block that is not settled stands in the document. -/
theorem span_subset_ids (d : Document) (b : Block) : b.span d ⊆ d.ids := by
  intro y hy
  have htop := Document.mem_topIds_of_mem_followingElements ((List.takeWhile_sublist _).subset hy)
  exact Document.mem_ids_of_mem_following (Forest.mem_ids_of_mem_topIds htop)

/-- A renderer spares the rows in which the node does not stand, in every context without callables. -/
def RendersApart (renderBelow : Renderer) : Prop :=
  ∀ ⦃context : Context⦄ ⦃rest : List Forest⦄ ⦃w : Workspace⦄ ⦃x : NodeId⦄,
    context.Passive → w.document.Apart rest → w.document.Free rest x →
      (renderBelow context x).Spares rest w fun _ _ => True

theorem copyAll_spares (h : w.document.Apart rest) (hnodes : ∀ x ∈ nodes, x ∈ w.document.ids) :
    (copyAll nodes).Spares rest w fun c d => d.Free rest c := by
  unfold copyAll
  refine (spares_createElement h _).bind fun c w₁ h₁ hc => ?_
  refine (spares_forM h₁.apart fun x hx w₂ h₂ => ?_).bind fun _ w₃ h₃ _ => ?_
  · refine (spares_copy h₂.apart (h₂.ids (h₁.ids (hnodes x hx)))).bind fun y w₃ h₃ hy => ?_
    refine spares_move h₃.apart fun d hmove => ?_
    exact h₃.apart.appendChild hy ((hc.later h₂).later h₃) hmove
  · exact spares_pure h₃.apart (hc.later h₃)

/-- A copy of the body is rendered apart. -/
theorem render_spares (hrenders : RendersApart renderBelow) (hpassive : context.Passive)
    (h : w.document.Apart rest) (hbody : ∀ x ∈ b.body w.document, x ∈ w.document.ids) :
    (b.render renderBelow context).Spares rest w fun nodes d => ∀ x ∈ nodes, d.Free rest x := by
  unfold render
  refine spares_document ((copyAll_spares h hbody).bind fun c w₁ h₁ hc => ?_)
  refine (hrenders hpassive h₁.apart hc).bind fun _ w₂ h₂ _ => ?_
  refine spares_document (spares_pure h₂.apart ?_)
  exact fun x hx => h₂.apart.free_of_mem_children (hc.later h₂) hx

/-- Copies of a settled body are rendered apart, one for each of several values. -/
theorem renderEach_spares (hrenders : RendersApart renderBelow) (hpassive : context.Passive)
    (h : w.document.Apart rest) (hsettled : b.settled? = some nodes)
    (hnodes : ∀ x ∈ nodes, x ∈ w.document.ids) (name : String) {items : List Value}
    (hitems : ∀ item ∈ items, item.Passive) :
    (items.mapM fun item => b.render renderBelow (context.bind name item)).Spares rest w
      fun rows d => ∀ x ∈ rows.flatten, d.Free rest x := by
  have hrows : (items.mapM fun item => b.render renderBelow (context.bind name item)).Spares rest w
      fun rows d => ∀ row ∈ rows, ∀ x ∈ row, d.Free rest x := by
    refine spares_mapM h (fun hfree hspares x hx => (hfree x hx).later hspares) ?_
    intro item hitem w₁ h₁
    refine render_spares hrenders (hpassive.bind name (hitems item hitem)) h₁.apart fun x hx => ?_
    rw [Block.body, hsettled] at hx
    exact h₁.ids (hnodes x hx)
  refine Leaves.imp hrows fun rows d hfree x hx => ?_
  obtain ⟨row, hrow, hx⟩ := List.mem_flatten.1 hx
  exact hfree row hrow x hx

theorem replace_spares (h : w.document.Apart rest) (hb : b.Free w.document rest)
    (hbody : ∀ x ∈ b.body w.document, w.document.Free rest x)
    (hnodes : ∀ x ∈ nodes, w.document.Free rest x) :
    (b.replace nodes).Spares rest w fun _ _ => True := by
  unfold replace
  refine spares_document ?_
  refine (spares_insertAllAfter h hb.first hnodes).bind fun _ w₁ h₁ _ => spares_edit ?_
  rw [removeFrame_eq, ← Document.detachAll_append]
  refine h₁.apart.detachAll fun x hx => ?_
  rcases List.mem_append.1 hx with hx | hx
  · exact (hbody x hx).later h₁
  · exact (hb.frame x hx).later h₁

end Block

namespace Statement

variable {b : Block} {renderBelow : Renderer} {host : Host} {context : Context}

theorem evaluateBlock_spares (hrenders : Block.RendersApart renderBelow) (hpassive : context.Passive)
    (h : w.document.Apart rest) (hb : b.Free w.document rest) (hsettled : b.settled? = none)
    (opening : Opening) :
    (evaluateBlock host renderBelow context opening b).Spares rest w fun _ _ => True := by
  have hnodes : ∀ x ∈ b.body w.document, w.document.Free rest x := by
    rw [Block.body, hsettled]
    exact hb.span h
  have hmem : ∀ x ∈ b.body w.document, x ∈ w.document.ids := fun x hx => (hnodes x hx).mem
  have hb' : (b.settle w.document).Free w.document rest := ⟨hb.first, hb.start, hb.stop, hb.last⟩
  have hreplace : ∀ (copies : List NodeId) (w₁ : Workspace), w.document.Spares rest w₁.document →
      (∀ x ∈ copies, w₁.document.Free rest x) →
      ((b.settle w.document).replace copies).Spares rest w₁ fun _ _ => True :=
    fun copies w₁ h₁ hcopies => Block.replace_spares h₁.apart (hb'.later h₁)
      (fun x hx => (hnodes x hx).later h₁) hcopies
  obtain ⟨course, hcourse, hrun⟩ := exists_course hpassive opening
  rw [hrun]
  refine spares_document ?_
  cases hcourse with
  | fail => exact spares_throw h _
  | drop => exact hreplace [] w (.refl h) (by simp)
  | keep =>
    have hcopy := Block.render_spares hrenders hpassive h (b := b.settle w.document) hmem
    exact hcopy.bind hreplace
  | @loop path name items hlist =>
    have hitems := (Expression.passive_of_evaluate? hpassive hlist).items
    have hrows := Block.renderEach_spares hrenders hpassive h (b := b.settle w.document) rfl hmem
      name hitems
    exact hrows.bind fun rows => hreplace rows.flatten

/-- Whatever has been done since the statements were made, each of them spares the rows in which their
fields did not stand. -/
theorem evaluate_spares (hrenders : Block.RendersApart renderBelow) (hpassive : context.Passive)
    (hd : d.Apart rest) {fields : List Field} {statements : List Statement} {s : Statement}
    (hfields : ∀ field ∈ fields, ∀ x ∈ field.handles, d.Free rest x)
    (hstatements : ofFields d fields = .ok statements) (hs : s ∈ statements)
    (h : d.Spares rest w.document) :
    (evaluate host renderBelow context s).Spares rest w fun _ _ => True := by
  cases s with
  | insertion expression field =>
    obtain ⟨hfield, -⟩ := mem_of_mem_insertion hstatements hs
    exact evaluateInsertion_spares h.apart fun x hx => (hfields field hfield x hx).later h
  | block opening b =>
    obtain ⟨before, start, inside, stop, after, rfl, -, -, rfl⟩ := exists_of_mem_block hstatements hs
    have hb := Block.free_between hd (hfields start (by simp)) (hfields stop (by simp))
    exact evaluateBlock_spares hrenders hpassive h.apart (hb.later h) rfl opening

theorem evaluateFields_spares (hrenders : Block.RendersApart renderBelow) (hpassive : context.Passive)
    (h : w.document.Apart rest) {fields : List Field}
    (hfields : ∀ field ∈ fields, ∀ x ∈ field.handles, w.document.Free rest x) :
    (evaluateFields host renderBelow context fields).Spares rest w fun _ _ => True := by
  unfold evaluateFields
  refine spares_document ?_
  cases hstatements : ofFields w.document fields with
  | error e => exact spares_throw h e
  | ok statements =>
    change (statements.forM (evaluate host renderBelow context)).Spares rest w fun _ _ => True
    exact spares_forM h fun s hs w₁ h₁ => evaluate_spares hrenders hpassive h hfields hstatements hs h₁

end Statement

/-- Directives below a node that stands apart are rendered there. -/
theorem Rendering.renderBelow_spares (host : Host) (depth : Nat) :
    Block.RendersApart (renderBelow host depth) := by
  induction depth with
  | zero => exact fun _ _ _ _ _ h _ => spares_throw h _
  | succ depth ih =>
    intro context rest w x hpassive h hx
    unfold renderBelow
    refine spares_document (Statement.evaluateFields_spares ih hpassive h fun field hfield y hy => ?_)
    exact Field.free_of_mem_discover h hx hfield hy

end MailMerge
