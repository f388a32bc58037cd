import MailMerge.Proofs.Block.Span
import MailMerge.Proofs.Merge
import MailMerge.Proofs.Xml.Move
import MailMerge.Statement.Evaluation

/-!
# What a called block becomes

The nodes that a callable answers are put after the first anchor, and then the body and the frame
are taken out. Main statement: what is left in the place of the block are the answered nodes but
those of the body, in their order (`Statement.evaluateBlock_call`). A callable that answers nodes of
the body thus loses them.
-/

namespace MailMerge

open Xml

variable {w w' : Workspace} {anchor p z : NodeId} {nodes before after : List NodeId}

namespace Merge

theorem insertAllAfter_cons (anchor x : NodeId) (xs : List NodeId) :
    insertAllAfter anchor (x :: xs) =
      insertAllAfter anchor xs >>= fun _ => move (·.insertAfter anchor x) := by
  unfold insertAllAfter
  rw [List.reverse_cons, List.forM_eq_forM, List.forM_append]
  simp

/-- Nodes that are put after another one follow it in their order. What encloses the row does not
change. -/
theorem insertAllAfter_children (hd : w.document.Distinct) (hnodup : nodes.Nodup)
    (h : insertAllAfter anchor nodes w = .ok () w')
    (hp : w.document.children p = before ++ anchor :: after) :
    w'.document.Distinct ∧ w.document.SameFrame w'.document ∧
      w'.document.children p =
        before.filter (· ∉ nodes) ++ anchor :: (nodes ++ after.filter (· ∉ nodes)) ∧
      ∀ z, p ∈ w'.document.descendants z ↔ p ∈ w.document.descendants z := by
  -- The last node is moved first, so that the induction leaves the first node for the last move.
  induction nodes generalizing w' with
  | nil =>
    cases h
    refine ⟨hd, .refl _, ?_, fun _ => Iff.rfl⟩
    simp [hp]
  | cons x xs ih =>
    obtain ⟨hx, hxs⟩ := List.nodup_cons.1 hnodup
    rw [insertAllAfter_cons] at h
    obtain ⟨⟨⟩, w₁, hinner, hlast⟩ := exists_of_bind_ok h
    obtain ⟨hd₁, hframe₁, hchildren₁, henclosing₁⟩ := ih hxs hinner
    obtain ⟨d₂, hmove, rfl⟩ := exists_of_move_ok hlast
    obtain ⟨s, t, hmoved⟩ := hd₁.movedAfter hmove
    have hanchor : anchor ∈ w₁.document.children p := by simp [hchildren₁]
    have hne : anchor ≠ x := by
      rintro rfl
      exact hmoved.outside (Document.mem_descendants_self (Document.mem_ids_of_site? hmoved.moved))
    have hout : p ∉ w₁.document.descendants x := fun hin =>
      hmoved.outside
        (hd₁.mem_descendants_trans (Document.mem_descendants_of_mem_children hanchor) hin)
    refine ⟨hmoved.distinct hd₁, hframe₁.trans hmoved.frame, ?_, fun z => ?_⟩
    · have hkeep : xs.filter (· ≠ x) = xs := by
        apply List.filter_eq_self.2
        intro y hy
        exact decide_eq_true fun heq : y = x => hx (heq ▸ hy)
      have hrest : (w₁.document.children p).filter (· ≠ x) =
          before.filter (· ∉ x :: xs) ++ anchor :: (xs ++ after.filter (· ∉ x :: xs)) := by
        rw [hchildren₁, List.filter_append, List.filter_cons_of_pos (by simpa using hne),
          List.filter_append, List.filter_filter, List.filter_filter, hkeep]
        simp
      rw [hmoved.children hd₁ hrest]
      rfl
    · rw [hmoved.mem_descendants hd₁ hout, henclosing₁]

/-- Nodes can be put after any node that stands within none of them. -/
theorem exists_insertAllAfter_ok (hd : w.document.Distinct) (hanchor : anchor ∈ w.document.ids)
    (hnodes : ∀ x ∈ nodes, x ∈ w.document.ids ∧ anchor ∉ w.document.descendants x) :
    ∃ w', insertAllAfter anchor nodes w = .ok () w' ∧ w'.document.Distinct ∧
      w'.document.ids ⊆ w.document.ids ∧ w.document.ids ⊆ w'.document.ids ∧
      ∀ x, anchor ∉ w.document.descendants x → anchor ∉ w'.document.descendants x := by
  -- The last node is moved first, so that the induction leaves the first node for the last move.
  induction nodes with
  | nil => exact ⟨w, rfl, hd, List.Subset.refl _, List.Subset.refl _, fun _ h => h⟩
  | cons x xs ih =>
    obtain ⟨hx, hout⟩ := hnodes x List.mem_cons_self
    obtain ⟨w₁, hinner, hd₁, hback, hids, hkept⟩ :=
      ih fun y hy => hnodes y (List.mem_cons_of_mem _ hy)
    obtain ⟨e, hmove⟩ := hd₁.exists_insertAfter (hids hx) (hids hanchor) (hkept x hout)
    obtain ⟨s, t, hmoved⟩ := hd₁.movedAfter hmove
    have hsame : e.ids.Perm w₁.document.ids := by
      rw [Document.ids_eq_map_nodes, Document.ids_eq_map_nodes]
      exact hmoved.perm.map Prod.fst
    refine ⟨{ w₁ with document := e }, ?_, hmoved.distinct hd₁,
      List.Subset.trans hsame.subset hback, List.Subset.trans hids hsame.symm.subset, ?_⟩
    · rw [insertAllAfter_cons]
      exact (bind_ok hinner).trans (move_ok hmove)
    · intro y hy hin
      exact hkept y hy ((hmoved.mem_descendants hd₁ hmoved.outside).1 hin)

end Merge

namespace Block

variable {d : Document} {b : Block}

/-- The nodes that are taken out when a block is replaced. -/
def taken (d : Document) (b : Block) : List NodeId := b.body d ++ b.frame

/-- A block stands among the children of an attached node that is not taken out with it. -/
structure StandsBelow (d : Document) (b : Block) (p : NodeId) : Prop where
  child : b.first ∈ d.children p
  attached : d.isAttached p = true
  outside : ∀ y ∈ b.taken d, p ∉ d.descendants y

/-- A block has become some nodes: all that was taken out is gone, and the nodes that were not stand
among the children of a node in the place of the block. -/
structure Becomes (d : Document) (b : Block) (p : NodeId) (nodes : List NodeId) (e : Document) :
    Prop where
  siblings : ∃ before after, d.children p = before ++ b.first :: after ∧
    e.children p = (before ++ [b.first]).filter (· ∉ b.taken d) ++
      nodes.filter (· ∉ b.taken d) ++ after.filter (· ∉ b.taken d)
  attached : ∀ x ∈ nodes, x ∉ b.taken d → e.isAttached x = true
  gone : ∀ y ∈ b.taken d, y ≠ d.root → e.isAttached y = false

theorem removeFrame_detachAll (b : Block) (d : Document) (body : List NodeId) :
    b.removeFrame (d.detachAll body) = d.detachAll (body ++ b.frame) := by
  rw [removeFrame_eq, Document.detachAll_append]

/-- A block that is replaced by nodes without a parent and by nodes of its body becomes those that
are not taken out. -/
theorem replace_becomes (hd : w.document.WellFormed) (hp : b.StandsBelow w.document p)
    (hnodup : nodes.Nodup)
    (hnodes : ∀ x ∈ nodes, x ∈ b.taken w.document ∨ w.document.parent? x = none)
    (h : b.replace nodes w = .ok () w') : b.Becomes w.document p nodes w'.document := by
  obtain ⟨before, after, hchildren⟩ := List.append_of_mem hp.child
  obtain ⟨⟨⟩, w₁, hinsert, hedit⟩ := Merge.exists_of_bind_ok (m := Merge.insertAllAfter _ _) h
  cases hedit
  obtain ⟨hd₁, hframe, hchildren₁, henclosing⟩ :=
    Merge.insertAllAfter_children hd.toDistinct hnodup hinsert hchildren
  dsimp only
  generalize w₁.document = d₁ at hd₁ hframe hchildren₁ henclosing ⊢
  rw [removeFrame_detachAll]
  change b.Becomes w.document p nodes (d₁.detachAll (b.taken w.document))
  have hroot := (Document.detachAll_sameFrame d₁ (b.taken w.document)).root
  have hattached : p ∈ w.document.descendants w.document.root := hd.isAttached_iff.1 hp.attached
  have hrooted : (d₁.detachAll (b.taken w.document)).WellFormed := by
    refine Document.WellFormed.detachAll ⟨hd₁, ?_⟩ _
    have hin := (henclosing w.document.root).2 hattached
    rw [hframe.root]
    exact Document.mem_ids_of_descendants hin
  -- Among the children of the parent, only nodes of the body are answered.
  have hchild : ∀ y ∈ w.document.children p, y ∈ nodes → y ∈ b.taken w.document := by
    intro y hy hmem
    refine (hnodes y hmem).resolve_right fun hnone => ?_
    have hsome := hd.parent?_isSome hy
    rw [hnone] at hsome
    cases hsome
  have hkeep : ∀ ys : List NodeId, (∀ y ∈ ys, y ∈ w.document.children p) →
      (ys.filter (· ∉ nodes)).filter (· ∉ b.taken w.document) =
        ys.filter (· ∉ b.taken w.document) := by
    intro ys hys
    rw [List.filter_filter]
    apply List.filter_congr
    intro y hy
    by_cases hmem : y ∈ nodes
    · simp [hchild y (hys y hy) hmem]
    · simp [hmem]
  have hsiblings : (d₁.detachAll (b.taken w.document)).children p =
      (before ++ [b.first]).filter (· ∉ b.taken w.document) ++
        nodes.filter (· ∉ b.taken w.document) ++ after.filter (· ∉ b.taken w.document) := by
    rw [hd₁.children_detachAll, hchildren₁, List.filter_append, hkeep before (by simp_all),
      ← List.singleton_append, List.filter_append, List.filter_append, hkeep after (by simp_all),
      List.filter_append, List.append_assoc, List.append_assoc]
  refine ⟨⟨before, after, hchildren, hsiblings⟩, ?_, ?_⟩
  · intro x hx hout
    have hparent : p ∈ (d₁.detachAll (b.taken w.document)).descendants d₁.root := by
      rw [hd₁.mem_descendants_detachAll, hframe.root, henclosing]
      exact ⟨hattached, fun y hy _ _ => by rw [henclosing]; exact hp.outside y hy⟩
    rw [hrooted.isAttached_iff, hroot]
    apply hrooted.mem_descendants_trans _ hparent
    apply Document.mem_descendants_of_mem_children
    rw [hsiblings, List.mem_append, List.mem_append, List.mem_filter, List.mem_filter]
    exact .inl (.inr ⟨hx, decide_eq_true hout⟩)
  · intro y hy hne
    rw [← Bool.not_eq_true, hrooted.isAttached_iff, hroot, hd₁.mem_descendants_detachAll]
    rintro ⟨hin, hall⟩
    refine hall y hy hin ?_ (Document.mem_descendants_self (Document.mem_ids_of_mem_descendants hin))
    rw [hframe.root]
    exact hne.symm

end Block

namespace Statement

variable {w₁ : Workspace} {host : Host} {renderBelow : Renderer} {context : Context}
  {path name : String} {arguments? : Option String} {arguments : List Value} {id : Nat} {b : Block}

/-- A block whose callable answers nodes without a parent, or nodes of the body that it was given,
becomes the answered nodes but for those of the body, in their order and in the place of the
block. -/
theorem evaluateBlock_call
    (hcallable : (Expression.parse path).evaluate? context = .ok (some (.callable id name)))
    (harguments : Argument.parse context arguments? = .ok arguments)
    (hcall : host.call name (.ofContext renderBelow context) (b.body w.document) arguments w =
      .ok nodes w₁)
    (hd : w₁.document.WellFormed)
    (hp : (b.settle w.document).StandsBelow w₁.document p) (hnodup : nodes.Nodup)
    (hnodes : ∀ x ∈ nodes, x ∈ b.body w.document ∨ w₁.document.parent? x = none)
    (h : evaluateBlock host renderBelow context (.call path arguments?) b w = .ok () w') :
    (b.settle w.document).Becomes w₁.document p nodes w'.document := by
  have hrun : (b.settle w.document).replace nodes w₁ = .ok () w' := by
    unfold evaluateBlock evaluateCall at h
    rw [Merge.document_bind] at h
    dsimp only at h
    rw [hcallable, Merge.ofExcept_ok_bind] at h
    dsimp only at h
    rw [harguments] at h
    change (host.call name _ (b.body w.document) arguments >>= (b.settle w.document).replace) w =
      .ok () w' at h
    rwa [Merge.bind_ok hcall] at h
  refine (b.settle w.document).replace_becomes hd hp hnodup ?_ hrun
  intro x hx
  refine (hnodes x hx).imp_left fun hbody => ?_
  exact List.mem_append_left _ hbody

end Statement

/-! ## A callable that answers a new paragraph and its body -/

/-- A called block around one paragraph, with another one after it. -/
def calledPart : Document where
  rows := [.ofElement 0 "w:body" (.ofElement 1 "w:p" (.ofDirective 2 "f:call") ++
    .ofElement 3 "w:p" .nil ++ .ofElement 4 "w:p" (.ofDirective 5 "f:endCall") ++
    .ofElement 6 "w:p" .nil)]
  aside := []
  root := 0
  next := 7
  declaration := none

/-- The block of the call. -/
def calledBlock : Block where
  kind := .paragraph
  start := ⟨.simple 2, " MERGEFIELD f:call \\* MERGEFORMAT ", "f:call"⟩
  stop := ⟨.simple 5, " MERGEFIELD f:endCall \\* MERGEFORMAT ", "f:endCall"⟩
  first := 1
  last := 4

/-- A host whose callables answer a new paragraph before the nodes of the body. -/
def announcing : Host where
  call _ _ body _ := do
    let x ← Merge.create (·.createElement "w:p")
    return x :: body

/-- Of the new paragraph and the one in the body, which are both answered, only the new one is
left. -/
theorem calledBlock_becomes : ∃ w₁ w' : Workspace,
    Statement.evaluateBlock announcing (fun _ _ => return ()) ⟨[("f", .callable 0 "f")]⟩
      (.call "f" none) calledBlock ⟨calledPart, [], {}⟩ = .ok () w' ∧
    (calledBlock.settle calledPart).Becomes w₁.document 0 [7, 3] w'.document ∧
    w'.document.children 0 = [7, 6] := by
  let w₁ : Workspace := ⟨(calledPart.createElement "w:p").2, [], {}⟩
  obtain ⟨w', h⟩ : ∃ w', Statement.evaluateBlock announcing (fun _ _ => return ())
    ⟨[("f", .callable 0 "f")]⟩ (.call "f" none) calledBlock ⟨calledPart, [], {}⟩ = .ok () w' :=
    ⟨_, rfl⟩
  have hcall : announcing.call "f" (.ofContext (fun _ _ => return ()) ⟨[("f", .callable 0 "f")]⟩)
    (calledBlock.body calledPart) [] ⟨calledPart, [], {}⟩ = .ok [7, 3] w₁ := rfl
  have hd : w₁.document.WellFormed :=
    ⟨⟨by decide +kernel, by decide +kernel⟩, by decide +kernel⟩
  have hp : (calledBlock.settle calledPart).StandsBelow w₁.document 0 :=
    ⟨by decide +kernel, by decide +kernel, by decide +kernel⟩
  refine ⟨w₁, w', h, ?_, ?_⟩
  · exact Statement.evaluateBlock_call rfl rfl hcall hd hp (by decide +kernel)
      (by decide +kernel) h
  · cases h
    decide +kernel

end MailMerge
