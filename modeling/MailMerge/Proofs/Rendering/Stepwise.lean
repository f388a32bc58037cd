import MailMerge.Proofs.Field.Stepwise
import MailMerge.Proofs.Rendering.Session
import MailMerge.Proofs.Rendering.Undisturbed
import MailMerge.Proofs.Statement.Scanner
import MailMerge.Proofs.Value.Plain

/-!
# Renders by single moves

A render is told here once more with all moves one by one, each of which could be refused: when a field
is unwrapped, when texts and bodies are copied, and when the part is cleaned up. What is moved is either
new, so that no older node stands below it, or a child that is moved before its parent. With data alone,
no move is refused and the render does the same (`Session.render_stepwise`).
-/

namespace MailMerge

open Xml Merge

variable {w : Workspace} {rest : List Forest} {d e : Document} {x y : NodeId}
variable {host : Host} {context : Context}

/-! ## Statements by single moves -/

namespace Stepwise

/-- Puts the value of an expression in the place of a field, which an absent or false value
removes. -/
def evaluateInsertion (host : Host) (context : Context) (expression : Expression) (field : Field) :
    Merge Unit := do
  match ← ofExcept (expression.evaluate? context) with
  | none | some (.bool false) => Merge.edit field.remove
  | some value =>
    let content ← ofExcept (Content.wrap value)
    replace host.convert? field content

/-- Puts copies of nodes into a new element without a parent. Answers that element. -/
def copyAll (nodes : List NodeId) : Merge NodeId := do
  let container ← Merge.create (·.createElement Block.containerName)
  nodes.forM fun x => do
    let copied ← copy x
    Merge.move (·.appendChild container copied)
  return container

/-- Renders a copy of the body. Answers the nodes that the copy has become. -/
def renderBody (renderBelow : Renderer) (context : Context) (block : Block) :
    Merge (List NodeId) := do
  let container ← copyAll (block.body (← Merge.document))
  renderBelow context container
  return (← Merge.document).children container

/-- Renders a copy of the body for each item of a list. -/
def evaluateLoop (renderBelow : Renderer) (context : Context) (path name : String) (b : Block) :
    Merge Unit := do
  let list := Expression.parse path
  match ← ofExcept (list.evaluate? context) with
  | some (.list items) =>
    let rows ← items.mapM fun item => renderBody renderBelow (context.bind name item) b
    b.replace rows.flatten
  | other => throw (.notEnumerable list.toText (other.getD .null).describe)

/-- Keeps a rendered copy of the body if a condition holds. -/
def evaluateCondition (renderBelow : Renderer) (context : Context) (path : String)
    (question? : Option String) (b : Block) : Merge Unit := do
  if (← ofExcept (Statement.deciding? context path question?)).any Value.isTruthy then
    b.replace (← renderBody renderBelow context b)
  else b.replace []

/-- Evaluates a block. What a callable does is up to the host. -/
def evaluateBlock (host : Host) (renderBelow : Renderer) (context : Context) (opening : Opening)
    (b : Block) : Merge Unit := do
  let b := b.settle (← Merge.document)
  match opening with
  | .each path name => evaluateLoop renderBelow context path name b
  | .condition path question? => evaluateCondition renderBelow context path question? b
  | .call path arguments? => Statement.evaluateCall host renderBelow context path arguments? b
  | .comment => b.replace []

/-- Evaluates a statement. -/
def evaluate (host : Host) (renderBelow : Renderer) (context : Context) : Statement → Merge Unit
  | .insertion expression field => evaluateInsertion host context expression field
  | .block opening b => evaluateBlock host renderBelow context opening b

/-- Evaluates the statements that fields make, one after the other. -/
def evaluateFields (host : Host) (renderBelow : Renderer) (context : Context)
    (fields : List Field) : Merge Unit := do
  let statements ← ofExcept (Statement.ofFields (← Merge.document) fields)
  statements.forM (evaluate host renderBelow context)

/-- Renders the directives at and below a node, with at most `depth` blocks inside one another. -/
def renderBelow (host : Host) : Nat → Renderer
  | 0, _, _ => throw .nestedTooDeep
  | depth + 1, context, x => do
    let fields := Field.discover (← Merge.document) x
    evaluateFields host (renderBelow host depth) context fields

end Stepwise

/-- A renderer does what another one does below each node, in every context of data. -/
def Block.FollowsBelow (renderBelow renderBelow' : Renderer) : Prop :=
  ∀ ⦃context : Context⦄ ⦃w : Workspace⦄ ⦃x : NodeId⦄,
    context.Plain → w.document.Distinct → x ∈ w.document.ids →
      (renderBelow context x).Follows (renderBelow' context x) w

variable {r r' : Renderer}

/-! ## Insertions -/

/-- An insertion fails, or a field is removed, or content is put in its place. -/
theorem evaluateInsertion_cases (host : Host) (context : Context) (expression : Expression)
    (field : Field) :
    (Stepwise.evaluateInsertion host context expression field = throw .overflow ∧
      Statement.evaluateInsertion host context expression field = throw .overflow) ∨
    (Stepwise.evaluateInsertion host context expression field = edit field.remove ∧
      Statement.evaluateInsertion host context expression field = edit field.remove) ∨
    ∃ value, expression.evaluate? context = .ok (some value) ∧
      Stepwise.evaluateInsertion host context expression field =
        (ofExcept (Content.wrap value) >>= Stepwise.replace host.convert? field) ∧
      Statement.evaluateInsertion host context expression field =
        (ofExcept (Content.wrap value) >>= field.replace host.convert?) := by
  unfold Stepwise.evaluateInsertion Statement.evaluateInsertion
  cases hvalue : expression.evaluate? context with
  | error e =>
    obtain rfl := Expression.eq_overflow_of_evaluate? hvalue
    exact .inl ⟨rfl, rfl⟩
  | ok value? =>
    simp only [ofExcept_ok_bind]
    cases value? with
    | none => exact .inr (.inl ⟨rfl, rfl⟩)
    | some value =>
      by_cases hfalse : value = .bool false
      · subst hfalse
        exact .inr (.inl ⟨rfl, rfl⟩)
      · refine .inr (.inr ⟨value, rfl, ?_, ?_⟩)
        all_goals
          split
          next heq => cases heq
          next heq => exact absurd (Option.some.inj heq) hfalse
          next heq => rw [Option.some.inj heq]

/-- Data stand for texts alone. -/
theorem evaluateInsertion_follows {expression : Expression} {field : Field} (hplain : context.Plain)
    (hd : w.document.Distinct) (hfield : ∀ x ∈ field.handles, x ∈ w.document.ids) :
    (Stepwise.evaluateInsertion host context expression field).Follows
      (Statement.evaluateInsertion host context expression field) w := by
  rcases evaluateInsertion_cases host context expression field with
    ⟨hstep, hplan⟩ | ⟨hstep, hplan⟩ | ⟨value, hvalue, hstep, hplan⟩
  · rw [hstep, hplan]
    exact follows_error rfl rfl (by simp)
  · rw [hstep, hplan]
    exact follows_edit _
  · rw [hstep, hplan, (Expression.plain_of_evaluate? hplain hvalue).wrap]
    cases value.toText? with
    | none => exact follows_error rfl rfl (by simp)
    | some s => exact replace_follows host.convert? hd hfield s

/-! ## Bodies -/

/-- A copy is new, and so is the element into which it is put. -/
theorem copyAll_follows {nodes : List NodeId} (hd : w.document.Distinct)
    (hnodes : ∀ x ∈ nodes, x ∈ w.document.ids) :
    (Stepwise.copyAll nodes).Follows (Block.copyAll nodes) w := by
  have hmade := hd.apart_nil.create (.element ⟨Block.containerName, []⟩)
  have hcontainer := hd.apart_nil.create_free (.element ⟨Block.containerName, []⟩)
  refine follows_create ?_
  have hstep : ∀ x ∈ nodes, ∀ w₁ : Workspace,
      (w.document.create (.element ⟨Block.containerName, []⟩)).2.Spares [] w₁.document →
      x ∈ w₁.document.ids ∧ w.document.next ∈ w₁.document.ids :=
    fun x hx w₁ h₁ => ⟨h₁.ids (hmade.ids (hnodes x hx)), h₁.ids hcontainer.mem⟩
  have hspares : ∀ x ∈ nodes, ∀ w₁ : Workspace,
      (w.document.create (.element ⟨Block.containerName, []⟩)).2.Spares [] w₁.document →
      (do
        let copied ← Merge.create (·.copy x)
        Merge.move (·.appendChild w.document.next copied) : Merge Unit).Spares [] w₁
          fun _ _ => True := by
    intro x hx w₁ h₁
    obtain ⟨hx₁, hcontainer₁⟩ := hstep x hx w₁ h₁
    refine (spares_copy h₁.apart hx₁).bind fun y w₂ h₂ hy => spares_move h₂.apart fun d hmove => ?_
    exact h₂.apart.appendChild hy (Document.free_nil_iff.2 (h₂.ids hcontainer₁)) hmove
  refine (follows_forM hmade.apart hspares ?_).bind (spares_forM hmade.apart hspares)
    fun _ _ _ _ => follows_pure _
  intro x hx w₁ h₁
  obtain ⟨hx₁, hcontainer₁⟩ := hstep x hx w₁ h₁
  have hcopied := spares_copy h₁.apart.distinct.apart hx₁
  refine (copy_follows hx₁).bind hcopied fun y w₂ h₂ hy => ?_
  obtain ⟨d, hmove⟩ := h₂.exists_appendChild hy hcontainer₁
  exact follows_move hmove

theorem renderBody_follows {b : Block} (hfollows : Block.FollowsBelow r r')
    (hrenders : Block.RendersApart r') (hplain : context.Plain) (hd : w.document.Distinct)
    (hbody : ∀ x ∈ b.body w.document, x ∈ w.document.ids) :
    (Stepwise.renderBody r context b).Follows (b.render r' context) w := by
  refine follows_document ?_
  refine (copyAll_follows hd hbody).bind (Block.copyAll_spares hd.apart_nil hbody) ?_
  intro container w₁ h₁ hcontainer
  have hrendered := hrenders hplain.passive h₁.apart hcontainer
  refine (hfollows hplain h₁.apart.distinct hcontainer.mem).bind hrendered fun _ w₂ _ _ => ?_
  exact follows_ok rfl rfl

/-- Nodes that were not there with the first anchor of a block can be put after it. -/
theorem replace_follows_self {b : Block} {nodes : List NodeId} (h : w.document.Apart rest)
    (hfirst : b.first ∈ rest.flatMap Forest.ids) (hnodes : ∀ x ∈ nodes, w.document.Free rest x) :
    (b.replace nodes).Follows (b.replace nodes) w := by
  obtain ⟨w', hok⟩ := Block.exists_replace_ok h hfirst hnodes
  exact follows_ok hok hok

/-! ## Blocks -/

section Blocks

variable {b : Block} {nodes : List NodeId} (hfollows : Block.FollowsBelow r r')
variable (hrenders : Block.RendersApart r') (hplain : context.Plain) (hd : w.document.Distinct)
variable (hfirst : b.first ∈ w.document.ids)
include hfollows hrenders hplain hd hfirst

/-- What replaces the block are copies of its body, in none of which its first anchor stands. -/
theorem evaluateLoop_follows (hsettled : b.settled? = some nodes)
    (hnodes : ∀ x ∈ nodes, x ∈ w.document.ids) (path name : String) :
    (Stepwise.evaluateLoop r context path name b).Follows
      (Statement.evaluateLoop r' context path name b) w := by
  have hbody : ∀ d, b.body d = nodes := fun d => by rw [Block.body, hsettled]; rfl
  unfold Stepwise.evaluateLoop Statement.evaluateLoop
  dsimp only
  cases hvalue : (Expression.parse path).evaluate? context with
  | error e =>
    obtain rfl := Expression.eq_overflow_of_evaluate? hvalue
    exact follows_error rfl rfl (by simp)
  | ok value? =>
    simp only [ofExcept_ok_bind]
    by_cases hlisted : ∃ items, value? = some (.list items)
    · obtain ⟨items, rfl⟩ := hlisted
      have hlist := Expression.plain_of_evaluate? hplain hvalue
      have hrows := Block.renderEach_spares hrenders hplain.passive hd.apart hsettled hnodes name
        hlist.passive.items
      have hrendered : ∀ item ∈ items, ∀ w₁, w.document.Spares w.document.allRows w₁.document →
          (b.render r' (context.bind name item)).Spares w.document.allRows w₁ fun _ _ => True := by
        intro item hitem w₁ h₁
        have hcontext := hplain.bind name (hlist.items item hitem)
        refine Leaves.imp (Block.render_spares hrenders hcontext.passive h₁.apart fun x hx => ?_)
          fun _ _ _ => trivial
        exact h₁.ids (hnodes x (hbody _ ▸ hx))
      refine (follows_mapM hd.apart hrendered ?_).bind hrows fun rows w₁ h₁ hfree => ?_
      · intro item hitem w₁ h₁
        have hcontext := hplain.bind name (hlist.items item hitem)
        refine renderBody_follows hfollows hrenders hcontext h₁.apart.distinct fun x hx => ?_
        exact h₁.ids (hnodes x (hbody _ ▸ hx))
      · exact replace_follows_self h₁.apart hfirst hfree
    · cases value? with
      | none => exact follows_error rfl rfl (by simp)
      | some value =>
        cases value with
        | list items => exact absurd ⟨items, rfl⟩ hlisted
        | _ => exact follows_error rfl rfl (by simp)

theorem evaluateCondition_follows (hsettled : b.settled? = some nodes)
    (hnodes : ∀ x ∈ nodes, x ∈ w.document.ids) (path : String) (question? : Option String) :
    (Stepwise.evaluateCondition r context path question? b).Follows
      (Statement.evaluateCondition r' context path question? b) w := by
  have hbody : ∀ x ∈ b.body w.document, x ∈ w.document.ids := by
    rw [Block.body, hsettled]
    exact hnodes
  unfold Stepwise.evaluateCondition Statement.evaluateCondition
  cases hdeciding : Statement.deciding? context path question? with
  | error e =>
    obtain rfl := Statement.eq_overflow_of_deciding? hdeciding
    exact follows_error rfl rfl (by simp)
  | ok deciding =>
    simp only [ofExcept_ok_bind]
    split
    · have hcopy := Block.render_spares hrenders hplain.passive hd.apart hbody
      refine (renderBody_follows hfollows hrenders hplain hd hbody).bind hcopy ?_
      exact fun copied w₁ h₁ hfree => replace_follows_self h₁.apart hfirst hfree
    · exact replace_follows_self hd.apart hfirst (by simp)

theorem evaluateBlock_follows (hsettled : b.settled? = none) (opening : Opening) :
    (Stepwise.evaluateBlock host r context opening b).Follows
      (Statement.evaluateBlock host r' context opening b) w := by
  have hnodes : ∀ x ∈ b.body w.document, x ∈ w.document.ids := by
    rw [Block.body, hsettled]
    exact fun x hx => Block.span_subset_ids w.document b hx
  refine follows_document ?_
  cases opening with
  | each path name =>
    exact evaluateLoop_follows (b := b.settle w.document) hfollows hrenders hplain hd hfirst rfl hnodes
      path name
  | condition path question? =>
    exact evaluateCondition_follows (b := b.settle w.document) hfollows hrenders hplain hd hfirst rfl
      hnodes path question?
  | call path arguments? =>
    -- Data cannot be called.
    dsimp only
    unfold Statement.evaluateCall
    dsimp only
    cases hvalue : (Expression.parse path).evaluate? context with
    | error e =>
      obtain rfl := Expression.eq_overflow_of_evaluate? hvalue
      exact follows_error rfl rfl (by simp)
    | ok value? =>
      simp only [Merge.ofExcept_ok_bind]
      split
      next => cases Expression.plain_of_evaluate? hplain hvalue
      next => exact follows_error rfl rfl (by simp)
  | comment => exact replace_follows_self hd.apart hfirst (by simp)

end Blocks

/-! ## Statements one after the other -/

theorem evaluateFields_follows {fields : List Field} (hfollows : Block.FollowsBelow r r')
    (hrenders : Block.RendersApart r') (hplain : context.Plain) (hd : w.document.Distinct)
    (hfields : ∀ field ∈ fields, ∀ x ∈ field.handles, x ∈ w.document.ids) :
    (Stepwise.evaluateFields host r context fields).Follows
      (Statement.evaluateFields host r' context fields) w := by
  refine follows_document ?_
  have hfree : ∀ field ∈ fields, ∀ x ∈ field.handles, w.document.Free [] x :=
    fun field hfield x hx => Document.free_nil_iff.2 (hfields field hfield x hx)
  cases hstatements : Statement.ofFields w.document fields with
  | error e =>
    obtain ⟨start, stop, rfl⟩ := Statement.exists_unmatched_of_ofFields hstatements
    exact follows_error rfl rfl (by simp)
  | ok statements =>
    change (statements.forM (Stepwise.evaluate host r context)).Follows
      (statements.forM (Statement.evaluate host r' context)) w
    apply follows_forM hd.apart_nil
    · intro s hs w₁ h₁
      exact Statement.evaluate_spares hrenders hplain.passive hd.apart_nil hfree hstatements hs h₁
    · intro s hs w₁ h₁
      cases s with
      | insertion expression field =>
        obtain ⟨hfield, -⟩ := Statement.mem_of_mem_insertion hstatements hs
        exact evaluateInsertion_follows hplain h₁.apart.distinct
          fun x hx => h₁.ids (hfields field hfield x hx)
      | block opening b =>
        obtain ⟨before, start, inside, stop, after, rfl, -, -, rfl⟩ :=
          Statement.exists_of_mem_block hstatements hs
        have hb := Block.free_between hd.apart_nil (hfree start (by simp)) (hfree stop (by simp))
        exact evaluateBlock_follows hfollows hrenders hplain h₁.apart.distinct (h₁.ids hb.first.mem)
          rfl opening

theorem renderBelow_follows (host : Host) (depth : Nat) :
    Block.FollowsBelow (Stepwise.renderBelow host depth) (Rendering.renderBelow host depth) := by
  induction depth with
  | zero => exact fun _ _ _ _ _ _ => follows_error rfl rfl (by simp)
  | succ depth ih =>
    intro context w x hplain hd hx
    refine follows_document ?_
    refine evaluateFields_follows ih (Rendering.renderBelow_spares host depth) hplain hd ?_
    intro field hfield y hy
    exact (Field.free_of_mem_discover hd.apart_nil (Document.free_nil_iff.2 hx) hfield hy).mem

/-! ## The clean-up by single moves -/

namespace Stepwise

/-- Adds a new element at the end of the children of a node. -/
def addChild (parent : NodeId) (name : String) : Merge NodeId := do
  let x ← Merge.create (·.createElement name)
  Merge.move (·.appendChild parent x)
  return x

/-- Gives a cell an empty paragraph, unless it has one. -/
def fillCell (cell : NodeId) : Merge Unit := do
  match (← Merge.document).childNamed? cell "w:p" with
  | some _ => return ()
  | none => let _ ← addChild cell "w:p"

/-- Gives every table cell without a paragraph an empty one. -/
def fillCells : Merge Unit := do
  let d ← Merge.document
  (d.findAll d.root "w:tc").forM fillCell

/-- The properties of the last section of a body; new ones are added at its end. -/
def lastSection (body : NodeId) : Merge NodeId := do
  let d ← Merge.document
  match (d.elementChildren body).filter (d.isNamed · "w:sectPr") |>.getLast? with
  | some x => return x
  | none => addChild body "w:sectPr"

/-- The page number among the properties of a section; a new one is added in its place. -/
def pageNumber (properties : NodeId) : Merge NodeId := do
  let d ← Merge.document
  match d.childNamed? properties "w:pgNumType" with
  | some x => return x
  | none =>
    match Cleanup.laterProperty? d properties with
    | none => addChild properties "w:pgNumType"
    | some later => do
      let x ← Merge.create (·.createElement "w:pgNumType")
      Merge.move (·.insertBefore later x)
      return x

/-- Sets the first page number of the body, if there is a body. -/
def setStartPage (n : Nat) : Merge Unit := do
  let d ← Merge.document
  match d.childNamed? d.root "w:body" with
  | none => return ()
  | some body =>
    let properties ← lastSection body
    let x ← pageNumber properties
    Merge.edit (·.setAttribute x "w:start" (toString n))

/-- What is done to a part after its directives. -/
def cleanUp (kind : PartKind) (startPage? : Option Nat) : Merge Unit :=
  match kind, startPage? with
  | .headerFooter, _ => return ()
  | .document, none => fillCells
  | .document, some n => do
    fillCells
    setStartPage n

/-- Renders the part with at most `depth` blocks inside one another. -/
def render (host : Host) (depth : Nat) (context : Context) (startPage? : Option Nat) :
    EStateM MergeError Session Unit := fun s =>
  let (fields, cache?) := s.part.fields s.cache?
  let step : Merge Unit := do
    evaluateFields host (renderBelow host depth) context fields
    cleanUp s.part.kind startPage?
  match step ⟨s.part.document, s.resources, s.numbering⟩ with
  | .ok () w => .ok () (s.after cache? w)
  | .error e w => .error e (s.after cache? w)

end Stepwise

theorem Xml.Document.mem_ids_of_childNamed? {name : String} (h : d.childNamed? x name = some y) :
    y ∈ d.ids := by
  obtain ⟨entry, hentry, rfl⟩ := Option.map_eq_some_iff.1 h
  refine (mem_ids_of_mem_children (x := x) ?_).2
  exact List.mem_map_of_mem (List.mem_of_find?_eq_some hentry)

theorem Xml.Document.mem_ids_of_mem_elementChildren (h : y ∈ d.elementChildren x) : y ∈ d.ids := by
  obtain ⟨entry, hentry, rfl⟩ := List.mem_map.1 h
  refine (mem_ids_of_mem_children (x := x) ?_).2
  exact List.mem_map_of_mem (List.mem_of_mem_filter hentry)

/-- A new child is put below a node of the document, and stands there afterwards. -/
theorem Cleanup.exists_addChild (hd : d.Distinct) (hx : x ∈ d.ids) (name : String) :
    ∃ e, (d.createElement name).2.appendChild x d.next = some e ∧
      addChild d x name = (d.next, e) ∧ d.next ∈ e.ids := by
  have hfree := hd.apart_nil.create_free (.element ⟨name, []⟩)
  have hmade := hd.apart_nil.create (.element ⟨name, []⟩)
  obtain ⟨e, hmove⟩ := (hd.apart.create (.element ⟨name, []⟩)).exists_appendChild
    (hd.apart.create_free _) hx
  refine ⟨e, hmove, congrArg (fun e => (d.next, Option.getD e _)) hmove, ?_⟩
  have hparent := Document.free_nil_iff.2 (hmade.ids hx)
  exact (hmade.apart.appendChild hfree hparent hmove).ids hfree.mem

theorem addChild_follows (hd : w.document.Distinct) (hx : x ∈ w.document.ids) (name : String) :
    (Stepwise.addChild x name).Follows (create (Cleanup.addChild · x name)) w := by
  obtain ⟨d, hmove, hadded, -⟩ := Cleanup.exists_addChild hd hx name
  have hrun : create (Cleanup.addChild · x name) w =
      .ok w.document.next { w with document := d } := by
    rw [create_apply, hadded]
  exact follows_ok (bind_ok (move_ok hmove)) hrun

theorem fillCell_follows (hd : w.document.Distinct) (hx : x ∈ w.document.ids) :
    (Stepwise.fillCell x).Follows (edit (Cleanup.fillCell · x)) w := by
  unfold Stepwise.fillCell Cleanup.fillCell
  rw [Follows, document_bind, edit_apply]
  cases hparagraph : w.document.childNamed? x "w:p" with
  | some paragraph => exact ⟨rfl, nofun⟩
  | none =>
    have hadded := addChild_follows hd hx "w:p"
    refine ⟨(bind_ok hadded.1).trans rfl, nofun⟩

/-- The cells that are to be filled are those of the document before the clean-up. -/
theorem fillCells_follows (hd : w.document.Distinct) :
    Stepwise.fillCells.Follows (edit Cleanup.fillCells) w := by
  have hcells : ∀ cell ∈ w.document.findAll w.document.root "w:tc", cell ∈ w.document.ids := by
    intro cell hcell
    obtain ⟨entry, hentry, rfl⟩ := List.mem_map.1 hcell
    have hin := Document.mem_descendants_of_mem_below (List.mem_map_of_mem (List.mem_of_mem_filter hentry))
    exact Document.mem_ids_of_mem_descendants hin
  change Stepwise.fillCells.Follows (document >>= fun d =>
    edit fun e => (d.findAll d.root "w:tc").foldl Cleanup.fillCell e) w
  apply follows_document
  generalize w.document.findAll w.document.root "w:tc" = cells at hcells
  induction cells generalizing w with
  | nil => exact follows_ok rfl rfl
  | cons cell cells ih =>
    have hfirst := fillCell_follows hd (hcells cell List.mem_cons_self)
    have hextends := Cleanup.fillCell_extends hd cell
    change (Stepwise.fillCell cell >>= fun _ => cells.forM Stepwise.fillCell).Follows
      (edit (Cleanup.fillCell · cell) >>= fun _ => edit fun e => cells.foldl Cleanup.fillCell e) w
    apply hfirst.andThen
    intro _ w₁ hrun
    cases hrun
    exact ih hextends.distinct fun y hy => hextends.ids (hcells y (List.mem_cons_of_mem _ hy))

theorem lastSection_follows (hd : w.document.Distinct) (hx : x ∈ w.document.ids) :
    (Stepwise.lastSection x).Follows (create (Cleanup.lastSection · x)) w := by
  unfold Stepwise.lastSection Cleanup.lastSection
  rw [Follows, document_bind, create_apply]
  cases ((w.document.elementChildren x).filter (w.document.isNamed · "w:sectPr")).getLast? with
  | some y => exact ⟨rfl, nofun⟩
  | none => exact ⟨(addChild_follows hd hx "w:sectPr").1, nofun⟩

theorem Cleanup.lastSection_mem (hd : d.Distinct) (hx : x ∈ d.ids) :
    (lastSection d x).1 ∈ (lastSection d x).2.ids := by
  unfold lastSection
  cases hlast : ((d.elementChildren x).filter (d.isNamed · "w:sectPr")).getLast? with
  | some y =>
    have hmem := List.mem_of_mem_filter (List.mem_of_getLast? hlast)
    exact Document.mem_ids_of_mem_elementChildren hmem
  | none =>
    obtain ⟨e, -, hadded, hmem⟩ := exists_addChild hd hx "w:sectPr"
    rw [hadded]
    exact hmem

theorem pageNumber_follows (hd : w.document.Distinct) (hx : x ∈ w.document.ids) :
    (Stepwise.pageNumber x).Follows (create (Cleanup.pageNumber · x)) w := by
  unfold Stepwise.pageNumber Cleanup.pageNumber
  rw [Follows, document_bind, create_apply]
  cases w.document.childNamed? x "w:pgNumType" with
  | some y => exact ⟨rfl, nofun⟩
  | none =>
    cases hlater : Cleanup.laterProperty? w.document x with
    | none => exact ⟨(addChild_follows hd hx "w:pgNumType").1, nofun⟩
    | some later =>
      have hmem := Document.mem_ids_of_mem_elementChildren (List.mem_of_find?_eq_some hlater)
      obtain ⟨d, hmove⟩ := (hd.apart.create (.element ⟨"w:pgNumType", []⟩)).exists_insertBefore
        (hd.apart.create_free _) hmem
      have hadded : (w.document.createElement "w:pgNumType").2.insertBefore later w.document.next =
          some d := hmove
      dsimp only
      rw [create_bind, bind_ok (move_ok hadded)]
      have hput : ((w.document.createElement "w:pgNumType").2.insertBefore later
          (w.document.createElement "w:pgNumType").1).getD (w.document.createElement "w:pgNumType").2 =
          d := congrArg (Option.getD · _) hadded
      rw [hput]
      exact ⟨rfl, nofun⟩

theorem setStartPage_follows (hd : w.document.Distinct) (n : Nat) :
    (Stepwise.setStartPage n).Follows (edit (Cleanup.setStartPage n)) w := by
  unfold Stepwise.setStartPage Cleanup.setStartPage
  rw [Follows, document_bind, edit_apply]
  cases hbody : w.document.childNamed? w.document.root "w:body" with
  | none => exact ⟨rfl, nofun⟩
  | some body =>
    have hmem := Document.mem_ids_of_childNamed? hbody
    have hsection := Cleanup.lastSection_extends hd body
    have hproperties := Cleanup.lastSection_mem hd hmem
    change Follows _ (do
      let properties ← create (Cleanup.lastSection · body)
      let x ← create (Cleanup.pageNumber · properties)
      edit (·.setAttribute x "w:start" (toString n))) w
    apply (lastSection_follows hd hmem).andThen
    intro properties w₁ hrun
    cases hrun
    refine (pageNumber_follows hsection.distinct hproperties).andThen ?_
    exact fun _ _ _ => follows_edit _

theorem cleanUp_follows (hd : w.document.Distinct) (kind : PartKind) (startPage? : Option Nat) :
    (Stepwise.cleanUp kind startPage?).Follows (edit (Session.cleanUp kind startPage?)) w := by
  cases kind with
  | headerFooter => exact follows_ok rfl rfl
  | document =>
    cases startPage? with
    | none => exact fillCells_follows hd
    | some n =>
      change (Stepwise.cleanUp .document (some n)).Follows
        (edit Cleanup.fillCells >>= fun _ => edit (Cleanup.setStartPage n)) w
      apply (fillCells_follows hd).andThen
      intro _ w₁ hrun
      cases hrun
      exact setStartPage_follows (Cleanup.fillCells_extends hd).distinct n

/-! ## Parts -/

theorem exists_of_mem_mapM {α β : Type} {f : α → Option β} {xs : List α} {ys : List β} {y : β}
    (h : xs.mapM f = some ys) (hy : y ∈ ys) : ∃ x ∈ xs, f x = some y := by
  induction xs generalizing ys with
  | nil =>
    cases h
    cases hy
  | cons x xs ih =>
    rw [List.mapM_cons] at h
    obtain ⟨z, hz, h⟩ := Option.bind_eq_some_iff.1 h
    obtain ⟨zs, hzs, h⟩ := Option.bind_eq_some_iff.1 h
    cases h
    rcases List.mem_cons.1 hy with rfl | hy
    · exact ⟨x, List.mem_cons_self, hz⟩
    · obtain ⟨x', hx', hf⟩ := ih hzs hy
      exact ⟨x', List.mem_cons_of_mem _ hx', hf⟩

/-- Whatever an entry of the cache says, fields that are made from it stand in the document. -/
theorem Field.mem_ids_of_entryFields? {text : String} {fields : List Field} {field : Field}
    (hd : d.Distinct) (hentry : entryFields? d text = some fields) (hfield : field ∈ fields)
    (hx : x ∈ field.handles) : x ∈ d.ids := by
  obtain ⟨records, -, hfields⟩ := Option.bind_eq_some_iff.1 hentry
  obtain ⟨record, -, hmade⟩ := exists_of_mem_mapM hfields hfield
  obtain ⟨nodes, hnodes, hmade⟩ := Option.bind_eq_some_iff.1 hmade
  obtain ⟨made, hof, hvalid⟩ := Option.bind_eq_some_iff.1 hmade
  have heq : made = field := by
    split at hvalid
    · exact Option.some.inj hvalid
    · cases hvalid
  subst heq
  refine (free_of_ofNodes? hd.apart_nil (fun y hy => ?_) hof hx).mem
  obtain ⟨position, -, hposition⟩ := exists_of_mem_mapM hnodes hy
  exact Document.free_nil_iff.2 (Document.mem_ids_of_mem_descendants (List.mem_of_getElem? hposition))

theorem FieldCache.mem_ids_of_mem_discover {source : String} {cache : FieldCache} {field : Field}
    (hd : d.Distinct) (hroot : d.root ∈ d.ids) (hfield : field ∈ (cache.discover source d).1)
    (hx : x ∈ field.handles) : x ∈ d.ids := by
  unfold discover at hfield
  dsimp only at hfield
  split at hfield
  next fields cache' hload =>
    unfold load at hload
    split at hload
    · cases hload
    split at hload
    next => cases hload
    next =>
      obtain ⟨text, -, hentry⟩ := Option.bind_eq_some_iff.1 (congrArg Prod.fst hload)
      exact Field.mem_ids_of_entryFields? hd hentry hfield hx
  next =>
    exact (Field.free_of_mem_discover hd.apart_nil (Document.free_nil_iff.2 hroot) hfield hx).mem

theorem Part.mem_ids_of_mem_fields {part : Part} {cache? : Option FieldCache} {field : Field}
    (hd : part.document.Distinct) (hroot : part.document.root ∈ part.document.ids)
    (hfield : field ∈ (part.fields cache?).1) (hx : x ∈ field.handles) :
    x ∈ part.document.ids := by
  unfold Part.fields at hfield
  split at hfield
  next => exact FieldCache.mem_ids_of_mem_discover hd hroot hfield hx
  next =>
    exact (Field.free_of_mem_discover hd.apart_nil (Document.free_nil_iff.2 hroot) hfield hx).mem

/-- The first and the last node of a field are among its nodes. -/
theorem Field.nodes_ends (field : Field) :
    field.nodes.head? = some field.start ∧ field.nodes.getLast? = some field.stop := by
  obtain ⟨shape, instruction, expression⟩ := field
  cases shape with
  | complex first others after =>
    refine ⟨rfl, ?_⟩
    rw [stop, nodes, List.getLastD_eq_getLast?]
    cases hlast : (first :: others).getLast? with
    | none => cases List.getLast?_eq_none_iff.1 hlast
    | some last => rfl
  | simple x | image x => exact ⟨rfl, rfl⟩

/-- Rendering the fields and cleaning up afterwards, by single moves. -/
theorem renderPart_follows {fields : List Field} {kind : PartKind} {startPage? : Option Nat}
    (hplain : context.Plain) (hd : w.document.Distinct)
    (hfields : ∀ field ∈ fields, ∀ x ∈ field.handles, x ∈ w.document.ids) (depth : Nat) :
    (do
      Stepwise.evaluateFields host (Stepwise.renderBelow host depth) context fields
      Stepwise.cleanUp kind startPage? : Merge Unit).Follows
    (do
      Statement.evaluateFields host (Rendering.renderBelow host depth) context fields
      Merge.edit (Session.cleanUp kind startPage?)) w := by
  have hrenders := Rendering.renderBelow_spares host depth
  apply (evaluateFields_follows (renderBelow_follows host depth) hrenders hplain hd hfields).bind
  · exact Statement.evaluateFields_spares hrenders hplain.passive hd.apart_nil fun field hfield x hx =>
      Document.free_nil_iff.2 (hfields field hfield x hx)
  · intro _ w₁ h₁ _
    exact cleanUp_follows h₁.apart.distinct kind startPage?

/-- The bound on the blocks inside one another is read off the document that is rendered. -/
theorem renderFields_bind (host : Host) (context : Context) (fields : List Field) (w : Workspace)
    (next : Unit → Merge Unit) :
    (Rendering.renderFields host context fields >>= next) w =
      (Statement.evaluateFields host
        (Rendering.renderBelow host (Rendering.depth w.document)) context fields >>= next) w := by
  rw [Rendering.renderFields, bind_assoc, document_bind]

/-- With data, no move of a render is refused, and the render comes to the same when all moves are made
one by one: neither when statements are evaluated, nor when fields are unwrapped, nodes are copied and
texts are set, nor in the clean-up. The fields can be found or come from a cache, and whatever the nodes
are, the first and the last one of each field are there. -/
theorem Session.render_stepwise {kind : PartKind} {text : String} {part : Part} {data : Json}
    (hpart : Part.parse kind text = .ok part) (hcontext : Context.ofJson data = .ok context)
    (host : Host) (startPage? : Option Nat) (resources : Resources) (numbering : Numbering)
    (cache? : Option FieldCache) :
    Stepwise.render host (Rendering.depth part.document) context startPage?
        ⟨part, resources, numbering, cache?⟩ =
      Session.render host context startPage? ⟨part, resources, numbering, cache?⟩ ∧
    (∀ depth left, Stepwise.render host depth context startPage?
        ⟨part, resources, numbering, cache?⟩ ≠ .error .misplacedNode left) ∧
    ∀ field : Field,
      field.nodes.head? = some field.start ∧ field.nodes.getLast? = some field.stop := by
  have hplain := Context.plain_ofJson hcontext
  obtain ⟨hproper, hapex⟩ := Part.proper_of_parse hpart
  have hfields : ∀ field ∈ (part.fields cache?).1, ∀ x ∈ field.handles, x ∈ part.document.ids :=
    fun _ hfield _ hx => Part.mem_ids_of_mem_fields hapex.distinct hapex.mem_ids hfield hx
  have hsteps : ∀ depth, Follows
      (do
        Stepwise.evaluateFields host (Stepwise.renderBelow host depth) context (part.fields cache?).1
        Stepwise.cleanUp part.kind startPage?)
      (do
        Statement.evaluateFields host (Rendering.renderBelow host depth) context (part.fields cache?).1
        Merge.edit (Session.cleanUp part.kind startPage?))
      ⟨part.document, resources, numbering⟩ := renderPart_follows hplain hapex.distinct hfields
  refine ⟨?_, fun depth left hrun => ?_, Field.nodes_ends⟩
  · have hbound := renderFields_bind host context (part.fields cache?).1
      ⟨part.document, resources, numbering⟩
      fun _ => Merge.edit (Session.cleanUp part.kind startPage?)
    unfold Stepwise.render Session.render
    dsimp only
    rewrite [(hsteps (Rendering.depth part.document)).1, ← hbound]
    -- What is left is one result, taken apart on both sides.
    rfl
  · obtain ⟨hsame, hadmitted⟩ := hsteps depth
    unfold Stepwise.render at hrun
    dsimp only at hrun
    split at hrun
    next => cases hrun
    next error w' herror =>
      cases hrun
      exact hadmitted w' (hsame.symm.trans herror)

/-- A cell with a field and without a paragraph. -/
def openCellText : String :=
  "<d><w:body><w:tc><w:fldSimple w:instr=\"MERGEFIELD =x \\* MERGEFORMAT\"/></w:tc></w:body></d>"

/-- What is read from `openCellText`. -/
def openCell : Document where
  rows := [.ofElement 0 "d" (.ofElement 1 "w:body" (.ofElement 2 "w:tc" (.single 3
    (.element ⟨"w:fldSimple", [⟨"w:instr", "MERGEFIELD =x \\* MERGEFORMAT"⟩]⟩) .nil)))]
  aside := []
  root := 0
  next := 4
  declaration := none

set_option maxRecDepth 4000 in
theorem parse_openCellText :
    Part.parse .document openCellText = .ok ⟨.document, openCell, some openCellText⟩ := by rfl

/-- The field is unwrapped, the cell gets a paragraph and the body a section, all by single moves. -/
theorem openCell_stepwise : ∃ left,
    Stepwise.render {} (Rendering.depth openCell) ⟨[("x", .string "a")]⟩ (some 4)
      ⟨⟨.document, openCell, some openCellText⟩, [], {}, none⟩ = .ok () left ∧
    left.part.markup = "<d><w:body><w:tc><w:r><w:t>a</w:t></w:r><w:p/></w:tc>" ++
      "<w:sectPr><w:pgNumType w:start=\"4\"/></w:sectPr></w:body></d>" := by
  have hsame := (Session.render_stepwise parse_openCellText
    (rfl : Context.ofJson (.object [("x", .string "a")]) = _) {} (some 4) [] {} none).1
  have hmarkup : (Session.render {} ⟨[("x", .string "a")]⟩ (some 4) >>= fun _ =>
      (·.part.markup) <$> get).run' ⟨⟨.document, openCell, some openCellText⟩, [], {}, none⟩ =
      some ("<d><w:body><w:tc><w:r><w:t>a</w:t></w:r><w:p/></w:tc>" ++
        "<w:sectPr><w:pgNumType w:start=\"4\"/></w:sectPr></w:body></d>") := by
    decide +kernel
  delta EStateM.run' at hmarkup
  cases hrun : Session.render {} ⟨[("x", .string "a")]⟩ (some 4)
      ⟨⟨.document, openCell, some openCellText⟩, [], {}, none⟩ with
  | ok u left =>
    simp only [EStateM.run, bind, EStateM.bind, hrun] at hmarkup
    exact ⟨left, hsame.trans hrun, Option.some.inj hmarkup⟩
  | error error left =>
    simp only [EStateM.run, bind, EStateM.bind, hrun] at hmarkup
    cases hmarkup

end MailMerge
