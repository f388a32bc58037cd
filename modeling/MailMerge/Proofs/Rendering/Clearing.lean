import MailMerge.Proofs.Rendering.Session
import MailMerge.Proofs.Rendering.Turns
import MailMerge.Proofs.Statement.Ready

/-!
# What blocks leave of the fields inside them

A block that is evaluated takes out its body and its frame, and with them all fields between its own
two. This holds of several blocks after one another as long as no statement touches the nodes that a
later block is told by. Main statement: `evaluateAll_clears`.
-/

namespace MailMerge

open Xml Xml.Forest Xml.Document

variable {d e e' : Document} {x y z : NodeId} {w w' : Workspace} {host : Host} {context : Context}
variable {rest : List Forest} {b : Block} {opening : Opening} {r : Renderer} {old nodes : List NodeId}

/-! ## Replacing a block -/

/-- New nodes come between the old ones where a block is replaced, before its body and its frame are
taken out. -/
theorem Block.replace_ends (d : Document) (hsettled : b.settled? = none)
    (hd : w.document.Distinct) (hold : old ⊆ w.document.ids)
    (hclosed : ∀ y ∉ old, ∀ z ∈ old, z ∉ w.document.descendants y)
    (hnodes : ∀ y ∈ nodes, y ∉ old) :
    ((b.settle d).replace nodes).Ends w fun _ e => ∃ c,
      Edits old (fun z _ => z ∉ old) (· ∉ old) w.document c ∧
        e = c.detachAll (b.span d ++ b.frame) := by
  have hinserted : (Merge.insertAllAfter b.first nodes).Ends w fun _ =>
      Edits old (fun z _ => z ∉ old) (· ∉ old) w.document := by
    refine Merge.agrees_forM .refl fun y hy w' hedits => Merge.ends_move fun e hmove => ?_
    have hnew := hnodes y (List.mem_reverse.1 hy)
    have hb := hedits.bounds hd hold
    obtain ⟨s, t, hmoved⟩ := hb.distinct.movedAfter hmove
    have hout : ∀ z ∈ old, z ∉ w'.document.descendants y := fun z hz hin =>
      hclosed y hnew z hz (hb.closed y hnew z hz hin)
    exact (hedits.tail (.detach hnew)).tail (.gain (hmoved.gains hb.distinct hout))
  unfold replace
  refine Merge.agrees_document (hinserted.bind fun _ w' _ hedits => ?_)
  refine Merge.ends_edit ⟨w'.document, hedits, ?_⟩
  rw [removeFrame_detachAll]
  have hbody : (b.settle d).body w.document = b.span d := by
    simp [settle, body, hsettled]
  rw [hbody]
  rfl

namespace Statement

/-- What a block that is evaluated leaves: new nodes between the old ones, without its body and its
frame. -/
theorem evaluateBlock_leaves (hrenders : Block.RendersApart r) (hplain : context.Plain)
    (hd : w.document.Distinct) (hold : old ⊆ w.document.ids)
    (hclosed : ∀ y ∉ old, ∀ z ∈ old, z ∉ w.document.descendants y)
    (hsettled : b.settled? = none) :
    (evaluateBlock host r context opening b).Leaves w (fun _ _ => True) fun _ e => ∃ c,
      Edits old (fun z _ => z ∉ old) (· ∉ old) w.document c ∧
        e = c.detachAll (b.span w.document ++ b.frame) := by
  have hapart : w.document.Apart w.document.allRows := hd.apart
  have hbody : ∀ y ∈ b.body w.document, y ∈ w.document.ids := by
    intro y hy
    rw [Block.body, hsettled] at hy
    have hin := mem_topIds_of_mem_followingElements ((List.takeWhile_sublist _).subset hy)
    exact mem_ids_of_mem_following (mem_ids_of_mem_topIds hin)
  have hreplace : ∀ (nodes : List NodeId) (w₁ : Workspace),
      w.document.Spares w.document.allRows w₁.document →
      (∀ y ∈ nodes, w₁.document.Free w.document.allRows y) →
      ((b.settle w.document).replace nodes).Leaves w₁ (fun _ _ => True) fun _ e => ∃ c,
        Edits old (fun z _ => z ∉ old) (· ∉ old) w.document c ∧
          e = c.detachAll (b.span w.document ++ b.frame) := by
    intro nodes w₁ hspares hfree
    have hgains : Gains old (fun z _ => z ∉ old) w.document w₁.document :=
      hspares.gains hapart hold fun _ hy _ hnew => hnew hy
    have hclosed' : ∀ y ∉ old, ∀ z ∈ old, z ∉ w₁.document.descendants y :=
      fun y hy z hz hin => hclosed y hy z hz (hgains.closed y hy z hz hin)
    have hends := Block.replace_ends w.document hsettled hgains.distinct
      (List.Subset.trans hold hgains.ids) hclosed' fun y hy hin => (hfree y hy).out (hold hin)
    refine hends.leaves.imp fun _ e hafter => ?_
    obtain ⟨c, hedits, heq⟩ := hafter
    exact ⟨c, .head (.gain hgains) hedits, heq⟩
  obtain ⟨course, hcourse, hrun⟩ := exists_course hplain.passive opening
  rw [hrun]
  refine Merge.leaves_document ?_
  cases hcourse with
  | fail => exact Merge.leaves_error rfl trivial
  | drop => exact hreplace [] w (.refl hapart) (by simp)
  | keep =>
    have hcopy := Block.render_spares hrenders hplain.passive hapart (b := b.settle w.document) hbody
    refine hcopy.forget.bind (fun _ _ => trivial) fun copied w₁ _ hafter => ?_
    exact hreplace copied w₁ hafter.1 hafter.2
  | @loop path name items hlist =>
    have hitems := (Expression.passive_of_evaluate? hplain.passive hlist).items
    have hrows := Block.renderEach_spares hrenders hplain.passive hapart
      (b := b.settle w.document) rfl hbody name hitems
    refine hrows.forget.bind (fun _ _ => trivial) fun rows w₁ _ hafter => ?_
    exact hreplace rows.flatten w₁ hafter.1 hafter.2

/-! ## Statements in turn -/

/-- The nodes of the template that a statement is about and that it may take out. -/
def touched : Statement → List NodeId
  | insertion _ field => field.nodes
  | block _ b => b.frame

/-- The last anchor of each block is a later sibling of the first one, and what the block is told by
is neither touched by an earlier statement nor a displayed text. -/
structure Untouched (d : Document) (statements : List Statement) : Prop where
  beside : ∀ opening b, block opening b ∈ statements → b.last ∈ d.followingElements b.first
  apart : statements.Pairwise fun s t => ∀ y ∈ s.touched, y ∉ t.border
  hidden : ∀ t ∈ statements, ∀ y ∈ t.border, ∀ node, d.node? y = some node →
    Field.isDisplay node = false

variable {m m' : NodeId} {turns : List Turn} {expression : Expression} {field : Field}

/-- An insertion of data leaves the blocks ready that it does not touch. -/
theorem evaluateInsertion_poised (hplain : context.Plain) (ha : d.Apex x rest)
    (hs : Schedule d x (⟨m, m', .insertion expression field⟩ :: turns))
    (hclear : Untouched d (.insertion expression field :: turns.map Turn.statement))
    (h : Poised d x turns w.document) :
    (evaluateInsertion host context expression field).Ends w fun _ e =>
      Poised d x turns e ∧ NoReturn d x w.document e := by
  have htouched := (List.pairwise_cons.1 hclear.apart).1
  have htakes : ∀ y, field.Takes w.document (d.descendants x) y →
      ∀ turn ∈ turns, y ∉ turn.statement.border := by
    intro y hy turn hturn hin
    have hstatement := List.mem_map_of_mem (f := Turn.statement) hturn
    rcases hy with hy | hy
    · exact htouched _ hstatement y (field.removed_subset hy) hin
    · have hold := (hs.tail.spans turn hturn).border_subset ha hin
      obtain ⟨node, hnode, hshown⟩ := hy hold
      have hhidden := hclear.hidden _ (List.mem_cons_of_mem _ hstatement) y hin node
        ((h.kept.node y hold).symm.trans hnode)
      rw [hshown] at hhidden
      cases hhidden
  refine (evaluateInsertion_ends hplain h.kept.distinct h.old_subset).imp fun _ e hafter => ?_
  rcases hafter with hedits | ⟨y, c, hshape, hedits, rfl⟩
  · exact h.edits hs.tail ha hedits (fun _ _ hnew => hnew.1) htakes
  · obtain ⟨hc, hback⟩ := h.edits hs.tail ha hedits (fun _ _ hnew => hnew.1) htakes
    have hin : y ∈ field.nodes := by
      rw [Field.nodes, hshape]
      exact List.mem_cons_self
    cases hs.spans _ List.mem_cons_self with
    | insertion found =>
      obtain ⟨rfl, -⟩ := found.begins.simple hshape
      obtain ⟨hleft, hback'⟩ := hc.unwrap hs.tail ha found.mem
        (fun turn hturn => htouched _ (List.mem_map_of_mem hturn) y hin) hs.lt
      exact ⟨hleft, hback.trans hback'⟩

/-- A block that is ready takes out what is between its fields, and leaves the later ones ready that
it does not touch. -/
theorem evaluateBlock_poised (hrenders : Block.RendersApart r) (hplain : context.Plain)
    (ha : d.Apex x rest) (hs : Schedule d x (⟨m, m', .block opening b⟩ :: turns))
    (hclear : Untouched d (.block opening b :: turns.map Turn.statement))
    (h : Poised d x (⟨m, m', .block opening b⟩ :: turns) w.document) :
    (evaluateBlock host r context opening b).Leaves w (fun _ _ => True) fun _ e =>
      Poised d x turns e ∧ NoReturn d x w.document e ∧
        ∀ z, Block.Between d x m m' z → z ∉ e.descendants x := by
  have hspans : Spans d x m m' (.block opening b) := hs.spans _ List.mem_cons_self
  have hbeside := hclear.beside opening b List.mem_cons_self
  have hready := h.ready _ List.mem_cons_self opening b rfl
  have hsettled : b.settled? = none := by
    cases hspans
    rfl
  have hleaves : (evaluateBlock host r context opening b).Leaves w _ _ :=
    evaluateBlock_leaves hrenders hplain h.kept.distinct h.old_subset h.kept.closed hsettled
  refine hleaves.imp fun _ e hafter => ?_
  obtain ⟨c, hedits, rfl⟩ := hafter
  obtain ⟨hc, hback⟩ := h.edits hs ha hedits (fun _ _ hnew => hnew) fun y hnew turn hturn hin =>
    hnew ((hs.spans turn hturn).border_subset ha hin)
  -- What the block takes out is on the border of no later turn.
  have htakes : ∀ y ∈ b.span w.document ++ b.frame, ∀ turn ∈ turns,
      y ∉ turn.statement.border := by
    intro y hy turn hturn hin
    rcases List.mem_append.1 hy with hy | hy
    · have hlater := hs.tail.spans turn hturn
      cases hstatement : turn.statement with
      | insertion expression field =>
        rw [hstatement] at hin
        cases hin
      | block opening' b' =>
        rw [hstatement] at hin hlater
        exact hready.notMem_border h.kept ha hspans hbeside hy hlater (hs.lt turn hturn) hin
    · have htouched := (List.pairwise_cons.1 hclear.apart).1
      exact htouched _ (List.mem_map_of_mem hturn) y hy hin
  have hdetached : Edits (d.descendants x) (fun _ _ => False) (· ∈ b.span w.document ++ b.frame) c
      (c.detachAll (b.span w.document ++ b.frame)) := edits_detachAll c fun _ hy => hy
  obtain ⟨hleft, hback'⟩ := hc.tail.edits hs.tail ha hdetached (fun _ _ hnew => hnew.elim) htakes
  refine ⟨hleft, hback.trans hback', fun z hz hin => ?_⟩
  obtain ⟨hin, hout⟩ := (hc.kept.distinct.mem_descendants_detachAll _).1 hin
  obtain ⟨a, hcovers⟩ := (hc.ready _ List.mem_cons_self opening b rfl).covers z hz hin
  have hbefore := hcovers.of_bounds h.kept (hedits.bounds h.kept.distinct h.old_subset)
    (fun _ _ hnew => hnew) (hspans.first_mem ha) hz.mem
  have htaken := hready.mem_taken h.kept ha hspans hbeside hz hbefore
  obtain ⟨htop, -⟩ := hc.kept.mem_descendants_top ha hcovers.mem hcovers.ne hin hcovers.encloses
  exact hout a htaken htop hcovers.ne.symm hcovers.encloses

theorem Untouched.tail {s : Statement} {statements : List Statement}
    (h : Untouched d (s :: statements)) : Untouched d statements where
  beside opening b hb := h.beside opening b (List.mem_cons_of_mem _ hb)
  apart := (List.pairwise_cons.1 h.apart).2
  hidden t ht := h.hidden t (List.mem_cons_of_mem _ ht)

/-- Statements in turn take out what is between the fields of their blocks. -/
theorem evaluateAll_clears (hrenders : Block.RendersApart r) (hplain : context.Plain)
    (ha : d.Apex x rest) (hs : Schedule d x turns)
    (hclear : Untouched d (turns.map Turn.statement)) (h : Poised d x turns w.document) :
    ((turns.map Turn.statement).forM (evaluate host r context)).Leaves w (fun _ _ => True)
      fun _ e => NoReturn d x w.document e ∧ ∀ turn ∈ turns, ∀ opening b,
        turn.statement = .block opening b → ∀ z, Block.Between d x turn.first turn.last z →
          z ∉ e.descendants x := by
  induction turns generalizing w with
  | nil => exact Merge.leaves_ok rfl trivial ⟨fun _ _ hin => hin, by simp⟩
  | cons turn turns ih =>
    obtain ⟨m, m', statement⟩ := turn
    have hstep : (evaluate host r context statement).Leaves w (fun _ _ => True) fun _ e =>
        Poised d x turns e ∧ NoReturn d x w.document e ∧ ∀ opening b,
          statement = .block opening b → ∀ z, Block.Between d x m m' z →
            z ∉ e.descendants x := by
      cases statement with
      | insertion expression field =>
        have hinserted : (evaluateInsertion host context expression field).Ends w _ :=
          evaluateInsertion_poised hplain ha hs hclear h.tail
        refine hinserted.leaves.imp fun _ e hafter => ⟨hafter.1, hafter.2, ?_⟩
        intro opening b heq
        cases heq
      | block opening b =>
        have hevaluated : (evaluateBlock host r context opening b).Leaves w _ _ :=
          evaluateBlock_poised hrenders hplain ha hs hclear h
        refine hevaluated.imp fun _ e hafter => ⟨hafter.1, hafter.2.1, ?_⟩
        intro opening' b' heq
        exact hafter.2.2
    refine hstep.bind (fun _ _ => trivial) fun _ w₁ _ hafter => ?_
    obtain ⟨hpoised, hback, hcleared⟩ := hafter
    refine (ih hs.tail hclear.tail hpoised).imp fun _ e hlater => ?_
    obtain ⟨hback', hcleared'⟩ := hlater
    refine ⟨hback.trans hback', List.forall_mem_cons.2 ⟨?_, hcleared'⟩⟩
    intro opening b heq z hz hin
    exact hcleared opening b heq z hz (hback' z hz.mem hin)

/-- At first, all blocks are ready whose last anchor follows the first one. -/
theorem poised_self (hd : d.Proper) (ha : d.Apex x rest) (hs : Schedule d x turns)
    (hclear : Untouched d (turns.map Turn.statement)) : Poised d x turns d := by
  refine ⟨.refl ha, fun turn hturn opening b heq => ?_⟩
  have hspans := hs.spans turn hturn
  rw [heq] at hspans
  exact hspans.ready hd ha (hclear.beside opening b (heq ▸ List.mem_map_of_mem hturn))

end Statement

/-! ## Parts -/

section Parts

variable {inside : List (NodeId × Field)} {statements : List Statement}

/-- The fields between the two fields of a block, before which no other one is left open. -/
inductive Statement.Enclosed (d : Document) (x : NodeId) (inside : List (NodeId × Field)) : Prop where
  | mk (before after : List (NodeId × Field)) (first last : NodeId × Field) (opening : Opening)
      (earlier : List Statement)
      (entries : Field.entries d x = before ++ first :: (inside ++ last :: after))
      (closed : ofFields d (before.map Prod.snd) = .ok earlier)
      (opens : Directive.ofText first.2.expression = .opening opening)
      (finds : opening.Finds first.2 ((inside ++ last :: after).map Prod.snd) last.2
        (after.map Prod.snd))

theorem Statement.Enclosed.subset (h : Enclosed d x inside) : inside ⊆ Field.entries d x := by
  cases h with
  | mk before after first last opening earlier entries =>
    intro entry hentry
    rw [entries]
    simp [hentry]

/-- No field between the two fields of a block is left where the fields below a node are rendered. -/
theorem Rendering.renderFields_clears (host : Host) (hplain : context.Plain)
    (hd : w.document.Proper) (ha : w.document.Apex x rest)
    (hstatements : Statement.ofFields w.document (Field.discover w.document x) = .ok statements)
    (hclear : Statement.Untouched w.document statements)
    (henclosed : Statement.Enclosed w.document x inside) :
    (renderFields host context (Field.discover w.document x)).Leaves w (fun _ _ => True)
      fun _ e => ∀ entry ∈ inside, entry.1 ∉ e.descendants x := by
  obtain ⟨before, after, first, last, opening, earlier, hentries, hbefore, hopens, hfinds⟩ :=
    henclosed
  have hfound : ∀ entry ∈ before ++ first :: (inside ++ last :: after),
      entry.2.FoundAt w.document x entry.1 := by
    intro entry hentry
    exact Field.foundAt_of_mem_entries hd.toDistinct (hentries ▸ hentry)
  have hsorted := Statement.pairwise_entries hd.toDistinct x
  rw [hentries] at hsorted
  have hall := hstatements
  rw [← Field.map_entries, hentries] at hall
  obtain ⟨turns, rfl, hschedule, hturn⟩ :=
    Statement.exists_schedule_of_block hfound hsorted hall hbefore hopens hfinds
  -- The fields are sorted by their places, so that those inside lie between the two of the block.
  have hbetween : ∀ entry ∈ inside, Block.Between w.document x first.1 last.1 entry.1 := by
    intro entry hentry
    have hin := hfound entry (by simp [hentry])
    obtain ⟨-, hsorted, -⟩ := List.pairwise_append.1 hsorted
    obtain ⟨hfirst, hsorted⟩ := List.pairwise_cons.1 hsorted
    obtain ⟨-, -, hacross⟩ := List.pairwise_append.1 hsorted
    exact ⟨hin.mem, hin.begins.isElement_self hd.toDistinct, hfirst entry (by simp [hentry]),
      hacross entry hentry last List.mem_cons_self⟩
  have hpoised := Statement.poised_self hd ha hschedule hclear
  have hevaluated : ((turns.map Statement.Turn.statement).forM (Statement.evaluate host
      (renderBelow host (depth w.document)) context)).Leaves w _ _ :=
    Statement.evaluateAll_clears (renderBelow_spares host _) hplain ha hschedule hclear hpoised
  unfold renderFields
  refine Merge.leaves_document ?_
  unfold Statement.evaluateFields
  refine Merge.leaves_document ?_
  rw [hstatements]
  refine hevaluated.imp fun _ e hafter entry hentry => ?_
  exact hafter.2 _ hturn opening _ rfl entry.1 (hbetween entry hentry)

/-- A part that is rendered has no field left that stood between the two fields of a block, in every
context of JSON data, if the last anchor of each block is a later sibling of the first one and what
the block is told by is neither touched by an earlier statement nor a displayed text. -/
theorem render_clears (host : Host) {kind : PartKind} {text : String} {part : Part} {data : Json}
    {context : Context} {startPage? : Option Nat} {resources : Resources} {numbering : Numbering}
    {left : Session} (hpart : Part.parse kind text = .ok part)
    (hcontext : Context.ofJson data = .ok context)
    (hrender : Session.render host context startPage? { part, resources, numbering } = .ok () left)
    (hstatements : Statement.ofFields part.document
      (Field.discover part.document part.document.root) = .ok statements)
    (hclear : Statement.Untouched part.document statements)
    (henclosed : Statement.Enclosed part.document part.document.root inside) :
    ∀ entry ∈ inside, left.part.document.isAttached entry.1 = false := by
  obtain ⟨hd, ha⟩ := Part.proper_of_parse hpart
  obtain ⟨w', hrun, hleft⟩ := Session.exists_of_render_ok hrender
  have hplain := Context.plain_ofJson hcontext
  have hleaves := Rendering.renderFields_clears host hplain
    (w := ⟨part.document, resources, numbering⟩) hd ha hstatements hclear henclosed
  have hout := (hleaves.of_ok hrun).2
  have hspares : part.document.Spares [] w'.document :=
    ((Rendering.renderFields_spares host hplain.passive (w := ⟨part.document, resources, numbering⟩) ha.apart
      ⟨ha.mem_ids, by simp⟩).of_ok hrun).1
  have hextends := Session.cleanUp_extends hspares.apart.distinct part.kind startPage?
  rw [hleft]
  have hroot : (Session.cleanUp part.kind startPage? w'.document).root = part.document.root :=
    hextends.root.trans hspares.grows.root
  have hmem := hspares.ids ha.mem_ids
  have hformed : (Session.cleanUp part.kind startPage? w'.document).WellFormed :=
    ⟨hextends.distinct, hroot ▸ hextends.ids hmem⟩
  intro entry hentry
  rw [← Bool.not_eq_true, hformed.isAttached_iff, hroot]
  intro hin
  have hold := (Field.foundAt_of_mem_entries ha.distinct (henclosed.subset hentry)).mem
  have hids := hspares.ids (mem_ids_of_mem_descendants hold)
  exact hout entry hentry ((hextends.within _ hmem _ hids).1 hin)

end Parts

/-- A comment around a paragraph with a field. -/
def commentedFieldText : String :=
  "<b><w:p><w:fldSimple w:instr=\"MERGEFIELD comment \\* MERGEFORMAT\"/></w:p>" ++
    "<w:p><w:fldSimple w:instr=\"MERGEFIELD =y \\* MERGEFORMAT\"/></w:p>" ++
    "<w:p><w:fldSimple w:instr=\"MERGEFIELD endComment \\* MERGEFORMAT\"/></w:p></b>"

/-- A row of a paragraph with a simple field, which has the number after that of the paragraph. -/
def directiveParagraph (id : NodeId) (directive : String) : Forest :=
  .ofElement id "w:p" (.single (id + 1) (.element ⟨"w:fldSimple",
    [⟨"w:instr", "MERGEFIELD " ++ directive ++ " \\* MERGEFORMAT"⟩]⟩) .nil)

/-- What is read from `commentedFieldText`. -/
def commentedField : Document where
  rows := [.ofElement 0 "b" (directiveParagraph 1 "comment" ++ directiveParagraph 3 "=y" ++
    directiveParagraph 5 "endComment")]
  aside := []
  root := 0
  next := 7
  declaration := none

set_option maxRecDepth 4000 in
theorem parse_commentedFieldText :
    Part.parse .headerFooter commentedFieldText =
      .ok ⟨.headerFooter, commentedField, some commentedFieldText⟩ := by rfl

/-- The block of the comment. -/
def commentBlock : Block where
  kind := .paragraph
  start := ⟨.simple 2, "MERGEFIELD comment \\* MERGEFORMAT", "comment"⟩
  stop := ⟨.simple 6, "MERGEFIELD endComment \\* MERGEFORMAT", "endComment"⟩
  first := 1
  last := 5

theorem untouched_commentBlock :
    Statement.Untouched commentedField [.block .comment commentBlock] where
  beside opening b hb := by
    cases List.mem_singleton.1 hb
    decide
  apart := List.pairwise_singleton _ _
  hidden t ht y hy node hnode := by
    cases List.mem_singleton.1 ht
    have hborder : ∀ y ∈ commentBlock.border, ∀ node ∈ commentedField.node? y,
        Field.isDisplay node = false := by decide +kernel
    exact hborder y hy node hnode

theorem commentedField_enclosed :
    Statement.Enclosed commentedField 0
      [(4, ⟨.simple 4, "MERGEFIELD =y \\* MERGEFORMAT", "=y"⟩)] := by
  refine .mk [] [] (2, commentBlock.start) (6, commentBlock.stop) .comment [] ?_ ?_ ?_ ?_
  · decide +kernel
  · decide +kernel
  · decide +kernel
  · have hother : Directive.ofText "endComment" = .other := by decide +kernel
    refine Opening.Finds.of_other (fun inner h => ?_) (by decide +kernel)
      (Opening.finds_end (fun inner h => ?_) rfl)
    · exact (Directive.ofText_eq_opening_iff.1 h).1 (by decide +kernel)
    · cases hother.symm.trans h

theorem commentedField_cleared : ∃ left,
    Session.render {} ⟨[("y", .string "why")]⟩ none
      { part := ⟨.headerFooter, commentedField, some commentedFieldText⟩ } = .ok () left ∧
    left.part.document.isAttached 4 = false := by
  have hstatements : Statement.ofFields commentedField
      (Field.discover commentedField commentedField.root) = .ok [.block .comment commentBlock] := by
    decide +kernel
  have hrun : Rendering.renderFields {} ⟨[("y", .string "why")]⟩
      (Field.discover commentedField commentedField.root) ⟨commentedField, [], {}⟩ =
        .ok () ⟨commentBlock.emptied commentedField, [], {}⟩ := by
    unfold Rendering.renderFields Statement.evaluateFields
    rw [Merge.document_bind, Merge.document_bind, hstatements]
    rfl
  obtain ⟨left, hrender⟩ : ∃ left, Session.render {} ⟨[("y", .string "why")]⟩ none
      { part := ⟨.headerFooter, commentedField, some commentedFieldText⟩ } = .ok () left :=
    Session.exists_render_ok hrun
  refine ⟨left, hrender, ?_⟩
  exact render_clears {} parse_commentedFieldText
    (rfl : Context.ofJson (.object [("y", .string "why")]) = _) hrender hstatements
    untouched_commentBlock commentedField_enclosed _ List.mem_cons_self

end MailMerge
