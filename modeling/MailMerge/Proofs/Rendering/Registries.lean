import MailMerge.Part
import MailMerge.Proofs.Field.Placing
import MailMerge.Proofs.Value.Passive
import MailMerge.Proofs.Xml.References

/-!
# What rendering does to the registries

The resources and the numbering are the only things that the renders of all copies share. Seen from
them, a render is a row of few kinds of steps: the document is changed elsewhere than in its image
references, a list definition is registered, or an image is placed in a drawing. Every step of a merge
is such a row, whether or not it fails (`Recorded`). Along such a row the registries only grow, no
identifier is given twice, and an image reference has the identifier of the image that was placed in it
last. Main statement: `Session.render_registries`.
-/

namespace MailMerge

open Xml

/-- An image that has been placed in a drawing, with the image reference of the drawing and the number
of the identifier. -/
structure Placed where
  drawing : NodeId
  reference? : Option NodeId
  number : Nat
  picture : Picture

/-- The identifier under which an image has been placed. -/
def Placed.id (placed : Placed) : String := Resources.idOf placed.number

/-- A row of steps from one workspace to another, with the images placed and the list definitions made
on the way, both in their order. Only placing an image changes the resources or an image reference. -/
inductive Trace (w : Workspace) : List Placed → List Definition → Workspace → Prop where
  | refl : Trace w [] [] w
  /-- The document is changed. -/
  | edit {w' : Workspace} {log : List Placed} {made : List Definition} {d : Document}
    (h : Trace w log made w') (hkept : w'.document.Keeps "r:embed" d) :
    Trace w log made { w' with document := d }
  /-- A list definition is registered. -/
  | register {w' : Workspace} {log : List Placed} {made : List Definition} {style : String}
    {definition : Definition} {numbering : Numbering} (h : Trace w log made w')
    (hregister : w'.numbering.register? style = some (definition, numbering)) :
    Trace w log (made ++ [definition]) { w' with numbering }
  /-- A picture placeholder is replaced. -/
  | place {w' w'' : Workspace} {log : List Placed} {made : List Definition} {drawing : NodeId}
    {picture : Picture} (h : Trace w log made w')
    (hplace : Field.placeImage drawing picture w' = .ok () w'') :
    Trace w (log ++ [⟨drawing, w'.document.find? drawing "a:blip", w'.resources.highest + 1, picture⟩])
      made w''

/-- The state that a step leaves, whether or not it fails. -/
def leftBy {σ α : Type} : EStateM.Result MergeError σ α → σ
  | .ok _ s => s
  | .error _ s => s

/-- What is done by someone who only registers list definitions: it is over, or one more definition is
registered and the rest may depend on it. -/
inductive Registering (α : Type) where
  | done (result : Except MergeError α)
  | register (style : String) (next : Definition → Registering α)

/-- Registers the definitions one after the other. -/
def Registering.run {α : Type} : Registering α → EStateM MergeError Numbering α
  | done result => ofExcept result
  | register style next => Numbering.register style >>= fun definition => (next definition).run

/-- A converter sees and changes the numbering only by registering list definitions. -/
def Converter.Registers (convert : Converter) : Prop :=
  ∀ source styles, ∃ plan : Registering String, convert source styles = plan.run

variable {α β : Type} {w w' w'' : Workspace} {log log' : List Placed} {made made' : List Definition}

theorem Trace.trans (h : Trace w log made w') (h' : Trace w' log' made' w'') :
    Trace w (log ++ log') (made ++ made') w'' := by
  induction h' with
  | refl => simpa using h
  | edit _ hkept ih => exact .edit ih hkept
  | register _ hregister ih =>
    rw [← List.append_assoc]
    exact .register ih hregister
  | place _ hplace ih =>
    rw [← List.append_assoc]
    exact .place ih hplace

/-! ## Steps as rows of steps -/

namespace Merge

/-- Wherever a step is made, it is a row of recorded steps, whether or not it fails. -/
def Recorded (m : Merge α) : Prop := ∀ w, ∃ log made, Trace w log made (leftBy (m w))

variable {m : Merge α} {next : α → Merge β}

theorem Recorded.bind (h : m.Recorded) (hnext : ∀ a, (next a).Recorded) :
    (m >>= next).Recorded := by
  intro w
  obtain ⟨log, made, htrace⟩ := h w
  cases hm : m w with
  | error e w₁ =>
    rw [hm] at htrace
    rw [bind_error hm]
    exact ⟨log, made, htrace⟩
  | ok a w₁ =>
    rw [hm] at htrace
    obtain ⟨log', made', hmore⟩ := hnext a w₁
    rw [bind_ok hm]
    exact ⟨log ++ log', made ++ made', htrace.trans hmore⟩

theorem recorded_pure (a : α) : (pure a : Merge α).Recorded := fun _ => ⟨[], [], .refl⟩

theorem recorded_throw (e : MergeError) : (throw e : Merge α).Recorded := fun _ => ⟨[], [], .refl⟩

theorem recorded_ofExcept (result : Except MergeError α) :
    (ofExcept result : Merge α).Recorded := by
  cases result with
  | ok a => exact recorded_pure a
  | error e => exact recorded_throw e

theorem recorded_document {next : Document → Merge β} (h : ∀ d, (next d).Recorded) :
    (document >>= next).Recorded := fun w => h w.document w

theorem recorded_edit {f : Document → Document} (h : ∀ d : Document, d.Keeps "r:embed" (f d)) :
    (edit f).Recorded := fun w => ⟨[], [], .edit .refl (h w.document)⟩

theorem recorded_create {f : Document → NodeId × Document}
    (h : ∀ d : Document, d.Keeps "r:embed" (f d).2) : (create f).Recorded :=
  fun w => ⟨[], [], .edit .refl (h w.document)⟩

theorem recorded_move {f : Document → Option Document}
    (h : ∀ d e : Document, f d = some e → d.Keeps "r:embed" e) : (move f).Recorded := by
  intro w
  cases hmove : f w.document with
  | some d =>
    rw [move_ok hmove]
    exact ⟨[], [], .edit .refl (h _ d hmove)⟩
  | none =>
    have hfails : move f w = .error .misplacedNode w := by rw [move, hmove]
    rw [hfails]
    exact ⟨[], [], .refl⟩

theorem recorded_forM {step : α → Merge Unit} (xs : List α) (h : ∀ x, (step x).Recorded) :
    (xs.forM step).Recorded := by
  induction xs with
  | nil => exact recorded_pure ()
  | cons x xs ih => exact (h x).bind fun _ => ih

theorem recorded_mapM {step : α → Merge β} (xs : List α) (h : ∀ x ∈ xs, (step x).Recorded) :
    (xs.mapM step).Recorded := by
  induction xs with
  | nil => exact recorded_pure []
  | cons x xs ih =>
    rw [List.mapM_cons]
    refine (h x List.mem_cons_self).bind fun b => ?_
    refine (ih fun y hy => h y (List.mem_cons_of_mem _ hy)).bind fun bs => ?_
    exact recorded_pure (b :: bs)

theorem recorded_createElement (name : String) : (create (·.createElement name)).Recorded :=
  recorded_create fun d => Document.keeps_create d _

theorem recorded_copy (x : NodeId) : (create (·.copy x)).Recorded :=
  recorded_create fun d => Document.keeps_copy d x

theorem recorded_insertAfter (anchor x : NodeId) : (move (·.insertAfter anchor x)).Recorded :=
  recorded_move fun _ _ h => Document.keeps_insertAfter h

theorem recorded_appendChild (parent x : NodeId) : (move (·.appendChild parent x)).Recorded :=
  recorded_move fun _ _ h => Document.keeps_appendChild h

theorem recorded_detach (x : NodeId) : (edit (·.detach x)).Recorded :=
  recorded_edit fun d => Document.keeps_detach d x

theorem recorded_insertAllAfter (anchor : NodeId) (nodes : List NodeId) :
    (insertAllAfter anchor nodes).Recorded :=
  recorded_forM _ fun x => recorded_insertAfter anchor x

theorem recorded_insertMarkupAfter (anchor : NodeId) (markup : String) :
    (insertMarkupAfter anchor markup).Recorded := by
  intro w
  rw [insertMarkupAfter, document_bind]
  cases hparse : w.document.parseFragment markup with
  | error e => exact recorded_throw (.xml e) w
  | ok parsed =>
    obtain ⟨nodes, d⟩ := parsed
    obtain ⟨log, made, htrace⟩ := recorded_insertAllAfter anchor nodes { w with document := d }
    have hparsed : Trace w [] [] { w with document := d } :=
      .edit .refl (Document.keeps_parseFragment hparse)
    exact ⟨_, _, hparsed.trans htrace⟩

theorem recorded_register (style : String) :
    (onNumbering (Numbering.register style)).Recorded := by
  intro w
  cases hregister : w.numbering.register? style with
  | none =>
    have hfails : onNumbering (Numbering.register style) w = .error .overflow w := by
      simp only [onNumbering, Numbering.register, hregister]
    rw [hfails]
    exact ⟨[], [], .refl⟩
  | some made =>
    obtain ⟨definition, numbering⟩ := made
    have hrun : onNumbering (Numbering.register style) w =
        .ok definition { w with numbering } := by
      simp only [onNumbering, Numbering.register, hregister]
    rw [hrun]
    exact ⟨[], [definition], .register .refl hregister⟩

theorem onNumbering_bind (step : EStateM MergeError Numbering α)
    (next : α → EStateM MergeError Numbering β) :
    onNumbering (step >>= next) = onNumbering step >>= fun a => onNumbering (next a) := by
  funext w
  simp only [onNumbering, bind, EStateM.bind]
  cases step w.numbering <;> rfl

theorem recorded_registering (plan : Registering α) : (onNumbering plan.run).Recorded := by
  induction plan with
  | done result => cases result <;> exact fun _ => ⟨[], [], .refl⟩
  | register style next ih =>
    rw [Registering.run, onNumbering_bind]
    exact (recorded_register style).bind ih

/-- A converter that only registers is a row of registrations. -/
theorem recorded_convert {convert : Converter} (h : convert.Registers) (source : String)
    (styles : Option String) : (onNumbering (convert source styles)).Recorded := by
  obtain ⟨plan, hplan⟩ := h source styles
  rw [hplan]
  exact recorded_registering plan

end Merge

open Merge

/-! ## Insertions -/

namespace Content

theorem displayCopy_recorded (display : NodeId) (cs : List Char) :
    (displayCopy display cs).Recorded := by
  unfold displayCopy
  refine (recorded_copy display).bind fun x => ?_
  refine (recorded_edit fun d => Document.keeps_setText d x _).bind fun _ => ?_
  split
  · refine (recorded_edit fun d => ?_).bind fun _ => recorded_pure x
    exact Document.keeps_setAttribute (by decide : "xml:space" ≠ "r:embed") d x _
  · exact recorded_pure x

theorem insertText_recorded (display : NodeId) (s : String) :
    (insertText display s).Recorded := by
  refine recorded_forM _ fun cs => ?_
  have hpiece : (pieceNode display cs).Recorded := by
    unfold pieceNode
    split
    · exact recorded_createElement _
    · exact displayCopy_recorded display cs
  exact hpiece.bind fun x => recorded_insertAfter display x

theorem insertBlock_recorded (paragraph? : Option NodeId) (display : NodeId) (markup : String) :
    (insertBlock paragraph? display markup).Recorded := by
  cases paragraph? with
  | none => exact recorded_insertMarkupAfter display markup
  | some paragraph =>
    exact (recorded_insertMarkupAfter paragraph markup).bind fun _ => recorded_detach paragraph

theorem insert_recorded {convert? : Option Converter}
    (hconvert : ∀ convert ∈ convert?, convert.Registers) (paragraph? : Option NodeId)
    (display : NodeId) (content : Content) :
    (content.insert convert? paragraph? display).Recorded := by
  cases content with
  | text s => exact insertText_recorded display s
  | wordMl markup => exact insertBlock_recorded paragraph? display markup
  | inlineWordMl markup replaceRun =>
    cases replaceRun with
    | true =>
      refine recorded_document fun d => ?_
      exact (recorded_insertMarkupAfter _ markup).bind fun _ => recorded_detach _
    | false => exact recorded_insertMarkupAfter display markup
  | html source styles =>
    cases convert? with
    | none => exact recorded_throw _
    | some convert =>
      refine (recorded_convert (hconvert convert rfl) source styles).bind fun markup => ?_
      exact insertBlock_recorded paragraph? display markup
  | image picture => exact recorded_pure ()

end Content

namespace Field

variable {convert? : Option Converter}

/-- Placing an image is a recorded step, unless it cannot be placed. -/
theorem placeImage_recorded (drawing : NodeId) (picture : Picture) :
    (placeImage drawing picture).Recorded := by
  intro w
  cases hrun : placeImage drawing picture w with
  | ok u w' => exact ⟨_, _, .place .refl hrun⟩
  | error e w' =>
    rw [placeImage_error hrun]
    exact ⟨[], [], .refl⟩

theorem replaceDisplay_recorded (hconvert : ∀ convert ∈ convert?, convert.Registers) (x : NodeId)
    (content : Content) : (replaceDisplay convert? x content).Recorded := by
  refine recorded_document fun d => ?_
  split
  next => exact recorded_pure ()
  next display _ =>
    exact (content.insert_recorded hconvert _ display).bind fun _ => recorded_detach display

theorem ensureDisplay_recorded (x : NodeId) : (ensureDisplay x).Recorded := by
  refine recorded_document fun d => ?_
  split
  · refine (recorded_createElement _).bind fun run => (recorded_createElement _).bind fun text => ?_
    exact (recorded_appendChild run text).bind fun _ => recorded_appendChild x run
  · exact recorded_pure ()

theorem replace_recorded (hconvert : ∀ convert ∈ convert?, convert.Registers) (field : Field)
    (content : Content) : (field.replace convert? content).Recorded := by
  obtain ⟨shape, instruction, expression⟩ := field
  unfold replace
  cases shape with
  | simple x =>
    refine (ensureDisplay_recorded x).bind fun _ => ?_
    refine (replaceDisplay_recorded hconvert x content).bind fun _ => ?_
    exact recorded_edit fun d => Document.keeps_unwrap d x
  | complex first others after =>
    have hframe : ∀ xs : List NodeId, (edit (·.detachAll xs)).Recorded :=
      fun xs => recorded_edit fun d => Document.keeps_detachAll d xs
    cases after with
    | none => exact hframe _
    | some x => exact (replaceDisplay_recorded hconvert x content).bind fun _ => hframe _
  | image drawing =>
    cases content with
    | image picture => exact placeImage_recorded drawing picture
    | text s => exact recorded_pure ()
    | wordMl markup => exact recorded_pure ()
    | inlineWordMl markup replaceRun => exact recorded_pure ()
    | html source styles => exact recorded_pure ()

theorem keeps_remove (field : Field) (d : Document) : d.Keeps "r:embed" (field.remove d) := by
  unfold remove
  split
  · exact Document.keeps_detach d _
  · exact Document.keeps_detachAll d _
  · exact .refl _ d

end Field

/-! ## Blocks -/

/-- In every context without callables, a renderer makes recorded steps only. -/
def Renderer.Records (renderBelow : Renderer) : Prop :=
  ∀ ⦃context : Context⦄, context.Passive → ∀ x, (renderBelow context x).Recorded

namespace Block

theorem render_recorded {renderBelow : Renderer} {context : Context} (h : renderBelow.Records)
    (hpassive : context.Passive) (b : Block) : (b.render renderBelow context).Recorded := by
  have hcopies : ∀ nodes, (copyAll nodes).Recorded := by
    intro nodes
    refine (recorded_createElement _).bind fun container => ?_
    refine (recorded_forM _ fun x => ?_).bind fun _ => recorded_pure container
    exact (recorded_copy x).bind fun copied => recorded_appendChild container copied
  refine recorded_document fun d => (hcopies _).bind fun container => ?_
  exact (h hpassive container).bind fun _ => recorded_document fun e => recorded_pure _

theorem keeps_removeFrame (b : Block) (d : Document) : d.Keeps "r:embed" (b.removeFrame d) := by
  have hpair : d.Keeps "r:embed" ((d.detach b.first).detach b.last) :=
    (Document.keeps_detach d _).trans (Document.keeps_detach _ _)
  unfold removeFrame
  split
  · exact hpair
  · exact hpair
  · exact (b.start.keeps_remove d).trans (b.stop.keeps_remove _)

theorem replace_recorded (b : Block) (nodes : List NodeId) : (b.replace nodes).Recorded := by
  refine recorded_document fun d => (recorded_insertAllAfter b.first nodes).bind fun _ => ?_
  exact recorded_edit fun e => (Document.keeps_detachAll e _).trans (b.keeps_removeFrame _)

end Block

namespace Statement

variable {renderBelow : Renderer} {context : Context} {host : Host}

/-- Every statement is a row of recorded steps: a callable is never reached. -/
theorem evaluate_recorded (h : renderBelow.Records)
    (hconvert : ∀ convert ∈ host.convert?, convert.Registers) (hpassive : context.Passive)
    (s : Statement) : (evaluate host renderBelow context s).Recorded := by
  cases s with
  | insertion expression field =>
    change (evaluateInsertion host context expression field).Recorded
    refine (recorded_ofExcept _).bind fun value? => ?_
    split
    next => exact recorded_edit field.keeps_remove
    next => exact recorded_edit field.keeps_remove
    next _ value _ =>
      refine (recorded_ofExcept (Content.wrap value)).bind fun content => ?_
      exact field.replace_recorded hconvert content
  | block opening b =>
    obtain ⟨course, hcourse, hrun⟩ := exists_course hpassive opening
    change (evaluateBlock host renderBelow context opening b).Recorded
    rw [hrun]
    refine recorded_document fun d => ?_
    cases hcourse with
    | fail => exact recorded_throw _
    | drop => exact Block.replace_recorded _ []
    | keep => exact (Block.render_recorded h hpassive _).bind (Block.replace_recorded _)
    | @loop path name items hlist =>
      have hitems := (Expression.passive_of_evaluate? hpassive hlist).items
      refine (recorded_mapM items fun item hitem => ?_).bind fun rows => ?_
      · exact Block.render_recorded h (hpassive.bind name (hitems item hitem)) _
      · exact Block.replace_recorded _ rows.flatten

theorem evaluateFields_recorded (h : renderBelow.Records)
    (hconvert : ∀ convert ∈ host.convert?, convert.Registers) (hpassive : context.Passive)
    (fields : List Field) : (evaluateFields host renderBelow context fields).Recorded := by
  refine recorded_document fun d => (recorded_ofExcept _).bind fun statements => ?_
  exact recorded_forM statements (evaluate_recorded h hconvert hpassive)

end Statement

theorem Rendering.renderBelow_records {host : Host}
    (hconvert : ∀ convert ∈ host.convert?, convert.Registers) (depth : Nat) :
    Renderer.Records (renderBelow host depth) := by
  induction depth with
  | zero => exact fun _ _ _ => recorded_throw _
  | succ depth ih =>
    intro context hpassive x
    refine recorded_document fun d => ?_
    exact Statement.evaluateFields_recorded ih hconvert hpassive _

/-! ## Clean-up -/

namespace Cleanup

theorem keeps_addChild (d : Document) (parent : NodeId) (name : String) :
    d.Keeps "r:embed" (addChild d parent name).2 :=
  (Document.keeps_create d _).trans (Document.keeps_getD fun _ h => Document.keeps_appendChild h)

theorem keeps_fillCells (d : Document) : d.Keeps "r:embed" (fillCells d) := by
  unfold fillCells
  generalize d.findAll d.root "w:tc" = cells
  induction cells generalizing d with
  | nil => exact .refl _ d
  | cons cell cells ih =>
    refine Document.Keeps.trans ?_ (ih (fillCell d cell))
    unfold fillCell
    split
    · exact .refl _ d
    · exact keeps_addChild d cell "w:p"

theorem keeps_lastSection (d : Document) (body : NodeId) :
    d.Keeps "r:embed" (lastSection d body).2 := by
  unfold lastSection
  split
  · exact .refl _ d
  · exact keeps_addChild d body "w:sectPr"

theorem keeps_pageNumber (d : Document) (properties : NodeId) :
    d.Keeps "r:embed" (pageNumber d properties).2 := by
  unfold pageNumber
  split
  · exact .refl _ d
  · split
    · exact keeps_addChild d properties "w:pgNumType"
    · exact (Document.keeps_create d _).trans
        (Document.keeps_getD fun _ h => Document.keeps_insertBefore h)

theorem keeps_setStartPage (n : Nat) (d : Document) : d.Keeps "r:embed" (setStartPage n d) := by
  unfold setStartPage
  split
  · exact .refl _ d
  · exact ((keeps_lastSection d _).trans (keeps_pageNumber _ _)).trans
      (Document.keeps_setAttribute (by decide : "w:start" ≠ "r:embed") _ _ _)

end Cleanup

theorem Session.keeps_cleanUp (kind : PartKind) (startPage? : Option Nat) (d : Document) :
    d.Keeps "r:embed" (Session.cleanUp kind startPage? d) := by
  unfold Session.cleanUp
  split
  · exact .refl _ d
  · exact Cleanup.keeps_fillCells d
  · exact (Cleanup.keeps_fillCells d).trans (Cleanup.keeps_setStartPage _ _)

/-! ## What a row of steps keeps -/

namespace Resources

/-- Resources after some images have been placed: all that were there are left as they were, and the
images stand under new identifiers, with ascending numbers above all that could be read before. -/
structure Grown (before : Resources) (log : List Placed) (after : Resources) : Prop where
  kept : ∀ id resource, Keyed.find? id before = some resource →
    Keyed.find? id after = some resource
  new : ∀ id resource, Keyed.find? id before = none → Keyed.find? id after = some resource →
    ∃ placed ∈ log, id = placed.id ∧ resource = .image placed.picture
  found : ∀ placed ∈ log, Keyed.find? placed.id after = some (.image placed.picture)
  ascending : log.Pairwise (·.number < ·.number)
  above : ∀ placed ∈ log, before.highest < placed.number
  upTo : ∀ placed ∈ log, placed.number ≤ after.highest
  highest : before.highest ≤ after.highest
  fit : ∀ placed ∈ log, placed.number < Decimal.endOfWords

variable {before middle after : Resources} {picture : Picture} {id : String}

theorem Grown.refl (resources : Resources) : Grown resources [] resources where
  kept _ _ h := h
  new id resource hnone h := by
    rw [h] at hnone
    cases hnone
  found _ h := nomatch h
  ascending := .nil
  above _ h := nomatch h
  upTo _ h := nomatch h
  highest := Nat.le_refl _
  fit _ h := nomatch h

/-- One more image gets an identifier that is not in use, with a number above all others. -/
theorem Grown.addImage (h : Grown before log middle)
    (hadd : middle.addImage? picture = some (id, after)) (drawing : NodeId)
    (reference? : Option NodeId) :
    Grown before (log ++ [⟨drawing, reference?, middle.highest + 1, picture⟩]) after := by
  have hhighest := highest_addImage? hadd
  have hadded := added_of_addImage? hadd
  obtain ⟨hroom, rfl, -⟩ := addImage?_eq_some_iff.1 hadd
  have hkept : ∀ id resource, Keyed.find? id middle = some resource →
      Keyed.find? id after = some resource := by
    intro id resource hsome
    rw [hadded.kept id fun heq => ?_, hsome]
    rw [heq, Keyed.find?_eq_none_iff.2 hadded.fresh] at hsome
    cases hsome
  refine ⟨?_, ?_, ?_, ?_, ?_, ?_, ?_, ?_⟩
  · exact fun id resource hsome => hkept id resource (h.kept id resource hsome)
  · intro id resource hnone hsome
    by_cases heq : id = idOf (middle.highest + 1)
    · rw [heq, hadded.found] at hsome
      exact ⟨_, List.mem_append_right _ List.mem_cons_self, heq, (Option.some.inj hsome).symm⟩
    · rw [hadded.kept id heq] at hsome
      obtain ⟨placed, hplaced, hid⟩ := h.new id resource hnone hsome
      exact ⟨placed, List.mem_append_left _ hplaced, hid⟩
  · rw [List.forall_mem_append, List.forall_mem_singleton]
    exact ⟨fun placed hplaced => hkept _ _ (h.found placed hplaced), hadded.found⟩
  · rw [List.pairwise_append]
    refine ⟨h.ascending, List.pairwise_singleton _ _, fun placed hplaced => ?_⟩
    rw [List.forall_mem_singleton]
    exact Nat.lt_succ_of_le (h.upTo placed hplaced)
  · rw [List.forall_mem_append, List.forall_mem_singleton]
    exact ⟨h.above, Nat.lt_succ_of_le h.highest⟩
  · rw [List.forall_mem_append, List.forall_mem_singleton, hhighest]
    exact ⟨fun placed hplaced => Nat.le_succ_of_le (h.upTo placed hplaced), Nat.le_refl _⟩
  · rw [hhighest]
    exact Nat.le_succ_of_le h.highest
  · rw [List.forall_mem_append, List.forall_mem_singleton]
    exact ⟨h.fit, hroom⟩

/-- No two images have been placed under one identifier. -/
theorem Grown.nodup_ids (h : Grown before log after) : (log.map Placed.id).Nodup := by
  rw [List.Nodup, List.pairwise_map]
  refine h.ascending.imp fun {p q} hlt heq => ?_
  rw [idOf_injective heq] at hlt
  exact Nat.lt_irrefl _ hlt

end Resources

namespace Numbering

/-- A numbering after some definitions have been registered: the earlier ones come first, and the
numbers of the later ones ascend above all that were in use. -/
structure Grown (before : Numbering) (made : List Definition) (after : Numbering) : Prop where
  definitions : after.definitions = before.definitions ++ made
  ascending : made.Pairwise (·.number < ·.number)
  above : ∀ definition ∈ made, before.highest < definition.number
  upTo : ∀ definition ∈ made, definition.number ≤ after.highest
  highest : before.highest ≤ after.highest
  fit : ∀ definition ∈ made, definition.number < endOfNumbers

variable {before middle after : Numbering} {definition : Definition} {style : String}

theorem Grown.refl (numbering : Numbering) : Grown numbering [] numbering where
  definitions := (List.append_nil _).symm
  ascending := .nil
  above _ h := nomatch h
  upTo _ h := nomatch h
  highest := Nat.le_refl _
  fit _ h := nomatch h

theorem Grown.register (h : Grown before made middle)
    (hregister : middle.register? style = some (definition, after)) :
    Grown before (made ++ [definition]) after := by
  have hhighest := highest_register? hregister
  obtain ⟨hroom, rfl, hafter⟩ := register?_eq_some_iff.1 hregister
  refine ⟨?_, ?_, ?_, ?_, ?_, ?_⟩
  · rw [← hafter, ← List.append_assoc, ← h.definitions]
  · rw [List.pairwise_append]
    refine ⟨h.ascending, List.pairwise_singleton _ _, fun definition hmade => ?_⟩
    rw [List.forall_mem_singleton]
    exact Nat.lt_succ_of_le (h.upTo definition hmade)
  · rw [List.forall_mem_append, List.forall_mem_singleton]
    exact ⟨h.above, Nat.lt_succ_of_le h.highest⟩
  · rw [List.forall_mem_append, List.forall_mem_singleton, hhighest]
    exact ⟨fun definition hmade => Nat.le_succ_of_le (h.upTo definition hmade), Nat.le_refl _⟩
  · rw [hhighest]
    exact Nat.le_succ_of_le h.highest
  · rw [List.forall_mem_append, List.forall_mem_singleton]
    exact ⟨h.fit, hroom⟩

end Numbering

/-- The last image that has been placed in an image reference. -/
def lastPlaced? (log : List Placed) (b : NodeId) : Option Placed :=
  log.reverse.find? (·.reference? = some b)

/-- A document after some images have been placed: an image reference has the identifier of the image
that was placed in it last, and all nodes without one have what they had. -/
structure Linked (d : Document) (log : List Placed) (e : Document) : Prop where
  distinct : e.Distinct
  last : ∀ b placed, lastPlaced? log b = some placed →
    b ∈ e.ids ∧ e.attribute? b "r:embed" = some placed.id
  kept : ∀ b ∈ d.ids, lastPlaced? log b = none →
    b ∈ e.ids ∧ e.attribute? b "r:embed" = d.attribute? b "r:embed"

namespace Linked

variable {c d e : Document}

theorem refl (hd : d.Distinct) : Linked d [] d :=
  ⟨hd, fun _ _ => nofun, fun _ hb _ => ⟨hb, rfl⟩⟩

theorem trans_keeps (h : Linked c log d) (hkept : d.Keeps "r:embed" e) : Linked c log e := by
  obtain ⟨he, hsame⟩ := hkept h.distinct
  refine ⟨he, fun b placed hlast => ?_, fun b hb hnone => ?_⟩
  · obtain ⟨hin, hid⟩ := h.last b placed hlast
    exact ⟨(hsame b hin).1, (hsame b hin).2.trans hid⟩
  · obtain ⟨hin, hid⟩ := h.kept b hb hnone
    exact ⟨(hsame b hin).1, (hsame b hin).2.trans hid⟩

/-- The image that is placed now is the last one in its image reference, and in no other. -/
theorem place (h : Linked c log d) {placed : Placed} {size : ImageSize}
    (hreference : placed.reference? = d.find? placed.drawing "a:blip")
    (hplaces : Placement.Places d placed.drawing placed.id size e) :
    Linked c (log ++ [placed]) e := by
  have hlast : ∀ b, lastPlaced? (log ++ [placed]) b =
      if placed.reference? = some b then some placed else lastPlaced? log b := by
    intro b
    simp only [lastPlaced?, List.reverse_append, List.reverse_singleton, List.singleton_append,
      List.find?_cons]
    split <;> simp_all
  have hothers : ∀ b ∈ d.ids, placed.reference? ≠ some b →
      b ∈ e.ids ∧ e.attribute? b "r:embed" = d.attribute? b "r:embed" :=
    fun b hb hne => hplaces.keeps hb (hreference ▸ hne)
  refine ⟨hplaces.distinct, fun b last => ?_, fun b hb => ?_⟩
  · rw [hlast]
    split
    next heq =>
      rintro ⟨⟩
      have hid := hplaces.linked b (hreference ▸ heq)
      exact ⟨Document.mem_ids_of_attribute? hid, hid⟩
    next hne =>
      intro hbefore
      obtain ⟨hin, hid⟩ := h.last b last hbefore
      exact ⟨(hothers b hin hne).1, (hothers b hin hne).2.trans hid⟩
  · rw [hlast]
    split
    next => nofun
    next hne =>
      intro hbefore
      obtain ⟨hin, hid⟩ := h.kept b hb hbefore
      exact ⟨(hothers b hin hne).1, (hothers b hin hne).2.trans hid⟩

end Linked

namespace Trace

theorem resources_grown (h : Trace w log made w') : w.resources.Grown log w'.resources := by
  induction h with
  | refl => exact .refl _
  | edit _ _ ih => exact ih
  | register _ _ ih => exact ih
  | place _ hplace ih =>
    obtain ⟨size, id, resources, -, hadd, rfl⟩ := Field.exists_of_placeImage_ok hplace
    exact ih.addImage hadd _ _

theorem numbering_grown (h : Trace w log made w') : w.numbering.Grown made w'.numbering := by
  induction h with
  | refl => exact .refl _
  | edit _ _ ih => exact ih
  | register _ hregister ih => exact ih.register hregister
  | place _ hplace ih =>
    obtain ⟨size, id, resources, -, -, rfl⟩ := Field.exists_of_placeImage_ok hplace
    exact ih

theorem linked (h : Trace w log made w') (hd : w.document.Distinct) :
    Linked w.document log w'.document := by
  induction h with
  | refl => exact .refl hd
  | edit _ hkept ih => exact ih.trans_keeps hkept
  | register _ _ ih => exact ih
  | place _ hplace ih =>
    obtain ⟨size, id, resources, -, hadd, rfl⟩ := Field.exists_of_placeImage_ok hplace
    obtain ⟨-, rfl, -⟩ := Resources.addImage?_eq_some_iff.1 hadd
    exact ih.place rfl (Placement.places_apply ih.distinct _ _ size)

end Trace

/-! ## Main statement -/

/-- The state of a merge in a session. -/
def Session.workspace (s : Session) : Workspace := ⟨s.part.document, s.resources, s.numbering⟩

/-- The render of a part is a row of recorded steps, whether or not it fails. -/
theorem Session.render_recorded {host : Host} {context : Context}
    (hconvert : ∀ convert ∈ host.convert?, convert.Registers) (hpassive : context.Passive)
    (startPage? : Option Nat) (s : Session) : ∃ log made,
      Trace s.workspace log made (leftBy (Session.render host context startPage? s)).workspace := by
  have hstep : (do
      Rendering.renderFields host context (s.part.fields s.cache?).1
      Merge.edit (cleanUp s.part.kind startPage?) : Merge Unit).Recorded := by
    refine Recorded.bind ?_ fun _ => recorded_edit fun d => keeps_cleanUp _ _ d
    refine recorded_document fun d => ?_
    exact Statement.evaluateFields_recorded (Rendering.renderBelow_records hconvert _) hconvert
      hpassive _
  obtain ⟨log, made, htrace⟩ := hstep ⟨s.part.document, s.resources, s.numbering⟩
  refine ⟨log, made, ?_⟩
  unfold Session.render
  dsimp only
  split
  next w' hrun =>
    rw [hrun] at htrace
    exact htrace
  next e w' hrun =>
    rw [hrun] at htrace
    exact htrace

/-- Let a part be rendered with any resources and with a numbering for which some numbers are
reserved, in a context without callables and with a converter that only registers list definitions.
Whether or not this fails, it is a row of recorded steps. All resources that were there are left as
they were. The new ones are the images that have been placed, under identifiers whose numbers ascend
in the order of the placements and are above all that could be read from earlier identifiers, and each
image reference has the identifier of the image that was placed in it last. The definitions that were
there come first, and the new ones have ascending numbers above all reserved ones. -/
theorem Session.render_registries {host : Host} {context : Context} {startPage? : Option Nat}
    {s left : Session} {numbers : List Nat} (hd : s.part.document.Distinct)
    (hseeded : s.numbering.reserved = (Numbering.ofReserved numbers).reserved)
    (hconvert : ∀ convert ∈ host.convert?, convert.Registers) (hpassive : context.Passive)
    (hleft : leftBy (Session.render host context startPage? s) = left) :
    ∃ log made, Trace s.workspace log made left.workspace ∧
      s.resources.Grown log left.resources ∧ (log.map Placed.id).Nodup ∧
      Linked s.part.document log left.part.document ∧
      left.numbering.definitions = s.numbering.definitions ++ made ∧
      made.Pairwise (·.number < ·.number) ∧
      ∀ definition ∈ made, definition.number < Numbering.endOfNumbers ∧
        ∀ n ∈ numbers, n < definition.number := by
  obtain ⟨log, made, htrace⟩ := render_recorded hconvert hpassive startPage? s
  rw [hleft] at htrace
  have hgrown : s.resources.Grown log left.resources := htrace.resources_grown
  have hmade : s.numbering.Grown made left.numbering := htrace.numbering_grown
  refine ⟨log, made, htrace, hgrown, hgrown.nodup_ids, htrace.linked hd, hmade.definitions,
    hmade.ascending, fun definition hdefinition => ⟨hmade.fit definition hdefinition, ?_⟩⟩
  intro n hn
  have hreserved : n ≤ s.numbering.reserved := hseeded ▸ Numbering.le_reserved hn
  exact Nat.lt_of_le_of_lt (Nat.le_trans hreserved s.numbering.reserved_le_highest)
    (hmade.above definition hdefinition)

/-! ## A loop that places two images -/

/-- A loop around a drawing whose picture is named after the variable of the loop, and then a list. -/
def loopedDrawing : Document where
  rows := [.single 0 (.element ⟨"w:body", []⟩)
    (.single 1 (.element ⟨"w:p", []⟩) (.single 2 (.element ⟨"w:fldSimple",
      [⟨"w:instr", "MERGEFIELD a:each(x) \\* MERGEFORMAT"⟩]⟩) .nil) ++
    .single 3 (.element ⟨"w:drawing", []⟩)
      (.single 4 (.element ⟨"pic:cNvPr", [⟨"name", "=x"⟩]⟩) .nil ++
        .single 5 (.element ⟨"a:blip", [⟨"r:embed", "rId007"⟩]⟩) .nil) ++
    .single 6 (.element ⟨"w:p", []⟩) (.single 7 (.element ⟨"w:fldSimple",
      [⟨"w:instr", "MERGEFIELD a:endEach \\* MERGEFORMAT"⟩]⟩) .nil) ++
    .single 8 (.element ⟨"w:p", []⟩) (.single 9 (.element ⟨"w:fldSimple",
      [⟨"w:instr", "MERGEFIELD =list \\* MERGEFORMAT"⟩]⟩) .nil))]
  aside := []
  root := 0
  next := 10
  declaration := none

/-- A part with the drawing, and with an identifier that is written with leading zeros. -/
def drawingSession : Session where
  part := ⟨.headerFooter, loopedDrawing, none⟩
  resources := [("rId007", .relationship "image" "media/old.gif"), ("settings", .relationship "s" "t")]
  numbering := .ofReserved [3, 5]

/-- A host whose converter makes one list of whatever it is given. -/
def listHost : Host where
  convert? := some fun _ _ => (Registering.register "List" fun definition =>
    .done (.ok s!"<w:p><w:numId w:val=\"{definition.number}\"/></w:p>")).run

/-- A list of two images, and a list that is to be converted. -/
def twoPixels : Context := ⟨[("a", .list [.content (.image onePixel), .content (.image onePixel)]),
  ("list", .content (.html "<ol><li>one</li></ol>" none))]⟩

theorem twoPixels_passive : twoPixels.Passive := by
  intro entry hentry
  simp only [twoPixels, List.mem_cons, List.not_mem_nil, or_false] at hentry
  rcases hentry with rfl | rfl
  · refine .list fun item hitem => ?_
    simp only [List.mem_cons, List.not_mem_nil, or_false, or_self] at hitem
    exact hitem ▸ .content _
  · exact .content _

/-- What is left when the drawing has been rendered. -/
def drawingLeft : Session := leftBy (Session.render listHost twoPixels none drawingSession)

/-- The two turns of the loop place their images under `rId8` and `rId9`, and the list gets the number
after the reserved ones. -/
theorem drawingSession_registries : ∃ log,
    drawingSession.resources.Grown log drawingLeft.resources ∧ (log.map Placed.id).Nodup ∧
    Linked loopedDrawing log drawingLeft.part.document ∧
    drawingLeft.resources.map Prod.fst = ["rId007", "rId8", "rId9", "settings"] ∧
    (drawingLeft.part.document.findAll 0 "a:blip").map
      (drawingLeft.part.document.attribute? · "r:embed") = [some "rId8", some "rId9"] ∧
    drawingLeft.numbering.definitions = [⟨6, "List"⟩] := by
  have hd : drawingSession.part.document.Distinct := ⟨by decide, by decide⟩
  have hseeded : drawingSession.numbering.reserved = (Numbering.ofReserved [3, 5]).reserved := rfl
  have hconvert : ∀ convert ∈ listHost.convert?, convert.Registers := by
    rintro convert ⟨⟩
    exact fun _ _ => ⟨_, rfl⟩
  have hleft : leftBy (Session.render listHost twoPixels none drawingSession) = drawingLeft := rfl
  obtain ⟨log, made, -, hgrown, hnodup, hlinked, -⟩ :=
    Session.render_registries hd hseeded hconvert twoPixels_passive hleft
  exact ⟨log, hgrown, hnodup, hlinked, by decide +kernel, by decide +kernel, by decide +kernel⟩

end MailMerge
