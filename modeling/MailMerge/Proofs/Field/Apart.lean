import MailMerge.Proofs.Block.Span
import MailMerge.Proofs.Merge
import MailMerge.Proofs.Xml.Place

/-!
# Fields replaced apart

A field that stands in none of some given rows is replaced without these rows being touched, whatever
the content: what is put next to the field is new, and what is looked up from the field stands in
rows of its own.
-/

namespace MailMerge

open Xml

variable {α β : Type} {rest : List Forest} {w : Workspace} {x y : NodeId} {d e : Document}

namespace Merge

/-- Whether or not a step fails, it leaves given rows as they were. -/
def Spares (m : Merge α) (rest : List Forest) (w : Workspace) (answers : α → Document → Prop) :
    Prop := m.Leaves w (fun d e => d.Spares rest e) answers

variable {m : Merge α} {next : α → Merge β}
variable {answers : α → Document → Prop} {answers' : β → Document → Prop}

theorem Spares.bind (h : m.Spares rest w answers)
    (hnext : ∀ a w', w.document.Spares rest w'.document → answers a w'.document →
      (next a).Spares rest w' answers') : (m >>= next).Spares rest w answers' :=
  Leaves.bind (fun h h' => h.trans h') h hnext

theorem spares_document {next : Document → Merge β}
    (h : (next w.document).Spares rest w answers') :
    (document >>= next).Spares rest w answers' := leaves_document h

theorem spares_pure (h : w.document.Apart rest) {a : α} (ha : answers a w.document) :
    (pure a : Merge α).Spares rest w answers := leaves_ok rfl (.refl h) ha

theorem spares_throw (h : w.document.Apart rest) (e : MergeError) :
    (throw e : Merge α).Spares rest w answers := leaves_error rfl (.refl h)

theorem spares_edit {f : Document → Document} (h : w.document.Spares rest (f w.document)) :
    (edit f).Spares rest w fun _ _ => True := leaves_ok rfl h trivial

theorem spares_createElement (h : w.document.Apart rest) (name : String) :
    (create (·.createElement name)).Spares rest w fun x d => d.Free rest x :=
  leaves_ok rfl (h.create _) (h.create_free _)

theorem spares_copy (h : w.document.Apart rest) (hx : x ∈ w.document.ids) :
    (create (·.copy x)).Spares rest w fun x d => d.Free rest x :=
  leaves_ok rfl (h.copy x) (h.copy_free hx)

theorem spares_move {f : Document → Option Document} (h : w.document.Apart rest)
    (hf : ∀ d, f w.document = some d → w.document.Spares rest d) :
    (move f).Spares rest w fun _ _ => True := by
  cases hmove : f w.document with
  | none => exact leaves_error (by rw [move, hmove]) (.refl h)
  | some d => exact leaves_ok (move_ok hmove) (hf d hmove) trivial

theorem spares_forM {step : α → Merge Unit} {xs : List α} (h : w.document.Apart rest)
    (hstep : ∀ x ∈ xs, ∀ w', w.document.Spares rest w'.document →
      (step x).Spares rest w' fun _ _ => True) :
    (xs.forM step).Spares rest w fun _ _ => True := by
  induction xs generalizing w with
  | nil => exact spares_pure h trivial
  | cons x xs ih =>
    refine (hstep x List.mem_cons_self w (.refl h)).bind fun _ w' hspares _ => ?_
    exact ih hspares.apart fun y hy w'' hspares' =>
      hstep y (List.mem_cons_of_mem _ hy) w'' (hspares.trans hspares')

theorem spares_mapM {step : α → Merge β} {xs : List α} (h : w.document.Apart rest)
    (hlater : ∀ {b d e}, answers' b d → d.Spares rest e → answers' b e)
    (hstep : ∀ x ∈ xs, ∀ w', w.document.Spares rest w'.document →
      (step x).Spares rest w' answers') :
    (xs.mapM step).Spares rest w fun bs d => ∀ b ∈ bs, answers' b d := by
  induction xs generalizing w with
  | nil => exact spares_pure h (by simp)
  | cons x xs ih =>
    rw [List.mapM_cons]
    refine (hstep x List.mem_cons_self w (.refl h)).bind fun b w₁ h₁ hb => ?_
    have hmore := ih h₁.apart fun y hy w' hspares =>
      hstep y (List.mem_cons_of_mem _ hy) w' (h₁.trans hspares)
    refine hmore.bind fun bs w₂ h₂ hbs => spares_pure h₂.apart ?_
    intro b' hb'
    rcases List.mem_cons.1 hb' with rfl | hb'
    · exact hlater hb h₂
    · exact hbs b' hb'

theorem spares_ofExcept (h : w.document.Apart rest) (result : Except MergeError α) :
    (ofExcept result : Merge α).Spares rest w fun _ _ => True := by
  cases result with
  | ok a => exact leaves_ok (ofExcept_ok a w) (.refl h) trivial
  | error e => exact leaves_error (ofExcept_error e w) (.refl h)

theorem spares_addImage (h : w.document.Apart rest) (picture : Picture) :
    (addImage picture).Spares rest w fun _ _ => True := by
  cases hadd : w.resources.addImage? picture with
  | some added => exact leaves_ok (addImage_ok hadd) (.refl h) trivial
  | none => exact leaves_error (addImage_error hadd) (.refl h)

/-- A step that only sees the numbering leaves the whole document as it was. -/
theorem spares_onNumbering (h : w.document.Apart rest) (step : EStateM MergeError Numbering α) :
    (onNumbering step).Spares rest w fun _ _ => True := by
  cases hstep : step w.numbering with
  | ok a numbering =>
    have hrun : onNumbering step w = .ok a { w with numbering } := by
      simp only [onNumbering, hstep]
    exact leaves_ok hrun (.refl h) trivial
  | error e numbering =>
    have hrun : onNumbering step w = .error e { w with numbering } := by
      simp only [onNumbering, hstep]
    exact leaves_error hrun (.refl h)

/-- Nodes that are put after another one. -/
theorem spares_insertAllAfter {anchor : NodeId} {nodes : List NodeId} (h : w.document.Apart rest)
    (hanchor : w.document.Free rest anchor) (hnodes : ∀ x ∈ nodes, w.document.Free rest x) :
    (insertAllAfter anchor nodes).Spares rest w fun _ _ => True := by
  refine spares_forM h fun x hx w' hspares => spares_move hspares.apart fun d hmove => ?_
  have hx := hnodes x (List.mem_reverse.1 hx)
  exact hspares.apart.insertAfter (hx.later hspares) (hanchor.later hspares) hmove

/-- New nodes made from markup are put after another one. -/
theorem spares_insertMarkupAfter {anchor : NodeId} (h : w.document.Apart rest)
    (hanchor : w.document.Free rest anchor) (markup : String) :
    (insertMarkupAfter anchor markup).Spares rest w fun _ _ => True := by
  unfold insertMarkupAfter
  refine spares_document ?_
  split
  next e _ => exact spares_throw h _
  next nodes d hparse =>
    obtain ⟨hspares, hnodes⟩ := h.parseFragment hparse
    have hadopted : (edit fun _ => d).Spares rest w fun _ e => ∀ x ∈ nodes, e.Free rest x :=
      leaves_ok rfl hspares hnodes
    refine hadopted.bind fun _ w₁ h₁ hnodes => ?_
    exact spares_insertAllAfter h₁.apart (hanchor.later h₁) hnodes

end Merge

open Merge

/-! ## Insertions -/

namespace Content

variable {display : NodeId}

theorem displayCopy_spares (h : w.document.Apart rest) (hdisplay : display ∈ w.document.ids)
    (cs : List Char) :
    (displayCopy display cs).Spares rest w fun x d => d.Free rest x := by
  unfold displayCopy
  refine (spares_copy h hdisplay).bind fun x w₁ h₁ hx => ?_
  have htext := h₁.apart.setText hx (String.ofList cs)
  refine (spares_edit htext).bind fun _ w₂ h₂ _ => ?_
  have hx₂ := hx.later h₂
  split
  · refine (spares_edit (h₂.apart.update hx₂ _)).bind fun _ w₃ h₃ _ => ?_
    exact spares_pure h₃.apart (hx₂.later h₃)
  · exact spares_pure h₂.apart hx₂

theorem pieceNode_spares (h : w.document.Apart rest) (hdisplay : display ∈ w.document.ids)
    (cs : List Char) :
    (pieceNode display cs).Spares rest w fun x d => d.Free rest x := by
  unfold pieceNode
  split
  · exact spares_createElement h _
  · exact displayCopy_spares h hdisplay cs

theorem insertText_spares (h : w.document.Apart rest) (hdisplay : w.document.Free rest display)
    (s : String) : (insertText display s).Spares rest w fun _ _ => True := by
  refine spares_forM h fun cs _ w₁ h₁ => ?_
  refine (pieceNode_spares h₁.apart (hdisplay.later h₁).mem cs).bind fun x w₂ h₂ hx => ?_
  refine spares_move h₂.apart fun d hmove => ?_
  exact h₂.apart.insertAfter hx ((hdisplay.later h₁).later h₂) hmove

/-- Markup is put in the place of a node. -/
theorem replaceNode_spares {anchor : NodeId} (h : w.document.Apart rest)
    (hanchor : w.document.Free rest anchor) (markup : String) :
    (do insertMarkupAfter anchor markup; edit (·.detach anchor) : Merge Unit).Spares rest w
      fun _ _ => True := by
  refine (spares_insertMarkupAfter h hanchor markup).bind fun _ w₁ h₁ _ => ?_
  exact spares_edit (h₁.apart.detach (hanchor.later h₁))

theorem insertBlock_spares {paragraph? : Option NodeId} (h : w.document.Apart rest)
    (hparagraph : ∀ x ∈ paragraph?, w.document.Free rest x)
    (hdisplay : w.document.Free rest display) (markup : String) :
    (insertBlock paragraph? display markup).Spares rest w fun _ _ => True := by
  cases paragraph? with
  | none => exact spares_insertMarkupAfter h hdisplay markup
  | some paragraph => exact replaceNode_spares h (hparagraph paragraph rfl) markup

theorem replaceRun_spares (h : w.document.Apart rest) (hdisplay : w.document.Free rest display)
    (markup : String) : (replaceRun display markup).Spares rest w fun _ _ => True := by
  unfold replaceRun
  refine spares_document (replaceNode_spares h ?_ markup)
  cases hrun : w.document.ancestor? display "w:r" with
  | none => exact hdisplay
  | some run => exact h.free_of_ancestor? hdisplay hrun

/-- Content is inserted apart, whatever the converter answers. -/
theorem insert_spares {paragraph? : Option NodeId} (convert? : Option Converter)
    (h : w.document.Apart rest) (hparagraph : ∀ x ∈ paragraph?, w.document.Free rest x)
    (hdisplay : w.document.Free rest display) (content : Content) :
    (content.insert convert? paragraph? display).Spares rest w fun _ _ => True := by
  cases content with
  | text s => exact insertText_spares h hdisplay s
  | wordMl markup => exact insertBlock_spares h hparagraph hdisplay markup
  | inlineWordMl markup replaceRun =>
    cases replaceRun with
    | true => exact replaceRun_spares h hdisplay markup
    | false => exact spares_insertMarkupAfter h hdisplay markup
  | html source styles =>
    cases convert? with
    | none => exact spares_throw h _
    | some convert =>
      refine (spares_onNumbering h (convert source styles)).bind fun markup w₁ h₁ _ => ?_
      exact insertBlock_spares h₁.apart (fun x hx => (hparagraph x hx).later h₁)
        (hdisplay.later h₁) markup
  | image picture => exact spares_pure h trivial

end Content

/-! ## Images -/

namespace Placement

variable {drawing blip : NodeId}

theorem writeExtent_spares (h : d.Apart rest) (hx : d.Free rest x) (extent : Extent) :
    d.Spares rest (writeExtent extent d x) := by
  have hwidth := h.update hx (·.mapElement (·.setAttribute "cx" (toString extent.cx)))
  exact hwidth.trans (hwidth.apart.update (hx.later hwidth) _)

theorem writeSide_spares (h : d.Apart rest) (hx : d.Free rest x) (side : String × Int) :
    d.Spares rest (writeSide d x side) := by
  unfold writeSide
  split
  · exact h.update hx _
  · exact h.update hx _

theorem rectangle_spares (h : d.Apart rest) (hblip : d.Free rest blip) :
    d.Spares rest (rectangle d blip).2 ∧ (rectangle d blip).2.Free rest (rectangle d blip).1 := by
  unfold rectangle
  split
  next x hx =>
    have hnext := (Option.filter_eq_some_iff.1 hx).1
    exact ⟨.refl h, h.free_of_mem_followingElements hblip (List.mem_of_head? hnext)⟩
  next =>
    have hcreated := h.create (.element ⟨"a:srcRect", []⟩)
    have hfree := h.create_free (.element ⟨"a:srcRect", []⟩)
    dsimp only
    cases hmove : (d.createElement "a:srcRect").2.insertAfter blip
        (d.createElement "a:srcRect").1 with
    | none => exact ⟨hcreated, hfree⟩
    | some e =>
      have hmoved := hcreated.apart.insertAfter hfree (hblip.later hcreated) hmove
      exact ⟨hcreated.trans hmoved, hfree.later hmoved⟩

theorem writeCrop_spares (h : d.Apart rest) (hdrawing : d.Free rest drawing) (crop : Crop) :
    d.Spares rest (writeCrop crop d drawing) := by
  unfold writeCrop
  split
  next => exact .refl h
  next blip hblip =>
    obtain ⟨hspares, hfree⟩ := rectangle_spares h (h.free_of_find? hdrawing hblip)
    generalize rectangle d blip = found at hspares hfree ⊢
    obtain ⟨x, e⟩ := found
    -- Each of the four sides is written to what the sides before it have left.
    suffices hall : ∀ (sides : List (String × Int)) (e : Document), d.Spares rest e →
        e.Free rest x → d.Spares rest (sides.foldl (writeSide · x) e) from hall _ e hspares hfree
    intro sides
    induction sides with
    | nil => exact fun e hspares _ => hspares
    | cons side sides ih =>
      intro e hspares hfree
      have hside := writeSide_spares hspares.apart hfree side
      exact ih _ (hspares.trans hside) (hfree.later hside)

theorem apply_spares (h : d.Apart rest) (hfirst : d.Free rest drawing) (size : ImageSize) :
    d.Spares rest (apply d drawing size) := by
  unfold apply
  split
  next => exact .refl h
  next x hx =>
    split
    next => exact .refl h
    next frame _ =>
      dsimp only
      generalize sizing d drawing = use
      have hresized := writeExtent_spares h (h.free_of_find? hfirst hx) (extent frame size use)
      generalize writeExtent (extent frame size use) d x = resized at hresized ⊢
      have hdrawing := hfirst.later hresized
      rcases hext : (resized.find? drawing "a:xfrm").bind (resized.find? · "a:ext") with _ | ext
      · split
        next => exact hresized.trans (writeCrop_spares hresized.apart hdrawing _)
        next => exact hresized
      · obtain ⟨transform, htransform, hext⟩ := Option.bind_eq_some_iff.1 hext
        have hfree := hresized.apart.free_of_find? hdrawing htransform
        have hext := hresized.apart.free_of_find? hfree hext
        have htransformed := hresized.trans
          (writeExtent_spares hresized.apart hext (extent frame size use))
        split
        next => exact htransformed.trans (writeCrop_spares htransformed.apart
          (hfirst.later htransformed) _)
        next => exact htransformed

end Placement

/-! ## Fields -/

namespace Field

variable {field : Field} {convert? : Option Converter}

/-- All nodes by which a field is found, replaced and removed. -/
def handles (field : Field) : List NodeId :=
  match field.shape with
  | .simple x | .image x => [x]
  | .complex first others after => first :: (others ++ after.toList)

theorem nodes_subset_handles (field : Field) : field.nodes ⊆ field.handles := by
  obtain ⟨shape, instruction, expression⟩ := field
  cases shape with
  | simple x => exact List.Subset.refl _
  | image x => exact List.Subset.refl _
  | complex first others after => exact List.cons_subset_cons _ (List.subset_append_left _ _)

/-- The nodes below which a field displays a text. -/
def displays (field : Field) : List NodeId :=
  match field.shape with
  | .simple x => [x]
  | .complex _ _ after => after.toList
  | .image _ => []

theorem displays_subset_handles (field : Field) : field.displays ⊆ field.handles := by
  obtain ⟨shape, instruction, expression⟩ := field
  cases shape with
  | simple x => exact List.Subset.refl _
  | complex first others after =>
    exact List.Subset.trans (List.subset_append_right others _) (List.subset_cons_self first _)
  | image x => exact List.nil_subset _

theorem start_mem_nodes (field : Field) : field.start ∈ field.nodes := by
  obtain ⟨shape, instruction, expression⟩ := field
  cases shape <;> exact List.mem_cons_self

theorem stop_mem_nodes (field : Field) : field.stop ∈ field.nodes := by
  rw [stop, List.getLastD_eq_getLast?]
  cases hlast : field.nodes.getLast? with
  | none => exact absurd field.start_mem_nodes (by simp [List.getLast?_eq_none_iff.1 hlast])
  | some x => exact List.mem_of_getLast? hlast

theorem runsAfter_subset (d : Document) (first : NodeId) :
    runsAfter d first ⊆ d.followingElements first := by
  intro y hy
  unfold runsAfter at hy
  split at hy
  · cases hy
  · rcases List.mem_append.1 hy with hy | hy
    · exact (List.takeWhile_sublist _).subset hy
    · exact List.mem_of_mem_drop (List.mem_of_mem_take hy)

/-- The node after the separator of a row of runs stands next to one of them. -/
theorem free_of_ofRuns {first : NodeId} {others : List NodeId} (h : d.Apart rest)
    (hnodes : ∀ y ∈ first :: others, d.Free rest y) (hy : y ∈ (ofRuns d first others).handles) :
    d.Free rest y := by
  rcases List.mem_cons.1 hy with rfl | hy
  · exact hnodes _ List.mem_cons_self
  rcases List.mem_append.1 hy with hy | hy
  · exact hnodes y (List.mem_cons_of_mem _ hy)
  · obtain ⟨run, hrun, hnext⟩ := Option.bind_eq_some_iff.1 (Option.mem_toList.1 hy)
    exact h.free_of_mem_followingElements (hnodes run (List.mem_of_find?_eq_some hrun))
      (List.mem_of_head? hnext)

/-- A field over nodes that stand apart stands apart. -/
theorem free_of_ofNodes? {kind : FieldKind} {nodes : List NodeId} (h : d.Apart rest)
    (hnodes : ∀ y ∈ nodes, d.Free rest y) (hfield : ofNodes? d kind nodes = some field)
    (hy : y ∈ field.handles) : d.Free rest y := by
  cases nodes with
  | nil => cases hfield
  | cons first others =>
    cases kind with
    | complex =>
      cases hfield
      exact free_of_ofRuns h hnodes hy
    | simple | image =>
      cases hfield
      rw [List.mem_singleton.1 hy]
      exact hnodes first List.mem_cons_self

/-- The fields found below a node that stands apart stand apart themselves. -/
theorem free_of_mem_discover (h : d.Apart rest) (hx : d.Free rest x)
    (hfield : field ∈ discover d x) (hy : y ∈ field.handles) : d.Free rest y := by
  obtain ⟨⟨z, node⟩, hz, hfound⟩ := List.mem_filterMap.1 hfield
  have hfree : d.Free rest z := h.free_of_mem_descendants hx (List.mem_map_of_mem hz)
  have hof := (Option.filter_eq_some_iff.1 hfound).1
  unfold ofNode? at hof
  split at hof
  · cases hof
    rw [List.mem_singleton.1 hy]
    exact hfree
  · split at hof
    · obtain ⟨first, hfirst, rfl⟩ := Option.map_eq_some_iff.1 hof
      have hfree := h.free_of_parent? hfree hfirst
      have hnodes : ∀ y ∈ first :: runsAfter d first, d.Free rest y := by
        intro y hy
        rcases List.mem_cons.1 hy with rfl | hy
        · exact hfree
        · exact h.free_of_mem_followingElements hfree (runsAfter_subset d first hy)
      exact free_of_ofRuns h hnodes hy
    · split at hof
      · cases hof
        rw [List.mem_singleton.1 hy]
        exact hfree
      · cases hof

/-- The nodes of a field that is found below a node that stands alone are below that node. -/
theorem mem_descendants_of_mem_discover (h : d.Apex x rest) (hfield : field ∈ discover d x)
    (hy : y ∈ field.handles) : y ∈ d.descendants x := by
  have hself := h.free_iff.2 (Document.mem_descendants_self h.mem_ids)
  exact h.free_iff.1 (free_of_mem_discover h.apart hself hfield hy)

/-- The elements that hold a displayed text. -/
def isDisplay (node : Node) : Bool := node.isNamed "w:t" || node.isNamed "w:instrText"

theorem node?_of_display? (hd : d.Distinct) (h : display? d x = some display) :
    ∃ node, d.node? display = some node ∧ isDisplay node = true := by
  have hfind : ∀ name, name = "w:t" ∨ name = "w:instrText" → d.find? x name = some display →
      ∃ node, d.node? display = some node ∧ isDisplay node = true := by
    intro name hname hfound
    obtain ⟨⟨_, node⟩, hnode, rfl⟩ := Option.map_eq_some_iff.1 hfound
    refine ⟨node, (hd.shows_below x).node? (List.mem_of_find?_eq_some hnode), ?_⟩
    have hnamed := List.find?_some hnode
    rcases hname with rfl | rfl
    · exact Bool.or_eq_true_iff.2 (.inl hnamed)
    · exact Bool.or_eq_true_iff.2 (.inr hnamed)
  rcases Option.or_eq_some_iff.1 h with hfound | ⟨-, hfound⟩
  · exact hfind _ (.inl rfl) hfound
  · exact hfind _ (.inr rfl) hfound

/-- The display of a node stands below it. -/
theorem mem_below_of_display? {d : Document} (h : display? d x = some display) :
    display ∈ (d.below x).ids := by
  rcases Option.or_eq_some_iff.1 h with hfound | ⟨-, hfound⟩
  · exact Document.mem_below_of_find? hfound
  · exact Document.mem_below_of_find? hfound

theorem mem_descendants_of_display? {d : Document} (h : display? d x = some display) :
    display ∈ d.descendants x :=
  Document.mem_descendants_of_mem_below (mem_below_of_display? h)

theorem free_of_display? {display : NodeId} (h : d.Apart rest) (hx : d.Free rest x)
    (hdisplay : display? d x = some display) : d.Free rest display := by
  rcases Option.or_eq_some_iff.1 hdisplay with hfound | ⟨-, hfound⟩
  · exact h.free_of_find? hx hfound
  · exact h.free_of_find? hx hfound

theorem replaceDisplay_spares (h : w.document.Apart rest) (hx : w.document.Free rest x)
    (content : Content) :
    (replaceDisplay convert? x content).Spares rest w fun _ _ => True := by
  unfold replaceDisplay
  refine spares_document ?_
  split
  next => exact spares_pure h trivial
  next display hdisplay =>
    have hfree := free_of_display? h hx hdisplay
    have hparagraph : ∀ p ∈ w.document.ancestor? x "w:p", w.document.Free rest p :=
      fun _ hp => h.free_of_ancestor? hx hp
    refine (content.insert_spares convert? h hparagraph hfree).bind fun _ w₁ h₁ _ => ?_
    exact spares_edit (h₁.apart.detach (hfree.later h₁))

theorem placeImage_spares {drawing : NodeId} (h : w.document.Apart rest)
    (hdrawing : w.document.Free rest drawing) (picture : Picture) :
    (placeImage drawing picture).Spares rest w fun _ _ => True := by
  unfold placeImage
  refine (spares_ofExcept h picture.size).bind fun size w₁ h₁ _ => ?_
  refine (spares_addImage h₁.apart picture).bind fun id w₂ h₂ _ => spares_edit ?_
  have hdrawing := (hdrawing.later h₁).later h₂
  cases hblip : w₂.document.find? drawing "a:blip" with
  | none => exact Placement.apply_spares h₂.apart hdrawing size
  | some blip =>
    have hlinked := h₂.apart.update (h₂.apart.free_of_find? hdrawing hblip)
      (·.mapElement (·.setAttribute "r:embed" id))
    exact hlinked.trans (Placement.apply_spares hlinked.apart (hdrawing.later hlinked) size)

theorem ensureDisplay_spares (h : w.document.Apart rest) (hx : w.document.Free rest x) :
    (ensureDisplay x).Spares rest w fun _ _ => True := by
  unfold ensureDisplay
  refine spares_document ?_
  split
  · refine (spares_createElement h "w:r").bind fun run w₁ h₁ hrun => ?_
    refine (spares_createElement h₁.apart "w:t").bind fun text w₂ h₂ htext => ?_
    have hrun := hrun.later h₂
    refine (spares_move h₂.apart fun d hmove => ?_).bind fun _ w₃ h₃ _ => ?_
    · exact h₂.apart.appendChild htext hrun hmove
    · refine spares_move h₃.apart fun d hmove => ?_
      exact h₃.apart.appendChild (hrun.later h₃) (((hx.later h₁).later h₂).later h₃) hmove
  · exact spares_pure h trivial

theorem removed_subset_handles (field : Field) : field.removed ⊆ field.handles :=
  List.Subset.trans field.removed_subset field.nodes_subset_handles

theorem remove_spares (h : d.Apart rest) (hfield : ∀ x ∈ field.handles, d.Free rest x) :
    d.Spares rest (field.remove d) := by
  rw [remove_eq]
  exact h.detachAll fun x hx => hfield x (field.removed_subset_handles hx)

theorem replace_spares (h : w.document.Apart rest)
    (hfield : ∀ x ∈ field.handles, w.document.Free rest x) (content : Content) :
    (field.replace convert? content).Spares rest w fun _ _ => True := by
  obtain ⟨shape, instruction, expression⟩ := field
  unfold replace
  cases shape with
  | simple x =>
    have hx := hfield x List.mem_cons_self
    refine (ensureDisplay_spares h hx).bind fun _ w₁ h₁ _ => ?_
    refine (replaceDisplay_spares h₁.apart (hx.later h₁) content).bind fun _ w₂ h₂ _ => ?_
    exact spares_edit (h₂.apart.unwrap ((hx.later h₁).later h₂))
  | complex first others after =>
    have hnodes : ∀ w', w.document.Spares rest w'.document →
        (edit (·.detachAll ((first :: others).filter fun x => some x ≠ after))).Spares rest w'
          fun _ _ => True := by
      intro w' hspares
      refine spares_edit (hspares.apart.detachAll fun x hx => ?_)
      refine (hfield x ?_).later hspares
      exact List.cons_subset_cons _ (List.subset_append_left _ _) (List.mem_of_mem_filter hx)
    cases after with
    | none => exact hnodes w (.refl h)
    | some x =>
      have hx := hfield x (by simp [handles])
      exact (replaceDisplay_spares h hx content).bind fun _ w₁ h₁ _ => hnodes w₁ h₁
  | image drawing =>
    have hdrawing := hfield drawing List.mem_cons_self
    cases content with
    | image picture => exact placeImage_spares h hdrawing picture
    | text s => exact spares_pure h trivial
    | wordMl markup => exact spares_pure h trivial
    | inlineWordMl markup replaceRun => exact spares_pure h trivial
    | html source styles => exact spares_pure h trivial

end Field

end MailMerge
