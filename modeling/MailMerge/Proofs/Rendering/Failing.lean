import MailMerge.Proofs.Field.Placing
import MailMerge.Proofs.Field.Shown
import MailMerge.Proofs.Rendering.Undisturbed
import MailMerge.Proofs.Rendering.Whole
import MailMerge.Proofs.Xml.Appending

/-!
# Insertions that fail

Content is put into the document only after all that can fail has succeeded. So an insertion that
fails leaves the document and the resources as they were, with one exception: a simple field that
displays nothing has got an empty run by then, which stays (`Field.replace_fails`).
-/

namespace MailMerge

open Xml Xml.Forest

variable {w w' : Workspace} {d e : Document} {x y root : NodeId}

theorem Xml.Document.Distinct.mem_ids_of_ancestor? (hd : d.Distinct) {name : String}
    (h : d.ancestor? x name = some y) : y ∈ d.ids := by
  obtain ⟨⟨n, hnode, -⟩, -⟩ := hd.of_ancestor? h
  rw [← Document.isSome_node?_iff, hnode]
  rfl

namespace Merge

variable {α β : Type} {m : Merge α}

/-- A step that fails leaves the document and the resources as they were. -/
def FailsEarly (m : Merge α) (w : Workspace) : Prop :=
  ∀ error w', m w = .error error w' → w'.document = w.document ∧ w'.resources = w.resources

/-- A step does not fail. -/
def Succeeds (m : Merge α) (w : Workspace) : Prop := ∃ a w', m w = .ok a w'

theorem Succeeds.failsEarly (h : m.Succeeds w) : m.FailsEarly w := by
  obtain ⟨a, w₁, hrun⟩ := h
  intro error w' herror
  rw [hrun] at herror
  cases herror

theorem failsEarly_throw (error : MergeError) : (throw error : Merge α).FailsEarly w := by
  rintro error' w' ⟨⟩
  exact ⟨rfl, rfl⟩

theorem failsEarly_document {next : Document → Merge β} (h : (next w.document).FailsEarly w) :
    (document >>= next).FailsEarly w := h

/-- All failures are left to the first step when the second one always succeeds. -/
theorem FailsEarly.bind {next : α → Merge β} (h : m.FailsEarly w)
    (hnext : ∀ a w', m w = .ok a w' → (next a).Succeeds w') : (m >>= next).FailsEarly w := by
  cases hm : m w with
  | error e w₁ =>
    intro error w' hrun
    rw [bind_error hm] at hrun
    cases hrun
    exact h e w₁ hm
  | ok a w₁ =>
    obtain ⟨b, w₂, hok⟩ := hnext a w₁ hm
    exact Succeeds.failsEarly ⟨b, w₂, (bind_ok hm).trans hok⟩

/-- A step that only sees the numbering can come before one that fails early. -/
theorem failsEarly_onNumbering {step : EStateM MergeError Numbering α} {next : α → Merge β}
    (hnext : ∀ a numbering, (next a).FailsEarly { w with numbering }) :
    (onNumbering step >>= next).FailsEarly w := by
  intro error w' hrun
  cases hstep : step w.numbering with
  | ok a numbering =>
    have hfirst : onNumbering step w = .ok a { w with numbering } := by
      simp only [onNumbering, hstep]
    rw [bind_ok hfirst] at hrun
    exact hnext a numbering error w' hrun
  | error e numbering =>
    have hfirst : onNumbering step w = .error e { w with numbering } := by
      simp only [onNumbering, hstep]
    rw [bind_error hfirst] at hrun
    cases hrun
    exact ⟨rfl, rfl⟩

theorem insertMarkupAfter_failsEarly (hd : w.document.Distinct) (hx : x ∈ w.document.ids)
    (markup : String) : (insertMarkupAfter x markup).FailsEarly w := by
  unfold insertMarkupAfter
  refine failsEarly_document ?_
  split
  next error _ => exact failsEarly_throw _
  next nodes d hparse =>
    obtain ⟨hspares, hfree⟩ := hd.apart.parseFragment hparse
    have hout : ∀ y ∈ nodes, y ∈ d.ids ∧ x ∉ d.descendants y := fun y hy =>
      ⟨(hfree y hy).mem, fun hin =>
        (hspares.apart.free_of_mem_descendants (hfree y hy) hin).out hx⟩
    obtain ⟨w₁, hinsert, -⟩ := exists_insertAllAfter_ok (w := { w with document := d })
      hspares.apart.distinct (hspares.ids hx) hout
    exact Succeeds.failsEarly ⟨(), w₁, hinsert⟩

end Merge

open Merge

namespace Content

variable {display : NodeId}

/-- A text can always be inserted. -/
theorem insertText_succeeds (hd : w.document.Distinct) (hdisplay : display ∈ w.document.ids)
    (s : String) : (insertText display s).Succeeds w := by
  have hrun : (insertText display s).Returns w (fun _ => False) fun _ d =>
      d.Distinct ∧ display ∈ d.ids := by
    refine returns_forM ⟨hd, hdisplay⟩ fun cs _ w₁ ⟨hd₁, hdisplay₁⟩ => ?_
    obtain ⟨x, w₂, hpiece⟩ := exists_pieceNode_ok display cs w₁
    obtain ⟨hspares, hfree⟩ := (pieceNode_spares hd₁.apart hdisplay₁ cs).of_ok hpiece
    have hout : display ∉ w₂.document.descendants x := fun hin =>
      (hspares.apart.free_of_mem_descendants hfree hin).out hdisplay₁
    obtain ⟨e, hmove⟩ :=
      hspares.apart.distinct.exists_insertAfter hfree.mem (hspares.ids hdisplay₁) hout
    obtain ⟨s, t, hmoved⟩ := hspares.apart.distinct.movedAfter hmove
    exact returns_ok ((bind_ok hpiece).trans (move_ok hmove))
      ⟨hmoved.distinct hspares.apart.distinct, Document.mem_ids_of_site? hmoved.before⟩
  cases hm : insertText display s w with
  | ok a w₁ => exact ⟨a, w₁, hm⟩
  | error e w₁ => exact (hrun.of_error hm).elim

theorem replaceNode_failsEarly (hd : w.document.Distinct) (hx : x ∈ w.document.ids)
    (markup : String) :
    (do insertMarkupAfter x markup; edit (·.detach x) : Merge Unit).FailsEarly w :=
  (insertMarkupAfter_failsEarly hd hx markup).bind fun _ _ _ => ⟨(), _, rfl⟩

theorem insertBlock_failsEarly {paragraph? : Option NodeId} (hd : w.document.Distinct)
    (hparagraph : ∀ x ∈ paragraph?, x ∈ w.document.ids) (hdisplay : display ∈ w.document.ids)
    (markup : String) : (insertBlock paragraph? display markup).FailsEarly w := by
  cases paragraph? with
  | none => exact insertMarkupAfter_failsEarly hd hdisplay markup
  | some paragraph => exact replaceNode_failsEarly hd (hparagraph paragraph rfl) markup

theorem insert_failsEarly {paragraph? : Option NodeId} (convert? : Option Converter)
    (hd : w.document.Distinct) (hparagraph : ∀ x ∈ paragraph?, x ∈ w.document.ids)
    (hdisplay : display ∈ w.document.ids) (content : Content) :
    (content.insert convert? paragraph? display).FailsEarly w := by
  cases content with
  | text s => exact (insertText_succeeds hd hdisplay s).failsEarly
  | wordMl markup => exact insertBlock_failsEarly hd hparagraph hdisplay markup
  | inlineWordMl markup replaceRun =>
    cases replaceRun with
    | false => exact insertMarkupAfter_failsEarly hd hdisplay markup
    | true =>
      refine failsEarly_document (replaceNode_failsEarly hd ?_ markup)
      cases hrun : w.document.ancestor? display "w:r" with
      | none => exact hdisplay
      | some run => exact hd.mem_ids_of_ancestor? hrun
  | html source styles =>
    cases convert? with
    | none => exact failsEarly_throw _
    | some convert =>
      exact failsEarly_onNumbering fun markup numbering =>
        insertBlock_failsEarly (w := { w with numbering }) hd hparagraph hdisplay markup
  | image picture => exact Succeeds.failsEarly ⟨(), w, rfl⟩

end Content

/-! ## Fields -/

namespace Field

variable {field : Field} {convert? : Option Converter} {content : Content} {error : MergeError}

theorem replaceDisplay_failsEarly (convert? : Option Converter) (hd : w.document.Distinct)
    (x : NodeId) (content : Content) : (replaceDisplay convert? x content).FailsEarly w := by
  unfold replaceDisplay
  refine failsEarly_document ?_
  split
  next => exact Succeeds.failsEarly ⟨(), w, rfl⟩
  next display hdisplay =>
    have hmem := Document.mem_ids_of_mem_descendants (mem_descendants_of_display? hdisplay)
    have hparagraph : ∀ y ∈ w.document.ancestor? x "w:p", y ∈ w.document.ids :=
      fun y hy => hd.mem_ids_of_ancestor? hy
    exact (Content.insert_failsEarly convert? hd hparagraph hmem content).bind
      fun _ _ _ => ⟨(), _, rfl⟩

theorem replaceSimple_failsEarly (convert? : Option Converter) (hd : w.document.Distinct)
    (x : NodeId) (content : Content) :
    (do replaceDisplay convert? x content; edit (·.unwrap x) : Merge Unit).FailsEarly w :=
  (replaceDisplay_failsEarly convert? hd x content).bind fun _ _ _ => ⟨(), _, rfl⟩

theorem placeImage_failsEarly (drawing : NodeId) (picture : Picture) :
    (placeImage drawing picture).FailsEarly w := by
  intro error w' hrun
  rw [placeImage_error hrun]
  exact ⟨rfl, rfl⟩

/-- A run that displays an empty text. -/
def emptyRun (run text : NodeId) : Forest :=
  single run (.element ⟨"w:r", []⟩) (single text (.element ⟨"w:t", []⟩) .nil)

/-- A node has got an empty run at the end of its children, and nothing else has changed. -/
structure GainsRun (d : Document) (x : NodeId) (e : Document) : Prop where
  grows : d.Grows e
  tree : ∃ run text, ∀ z ∈ d.ids,
    e.tree z = (d.tree z).refill x (d.below x ++ emptyRun run text)

theorem ensureDisplay_shown {display : NodeId} (h : display? w.document x = some display) :
    ensureDisplay x w = .ok () w := by
  unfold ensureDisplay
  rw [Merge.document_bind, h]
  rfl

theorem ensureDisplay_gainsRun (hd : w.document.Distinct) (hx : x ∈ w.document.ids)
    (hnone : display? w.document x = none) :
    ∃ e, ensureDisplay x w = .ok () { w with document := e } ∧ e.Distinct ∧
      GainsRun w.document x e := by
  obtain ⟨row, hrow, hin⟩ := Document.exists_row hx
  obtain ⟨s, hs⟩ := Forest.exists_site? hin
  obtain ⟨before, after, hrows⟩ := List.append_of_mem hrow
  have hself := refill_self hs (hd.nodup_row hrow)
  have hbelow : w.document.below x = s.children := by
    rw [Document.below_eq_site?, hd.site?_of_row hrow hin, hs]
    rfl
  rw [← hbelow] at hself
  have hholds : w.document.Holds row x (w.document.below x) (before ++ after) := by
    refine ⟨hd, hin, ?_⟩
    rw [hself, hrows]
    exact List.perm_middle
  obtain ⟨run, text, e, hensure, -, hfilled⟩ := ensureDisplay_holds hholds hnone
  have hspares : (ensureDisplay x).Spares [] w fun _ _ => True :=
    ensureDisplay_spares ⟨hd, w.document.allRows, by rw [List.append_nil]⟩ ⟨hx, by simp⟩
  exact ⟨e, hensure, hfilled.distinct, (hspares.of_ok hensure).1.grows, run, text,
    fun z hz => hholds.tree_append hself hfilled hz⟩

theorem length_markup_emptyRun (run text : NodeId) : 0 < (emptyRun run text).markup.length := by
  have hmarkup : (emptyRun run text).markup = "<w:r><w:t/></w:r>" := rfl
  rw [hmarkup]
  decide

/-- The empty run is written just when its node stands in the tree of the document. -/
theorem GainsRun.markup_eq_iff {tag : Element} (h : GainsRun d x e) (hd : d.WellFormed)
    (hleaves : (d.tree d.root).Leaves) (hnode : d.node? x = some (.element tag)) :
    e.markup = d.markup ↔ x ∉ d.descendants d.root := by
  obtain ⟨run, text, htree⟩ := h.tree
  have hmarkup : e.markup = d.markup ↔ e.nodeMarkup d.root = d.nodeMarkup d.root := by
    rw [Document.markup, Document.markup, h.grows.root, h.grows.declaration]
    cases d.declaration <;> simp
  rw [hmarkup, Document.nodeMarkup, Document.nodeMarkup, htree d.root hd.rooted]
  constructor
  · intro heq hx
    obtain ⟨s, hs⟩ := Forest.exists_site? hx
    have hshown := hd.shows_tree d.root
    have hself := hshown.tree_eq_site hs
    have hbelow : d.below x = s.children := by
      rw [Document.below, hself]
      rfl
    have helement : s.node = .element tag := by
      rw [Document.node?, hself] at hnode
      exact Option.some.inj hnode
    have hlonger := length_markup_refill_lt hshown.nodup hleaves hs helement
      (length_markup_emptyRun run text)
    rw [← hbelow, heq] at hlonger
    exact Nat.lt_irrefl _ hlonger
  · intro hx
    rw [refill_of_notMem hx]

/-- A field that displays something is left alone, and so are pictures and their places. -/
theorem replace_failsEarly (convert? : Option Converter) (hd : w.document.Distinct)
    (hshown : ∀ x, field.shape = .simple x → display? w.document x ≠ none) (content : Content) :
    (field.replace convert? content).FailsEarly w := by
  unfold replace
  split
  next x hshape =>
    obtain ⟨display, hdisplay⟩ := Option.ne_none_iff_exists'.1 (hshown x hshape)
    intro error w' h
    rw [bind_ok (ensureDisplay_shown hdisplay)] at h
    exact replaceSimple_failsEarly convert? hd x content error w' h
  next first others after hshape =>
    cases after with
    | none => exact Succeeds.failsEarly ⟨(), _, rfl⟩
    | some x =>
      exact (replaceDisplay_failsEarly convert? hd x content).bind fun _ _ _ => ⟨(), _, rfl⟩
  next drawing hshape =>
    split
    next picture => exact placeImage_failsEarly drawing picture
    next => exact Succeeds.failsEarly ⟨(), w, rfl⟩

/-- An insertion that fails leaves the resources as they were, and the document too, unless it is
one into a simple field that displays nothing. Such a field has got an empty run, so that the
written document is another one just when the field belongs to it. -/
theorem replace_fails (hd : w.document.WellFormed) (hfield : field ∈ discover w.document y)
    (h : field.replace convert? content w = .error error w') :
    w'.resources = w.resources ∧
      (w'.document = w.document ∧
          (∀ x, field.shape = .simple x → display? w.document x ≠ none) ∨
        ∃ x, field.shape = .simple x ∧ display? w.document x = none ∧
          GainsRun w.document x w'.document) ∧
      ((w.document.tree w.document.root).Leaves →
        (w'.document.markup = w.document.markup ↔
          ¬∃ x ∈ w.document.descendants w.document.root, field.shape = .simple x ∧
            display? w.document x = none)) := by
  by_cases hshown : ∀ x, field.shape = .simple x → display? w.document x ≠ none
  · obtain ⟨hdocument, hresources⟩ := replace_failsEarly convert? hd.toDistinct hshown content _ _ h
    refine ⟨hresources, .inl ⟨hdocument, hshown⟩, fun _ => ?_⟩
    rw [hdocument]
    refine iff_of_true rfl ?_
    rintro ⟨x, -, hshape, hnone⟩
    exact hshown x hshape hnone
  · rw [Classical.not_forall] at hshown
    obtain ⟨x, hx⟩ := hshown
    rw [Classical.not_imp, Classical.not_not] at hx
    obtain ⟨hshape, hnone⟩ := hx
    obtain ⟨x', tag, hshape', hin, hnode⟩ :=
      exists_simple hd.toDistinct hfield (by rw [kind, hshape]; rfl)
    obtain rfl : x = x' := FieldShape.simple.inj (hshape.symm.trans hshape')
    -- The run is put into the field before the content is looked at, and a failure does not take it
    -- out.
    obtain ⟨e, hensure, he, hgains⟩ :=
      ensureDisplay_gainsRun hd.toDistinct (Document.mem_ids_of_mem_descendants hin) hnone
    unfold replace at h
    rw [hshape] at h
    dsimp only at h
    rw [bind_ok hensure] at h
    obtain ⟨hdocument, hresources⟩ :=
      replaceSimple_failsEarly (w := { w with document := e }) convert? he x content _ _ h
    have hgains : GainsRun w.document x w'.document := hdocument ▸ hgains
    refine ⟨hresources, .inr ⟨x, hshape, hnone, hgains⟩, fun hleaves => ?_⟩
    rw [hgains.markup_eq_iff hd hleaves hnode]
    refine not_congr ⟨fun hx => ⟨x, hx, hshape, hnone⟩, ?_⟩
    rintro ⟨z, hz, hshape', -⟩
    rwa [FieldShape.simple.inj (hshape.symm.trans hshape')]

/-- A paragraph with a simple field that displays nothing. -/
def emptyField : Document where
  rows := [.ofElement 0 "w:p" (.single 1
    (.element ⟨"w:fldSimple", [⟨"w:instr", "MERGEFIELD =x \\* MERGEFORMAT"⟩]⟩) .nil)]
  aside := []
  root := 0
  next := 2
  declaration := none

/-- The field there. -/
def emptyFieldField : Field := ⟨.simple 1, "MERGEFIELD =x \\* MERGEFORMAT", "=x"⟩

/-- Markup that ends too early is not inserted, but the empty run stays. -/
theorem emptyField_fails : ∃ field ∈ discover emptyField 0, ∃ error w',
    field.replace none (.wordMl "<w:p>") ⟨emptyField, {}, {}⟩ = .error error w' ∧
      w'.resources = {} ∧ w'.document.markup ≠ emptyField.markup := by
  have hd : emptyField.WellFormed := ⟨⟨by decide, by decide⟩, by decide⟩
  have hfield : emptyFieldField ∈ discover emptyField 0 := by decide +kernel
  have hleaves : (emptyField.tree emptyField.root).Leaves := by decide
  have hin : 1 ∈ emptyField.descendants emptyField.root := by decide
  have hnone : display? emptyField 1 = none := by decide +kernel
  have hfails : ((emptyFieldField.replace none (.wordMl "<w:p>")).run'
      ⟨emptyField, {}, {}⟩).isNone = true := by decide +kernel
  cases hrun : emptyFieldField.replace none (.wordMl "<w:p>") ⟨emptyField, {}, {}⟩ with
  | ok a w' =>
    delta EStateM.run' at hfails
    rw [EStateM.run, hrun] at hfails
    cases hfails
  | error error w' =>
    obtain ⟨hresources, -, hmarkup⟩ :=
      replace_fails (w := ⟨emptyField, {}, {}⟩) hd hfield hrun
    refine ⟨_, hfield, error, w', hrun, hresources, fun heq => ?_⟩
    exact (hmarkup hleaves).1 heq ⟨1, hin, rfl, hnone⟩

end Field

end MailMerge
