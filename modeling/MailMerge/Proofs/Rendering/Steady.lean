import MailMerge.Proofs.Rendering.Whole
import MailMerge.Proofs.Xml.Steady

/-!
# Insertions of any content

Whatever content an insertion puts into a document, markup with fields among it, comes after the
node that displays the field, after its run or after its paragraph. So it comes to follow no node
that the field has beside it, and old nodes come below no others than before
(`Statement.evaluateInsertion_steady`).
-/

namespace MailMerge

open Xml Xml.Forest Xml.Document

variable {d : Document} {w : Workspace} {p : NodeId → Prop} {fails : MergeError → Prop}

/-- A step that fails in any way, or leaves a document in which the given nodes of an earlier one
are followed as they were or by nothing. -/
def Merge.Steadies {α : Type} (m : Merge α) (p : NodeId → Prop) (d : Document) (w : Workspace) :
    Prop := m.Returns w (fun _ => True) fun _ e => Steady p d e

namespace Merge

variable {α β : Type} {m : Merge α} {next : α → Merge β} {x anchor : NodeId}

theorem Steadies.bind (h : m.Steadies p d w)
    (hnext : ∀ a w', Steady p d w'.document → (next a).Steadies p d w') :
    (m >>= next).Steadies p d w :=
  Returns.bind h fun a w' hsteady _ => hnext a w' hsteady

/-- What is left of the rows by a step that succeeds. -/
theorem Spares.returns {rest : List Forest} {answers : α → Document → Prop}
    (h : m.Spares rest w answers) :
    m.Returns w (fun _ => True) fun a e => w.document.Spares rest e ∧ answers a e := by
  cases hrun : m w with
  | error e w' => exact returns_error hrun trivial
  | ok a w' => exact returns_ok hrun (Leaves.of_ok h hrun)

theorem steadies_throw (e : MergeError) : (throw e : Merge α).Steadies p d w :=
  returns_error rfl trivial

theorem steadies_pure (h : Steady p d w.document) (a : α) : (pure a : Merge α).Steadies p d w :=
  returns_ok rfl h

theorem steadies_edit {f : Document → Document} (h : Steady p d (f w.document)) :
    (edit f).Steadies p d w := returns_ok rfl h

section Placing

variable (h : Steady p d w.document) (hp : ∀ f, p f → f ∈ d.ids)

include h hp

/-- A step that spares all rows takes in new nodes. -/
theorem Spares.steadies {answers : α → Document → Prop}
    (hm : m.Spares w.document.allRows w answers) :
    m.Returns w (fun _ => True) fun a e => Steady p d e ∧ answers a e :=
  hm.returns.imp fun _ _ hleft => ⟨h.spares hp hleft.1, hleft.2⟩

theorem insertAllAfter_steadies (hoff : d.Off p anchor) (hne : ∀ f, p f → f ≠ anchor)
    {nodes : List NodeId} (hnodes : ∀ x ∈ nodes, x ∉ d.ids) :
    (insertAllAfter anchor nodes).Steadies p d w := by
  refine returns_forM h fun x hx w' hsteady => returns_move trivial fun e hmove => ?_
  exact hsteady.insertAfter hp hmove (hnodes x (List.mem_reverse.1 hx)) hoff hne

theorem insertMarkupAfter_steadies (hoff : d.Off p anchor) (hne : ∀ f, p f → f ≠ anchor)
    (markup : String) : (insertMarkupAfter anchor markup).Steadies p d w := by
  unfold insertMarkupAfter
  refine returns_document ?_
  split
  next e _ => exact steadies_throw _
  next nodes e hparse =>
    obtain ⟨hspares, hnodes⟩ := h.distinct.apart.parseFragment hparse
    refine (steadies_edit (h.spares hp hspares)).bind fun _ w₁ h₁ => ?_
    exact insertAllAfter_steadies h₁ hp hoff hne fun x hx hin =>
      (hnodes x hx).out (h.ids hin)

end Placing

end Merge

open Merge

/-! ## Content -/

namespace Content

variable {display : NodeId}

section Insertion

variable (h : Steady p d w.document) (hp : ∀ f, p f → f ∈ d.ids)

include h hp

theorem insertText_steadies (hdisplay : display ∈ w.document.ids) (hoff : d.Off p display)
    (hne : ∀ f, p f → f ≠ display) (s : String) : (insertText display s).Steadies p d w := by
  have hkept : (insertText display s).Returns w (fun _ => True) fun _ e =>
      Steady p d e ∧ display ∈ e.ids := by
    refine returns_forM ⟨h, hdisplay⟩ fun cs _ w₁ h₁ => ?_
    have hpiece := (pieceNode_spares h₁.1.distinct.apart h₁.2 cs).steadies h₁.1 hp
    have hleaves := pieceNode_spares h₁.1.distinct.apart h₁.2 cs
    refine (hpiece.and_leaves hleaves).bind fun x w₂ h₂ _ => ?_
    obtain ⟨⟨hsteady, hfree⟩, hspares, -⟩ := h₂
    refine returns_move trivial fun e hmove => ⟨?_, ?_⟩
    · exact hsteady.insertAfter hp hmove (fun hin => hfree.out (h₁.1.ids hin)) hoff hne
    · obtain ⟨s, t, hmoved⟩ := hsteady.distinct.movedAfter hmove
      rw [ids_eq_map_nodes, (hmoved.perm.map Prod.fst).mem_iff, ← ids_eq_map_nodes]
      exact hspares.ids h₁.2
  exact hkept.imp fun _ _ hkept => hkept.1

/-- Markup takes the place of a node. -/
theorem replaceNode_steadies {anchor : NodeId} (hoff : d.Off p anchor) (markup : String) :
    (do
      insertMarkupAfter anchor markup
      Merge.edit (·.detach anchor)).Steadies p d w := by
  have hoff' : d.Off (fun f => p f ∧ f ≠ anchor) anchor := fun hin f hf => hoff hin f hf.1
  have hinserted := insertMarkupAfter_steadies (h.imp fun _ hf => hf.1) (fun f hf => hp f hf.1)
    hoff' (fun _ hf => hf.2) markup
  exact Returns.bind hinserted fun _ w₁ h₁ _ => steadies_edit (h₁.detach hoff')

/-- Content comes after the displaying node, its run or its paragraph. -/
theorem insert_steadies (convert? : Option Converter) {paragraph? : Option NodeId}
    (hdisplay : display ∈ w.document.ids) (hoff : d.Off p display)
    (hne : ∀ f, p f → f ≠ display) (hparagraph : ∀ x ∈ paragraph?, d.Off p x)
    (hrun : ∀ x ∈ w.document.ancestor? display "w:r", d.Off p x) (content : Content) :
    (content.insert convert? paragraph? display).Steadies p d w := by
  have hblock : ∀ markup w', Steady p d w'.document →
      (insertBlock paragraph? display markup).Steadies p d w' := by
    intro markup w' h'
    cases paragraph? with
    | none => exact insertMarkupAfter_steadies h' hp hoff hne markup
    | some paragraph => exact replaceNode_steadies h' hp (hparagraph paragraph rfl) markup
  cases content with
  | text s => exact insertText_steadies h hp hdisplay hoff hne s
  | wordMl markup => exact hblock markup w h
  | inlineWordMl markup replacesRun =>
    cases replacesRun with
    | false => exact insertMarkupAfter_steadies h hp hoff hne markup
    | true =>
      refine returns_document (replaceNode_steadies h hp ?_ markup)
      cases hancestor : w.document.ancestor? display "w:r" with
      | none => exact hoff
      | some run => exact hrun run hancestor
  | html source styles =>
    cases convert? with
    | none => exact steadies_throw _
    | some convert =>
      have hconverted := (spares_onNumbering h.distinct.apart (convert source styles)).steadies h hp
      exact Returns.bind hconverted fun markup w₁ h₁ _ => hblock markup w₁ h₁.1
  | image picture => exact steadies_pure h ()

end Insertion

end Content

/-! ## Fields -/

namespace Field

variable {field : Field} {convert? : Option Converter} {x : NodeId}

/-- What stands within a node or around it follows no node that this one is elsewhere from. -/
theorem off_of_within {e : Document} (hd : d.Distinct) (h : Steady p d e)
    (hp : ∀ f, p f → d.Elsewhere x f) (hx : x ∈ d.ids) {t : NodeId}
    (ht : t ∈ e.descendants x ∨ x ∈ e.descendants t) : d.Off p t := by
  intro hin f hf hfollow
  rcases ht with ht | ht
  · exact ((hp f hf).below hd (h.below t hin x ht)).after hfollow
  · exact (hp f hf).after (hd.mem_following_of_below (h.below x hx t ht) hfollow)

theorem replaceDisplay_steadies (hd : d.Distinct) (h : Steady p d w.document)
    (hp : ∀ f, p f → d.Elsewhere x f) (hx : x ∈ d.ids) (content : Content) :
    (replaceDisplay convert? x content).Steadies p d w := by
  unfold replaceDisplay
  refine returns_document ?_
  split
  next => exact steadies_pure h ()
  next display hdisplay =>
    have hmem : ∀ f, p f → f ∈ d.ids := fun f hf => (hp f hf).mem
    have hbelow := mem_descendants_of_display? hdisplay
    have hin := mem_ids_of_mem_descendants hbelow
    have hoff : d.Off p display := off_of_within hd h hp hx (.inl hbelow)
    have hne : ∀ f, p f → f ≠ display := fun f hf heq =>
      (hp f hf).out (h.below f (hp f hf).mem x (heq ▸ hbelow))
    have hparagraph : ∀ y ∈ w.document.ancestor? x "w:p", d.Off p y := fun y hy =>
      off_of_within hd h hp hx (.inr (h.distinct.of_ancestor? hy).2)
    have hrun : ∀ y ∈ w.document.ancestor? display "w:r", d.Off p y := fun y hy =>
      off_of_within hd h hp hx
        (h.distinct.mem_descendants_total (h.distinct.of_ancestor? hy).2 hbelow)
    refine (content.insert_steadies h hmem convert? hin hoff hne hparagraph hrun).bind
      fun _ w₁ h₁ => ?_
    exact steadies_edit (Steady.detach (h₁.imp fun _ hf => hf.1) fun hin f hf => hoff hin f hf.1)

theorem ensureDisplay_steadies (hd : w.document.Distinct) (hx : x ∈ w.document.ids)
    (hp : ∀ f, p f → w.document.Elsewhere x f) :
    (ensureDisplay x).Steadies p w.document w := by
  have hold := List.Subset.refl w.document.ids
  have hedits := (ensureDisplay_ends (x := x) (fun _ => True) hd hold).leaves
  refine ((ensureDisplay_returns trivial hd hx hp).and_leaves hedits).imp fun _ e h => ?_
  obtain ⟨hstill, -, hedits⟩ := h
  refine Steady.of_bounds (.refl hd) (hedits.bounds hd hold) (fun z hz _ hn => hn.1 hz) ?_
  exact fun f hf => .inr (hstill.following f hf)

/-! ### Images -/

end Field

namespace Placement

variable {e : Document} {drawing blip x : NodeId}

/-- What follows a node below another one stands below that one too. -/
theorem mem_descendants_of_next (hd : e.Distinct) (hblip : blip ∈ (e.below drawing).ids)
    (hnext : e.nextElement? blip = some x) : x ∈ e.descendants drawing := by
  have hfollow := mem_topIds_of_mem_followingElements (List.mem_of_head? hnext)
  obtain ⟨s, hs, htop⟩ := mem_topIds_following_iff.1 hfollow
  rw [below_eq_site?] at hblip
  cases ht : e.site? drawing with
  | none =>
    rw [ht] at hblip
    cases hblip
  | some t =>
    rw [ht] at hblip
    rw [hd.site?_of_mem_children ht hblip] at hs
    have hbelow := Forest.mem_of_mem_rest hs (mem_ids_of_mem_topIds htop)
    exact mem_descendants_iff.2 ⟨t, ht, .inr hbelow⟩

section Writing

variable (h : Steady p d e)

include h

theorem writeExtent_steady (hoff : d.Off p x) (extent : Extent) :
    Steady p d (writeExtent extent e x) := (h.update hoff _).update hoff _

theorem writeSide_steady (hoff : d.Off p x) (side : String × Int) :
    Steady p d (writeSide e x side) := by
  unfold writeSide
  split
  · exact h.update hoff _
  · exact h.update hoff _

theorem writeSides_steady (hoff : d.Off p x) (sides : List (String × Int)) :
    Steady p d (sides.foldl (writeSide · x) e) := by
  induction sides generalizing e with
  | nil => exact h
  | cons side sides ih => exact ih (writeSide_steady h hoff side)

end Writing

section Drawing

variable (hd : d.Distinct) (h : Steady p d e) (hp : ∀ f, p f → d.Elsewhere drawing f)
  (hdrawing : drawing ∈ d.ids)

include hd h hp hdrawing

theorem off_of_mem_below (hx : x ∈ (e.below drawing).ids) : d.Off p x :=
  Field.off_of_within hd h hp hdrawing (.inl (mem_descendants_of_mem_below hx))

theorem rectangle_steady (hblip : blip ∈ (e.below drawing).ids) :
    Steady p d (rectangle e blip).2 ∧ d.Off p (rectangle e blip).1 := by
  unfold rectangle
  split
  next x hx =>
    have hnext := (Option.filter_eq_some_iff.1 hx).1
    exact ⟨h, Field.off_of_within hd h hp hdrawing
      (.inl (mem_descendants_of_next h.distinct hblip hnext))⟩
  next =>
    have hmem : ∀ f, p f → f ∈ d.ids := fun f hf => (hp f hf).mem
    have hapart := h.distinct.apart
    have hcreated := h.spares hmem (hapart.create (.element ⟨"a:srcRect", []⟩))
    have hnew : (e.createElement "a:srcRect").1 ∉ d.ids := fun hin =>
      (hapart.create_free (.element ⟨"a:srcRect", []⟩)).out (h.ids hin)
    have hne : ∀ f, p f → f ≠ blip := fun f hf heq => by
      have hbelow := mem_descendants_of_mem_below hblip
      exact (hp f hf).out (h.below f (hmem f hf) drawing (heq ▸ hbelow))
    refine ⟨?_, fun hin => absurd hin hnew⟩
    dsimp only
    cases hmove : (e.createElement "a:srcRect").2.insertAfter blip
        (e.createElement "a:srcRect").1 with
    | none => exact hcreated
    | some e' =>
      exact hcreated.insertAfter hmem hmove hnew (off_of_mem_below hd h hp hdrawing hblip) hne

theorem writeCrop_steady (crop : Crop) : Steady p d (writeCrop crop e drawing) := by
  unfold writeCrop
  split
  next => exact h
  next blip hblip =>
    obtain ⟨hsteady, hoff⟩ := rectangle_steady hd h hp hdrawing (mem_below_of_find? hblip)
    exact writeSides_steady hsteady hoff _

theorem apply_steady (size : ImageSize) : Steady p d (apply e drawing size) := by
  unfold apply
  split
  next => exact h
  next x hx =>
    split
    next => exact h
    next frame _ =>
      dsimp only
      generalize sizing e drawing = use
      have hoff := off_of_mem_below hd h hp hdrawing (mem_below_of_find? hx)
      have hresized := writeExtent_steady h hoff (extent frame size use)
      generalize writeExtent (extent frame size use) e x = resized at hresized ⊢
      rcases hext : (resized.find? drawing "a:xfrm").bind (resized.find? · "a:ext") with _ | ext
      · split
        next => exact writeCrop_steady hd hresized hp hdrawing _
        next => exact hresized
      · obtain ⟨transform, htransform, hext⟩ := Option.bind_eq_some_iff.1 hext
        have hin := mem_descendants_of_mem_below (mem_below_of_find? htransform)
        have hbelow := mem_descendants_of_mem_below (mem_below_of_find? hext)
        have hoff := Field.off_of_within hd hresized hp hdrawing
          (.inl (hresized.distinct.mem_descendants_trans hbelow hin))
        have htransformed := writeExtent_steady hresized hoff (extent frame size use)
        split
        next => exact writeCrop_steady hd htransformed hp hdrawing _
        next => exact htransformed

end Drawing

end Placement

namespace Field

variable {field : Field} {convert? : Option Converter} {x drawing : NodeId}

theorem placeImage_steadies (hd : d.Distinct) (h : Steady p d w.document)
    (hp : ∀ f, p f → d.Elsewhere drawing f) (hdrawing : drawing ∈ d.ids) (picture : Picture) :
    (placeImage drawing picture).Steadies p d w := by
  have hmem : ∀ f, p f → f ∈ d.ids := fun f hf => (hp f hf).mem
  unfold placeImage
  refine Returns.bind ((spares_ofExcept h.distinct.apart picture.size).steadies h hmem)
    fun size w₁ h₁ _ => ?_
  refine Returns.bind ((spares_addImage h₁.1.distinct.apart picture).steadies h₁.1 hmem)
    fun id w₂ h₂ _ => steadies_edit ?_
  cases hblip : w₂.document.find? drawing "a:blip" with
  | none => exact Placement.apply_steady hd h₂.1 hp hdrawing size
  | some blip =>
    have hoff := Placement.off_of_mem_below hd h₂.1 hp hdrawing
      (Document.mem_below_of_find? hblip)
    exact Placement.apply_steady hd (h₂.1.update hoff _) hp hdrawing size

/-! ### Whole fields -/

/-- The nodes at or below which a field takes content. -/
def takers (field : Field) : List NodeId :=
  match field.shape with
  | .simple x | .image x => [x]
  | .complex _ _ after => after.toList

theorem displays_subset_takers (field : Field) : field.displays ⊆ field.takers := by
  obtain ⟨shape, instruction, expression⟩ := field
  cases shape with
  | simple x => exact List.Subset.refl _
  | complex first others after => exact List.Subset.refl _
  | image x => exact List.nil_subset _

theorem takers_subset_handles (field : Field) : field.takers ⊆ field.handles := by
  obtain ⟨shape, instruction, expression⟩ := field
  cases shape with
  | simple x => exact List.Subset.refl _
  | complex first others after =>
    exact List.Subset.trans (List.subset_append_right others _) (List.subset_cons_self first _)
  | image x => exact List.Subset.refl _

section Replacement

variable (hd : w.document.Distinct) (hfield : ∀ y ∈ field.handles, y ∈ w.document.ids)
  (hp : ∀ f, p f → field.Beside w.document f)
  (hout : ∀ y ∈ field.takers, ∀ f, p f → f ∉ w.document.descendants y)

include hfield hp hout

/-- A field that is no complex one is elsewhere than the nodes that have it beside them. -/
theorem elsewhere_of_single (hnodes : field.nodes = [x]) (htakers : field.takers = [x])
    (hx : x ∈ field.handles) : ∀ f, p f → w.document.Elsewhere x f := by
  intro f hf
  have hbelow := hout x (by simp [htakers]) f hf
  refine ⟨(hp f hf).mem, hbelow, fun hin => ?_⟩
  have heq : f = x := by simpa [hnodes] using (hp f hf).taken x hx hin
  exact hbelow (heq.symm ▸ mem_descendants_self (hfield x hx))

include hd

theorem replace_simple_steadies (hshape : field.shape = .simple x) (content : Content) :
    (field.replace convert? content).Steadies p w.document w := by
  have hx : x ∈ field.handles := by simp [handles, hshape]
  have helse := elsewhere_of_single hfield hp hout (x := x) (by simp [nodes, hshape])
    (by simp [takers, hshape]) hx
  unfold replace
  rw [hshape]
  refine (ensureDisplay_steadies hd (hfield x hx) helse).bind fun _ w₁ h₁ => ?_
  refine (replaceDisplay_steadies hd h₁ helse (hfield x hx) content).bind fun _ w₂ h₂ => ?_
  exact steadies_edit (h₂.unwrap (hfield x hx) helse)

theorem replace_complex_steadies {first : NodeId} {others : List NodeId} {after : Option NodeId}
    (hshape : field.shape = .complex first others after) (content : Content) :
    (field.replace convert? content).Steadies p w.document w := by
  unfold replace
  rw [hshape]
  -- What is displayed follows a node only if that node is taken out with the field.
  let runs := (first :: others).filter fun x => some x ≠ after
  have hmem : ∀ f, p f → f ∈ field.nodes → f ∈ runs := by
    intro f hf hin
    refine List.mem_filter.2 ⟨by simpa [nodes, hshape] using hin, ?_⟩
    refine decide_eq_true fun heq => hout f (by simp [takers, hshape, ← heq]) f hf ?_
    exact mem_descendants_self (hp f hf).mem
  have htaken : ∀ w', Steady (fun f => p f ∧ f ∉ runs) w.document w'.document →
      (Merge.edit (·.detachAll runs)).Steadies p w.document w' := by
    refine fun w' h => steadies_edit (h.detachAll fun x hx hin f hf hfollow => ?_)
    have hnode : x ∈ field.nodes := by simpa [nodes, hshape] using List.mem_of_mem_filter hx
    exact hf.2 (hmem f hf.1 ((hp f hf.1).taken x (field.nodes_subset_handles hnode) hfollow))
  cases after with
  | none => exact htaken w (.refl hd)
  | some x =>
    have hx : x ∈ field.handles := by simp [handles, hshape]
    have helse : ∀ f, p f ∧ f ∉ runs → w.document.Elsewhere x f := fun f hf =>
      ⟨(hp f hf.1).mem, hout x (by simp [takers, hshape]) f hf.1, fun hin =>
        hf.2 (hmem f hf.1 ((hp f hf.1).taken x hx hin))⟩
    exact Returns.bind (replaceDisplay_steadies hd (.refl hd) helse (hfield x hx) content)
      fun _ w₁ h₁ _ => htaken w₁ h₁

theorem replace_image_steadies {drawing : NodeId} (hshape : field.shape = .image drawing)
    (content : Content) : (field.replace convert? content).Steadies p w.document w := by
  have hdrawing : drawing ∈ field.handles := by simp [handles, hshape]
  have helse := elsewhere_of_single hfield hp hout (x := drawing) (by simp [nodes, hshape])
    (by simp [takers, hshape]) hdrawing
  have hrefl : Steady p w.document w.document := .refl hd
  unfold replace
  rw [hshape]
  cases content with
  | image picture => exact placeImage_steadies hd hrefl helse (hfield drawing hdrawing) picture
  | text s => exact steadies_pure hrefl ()
  | wordMl markup => exact steadies_pure hrefl ()
  | inlineWordMl markup replacesRun => exact steadies_pure hrefl ()
  | html source styles => exact steadies_pure hrefl ()

theorem replace_steadies (content : Content) :
    (field.replace convert? content).Steadies p w.document w := by
  cases hshape : field.shape with
  | simple x => exact replace_simple_steadies hd hfield hp hout hshape content
  | complex first others after =>
    exact replace_complex_steadies hd hfield hp hout hshape content
  | image drawing => exact replace_image_steadies hd hfield hp hout hshape content

end Replacement

theorem remove_steady {d : Document} (hd : d.Distinct) (hp : ∀ f, p f → field.Beside d f) :
    Steady p d (field.remove d) := by
  rw [remove_eq]
  refine Steady.detachAll (.refl hd) fun x hx _ f hf hin => hf.2 ?_
  rw [removed_eq_nodes hx]
  exact (hp f hf.1).taken x (field.removed_subset_handles hx) hin

end Field

namespace Statement

/-- An insertion keeps what follows other nodes, unless it takes these out, and brings no old node
below further ones. -/
theorem evaluateInsertion_steady {field : Field} (host : Host) (context : Context)
    (expression : Expression) (hd : w.document.Distinct)
    (hfield : ∀ y ∈ field.handles, y ∈ w.document.ids)
    (hp : ∀ f, p f → field.Beside w.document f)
    (hout : ∀ y ∈ field.takers, ∀ f, p f → f ∉ w.document.descendants y) :
    (evaluateInsertion host context expression field).Steadies p w.document w := by
  have hremove : (Merge.edit field.remove).Steadies p w.document w :=
    steadies_edit (Field.remove_steady hd hp)
  unfold evaluateInsertion
  cases expression.evaluate? context with
  | error e => exact returns_error rfl trivial
  | ok value? =>
    simp only [Merge.ofExcept_ok_bind]
    split
    next => exact hremove
    next => exact hremove
    next value _ =>
      cases Content.wrap value with
      | error e => exact returns_error rfl trivial
      | ok content => exact Field.replace_steadies hd hfield hp hout content

end Statement

end MailMerge
