import MailMerge.Part
import MailMerge.Proofs.Rendering.Insertion
import MailMerge.Proofs.Xml.Place

/-!
# Parts that are rendered

A part is read, its fields are rendered, and the document is cleaned up. The clean-up adds elements
and sets an attribute, but moves no node that is there (`Session.cleanUp_extends`).
-/

namespace MailMerge

open Xml Xml.Forest Merge

namespace Xml

namespace Document

variable {c d e : Document} {x y z : NodeId}

/-- A later document in which all nodes stand where they stood, with new ones between them. -/
structure Extends (d e : Document) : Prop where
  distinct : e.Distinct
  ids : d.ids ⊆ e.ids
  root : e.root = d.root
  within : ∀ y ∈ d.ids, ∀ z ∈ d.ids, z ∈ e.descendants y ↔ z ∈ d.descendants y

theorem Extends.refl (hd : d.Distinct) : d.Extends d :=
  ⟨hd, List.Subset.refl _, rfl, fun _ _ _ _ => Iff.rfl⟩

theorem Extends.trans (h : c.Extends d) (h' : d.Extends e) : c.Extends e where
  distinct := h'.distinct
  ids := List.Subset.trans h.ids h'.ids
  root := h'.root.trans h.root
  within y hy z hz := (h'.within y (h.ids hy) z (h.ids hz)).trans (h.within y hy z hz)

theorem Gains.extends (h : Gains d.ids (Fresh d.ids) d e) (hroot : e.root = d.root) :
    d.Extends e := by
  have hself := List.Subset.refl d.ids
  refine ⟨h.distinct, h.ids, hroot, fun y hy z hz => ⟨fun hin => ?_, fun hin => ?_⟩⟩
  · exact (h.bounds hself).mem_descendants hself hy hin fun n hn => hn.1 hz
  · exact h.descendants_subset hy hin

theorem Distinct.update_extends (hd : d.Distinct) (x : NodeId) (change : Node → Node) :
    d.Extends (d.update x change) := by
  refine ⟨hd.update x change, ?_, rfl, fun y _ z _ => ?_⟩
  · rw [update_ids]
    exact List.Subset.refl _
  · rw [descendants_eq_site?, descendants_eq_site?, d.site?_update]
    cases d.site? y with
    | none => exact Iff.rfl
    | some s => simp [ids_update]

theorem move_sameFrame {place : Forest → Forest → Option Forest} {target : NodeId}
    (h : d.move place target x = some e) : d.SameFrame e := by
  rw [move] at h
  split at h
  next => cases h
  next tree left htaken =>
    split at h
    next => cases h
    next => exact (takeOut_sameFrame htaken).trans (change_sameFrame h)

/-- A new element that is put into a document leaves all nodes where they are. -/
theorem Distinct.put_extends (hd : d.Distinct) (name : String)
    (hname : Field.canBegin (.element ⟨name, []⟩) = false)
    {put : Document → NodeId → Option Document}
    (hput : ∀ c x e, Sprouts d x c → put c x = some e →
      Gains d.ids (Fresh d.ids) d e ∧ c.SameFrame e) :
    d.Extends ((put (d.createElement name).2 (d.createElement name).1).getD
      (d.createElement name).2) := by
  have hsprouts : Sprouts d (d.createElement name).1 (d.createElement name).2 :=
    sprouts_create hd hname
  cases hmove : put (d.createElement name).2 (d.createElement name).1 with
  | none => exact (hsprouts.gains hd (List.Subset.refl _)).extends rfl
  | some e =>
    obtain ⟨hgains, hframe⟩ := hput _ _ _ hsprouts hmove
    exact hgains.extends hframe.root

end Document

end Xml

open Xml.Document

namespace Cleanup

variable {d : Document} {x : NodeId} {name : String}

theorem addChild_extends (hd : d.Distinct) (parent : NodeId)
    (hname : Field.canBegin (.element ⟨name, []⟩) = false) :
    d.Extends (addChild d parent name).2 :=
  hd.put_extends name hname fun _ _ _ hsprouts hmove =>
    ⟨hsprouts.appendChild hd (List.Subset.refl _) hmove, move_sameFrame hmove⟩

theorem fillCell_extends (hd : d.Distinct) (cell : NodeId) : d.Extends (fillCell d cell) := by
  unfold fillCell
  split
  · exact .refl hd
  · exact addChild_extends hd cell rfl

theorem fillCells_extends (hd : d.Distinct) : d.Extends (fillCells d) := by
  unfold fillCells
  generalize d.findAll d.root "w:tc" = cells
  induction cells generalizing d with
  | nil => exact .refl hd
  | cons cell cells ih =>
    have hfirst := fillCell_extends hd cell
    exact hfirst.trans (ih hfirst.distinct)

theorem lastSection_extends (hd : d.Distinct) (body : NodeId) :
    d.Extends (lastSection d body).2 := by
  unfold lastSection
  split
  · exact .refl hd
  · exact addChild_extends hd body rfl

theorem pageNumber_extends (hd : d.Distinct) (properties : NodeId) :
    d.Extends (pageNumber d properties).2 := by
  unfold pageNumber
  split
  next => exact .refl hd
  next =>
    split
    next => exact addChild_extends hd properties rfl
    next later _ =>
      exact hd.put_extends "w:pgNumType" rfl fun _ _ _ hsprouts hmove =>
        ⟨hsprouts.insertBefore hd (List.Subset.refl _) hmove, move_sameFrame hmove⟩

theorem setStartPage_extends (hd : d.Distinct) (n : Nat) : d.Extends (setStartPage n d) := by
  unfold setStartPage
  split
  next => exact .refl hd
  next body _ =>
    have hsection := lastSection_extends hd body
    have hnumber := pageNumber_extends hsection.distinct (lastSection d body).1
    exact (hsection.trans hnumber).trans (hnumber.distinct.update_extends _ _)

end Cleanup

/-- The clean-up of a part leaves all nodes where they are. -/
theorem Session.cleanUp_extends {d : Document} (hd : d.Distinct) (kind : PartKind)
    (startPage? : Option Nat) : d.Extends (cleanUp kind startPage? d) := by
  have hcells := Cleanup.fillCells_extends hd
  cases kind with
  | headerFooter => exact .refl hd
  | document =>
    cases startPage? with
    | none => exact hcells
    | some n => exact hcells.trans (Cleanup.setStartPage_extends hcells.distinct n)

/-- Rows in which a node does not stand are left as they are where the fields below it are rendered. -/
theorem Rendering.renderFields_spares {w : Workspace} {context : Context} {x : NodeId}
    {rest : List Forest} (host : Host) (hpassive : context.Passive) (h : w.document.Apart rest)
    (hx : w.document.Free rest x) :
    (renderFields host context (Field.discover w.document x)).Spares rest w fun _ _ => True := by
  unfold renderFields
  refine spares_document (Statement.evaluateFields_spares (renderBelow_spares host _) hpassive h ?_)
  exact fun field hfield y hy => Field.free_of_mem_discover h hx hfield hy

/-- What is read as a part is a proper document with a root that stands alone. -/
theorem Part.proper_of_parse {kind : PartKind} {text : String} {part : Part}
    (h : Part.parse kind text = .ok part) :
    part.document.Proper ∧ part.document.Apex part.document.root [] := by
  unfold Part.parse at h
  split at h
  next d hd =>
    cases h
    exact ⟨Document.proper_of_parse hd, apex_of_parse hd⟩
  next => cases h

namespace Session

variable {host : Host} {context : Context} {startPage? : Option Nat} {part : Part}
variable {resources : Resources} {numbering : Numbering} {left : Session}

/-- What is left of a part without a cache that has been rendered. -/
theorem exists_of_render_ok
    (h : Session.render host context startPage? { part, resources, numbering } = .ok () left) :
    ∃ w', Rendering.renderFields host context (Field.discover part.document part.document.root)
      ⟨part.document, resources, numbering⟩ = .ok () w' ∧
        left.part.document = cleanUp part.kind startPage? w'.document := by
  have hfields : part.fields none = (Field.discover part.document part.document.root, none) := rfl
  unfold Session.render at h
  rw [hfields] at h
  dsimp only at h
  cases hrun : Rendering.renderFields host context
      (Field.discover part.document part.document.root) ⟨part.document, resources, numbering⟩ with
  | ok u w' =>
    rw [Merge.bind_ok hrun] at h
    cases h
    exact ⟨w', rfl, rfl⟩
  | error e w' =>
    rw [Merge.bind_error hrun] at h
    cases h

theorem exists_render_ok {w' : Workspace}
    (h : Rendering.renderFields host context (Field.discover part.document part.document.root)
      ⟨part.document, resources, numbering⟩ = .ok () w') :
    ∃ left, Session.render host context startPage? { part, resources, numbering } =
      .ok () left := by
  have hfields : part.fields none = (Field.discover part.document part.document.root, none) := rfl
  unfold Session.render
  rw [hfields]
  dsimp only
  rw [Merge.bind_ok h]
  exact ⟨_, rfl⟩

/-- A part without a cache that cannot be rendered has fields that cannot be rendered. -/
theorem exists_of_render_error {error : MergeError}
    (h : Session.render host context startPage? { part, resources, numbering } = .error error left) :
    ∃ w', Rendering.renderFields host context (Field.discover part.document part.document.root)
      ⟨part.document, resources, numbering⟩ = .error error w' := by
  have hfields : part.fields none = (Field.discover part.document part.document.root, none) := rfl
  unfold Session.render at h
  rw [hfields] at h
  dsimp only at h
  cases hrun : Rendering.renderFields host context
      (Field.discover part.document part.document.root) ⟨part.document, resources, numbering⟩ with
  | ok u w' =>
    rw [Merge.bind_ok hrun] at h
    cases h
  | error e w' =>
    rw [Merge.bind_error hrun] at h
    cases h
    exact ⟨w', rfl⟩

end Session

end MailMerge
