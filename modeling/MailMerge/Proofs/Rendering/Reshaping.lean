import MailMerge.Proofs.Field.Cleaning
import MailMerge.Proofs.Field.Reshaping
import MailMerge.Proofs.Field.Spans
import MailMerge.Proofs.Rendering.Abreast
import MailMerge.Proofs.Rendering.Depth

/-!
# Rendering parts with fields in the other shape

Two parts that are the same but for the shapes of fields are rendered abreast with the part that has
simple fields in their place. Main statement: they fail in the same way, or are the same
but for the shapes of those fields that are still there (`Session.render_reshaped`).
-/

namespace MailMerge

open Xml Xml.Forest Xml.Document Field

variable {c d d' e e' : Document} {v v' : Unfolding} {f : Forest} {plain : Node → Prop}
variable {s s' : Session} {context : Context} {w w' : Workspace}

namespace Session

/-- Two sessions are the same but for the shapes of fields of their parts. -/
structure Reshaped (plain : Node → Prop) (s s' : Session) : Prop where
  kind : s'.part.kind = s.part.kind
  tree : Field.Reshaped plain (s.part.document.tree s.part.document.root)
    (s'.part.document.tree s'.part.document.root)
  declaration : s'.part.document.declaration = s.part.document.declaration
  resources : s'.resources = s.resources
  numbering : s'.numbering = s.numbering

/-- The part has just been read: it is a single tree, and its fields are those that are found in it. -/
structure Fresh (s : Session) : Prop where
  apex : s.part.document.Apex s.part.document.root []
  fields : (s.part.fields s.cache?).1 = Field.discover s.part.document s.part.document.root

end Session

namespace Rendering

/-- A document with simple fields and one that is unfolded from it are rendered and cleaned up abreast. -/
theorem renderFields_abreast (host : Host) (hpassive : context.Passive) (hsame : Merge.SameRegistries w w')
    (h : w.document.Unfolds v w'.document) (hshown : Shown v w.document)
    (halone : w.document.Alone w.document.root) (htidy : Tidy (w.document.tree w.document.root))
    (kind : PartKind) (startPage? : Option Nat) :
    Merge.Lockstep
      (do Rendering.renderFields host context (discover w.document w.document.root)
          Merge.edit (Session.cleanUp kind startPage?))
      (do Rendering.renderFields host context (discover w'.document w'.document.root)
          Merge.edit (Session.cleanUp kind startPage?))
      w w' fun _ _ d e => ∃ v', d.Unfolds v' e ∧ Shown v' d := by
  have hfields : Merge.Lockstep
      (Rendering.renderFields host context (discover w.document w.document.root))
      (Rendering.renderFields host context (discover w'.document w'.document.root)) w w'
      fun _ _ d e => ∃ v', Statement.Reached w.document v w.document.root [] v' d e := by
    unfold Rendering.renderFields
    refine Merge.lockstep_document ?_
    rw [h.depth_eq, h.root_eq]
    exact Statement.evaluateFields_abreast host (renderBelow_simulates host _) hpassive hsame h hshown
      halone h.root htidy
  refine hfields.bind ?_
  rintro - w₁ - w₁' - hsame₁ ⟨v₁, hreached⟩
  obtain ⟨v₂, hadds⟩ := Session.cleanUp_adds hreached.continues.unfolds hreached.shown kind startPage?
  exact Merge.lockstep_edit hsame₁ ⟨v₂, hadds.unfolds, hadds.shown⟩

end Rendering

namespace Session

/-- How a session ends that renders a part the fields of which are known rightly. -/
theorem render_eq (h : s.Fresh) (host : Host) (context : Context) (startPage? : Option Nat) :
    s.render host context startPage? =
      match (do Rendering.renderFields host context (discover s.part.document s.part.document.root)
                Merge.edit (cleanUp s.part.kind startPage?) : Merge Unit)
          ⟨s.part.document, s.resources, s.numbering⟩ with
      | .ok () w => .ok () (s.after (s.part.fields s.cache?).2 w)
      | .error e w => .error e (s.after (s.part.fields s.cache?).2 w) := by
  rw [← h.fields]
  rfl

/-- Two parts that are the same but for the shapes of fields, which are not inside one another, are
rendered in the same way: both fail with the same error, or are the same but for the shapes
of fields in the end. The registries are the same in the end as well. -/
theorem render_reshaped (hs : s.Fresh) (hs' : s'.Fresh) (h : s.Reshaped Unmarked s') (host : Host)
    (hpassive : context.Passive) (startPage? : Option Nat) :
    match s.render host context startPage?, s'.render host context startPage? with
    | .ok () left, .ok () left' => left.Reshaped (fun _ => True) left'
    | .error error left, .error error' left' =>
      error' = error ∧ left'.resources = left.resources ∧ left'.numbering = left.numbering
    | _, _ => False := by
  obtain ⟨c, v, v', hc, hc', hshown, hshown', halone, htidy⟩ :=
    exists_common hs.apex hs'.apex h.declaration h.tree
  have hsame : Merge.SameRegistries ⟨c, s.resources, s.numbering⟩
      ⟨s.part.document, s.resources, s.numbering⟩ := ⟨rfl, rfl⟩
  have hsame' : Merge.SameRegistries ⟨c, s.resources, s.numbering⟩
      ⟨s'.part.document, s'.resources, s'.numbering⟩ := ⟨h.resources, h.numbering⟩
  have hleft := Rendering.renderFields_abreast host hpassive hsame hc hshown halone htidy
    s.part.kind startPage?
  have hright := Rendering.renderFields_abreast host hpassive hsame' hc' hshown' halone htidy
    s.part.kind startPage?
  rw [render_eq hs, render_eq hs', h.kind]
  rcases (hleft.of_common hright).elim with
    ⟨⟨⟩, w, ⟨⟩, w', hw, hw', hregistries, -, c', ⟨u, hu, husown⟩, u', hu', hushown'⟩ |
      ⟨error, w, w', hw, hw', hregistries⟩
  · rw [hw, hw']
    exact ⟨h.kind, hu.reshaped_tree hu' husown hushown', hu'.declaration_eq.trans hu.declaration_eq.symm,
      hregistries.resources, hregistries.numbering⟩
  · rw [hw, hw']
    exact ⟨rfl, hregistries.resources, hregistries.numbering⟩

/-- A part that has been read is fresh, if there is no cache. -/
theorem fresh_of_parse {kind : PartKind} {text : String} {part : Part}
    (h : Part.parse kind text = .ok part) (resources : Resources) (numbering : Numbering) :
    Fresh ⟨part, resources, numbering, none⟩ := by
  refine ⟨?_, rfl⟩
  unfold Part.parse at h
  split at h
  · cases h
    exact apex_of_parse ‹_›
  · cases h

/-! ## A field in two shapes -/

/-- A header with a row of nodes in its only paragraph. -/
def ofRow (row : Forest) (next : NodeId) : Session where
  part := ⟨.headerFooter, ⟨[.ofElement 0 "w:p" row], [], 0, next, none⟩, none⟩

/-- The simple field. -/
def fieldNode : Node := .element ⟨"w:fldSimple", [⟨"w:instr", "MERGEFIELD =x \\* MERGEFORMAT"⟩]⟩

/-- What the field displays. -/
def shownRun (x : NodeId) : Forest :=
  .ofElement x "w:r" (.ofElement (x + 1) "w:t" (.single (x + 2) (.text "old") .nil))

/-- A run with a marker. -/
def markerRun (x : NodeId) (kind : String) : Forest :=
  .ofElement x "w:r" (.single (x + 1) (markerElement kind) .nil)

/-- A run with a piece of an instruction. -/
def pieceRun (x : NodeId) (piece : String) : Forest :=
  .ofElement x "w:r" (.ofElement (x + 1) "w:instrText" (.single (x + 2) (.text piece) .nil))

/-- What comes before the display of the complex field, with its instruction in two pieces. -/
def framedBefore : Forest :=
  markerRun 1 "begin" ++
    ((pieceRun 3 "MERGEFIELD =x " ++ pieceRun 6 "\\* MERGEFORMAT") ++ markerRun 9 "separate")

/-- The field in one element. -/
def simpleRow : Forest := .single 1 fieldNode (shownRun 2)

/-- The field in a row of runs. -/
def complexRow : Forest := framedBefore ++ (shownRun 11 ++ markerRun 14 "end")

theorem run_ofElement (x : NodeId) (item : Forest) : Run item (.ofElement x "w:r" item) := by
  have h : Run item (single x (.element ⟨"w:r", []⟩) (nil ++ (item ++ nil))) := .mk rfl rfl rfl
  rwa [append_nil] at h

theorem markerRun_marks (x : NodeId) (kind : String) : MarkerRun kind (markerRun x kind) :=
  .mk (by simp [markerElement, isMarker, Node.isNamed, Node.name?, Node.element?, Node.attribute?,
    Element.attribute?])
    rfl (run_ofElement x _)

theorem isNamed_piece : (Node.element ⟨"w:instrText", []⟩).isNamed "w:instrText" = true := by decide

theorem pieces_instruct : InstructionRuns "MERGEFIELD =x \\* MERGEFORMAT"
    (pieceRun 3 "MERGEFIELD =x " ++ pieceRun 6 "\\* MERGEFORMAT") :=
  .cons isNamed_piece rfl (run_ofElement 3 (.ofElement 4 "w:instrText" (.single 5 (.text "MERGEFIELD =x ") .nil)))
    (.last isNamed_piece rfl (run_ofElement 6 (.ofElement 7 "w:instrText" (.single 8 (.text "\\* MERGEFORMAT") .nil))))

theorem framed_fits : Fits fieldNode framedBefore (markerRun 14 "end") :=
  ⟨by decide, _, by decide, .mk (markerRun_marks 1 "begin") pieces_instruct
    (markerRun_marks 9 "separate") (markerRun_marks 14 "end")⟩

theorem ofRow_reshaped : (ofRow complexRow 16).Reshaped Unmarked (ofRow simpleRow 5) where
  kind := rfl
  declaration := rfl
  resources := rfl
  numbering := rfl
  tree := by
    have hdisplay : Display (shownRun 11) := .mk rfl rfl (by decide)
    have hsame : (shownRun 2).bare = (shownRun 11).bare := rfl
    have hsimple : Spelled fieldNode (shownRun 2) simpleRow := .simple (by decide)
    have hrows : Field.Reshaped Unmarked (complexRow ++ nil) (simpleRow ++ nil) :=
      .field hdisplay hsame (.complex framed_fits) hsimple .nil
    have hparagraph : Unmarked (.element ⟨"w:p", []⟩) := ⟨by decide, by decide⟩
    exact .node hparagraph hrows .nil

theorem ofRow_fresh {row : Forest} {next : NodeId} (hdistinct : (ofRow row next).part.document.Distinct) :
    (ofRow row next).Fresh := ⟨⟨hdistinct, _, _, .refl _⟩, rfl⟩

/-- In both shapes the field makes place for the value. -/
theorem bothShapes_rendered : ∃ left left',
    (ofRow complexRow 16).render {} ⟨[("x", .string "new")]⟩ none = .ok () left ∧
      (ofRow simpleRow 5).render {} ⟨[("x", .string "new")]⟩ none = .ok () left' ∧
      left.Reshaped (fun _ => True) left' ∧
      left.part.markup = "<w:p><w:r><w:t>new</w:t></w:r></w:p>" := by
  have hpassive : Context.Passive ⟨[("x", .string "new")]⟩ := List.forall_mem_singleton.2 (.string "new")
  have h := render_reshaped (ofRow_fresh ⟨by decide, by decide⟩) (ofRow_fresh ⟨by decide, by decide⟩)
    ofRow_reshaped {} hpassive none
  have hmarkup : (Session.render {} ⟨[("x", .string "new")]⟩ none >>= fun _ =>
      (·.part.markup) <$> get).run' (ofRow complexRow 16) =
      some "<w:p><w:r><w:t>new</w:t></w:r></w:p>" := by decide +kernel
  delta EStateM.run' at hmarkup
  cases hleft : (ofRow complexRow 16).render {} ⟨[("x", .string "new")]⟩ none with
  | error e left => simp [EStateM.run, bind, EStateM.bind, hleft] at hmarkup
  | ok u left =>
    simp only [EStateM.run, bind, EStateM.bind, hleft] at hmarkup
    rw [hleft] at h
    cases hright : (ofRow simpleRow 5).render {} ⟨[("x", .string "new")]⟩ none with
    | error e left' => simp [hright] at h
    | ok u' left' =>
      rw [hright] at h
      exact ⟨left, left', rfl, rfl, h, Option.some.inj hmarkup⟩

end Session
end MailMerge
