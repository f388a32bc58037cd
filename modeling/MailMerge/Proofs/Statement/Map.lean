import MailMerge.Proofs.Statement.Scanner

/-!
# Statements of corresponding fields

Which statements fields make depends on their directives and on the blocks between them. Fields with
the same directives as others, and with corresponding blocks, make corresponding statements. Main
statement: `ofFields_map`.
-/

namespace MailMerge

open Xml

variable {d e : Document} {φ : Field → Field} {ψ : Block → Block} {p : Field → Prop}

/-- Fields of one document correspond to fields of another one, and so do the blocks between them. -/
structure Field.Corresponds (d e : Document) (p : Field → Prop) (φ : Field → Field)
    (ψ : Block → Block) : Prop where
  expression : ∀ field, (φ field).expression = field.expression
  between : ∀ start stop, p start → p stop →
    Block.between e (φ start) (φ stop) = ψ (Block.between d start stop)

/-- The statement with other fields and blocks. -/
def Statement.map (φ : Field → Field) (ψ : Block → Block) : Statement → Statement
  | insertion expression field => insertion expression (φ field)
  | block opening b => block opening (ψ b)

/-- The open block with another field. -/
def OpenBlock.map (φ : Field → Field) (top : OpenBlock) : OpenBlock :=
  { top with start := φ top.start }

namespace Scanner

/-- The state of the pass with other fields and blocks. -/
def map (φ : Field → Field) (ψ : Block → Block) (s : Scanner) : Scanner where
  stack := s.stack.map (OpenBlock.map φ)
  statements := s.statements.map (Statement.map φ ψ)

theorem result_map (h : ∀ field, (φ field).expression = field.expression) (s : Scanner) :
    (s.map φ ψ).result = s.result.map (List.map (Statement.map φ ψ)) := by
  obtain ⟨stack, statements⟩ := s
  cases stack with
  | nil => rfl
  | cons top outer => simp [map, result, OpenBlock.map, Opening.unmatched, h, Except.map]

/-- All blocks that are open begin with fields of a kind. -/
def Within (p : Field → Prop) (s : Scanner) : Prop := ∀ top ∈ s.stack, p top.start

/-- A field opens a block, or leaves no more of them open. -/
theorem Within.step {s : Scanner} {field : Field} (h : s.Within p) (hfield : p field) :
    (Scanner.step d s field).Within p := by
  obtain ⟨stack, statements⟩ := s
  by_cases hopening : ∃ inner, Directive.ofText field.expression = .opening inner
  · obtain ⟨inner, hinner⟩ := hopening
    rw [step_of_opening hinner]
    exact List.forall_mem_cons.2 ⟨hfield, h⟩
  rw [not_exists] at hopening
  cases stack with
  | nil =>
    cases hdirective : Directive.ofText field.expression with
    | opening inner => exact absurd hdirective (hopening inner)
    | insertion expression =>
      rw [step_of_insertion hdirective]
      exact h
    | other =>
      rw [step_of_other hdirective]
      exact h
  | cons top outer =>
    by_cases hend : field.expression = top.opening.endText
    · rw [step_of_closing hopening hend]
      exact fun t ht => h t (List.mem_cons_of_mem _ ht)
    · rw [step_of_ignored hopening hend]
      exact h

theorem step_map (h : Field.Corresponds d e p φ ψ) {s : Scanner} {field : Field} (hs : s.Within p)
    (hfield : p field) : step e (s.map φ ψ) (φ field) = (step d s field).map φ ψ := by
  -- A field with the same directive lets both passes take the same branch.
  obtain ⟨stack, statements⟩ := s
  have hsame := h.expression field
  by_cases hopening : ∃ inner, Directive.ofText field.expression = .opening inner
  · obtain ⟨inner, hinner⟩ := hopening
    rw [step_of_opening hinner, step_of_opening (by rw [hsame, hinner])]
    rfl
  rw [not_exists] at hopening
  have hopening' : ∀ inner, Directive.ofText (φ field).expression ≠ .opening inner := by
    rwa [hsame]
  cases stack with
  | nil =>
    cases hdirective : Directive.ofText field.expression with
    | opening inner => exact absurd hdirective (hopening inner)
    | insertion expression =>
      have hmapped := @step_of_insertion e (φ field) (statements.map (Statement.map φ ψ))
        expression (by rw [hsame, hdirective])
      rw [step_of_insertion hdirective]
      simp only [map, List.map_append]
      exact hmapped
    | other =>
      rw [step_of_other hdirective]
      exact step_of_other (by rw [hsame, hdirective])
  | cons top outer =>
    by_cases hend : field.expression = top.opening.endText
    · have hbetween := h.between _ _ (hs top List.mem_cons_self) hfield
      have hmapped := @step_of_closing e (φ field) (top.map φ) (outer.map (OpenBlock.map φ))
        (statements.map (Statement.map φ ψ)) hopening' (by rw [hsame, hend]; rfl)
      rw [step_of_closing hopening hend]
      refine Eq.trans hmapped ?_
      cases outer <;> simp [close, map, OpenBlock.map, Statement.map, hbetween]
    · rw [step_of_ignored hopening hend]
      exact step_of_ignored hopening' (by rw [hsame]; exact hend)

theorem foldl_map (h : Field.Corresponds d e p φ ψ) {fields : List Field}
    (hfields : ∀ field ∈ fields, p field) {s : Scanner} (hs : s.Within p) :
    (fields.map φ).foldl (step e) (s.map φ ψ) = (fields.foldl (step d) s).map φ ψ := by
  induction fields generalizing s with
  | nil => rfl
  | cons field fields ih =>
    rw [List.forall_mem_cons] at hfields
    rw [List.map_cons, List.foldl_cons, List.foldl_cons, step_map h hs hfields.1,
      ih hfields.2 (hs.step hfields.1)]

end Scanner

/-- Corresponding fields make corresponding statements. -/
theorem Statement.ofFields_map (h : Field.Corresponds d e p φ ψ) {fields : List Field}
    (hfields : ∀ field ∈ fields, p field) :
    ofFields e (fields.map φ) = (ofFields d fields).map (List.map (map φ ψ)) := by
  have hnothing : Scanner.Within p ⟨[], []⟩ := fun _ htop => absurd htop List.not_mem_nil
  have hrun := congrArg Scanner.result (Scanner.foldl_map h hfields hnothing)
  rw [Scanner.result_map h.expression, Scanner.result_foldl] at hrun
  have hmapped := (Scanner.result_foldl e (fields.map φ) []).symm.trans hrun
  simp only [List.nil_append] at hmapped
  cases hold : ofFields d fields <;> cases hnew : ofFields e (fields.map φ) <;>
    rw [hold, hnew] at hmapped <;> exact hmapped

end MailMerge
