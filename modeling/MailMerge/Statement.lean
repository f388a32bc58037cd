import MailMerge.Block
import MailMerge.Directive

/-!
# Statements

The fields of a part make a sequence of statements: insertions, and blocks with their two fields.
Fields inside a block only help to find its end; their statements are made when a copy of the body
is rendered. A field that closes an inner block never closes an outer one, even if both blocks are
closed by the same text.
-/

namespace MailMerge

open Xml

/-- A statement. -/
inductive Statement where
  /-- The value of an expression in the place of a field. -/
  | insertion (expression : Expression) (field : Field)
  /-- What becomes of a block. -/
  | block (opening : Opening) (block : Block)
deriving DecidableEq, Repr

/-- A field with the fields after it that are still to be read; they are fewer than before. -/
structure Found (before : Nat) where
  field : Field
  rest : List Field
  isShorter : rest.length < before

/-- The failure of a block that no field closes. -/
def Opening.unmatched (start : Field) (opening : Opening) : MergeError :=
  .unmatchedBlock start.expression opening.endText

/-- Finds the field that closes a block, among the fields after the one that opens it. -/
def Opening.findEnd (start : Field) (opening : Opening) (fields : List Field) :
    Except MergeError (Found fields.length) :=
  match fields with
  | [] => .error (opening.unmatched start)
  | field :: rest =>
    match Directive.ofText field.expression with
    | .opening inner =>
      match findEnd field inner rest with
      | .error e => .error e
      | .ok closed =>
        have := closed.isShorter
        match findEnd start opening closed.rest with
        | .error e => .error e
        | .ok found => .ok ⟨found.field, found.rest, by simp; have := found.isShorter; omega⟩
    | _ =>
      if field.expression = opening.endText then .ok ⟨field, rest, by simp⟩
      else
        match findEnd start opening rest with
        | .error e => .error e
        | .ok found => .ok ⟨found.field, found.rest, by simp; have := found.isShorter; omega⟩
  termination_by fields.length
  decreasing_by all_goals (simp only [List.length_cons]; omega)

namespace Statement

/-- The statements that fields make. -/
def ofFields (d : Document) (fields : List Field) : Except MergeError (List Statement) :=
  match fields with
  | [] => .ok []
  | field :: rest =>
    match Directive.ofText field.expression with
    | .insertion expression =>
      match ofFields d rest with
      | .error e => .error e
      | .ok later => .ok (insertion expression field :: later)
    | .opening opening =>
      match opening.findEnd field rest with
      | .error e => .error e
      | .ok closed =>
        have := closed.isShorter
        match ofFields d closed.rest with
        | .error e => .error e
        | .ok later => .ok (block opening (Block.between d field closed.field) :: later)
    | .other => ofFields d rest
  termination_by fields.length
  decreasing_by all_goals (simp only [List.length_cons]; omega)

/-- Fixes the body of the block of a statement. -/
def settle (d : Document) : Statement → Statement
  | insertion expression field => insertion expression field
  | block opening b => block opening (b.settle d)

end Statement

end MailMerge
