import Mathlib.Data.List.Infix
import MailMerge.Statement

/-!
# Which fields make a block

The two fields of a block are among the fields that are read: one whose directive opens the block,
and one after it with the text that closes it. What stands between them makes no statement of its
own.
-/

namespace MailMerge

open Xml

/-- What reading on for the end of a block finds: a later field with the closing text, and the
fields after it. -/
theorem Opening.findEnd_eq_append {start : Field} {opening : Opening} {fields : List Field}
    {found : Found fields.length} (h : opening.findEnd start fields = .ok found) :
    ∃ inside, fields = inside ++ found.field :: found.rest ∧
      found.field.expression = opening.endText := by
  fun_induction Opening.findEnd start opening fields with
  | case1 => cases h
  | case2 => cases h
  | case3 => cases h
  | case4 start opening field rest inner hinner closed hclosed hshorter found' hfound ihInner ih =>
    cases h
    obtain ⟨inside, hrest, -⟩ := ihInner hclosed
    obtain ⟨later, hlater, hend⟩ := ih hfound
    refine ⟨field :: (inside ++ closed.field :: later), ?_, hend⟩
    rw [List.cons_append, List.append_assoc, List.cons_append, ← hlater, ← hrest]
  | case5 start opening field rest heq =>
    cases h
    exact ⟨[], rfl, heq⟩
  | case6 => cases h
  | case7 start opening field rest hne found' hfound _ ih =>
    cases h
    obtain ⟨inside, hrest, hend⟩ := ih hfound
    exact ⟨field :: inside, by rw [List.cons_append, ← hrest], hend⟩

/-- Fields with which every block is closed by a field that does nothing by itself. -/
inductive Balanced : List Field → Prop where
  | nil : Balanced []
  | insertion {field : Field} {expression : Expression} {rest : List Field}
      (directive : Directive.ofText field.expression = .insertion expression)
      (balanced : Balanced rest) : Balanced (field :: rest)
  | block {start stop : Field} {opening : Opening} {inside rest : List Field}
      (directive : Directive.ofText start.expression = .opening opening)
      (inner : Balanced inside) (closes : stop.expression = opening.endText)
      (other : Directive.ofText opening.endText = .other) (balanced : Balanced rest) :
      Balanced (start :: (inside ++ stop :: rest))

namespace Opening

variable {start field found : Field} {opening inner : Opening} {fields rest later : List Field}

/-- The search for the end of a block finds a field and leaves those after it. -/
def Finds (opening : Opening) (start : Field) (fields : List Field) (field : Field)
    (rest : List Field) : Prop :=
  ∃ found, opening.findEnd start fields = .ok found ∧ found.field = field ∧ found.rest = rest

theorem Finds.of_block (hfield : Directive.ofText field.expression = .opening inner)
    {stop : Field} (hclosed : inner.Finds field rest stop later)
    (hfound : opening.Finds start later found fields) :
    opening.Finds start (field :: rest) found fields := by
  obtain ⟨closed, hclosed, -, rfl⟩ := hclosed
  obtain ⟨last, hlast, rfl, rfl⟩ := hfound
  unfold Finds findEnd
  simp only [hfield, hclosed, hlast]
  exact ⟨_, rfl, rfl, rfl⟩

theorem Finds.of_other (hfield : ∀ inner, Directive.ofText field.expression ≠ .opening inner)
    (hne : field.expression ≠ opening.endText) (hfound : opening.Finds start rest found fields) :
    opening.Finds start (field :: rest) found fields := by
  obtain ⟨last, hlast, rfl, rfl⟩ := hfound
  unfold Finds findEnd
  split
  next inner heq => exact absurd heq (hfield inner)
  next =>
    simp only [if_neg hne, hlast]
    exact ⟨_, rfl, rfl, rfl⟩

theorem finds_end
    (hfield : ∀ inner, Directive.ofText field.expression ≠ .opening inner)
    (hend : field.expression = opening.endText) :
    opening.Finds start (field :: rest) field rest := by
  unfold Finds findEnd
  split
  next inner heq => exact absurd heq (hfield inner)
  next =>
    simp only [if_pos hend]
    exact ⟨_, rfl, rfl, rfl⟩

end Opening

/-- Balanced fields are passed over in the search for the end of a block. -/
theorem Balanced.finds {start found : Field} {opening : Opening} {inside more later : List Field}
    (h : Balanced inside) (hother : Directive.ofText opening.endText = .other)
    (hfound : opening.Finds start more found later) :
    opening.Finds start (inside ++ more) found later := by
  induction h generalizing start opening more found later with
  | nil => exact hfound
  | insertion directive _ ih =>
    refine Opening.Finds.of_other (fun inner heq => ?_) (fun heq => ?_) (ih hother hfound)
    · rw [directive] at heq
      cases heq
    · rw [heq, hother] at directive
      cases directive
  | @block first stop inner inside' rest directive _ closes other _ ihInner ih =>
    have hlast : inner.Finds first (stop :: (rest ++ more)) stop (rest ++ more) := by
      refine Opening.finds_end (fun o heq => ?_) closes
      rw [closes, other] at heq
      cases heq
    rw [List.cons_append, List.append_assoc, List.cons_append]
    exact Opening.Finds.of_block directive (ihInner other hlast) (ih hother hfound)

namespace Statement

/-- A block among the statements that fields make is the one between two of them. -/
theorem exists_of_mem_block {d : Document} {fields : List Field} {statements : List Statement}
    {opening : Opening} {b : Block} (h : ofFields d fields = .ok statements)
    (hb : block opening b ∈ statements) :
    ∃ before start inside stop after, fields = before ++ start :: (inside ++ stop :: after) ∧
      Directive.ofText start.expression = .opening opening ∧
      stop.expression = opening.endText ∧ b = Block.between d start stop := by
  fun_induction ofFields d fields generalizing statements with
  | case1 => cases h; cases hb
  | case2 => cases h
  | case3 field rest expression hdirective later hlater ih =>
    cases h
    rcases List.mem_cons.1 hb with heq | hb
    · cases heq
    · obtain ⟨before, start, inside, stop, after, hrest, hblock⟩ := ih hlater hb
      exact ⟨field :: before, start, inside, stop, after, by rw [hrest, List.cons_append], hblock⟩
  | case4 => cases h
  | case5 => cases h
  | case6 field rest o hdirective closed hclosed hshorter later hlater ih =>
    cases h
    obtain ⟨between, hbetween, hend⟩ := Opening.findEnd_eq_append hclosed
    rcases List.mem_cons.1 hb with heq | hb
    · cases heq
      exact ⟨[], field, between, closed.field, closed.rest, by rw [List.nil_append, ← hbetween],
        hdirective, hend, rfl⟩
    · obtain ⟨before, start, inside, stop, after, hrest, hblock⟩ := ih hlater hb
      refine ⟨field :: (between ++ closed.field :: before), start, inside, stop, after, ?_, hblock⟩
      have hwhole := hbetween.trans (congrArg (between ++ closed.field :: ·) hrest)
      simpa using hwhole
  | case7 field rest hdirective ih =>
    obtain ⟨before, start, inside, stop, after, hrest, hblock⟩ := ih h hb
    exact ⟨field :: before, start, inside, stop, after, by rw [hrest, List.cons_append], hblock⟩

/-- An insertion among the statements that fields make is that of one of them. -/
theorem mem_of_mem_insertion {d : Document} {fields : List Field} {statements : List Statement}
    {expression : Expression} {field : Field} (h : ofFields d fields = .ok statements)
    (hs : insertion expression field ∈ statements) :
    field ∈ fields ∧ Directive.ofText field.expression = .insertion expression := by
  fun_induction ofFields d fields generalizing statements with
  | case1 => cases h; cases hs
  | case2 => cases h
  | case3 first rest expression' hdirective later hlater ih =>
    cases h
    rcases List.mem_cons.1 hs with heq | hs
    · cases heq
      exact ⟨List.mem_cons_self, hdirective⟩
    · exact ⟨List.mem_cons_of_mem _ (ih hlater hs).1, (ih hlater hs).2⟩
  | case4 => cases h
  | case5 => cases h
  | case6 first rest o hdirective closed hclosed hshorter later hlater ih =>
    cases h
    obtain ⟨between, hbetween, -⟩ := Opening.findEnd_eq_append hclosed
    rcases List.mem_cons.1 hs with heq | hs
    · cases heq
    · refine ⟨List.mem_cons_of_mem _ ?_, (ih hlater hs).2⟩
      rw [hbetween]
      exact List.mem_append_right _ (List.mem_cons_of_mem _ (ih hlater hs).1)
  | case7 first rest hdirective ih =>
    exact ⟨List.mem_cons_of_mem _ (ih h hs).1, (ih h hs).2⟩

/-- What fields make that begin with a block. -/
theorem ofFields_eq_of_finds {d : Document} {start stop : Field} {opening : Opening}
    {rest later : List Field} (hstart : Directive.ofText start.expression = .opening opening)
    (hfound : opening.Finds start rest stop later) :
    ofFields d (start :: rest) =
      (ofFields d later).map (block opening (Block.between d start stop) :: ·) := by
  obtain ⟨closed, hclosed, rfl, rfl⟩ := hfound
  conv_lhs => unfold ofFields
  simp only [hstart, hclosed]
  cases ofFields d closed.rest <;> rfl

theorem ofFields_of_finds {d : Document} {start stop : Field} {opening : Opening}
    {rest later : List Field} {statements : List Statement}
    (hstart : Directive.ofText start.expression = .opening opening)
    (hfound : opening.Finds start rest stop later) (hlater : ofFields d later = .ok statements) :
    ofFields d (start :: rest) =
      .ok (block opening (Block.between d start stop) :: statements) := by
  rw [ofFields_eq_of_finds hstart hfound, hlater]
  rfl

theorem ofFields_insertion {d : Document} {field : Field} {expression : Expression}
    {rest : List Field} {statements : List Statement}
    (hfield : Directive.ofText field.expression = .insertion expression)
    (hrest : ofFields d rest = .ok statements) :
    ofFields d (field :: rest) = .ok (insertion expression field :: statements) := by
  unfold ofFields
  simp only [hfield, hrest]

end Statement

end MailMerge
