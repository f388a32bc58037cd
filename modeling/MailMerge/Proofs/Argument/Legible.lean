import MailMerge.Proofs.Argument.Literal
import MailMerge.Proofs.Template.Call

/-!
# Literals that can be called with

A call with literal arguments is read with them (`Literal.ofText_call`), unless some text among them
has a space, a closing bracket or the word of a directive in it: then the call is lost
(`Literal.ofText?_ne_call`), although it is written between quotes.
-/

namespace MailMerge

open Text Opening

namespace Literal

variable {l : Literal} {literals : List Literal} {w : List Char} {c : Char}

/-- A word has a character that is only ever written inside texts, and it does not reach over their
ends. -/
structure Inside (w : List Char) : Prop where
  comma : ',' ∉ w
  quote : '"' ∉ w
  mark : ∃ c ∈ w, c ∈ [' ', ')', ':']

theorem notMem_text (hl : ∀ s, l ≠ .string s) (hc : c ∈ [' ', ')', ':']) : c ∉ l.text.toList := by
  cases l with
  | integer n =>
    intro hin
    have hnumeral := Argument.mem_toString_int hin
    simp only [List.mem_cons, List.not_mem_nil, or_false] at hc
    rcases hc with rfl | rfl | rfl <;>
      exact Argument.ne_of_isNumeral hnumeral (by decide) (by decide) rfl
  | bool b =>
    simp only [List.mem_cons, List.not_mem_nil, or_false] at hc
    cases b <;> rcases hc with rfl | rfl | rfl <;> decide
  | null =>
    simp only [List.mem_cons, List.not_mem_nil, or_false] at hc
    rcases hc with rfl | rfl | rfl <;> decide
  | string s => exact absurd rfl (hl s)

theorem infix_text (hw : Inside w) (h : w <:+: l.text.toList) :
    ∃ s, l = .string s ∧ w <:+: s.toList := by
  by_cases hl : ∃ s, l = .string s
  · obtain ⟨s, rfl⟩ := hl
    have hchars : (Literal.string s).text.toList = [] ++ '"' :: (s.toList ++ '"' :: []) := by
      simp [text]
    obtain ⟨c, hc, -⟩ := hw.mark
    have hne : ¬w <:+: [] := fun hnil => by
      rw [List.infix_nil.1 hnil] at hc
      cases hc
    rw [hchars] at h
    have hinner := (infix_append_cons_of_notMem hw.quote h).resolve_left hne
    exact ⟨s, rfl, (infix_append_cons_of_notMem hw.quote hinner).resolve_right hne⟩
  · obtain ⟨c, hc, hmark⟩ := hw.mark
    exact absurd (h.subset hc) (notMem_text (fun s heq => hl ⟨s, heq⟩) hmark)

/-- Words with marks are found in the texts among literals, and nowhere else in their written form. -/
theorem infix_written_iff (hw : Inside w) :
    w <:+: (written literals).toList ↔ ∃ s, .string s ∈ literals ∧ w <:+: s.toList := by
  induction literals with
  | nil =>
    obtain ⟨c, hc, -⟩ := hw.mark
    have hne : w ≠ [] := List.ne_nil_of_mem hc
    simp [written, hne]
  | cons l literals ih =>
    have hsplit : w <:+: (written (l :: literals)).toList ↔
        w <:+: l.text.toList ∨ w <:+: (written literals).toList := by
      cases literals with
      | nil =>
        obtain ⟨c, hc, -⟩ := hw.mark
        have hne : w ≠ [] := List.ne_nil_of_mem hc
        simp [written, hne]
      | cons m literals =>
        rw [toList_written_cons_cons]
        refine ⟨infix_append_cons_of_notMem hw.comma, ?_⟩
        rintro (h | h)
        · exact h.trans (List.prefix_append _ _).isInfix
        · exact h.trans ((List.suffix_cons _ _).trans (List.suffix_append _ _)).isInfix
    have hhead : w <:+: l.text.toList ↔ ∃ s, l = .string s ∧ w <:+: s.toList := by
      refine ⟨infix_text hw, ?_⟩
      rintro ⟨s, rfl, h⟩
      exact h.trans ⟨['"'], ['"'], by simp [text]⟩
    rw [hsplit, ih, hhead]
    constructor
    · rintro (⟨s, rfl, h⟩ | ⟨s, hs, h⟩)
      · exact ⟨s, List.mem_cons_self, h⟩
      · exact ⟨s, List.mem_cons_of_mem _ hs, h⟩
    · rintro ⟨s, hs, h⟩
      rcases List.mem_cons.1 hs with heq | hs
      · exact .inl ⟨s, heq.symm, h⟩
      · exact .inr ⟨s, hs, h⟩

theorem text_infix_written (hl : l ∈ literals) : l.text.toList <:+: (written literals).toList := by
  induction literals with
  | nil => cases hl
  | cons m literals ih =>
    have hrest : literals ≠ [] → (written literals).toList <:+ (written (m :: literals)).toList := by
      intro hne
      obtain ⟨k, more, rfl⟩ := List.exists_cons_of_ne_nil hne
      rw [toList_written_cons_cons]
      exact (List.suffix_cons _ _).trans (List.suffix_append _ _)
    rcases List.mem_cons.1 hl with rfl | hl
    · cases literals with
      | nil => exact toList_written_singleton l ▸ List.infix_rfl
      | cons k literals =>
        rw [toList_written_cons_cons]
        exact (List.prefix_append _ _).isInfix
    · exact (ih hl).trans (hrest (List.ne_nil_of_mem hl)).isInfix

/-- A word in a text among literals is followed by more. -/
theorem exists_written_eq {s : String} (hs : .string s ∈ literals) (hw : w <:+: s.toList) :
    ∃ before after, (written literals).toList = before ++ (w ++ after) ∧ after ≠ [] := by
  obtain ⟨before, after, hwhole⟩ := text_infix_written hs
  obtain ⟨front, back, hinner⟩ := hw
  have htext : (Literal.string s).text.toList = '"' :: (s.toList ++ ['"']) := by simp [text]
  refine ⟨before ++ '"' :: front, back ++ '"' :: after, ?_, by simp⟩
  rw [← hwhole, htext, ← hinner]
  simp

/-- What cannot be written in a text among the arguments of a call. -/
def breaks : List (List Char) := " ".toList :: ")".toList :: words

theorem inside_of_mem_breaks (hw : w ∈ breaks) : Inside w := by
  simp only [breaks, words, List.mem_cons, List.not_mem_nil, or_false] at hw
  rcases hw with rfl | rfl | rfl | rfl | rfl
  · exact ⟨by decide, by decide, ' ', by decide, by decide⟩
  · exact ⟨by decide, by decide, ')', by decide, by decide⟩
  all_goals exact ⟨by decide, by decide, ':', by decide, by decide⟩

/-- A literal that is no text, or a text in which no directive is cut. -/
def Legible : Literal → Prop
  | string s => ∀ w ∈ breaks, ¬w <:+: s.toList
  | integer _ | bool _ | null => True

instance : (l : Literal) → Decidable l.Legible
  | string s => inferInstanceAs (Decidable (∀ w ∈ breaks, ¬w <:+: s.toList))
  | integer _ | bool _ | null => inferInstanceAs (Decidable True)

theorem not_infix_written (h : ∀ l ∈ literals, l.Legible) (hw : w ∈ breaks) :
    ¬w <:+: (written literals).toList := by
  intro hin
  obtain ⟨s, hs, hinfix⟩ := (infix_written_iff (inside_of_mem_breaks hw)).1 hin
  exact h _ hs w hw hinfix

theorem exists_infix_written (h : ∃ l ∈ literals, ¬l.Legible) :
    ∃ w ∈ breaks, w <:+: (written literals).toList := by
  obtain ⟨l, hl, hnot⟩ := h
  cases l with
  | string s =>
    simp only [Legible, not_forall, not_not] at hnot
    obtain ⟨w, hw, hinfix⟩ := hnot
    exact ⟨w, hw, (infix_written_iff (inside_of_mem_breaks hw)).2 ⟨s, hl, hinfix⟩⟩
  | integer n => exact absurd trivial hnot
  | bool b => exact absurd trivial hnot
  | null => exact absurd trivial hnot

variable {path : Template.Word}

/-- Legible arguments are read with the call. -/
theorem ofText_call (h : ∀ l ∈ literals, l.Legible) :
    Directive.ofText (callText path.text (written literals)) =
      .opening (.call path.text (some (written literals))) := by
  refine ofText_callText (fun hin => ?_) fun w hw => ?_
  · exact not_infix_written h (w := ")".toList) (by simp [breaks])
      ((List.singleton_infix_iff _ _).2 hin)
  · exact not_infix_written h (List.mem_cons_of_mem _ (List.mem_cons_of_mem _ hw))

/-- Arguments that are not all legible have a space in them, or are not read with the call. -/
theorem ofText?_ne_call (h : ∃ l ∈ literals, ¬l.Legible)
    (hspace : ' ' ∉ (written literals).toList) (arguments? : Option String) :
    ofText? (callText path.text (written literals)) ≠ some (.call path.text arguments?) := by
  intro hread
  obtain ⟨w, hw, hin⟩ := exists_infix_written h
  have hmore : ∀ w ∈ words, w <:+: (written literals).toList →
      ∃ before after, (written literals).toList = before ++ (w ++ after) ∧ after ≠ [] := by
    intro w hw hin
    have hbreak := List.mem_cons_of_mem " ".toList (List.mem_cons_of_mem ")".toList hw)
    obtain ⟨s, hs, hinfix⟩ := (infix_written_iff (inside_of_mem_breaks hbreak)).1 hin
    exact exists_written_eq hs hinfix
  obtain ⟨hbracket, hwords⟩ := of_ofText?_callText hspace hmore hread
  rcases List.mem_cons.1 hw with rfl | hw
  · exact hspace ((List.singleton_infix_iff _ _).1 hin)
  rcases List.mem_cons.1 hw with rfl | hw
  · exact hbracket ((List.singleton_infix_iff _ _).1 hin)
  · exact hwords w hw hin

end Literal

end MailMerge
