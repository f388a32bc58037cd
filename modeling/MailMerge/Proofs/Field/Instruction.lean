import Mathlib.Data.List.Basic
import MailMerge.Field
import MailMerge.Proofs.Text.Pattern

/-!
# Instructions with a directive

A directive is written between a word in front and two words after it. Main statement: it is read
back from such an instruction exactly if it has no space (`directive_instructionFor`), as long as it
does not begin with a blank and ends with a character that the words after it do not have.
-/

namespace MailMerge.Field

open Text

/-- The instruction that carries a directive. -/
def instructionFor (directive : String) : String :=
  " MERGEFIELD " ++ directive ++ " \\* MERGEFORMAT "

/-- What follows the directive in an instruction. -/
def closingParts : List Part :=
  [.some isBlank, .exactly "\\*", .some isBlank, .exactly "MERGEFORMAT", .any isBlank]

/-- What follows the directive, as it is written. -/
def closingText : List Char := ' ' :: "\\* MERGEFORMAT ".toList

variable {s : String} {cs : List Char} {first last : Char}

theorem matchParts?_closing : matchParts? closingParts closingText = some [] := by decide +kernel

/-- What follows a directive is not found where a character is left that it does not have. -/
theorem matchParts?_closing_eq_none (hlast : last ∈ cs) (hblank : isBlank last = false)
    (hword : last ∉ "\\*MERGEFORMAT".toList) : matchParts? closingParts cs = none := by
  have hparts : ∀ part ∈ closingParts, part.Admits last → isBlank last = true ∨
      last ∈ "\\*MERGEFORMAT".toList := by
    simp only [closingParts, List.forall_mem_cons, Text.Part.some, Part.any, Part.exactly, Part.Admits]
    refine ⟨.inl, fun h => .inr ?_, .inl, fun h => .inr ?_, .inl, by simp⟩
    · exact (by decide : "\\*".toList ⊆ "\\*MERGEFORMAT".toList) h
    · exact (by decide : "MERGEFORMAT".toList ⊆ "\\*MERGEFORMAT".toList) h
  refine matchParts?_eq_none hlast fun part hpart hadmits => ?_
  rcases hparts part hpart hadmits with hin | hin
  · rw [hblank] at hin
    cases hin
  · exact hword hin

/-- A directive is found if there is no space in it. -/
theorem matchParts?_keep_closing (hlast : s.toList.getLast? = some last)
    (hblank : isBlank last = false) (hword : last ∉ "\\*MERGEFORMAT".toList) :
    matchParts? (.keep (· ≠ ' ') :: closingParts) (s.toList ++ closingText) =
      if ' ' ∈ s.toList then none else some [s.toList] := by
  rw [matchParts?_keep]
  split
  next hspace =>
    -- The run ends at the first space, so that the end of the directive is left.
    cases hfound : run? (fun c => decide (c ≠ ' ')) (matchParts? closingParts) (s.toList ++ closingText) with
    | none => rfl
    | some entry =>
      obtain ⟨run, found⟩ := entry
      obtain ⟨-, hrun, rest, heq, hrest⟩ := run?_eq_some hfound
      have hin : last ∈ rest := by
        obtain ⟨before, after, hsplit⟩ := List.append_of_mem hspace
        have hafter : last ∈ ' ' :: after := by
          rw [hsplit, List.getLast?_append_cons] at hlast
          exact List.mem_of_getLast? hlast
        rw [hsplit, List.append_assoc] at heq
        rcases List.append_eq_append_iff.1 heq with ⟨more, hmore, hright⟩ | ⟨more, -, rfl⟩
        · cases more with
          | nil =>
            rw [List.nil_append] at hright
            exact hright ▸ List.mem_append_left _ hafter
          | cons c more =>
            rw [List.cons_append, List.cons_append] at hright
            obtain ⟨rfl, -⟩ := List.cons.inj hright
            have hc := hrun ' ' (hmore ▸ by simp)
            simp at hc
        · exact List.mem_append_right _ (List.mem_append_left _ hafter)
      rw [matchParts?_closing_eq_none hin hblank hword] at hrest
      cases hrest
  next hspace =>
    rw [run?_append, matchParts?_closing]
    · rfl
    · rintro hnil
      rw [hnil] at hlast
      cases hlast
    · intro c hc
      exact decide_eq_true fun heq : c = ' ' => hspace (heq ▸ hc)
    · exact run?_of_stop fun c hc => by
        rw [closingText, List.head?_cons, Option.mem_some_iff] at hc
        simp [← hc]
    · intro c more hsuffix
      refine matchParts?_closing_eq_none (List.mem_append_left _ ?_) hblank hword
      obtain ⟨front, hfront⟩ := hsuffix
      rw [← hfront, List.getLast?_append_cons] at hlast
      exact List.mem_of_getLast? hlast

/-- The directive of an instruction is read back if there is no space in it, and it is lost if there is
one. -/
theorem directive_instructionFor (hfirst : s.toList.head? = some first)
    (hblank : isBlank first = false) (hlast : s.toList.getLast? = some last)
    (hblank' : isBlank last = false) (hword : last ∉ "\\*MERGEFORMAT".toList) :
    directive (instructionFor s) = if ' ' ∈ s.toList then "" else s := by
  have hchars : (instructionFor s).toList =
      ' ' :: ("MERGEFIELD".toList ++ ' ' :: (s.toList ++ closingText)) := by
    simp [instructionFor, closingText]
  have hkeep := matchParts?_keep_closing hlast hblank' hword
  -- The directive begins with no blank, so that the run of blanks before it ends there.
  have hhead : ∀ c ∈ (s.toList ++ closingText).head?, isBlank c = false := by
    intro c hc
    rw [List.head?_append, hfirst, Option.some_or, Option.mem_some_iff] at hc
    exact hc ▸ hblank
  have hmatch : matchParts? instructionPattern (instructionFor s).toList =
      matchParts? (.keep (· ≠ ' ') :: closingParts) (s.toList ++ closingText) := by
    rw [hchars]
    change matchParts? (.run false true isBlank :: .word "MERGEFIELD".toList ::
      .run false false isBlank :: .keep (· ≠ ' ') :: closingParts) _ = _
    have hfield : matchParts? (.word "MERGEFIELD".toList :: .run false false isBlank ::
        .keep (· ≠ ' ') :: closingParts)
          ("MERGEFIELD".toList ++ ' ' :: (s.toList ++ closingText)) =
        matchParts? (.keep (· ≠ ' ') :: closingParts) (s.toList ++ closingText) := by
      rw [matchParts?, if_pos (by simp), List.drop_left, matchParts?, if_neg (by decide),
        run?_cons_of_stop (by decide) hhead, Option.map_map]
      exact Option.map_id'
    have hstop : ∀ c ∈ ("MERGEFIELD".toList ++ ' ' :: (s.toList ++ closingText)).head?,
        isBlank c = false := by
      intro c hc
      have heq : 'M' = c := by simpa using hc
      exact heq ▸ by decide
    rw [matchParts?, if_pos rfl, run?_cons_of_stop (by decide) hstop, hfield]
    have hnone : matchParts? (.word "MERGEFIELD".toList :: .run false false isBlank ::
        .keep (· ≠ ' ') :: closingParts)
          (' ' :: ("MERGEFIELD".toList ++ ' ' :: (s.toList ++ closingText))) = none :=
      matchParts?_word_ne (by decide)
    rw [hnone, Option.map_none, Option.or_none, Option.map_map]
    exact Option.map_id'
  rw [directive, match?_eq, hmatch, hkeep]
  by_cases hspace : ' ' ∈ s.toList <;> simp [hspace]

end MailMerge.Field
