import Mathlib.Data.List.TakeWhile
import MailMerge.Text.Blank

/-!
# Blanks at the ends of a text

Trimming drops blanks at the ends and nothing else (`trim_eq_self`), however many there are
(`trim_blank_append`, `trim_append_blank`).
-/

namespace MailMerge.Text

variable {cs blanks : List Char}

theorem trimStart_blank_append (h : blanks.all isBlank = true) (cs : List Char) :
    trimStart (blanks ++ cs) = trimStart cs :=
  List.dropWhile_append_of_pos fun c hc => List.all_eq_true.1 h c hc

theorem trimEnd_append_blank (h : blanks.all isBlank = true) (cs : List Char) :
    trimEnd (cs ++ blanks) = trimEnd cs := by
  rw [trimEnd, trimEnd, List.reverse_append, trimStart_blank_append (by simpa using h)]

theorem trimStart_append (h : cs.all isBlank = false) (more : List Char) :
    trimStart (cs ++ more) = trimStart cs ++ more := by
  have hleft : (trimStart cs).isEmpty = false := by
    rw [List.isEmpty_eq_false_iff]
    intro hnil
    rw [trimStart, List.dropWhile_eq_nil_iff] at hnil
    rw [List.all_eq_true.2 hnil] at h
    cases h
  rw [trimStart, List.dropWhile_append, ← trimStart, hleft]
  rfl

theorem trimStart_of_all (h : cs.all isBlank = true) : trimStart cs = [] :=
  List.dropWhile_eq_nil_iff.2 (List.all_eq_true.1 h)

theorem trim_blank_append {before : String} (h : allBlank before = true) (s : String) :
    trim (before ++ s) = trim s := by
  rw [trim, trim, String.toList_append, trimStart_blank_append h]

theorem trim_append_blank {after : String} (h : allBlank after = true) (s : String) :
    trim (s ++ after) = trim s := by
  rw [trim, trim, String.toList_append]
  by_cases hs : s.toList.all isBlank = true
  · rw [trimStart_of_all hs, trimStart_blank_append hs, trimStart_of_all h]
  · rw [trimStart_append (Bool.eq_false_iff.2 hs), trimEnd_append_blank h]

/-- Blanks at the ends are all that is ever dropped. -/
theorem trim_eq_self {s : String} (hfirst : ∀ c ∈ s.toList.head?, isBlank c = false)
    (hlast : ∀ c ∈ s.toList.getLast?, isBlank c = false) : trim s = s := by
  have hstart : ∀ cs : List Char, (∀ c ∈ cs.head?, isBlank c = false) → trimStart cs = cs := by
    intro cs hcs
    cases cs with
    | nil => rfl
    | cons c cs => simp [trimStart, hcs c rfl]
  rw [trim, hstart _ hfirst, trimEnd, hstart, List.reverse_reverse, String.ofList_toList]
  simpa [List.head?_reverse] using hlast

/-- A text is one that does not end with a blank, and blanks after it. -/
theorem exists_eq_append_blank (s : String) : ∃ kept blanks : String, s = kept ++ blanks ∧
    allBlank blanks = true ∧ ∀ c ∈ kept.toList.getLast?, isBlank c = false := by
  refine ⟨String.ofList (trimEnd s.toList),
    String.ofList (s.toList.reverse.takeWhile isBlank).reverse, ?_, ?_, ?_⟩
  · rw [← String.ofList_append, trimEnd, trimStart, ← List.reverse_append,
      List.takeWhile_append_dropWhile, List.reverse_reverse, String.ofList_toList]
  · rw [allBlank, String.toList_ofList, List.all_reverse]
    exact List.all_takeWhile
  · intro c hc
    rw [String.toList_ofList, trimEnd, List.getLast?_reverse] at hc
    have hhead := List.head?_dropWhile_not isBlank s.toList.reverse
    rw [← trimStart, hc] at hhead
    simpa using hhead

end MailMerge.Text
