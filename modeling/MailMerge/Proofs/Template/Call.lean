import Mathlib.Data.List.Infix
import MailMerge.Proofs.Template.Directive

/-!
# The texts that open calls

A call is read as it is written unless its arguments have a closing bracket, or the word of a
directive with an argument (`Opening.ofText_callText`). Otherwise it is read as another directive, or
as none (`Opening.of_ofText?_callText`).
-/

namespace MailMerge

open Text

namespace Text

variable {xs ys w : List Char} {c : Char}

/-- What does not have a character stands on one side of it. -/
theorem infix_append_cons_of_notMem (hc : c ∉ w) (h : w <:+: xs ++ c :: ys) :
    w <:+: xs ∨ w <:+: ys := by
  rcases List.infix_append_iff.1 h with h | h | ⟨front, back, rfl, hfront, hback⟩
  · exact .inl h
  · rcases List.infix_cons_iff.1 h with hbegins | h
    · rcases List.prefix_cons_iff.1 hbegins with rfl | ⟨rest, rfl, -⟩
      · exact .inl (List.nil_infix)
      · exact absurd List.mem_cons_self hc
    · exact .inr h
  · rcases List.prefix_cons_iff.1 hback with rfl | ⟨rest, rfl, -⟩
    · rw [List.append_nil]
      exact .inl hfront.isInfix
    · exact absurd (by simp) hc

/-- What begins with a character stands after what does not have it. -/
theorem infix_of_append_of_notMem (hc : c ∉ xs) (h : c :: w <:+: xs ++ ys) : c :: w <:+: ys := by
  induction xs with
  | nil => exact h
  | cons x xs ih =>
    rcases List.infix_cons_iff.1 h with hbegins | h
    · obtain ⟨heq, -⟩ := List.cons_prefix_cons.1 hbegins
      exact absurd (heq ▸ List.mem_cons_self) hc
    · exact ih (fun hin => hc (List.mem_cons_of_mem _ hin)) h

end Text

namespace Opening

/-! ## What is read off a text -/

variable {s : String} {opening : Opening} {path : String} {arguments? : Option String}

theorem each?_eq_some (h : each? s = some opening) : ∃ path name, opening = .each path name := by
  unfold each? at h
  split at h
  next => exact ⟨_, _, (Option.some.inj h).symm⟩
  next => cases h

theorem condition?_eq_some (h : condition? s = some opening) :
    ∃ path question?, opening = .condition path question? := by
  unfold condition? at h
  split at h
  next => exact ⟨_, _, (Option.some.inj h).symm⟩
  next => exact ⟨_, _, (Option.some.inj h).symm⟩
  next => cases h

theorem match?_eq_some {parts : List Part} {found : List String} (h : match? parts s = some found) :
    ∃ runs, matchParts? parts s.toList = some runs ∧ found = runs.map String.ofList := by
  rw [match?_eq] at h
  obtain ⟨runs, hruns, rfl⟩ := Option.map_eq_some_iff.1 h
  exact ⟨runs, hruns, rfl⟩

/-- A call has its path in front of its word, and its arguments in brackets after it. -/
theorem call?_eq_some (h : call? s = some (.call path arguments?)) :
    match arguments? with
    | none => s.toList = path.toList ++ ":call".toList
    | some arguments => match? argumentsPattern s = some [path, arguments] ∧ ')' ∉ arguments.toList ∧
        s.toList = path.toList ++ (":call(".toList ++ (arguments.toList ++ [')'])) := by
  unfold call? at h
  split at h
  next path arguments _ hmatch =>
    cases h
    -- The form of the match is taken apart, one part of the pattern after the other.
    refine ⟨hmatch, ?_⟩
    obtain ⟨runs, hruns, hfound⟩ := match?_eq_some hmatch
    have hform := Form.of_matchParts? hruns
    generalize s.toList = cs at hform
    cases hform with
    | run _ _ hform =>
      cases hform with
      | word _ hform =>
        cases hform with
        | run hmember _ hform =>
          cases hform with
          | word _ hform =>
            cases hform
            simp only [keepRun, if_true, List.map_cons, List.map_nil, List.cons.injEq] at hfound
            obtain ⟨rfl, rfl, -⟩ := hfound
            refine ⟨fun hin => ?_, by simp⟩
            simpa using hmember ')' (by simpa using hin)
  next path hmatch _ =>
    cases h
    obtain ⟨runs, hruns, hfound⟩ := match?_eq_some hmatch
    have hform := Form.of_matchParts? hruns
    dsimp only
    generalize s.toList = cs at hform ⊢
    cases hform with
    | run _ _ hform =>
      cases hform with
      | word _ hform =>
        cases hform
        simp only [keepRun, if_true, List.map_cons, List.map_nil, List.cons.injEq] at hfound
        obtain ⟨rfl, -⟩ := hfound
        simp
  next => cases h

/-- A call is what is read neither as a loop nor as a condition. -/
theorem ofText?_eq_call (h : ofText? s = some (.call path arguments?)) :
    each? s = none ∧ condition? s = none ∧ call? s = some (.call path arguments?) := by
  unfold ofText? at h
  rcases Option.or_eq_some_iff.1 h with heach | ⟨heach, h⟩
  · obtain ⟨_, _, heq⟩ := each?_eq_some heach
    cases heq
  rcases Option.or_eq_some_iff.1 h with hcondition | ⟨hcondition, h⟩
  · obtain ⟨_, _, heq⟩ := condition?_eq_some hcondition
    cases heq
  split at h
  next => cases h
  next => exact ⟨heach, hcondition, h⟩

theorem isSome_each? (h : (matchParts? eachPattern s.toList).isSome) : (each? s).isSome := by
  obtain ⟨runs, hruns⟩ := Option.isSome_iff_exists.1 h
  have hlength : runs.length = 2 := (Form.of_matchParts? hruns).length_found
  obtain ⟨path, name, rfl⟩ := List.length_eq_two.1 hlength
  rw [each?, match?_eq, hruns]
  rfl

theorem isSome_condition? (h : (matchParts? questionPattern s.toList).isSome) :
    (condition? s).isSome := by
  obtain ⟨runs, hruns⟩ := Option.isSome_iff_exists.1 h
  have hlength : runs.length = 2 := (Form.of_matchParts? hruns).length_found
  obtain ⟨path, question, rfl⟩ := List.length_eq_two.1 hlength
  rw [condition?, match?_eq, hruns]
  rfl

/-! ## Calls as they are written -/

/-- The text that opens a call. -/
def callText (path arguments : String) : String := path ++ ":call(" ++ arguments ++ ")"

/-- The words that end the path of a directive with an argument. -/
def words : List (List Char) := [":each(".toList, ":if(".toList, ":call(".toList]

section Written

variable {path : Template.Word} {arguments : String} {w : List Char}

theorem toList_callText (path arguments : String) : (callText path arguments).toList =
    path.toList ++ ':' :: ("call(".toList ++ (arguments.toList ++ [')'])) := by
  simp [callText]

theorem getLast?_callText (path arguments : String) :
    (callText path arguments).toList.getLast? = some ')' := by
  rw [callText, String.toList_append, List.getLast?_append]
  rfl

/-- A word of a directive with an argument is after the path of a call only if it is among the
arguments. -/
theorem infix_of_infix_tail (hw : w ∈ words)
    (h : w <:+: "call(".toList ++ (arguments.toList ++ [')'])) : w <:+: arguments.toList := by
  obtain ⟨more, rfl, hbracket⟩ : ∃ more, w = ':' :: more ∧ ')' ∉ w := by
    simp only [words, List.mem_cons, List.not_mem_nil, or_false] at hw
    rcases hw with rfl | rfl | rfl <;> exact ⟨_, rfl, by decide⟩
  have hinner := infix_of_append_of_notMem (by decide) h
  refine (infix_append_cons_of_notMem hbracket hinner).resolve_right fun hnil => ?_
  cases List.infix_nil.1 hnil

/-- What a pattern with a path finds in a call whose arguments do not have the word after the path. -/
theorem matchParts?_callText {parts : List Part} (hw : ':' :: w ∈ words)
    (h : ¬(':' :: w) <:+: arguments.toList) :
    matchParts? (Opening.path :: .word (':' :: w) :: parts) (callText path.text arguments).toList =
      (matchParts? (.word w :: parts) ("call(".toList ++ (arguments.toList ++ [')']))).map
        (path.text.toList :: ·) := by
  rw [toList_callText]
  exact matchParts?_path path.toList_ne_nil (fun c hc => (path.ne_of_mem hc).1)
    fun hin => h (infix_of_infix_tail hw hin)

/-- A text that ends in another character than a word does not end in the word. -/
theorem match?_conditionPattern_callText (path arguments : String) :
    match? conditionPattern (callText path arguments) = none := by
  cases hmatch : match? conditionPattern (callText path arguments) with
  | none => rfl
  | some found =>
    obtain ⟨runs, hruns, -⟩ := match?_eq_some hmatch
    have hform := Form.of_matchParts? hruns
    have hlast := getLast?_callText path arguments
    generalize (callText path arguments).toList = cs at hform hlast
    cases hform with
    | run _ _ hform =>
      cases hform with
      | word _ hform =>
        cases hform
        simp [List.getLast?_append] at hlast

/-- A call is read as it is written if no closing bracket and no opening word is among its
arguments. -/
theorem ofText_callText (hbracket : ')' ∉ arguments.toList)
    (hwords : ∀ w ∈ words, ¬w <:+: arguments.toList) :
    Directive.ofText (callText path.text arguments) =
      .opening (.call path.text (some arguments)) := by
  have heach : match? eachPattern (callText path.text arguments) = none := by
    rw [match?_eq, Option.map_eq_none_iff]
    refine (matchParts?_callText (w := "each(".toList) (by decide) (hwords _ (by decide))).trans ?_
    rw [matchParts?_word_eq_none (by simp [List.cons_prefix_cons])]
    rfl
  have hquestion : match? questionPattern (callText path.text arguments) = none := by
    rw [match?_eq, Option.map_eq_none_iff]
    refine (matchParts?_callText (w := "if(".toList) (by decide) (hwords _ (by decide))).trans ?_
    rw [matchParts?_word_eq_none (by simp [List.cons_prefix_cons])]
    rfl
  have hinner : matchParts? [.keepAny (· ≠ ')'), .exactly ")"] (arguments.toList ++ [')']) =
      some [arguments.toList] := by
    by_cases hnil : arguments.toList = []
    · rw [hnil]
      rfl
    · have hne : ∀ c ∈ arguments.toList, c ≠ ')' := fun c hc heq => hbracket (heq ▸ hc)
      exact matchParts?_keepAny <|
        matchParts?_brackets hnil (fun c hc => ⟨decide_eq_true (hne c hc), hne c hc⟩) (by decide)
  have hcall : match? argumentsPattern (callText path.text arguments) =
      some [path.text, arguments] := by
    rw [match?_eq]
    have hmatch : matchParts? argumentsPattern (callText path.text arguments).toList =
        some [path.text.toList, arguments.toList] := by
      refine (matchParts?_callText (w := "call(".toList) (by decide) (hwords _ (by decide))).trans ?_
      rw [matchParts?, if_pos (by simp), List.drop_left, hinner]
      rfl
    rw [hmatch]
    simp
  -- A call ends with a bracket, which the word for a comment does not.
  have hcomment : callText path.text arguments ≠ "comment" := by
    intro heq
    have hlast := getLast?_callText path.text arguments
    rw [heq] at hlast
    exact absurd hlast (by decide)
  rw [Template.ofText_path path (toList_callText _ _), ofText?, each?, heach, condition?, hquestion,
    match?_conditionPattern_callText, if_neg hcomment, call?, hcall]
  rfl

section Later

variable {front after : List Char} {member : Char → Bool} {parts : List Part}
  (hfront : ∀ c ∈ path.text.toList ++ front, c ≠ ' ')

include hfront

/-- A text with a word of a directive in it, and more before the closing bracket, is found with the
word. -/
theorem isSome_matchParts?_of_occurs (hafter : after ≠ []) (hmember : ∀ c ∈ after, member c = true)
    (hcs : s.toList = path.text.toList ++ (front ++ (w ++ (after ++ [')'])))) :
    (matchParts? [Opening.path, .word w, .keep member, .exactly ")"] s.toList).isSome := by
  have hclose : Form [.exactly ")"] [')'] [] := .word [')'] .nil
  have hne : path.text.toList ++ front ≠ [] := fun hnil =>
    path.toList_ne_nil (List.append_eq_nil_iff.1 hnil).1
  have hform : Form [Opening.path, .word w, .keep member, .exactly ")"]
      (path.text.toList ++ front ++ (w ++ (after ++ [')']))) _ :=
    .run (fun c hc => decide_eq_true (hfront c hc)) (fun _ => hne)
      (.word w (.run hmember (fun _ => hafter) hclose))
  rw [hcs, ← List.append_assoc]
  exact hform.isSome_matchParts?

/-- A path that could end at a later word is not found to end at an earlier one. -/
theorem ne_path_of_match? {found : String} (hne : front ≠ []) (hafter : ')' ∉ after)
    (hcs : s.toList = path.text.toList ++ (front ++ (":call(".toList ++ (after ++ [')']))))
    (h : match? argumentsPattern s = some [path.text, found]) : False := by
  have hnext : (matchParts? [.exactly ":call(", .keepAny (· ≠ ')'), .exactly ")"]
      (":call(".toList ++ (after ++ [')']))).isSome := by
    have hclose : Form [.exactly ")"] [')'] [] := .word [')'] .nil
    have hform : Form [.exactly ":call(", .keepAny (· ≠ ')'), .exactly ")"]
        (":call(".toList ++ (after ++ [')'])) _ :=
      .word _ (.run (fun c hc => decide_eq_true fun heq : c = ')' => hafter (heq ▸ hc)) (by simp)
        hclose)
    exact hform.isSome_matchParts?
  have hne' : path.text.toList ++ front ≠ [] := fun hnil =>
    path.toList_ne_nil (List.append_eq_nil_iff.1 hnil).1
  have hchars : ∀ c ∈ path.text.toList ++ front, (fun c : Char => decide (c ≠ ' ')) c = true :=
    fun c hc => decide_eq_true (hfront c hc)
  obtain ⟨run, a, hrun, hle⟩ := exists_run?_of_append hne' hchars hnext
  obtain ⟨runs, hruns, hfound⟩ := match?_eq_some h
  rw [hcs, ← List.append_assoc, argumentsPattern, Opening.path, matchParts?_keep, hrun] at hruns
  cases hruns
  obtain ⟨hpath, -⟩ := List.cons.inj hfound
  have hlength := List.length_pos_iff.2 hne
  rw [hpath, String.toList_ofList, List.length_append] at hle
  omega

end Later

/-- A call is read with its own path only if no closing bracket and no opening word is among its
arguments. -/
theorem of_ofText?_callText (hspace : ' ' ∉ arguments.toList)
    (hmore : ∀ w ∈ words, w <:+: arguments.toList →
      ∃ before after, arguments.toList = before ++ (w ++ after) ∧ after ≠ [])
    (h : ofText? (callText path.text arguments) = some (.call path.text arguments?)) :
    ')' ∉ arguments.toList ∧ ∀ w ∈ words, ¬w <:+: arguments.toList := by
  obtain ⟨heach, hcondition, hcall⟩ := ofText?_eq_call h
  have hcs : (callText path.text arguments).toList =
      path.text.toList ++ (":call(".toList ++ (arguments.toList ++ [')'])) := toList_callText _ _
  have hread := call?_eq_some hcall
  cases arguments? with
  | none =>
    rw [hcs, List.append_cancel_left_eq] at hread
    exact absurd (congrArg List.length hread) (by simp)
  | some found =>
    obtain ⟨hmatch, hbracket, htext⟩ := hread
    rw [hcs, List.append_cancel_left_eq, List.append_cancel_left_eq, List.append_cancel_right_eq]
      at htext
    rw [← htext] at hbracket
    refine ⟨hbracket, fun w hw hin => ?_⟩
    obtain ⟨before, after, heq, hafter⟩ := hmore w hw hin
    have hwhole : (callText path.text arguments).toList =
        path.text.toList ++ ((":call(".toList ++ before) ++ (w ++ (after ++ [')']))) := by
      rw [hcs, heq]
      simp
    -- A word among the arguments would be matched at its place, with what follows it as its own
    -- brackets.
    have hfree : ∀ c ∈ after, c ≠ ' ' ∧ c ≠ ')' := by
      intro c hc
      have hmem : c ∈ arguments.toList := by simp [heq, hc]
      exact ⟨fun heq => hspace (heq ▸ hmem), fun heq => hbracket (heq ▸ hmem)⟩
    have hfront : ∀ c ∈ path.text.toList ++ (":call(".toList ++ before), c ≠ ' ' := by
      rintro _ hc rfl
      rcases List.mem_append.1 hc with hpath | hc
      · exact (path.ne_of_mem hpath).1.1 rfl
      rcases List.mem_append.1 hc with hword | hbefore
      · exact absurd hword (by decide)
      · exact hspace (by simp [heq, hbefore])
    simp only [words, List.mem_cons, List.not_mem_nil, or_false] at hw
    rcases hw with rfl | rfl | rfl
    · have hfound := isSome_each? (isSome_matchParts?_of_occurs hfront hafter
        (fun c hc => decide_eq_true (hfree c hc)) hwhole)
      rw [heach] at hfound
      cases hfound
    · have hfound := isSome_condition? (isSome_matchParts?_of_occurs hfront hafter
        (fun c hc => decide_eq_true (hfree c hc).2) hwhole)
      rw [hcondition] at hfound
      cases hfound
    · exact ne_path_of_match? hfront (by simp) (fun hin => (hfree _ hin).2 rfl) hwhole hmatch

end Written
end Opening

end MailMerge
