import MailMerge.Proofs.Template.Syntax
import MailMerge.Proofs.Text.Pattern

/-!
# What the directives of a template are read as

A path has no colon, so that the only colon of a directive ends its path. Main statements: the text
of each directive is read as that directive, and the texts that close blocks are read as nothing.
-/

namespace MailMerge

namespace Text

variable {member : Char → Bool}

/-- A path is what stands before a colon, if the word that starts with the colon is nowhere after it. -/
theorem matchParts?_path {parts : List Part} {path w tail : List Char} (hne : path ≠ [])
    (hpath : ∀ c ∈ path, c ≠ ' ' ∧ c ≠ ':') (htail : ¬(':' :: w) <:+: tail) :
    matchParts? (Opening.path :: .word (':' :: w) :: parts) (path ++ ':' :: tail) =
      (matchParts? (.word w :: parts) tail).map (path :: ·) := by
  have hnext : matchParts? (.word (':' :: w) :: parts) (':' :: tail) =
      matchParts? (.word w :: parts) tail := by
    simp [matchParts?, List.isPrefixOf]
  rw [Opening.path, matchParts?_keep, run?_append hne, hnext, Option.map_map]
  · rfl
  · exact fun c hc => by simpa using (hpath c hc).1
  · refine run?_eq_none fun s hlength hs => matchParts?_word_eq_none fun hbegins => ?_
    rcases List.suffix_cons_iff.1 hs with rfl | hs
    · simp at hlength
    · exact htail (hbegins.isInfix.trans hs.isInfix)
  · intro c s hs
    have hmem : c ∈ path := hs.subset List.mem_cons_self
    exact matchParts?_word_ne (Ne.symm (hpath c hmem).2)

/-- A word between brackets is what stands before the closing one. -/
theorem matchParts?_brackets {word : List Char} (hne : word ≠ [])
    (hword : ∀ c ∈ word, member c = true ∧ c ≠ ')') (hstop : member ')' = false) :
    matchParts? [.keep member, .exactly ")"] (word ++ [')']) = some [word] := by
  rw [matchParts?_keep, run?_append hne]
  · simp [matchParts?, Part.exactly, keepRun]
  · exact fun c hc => (hword c hc).1
  · simp [run?, hstop]
  · intro c s hs
    have hmem : c ∈ word := hs.subset List.mem_cons_self
    exact matchParts?_word_ne (Ne.symm (hword c hmem).2)

end Text

namespace Template

variable (path name : Word)

theorem Word.toList_ne_nil (word : Word) : word.text.toList ≠ [] := by
  intro h
  exact word.nonempty (String.toList_injective h)

theorem Word.ne_of_mem (word : Word) {c : Char} (hc : c ∈ word.text.toList) :
    (c ≠ ' ' ∧ c ≠ ':') ∧ c ≠ '(' ∧ c ≠ ')' ∧ c ≠ '=' := by
  have h := word.unparted c hc
  simpa [not_or, and_assoc] using h

variable {s : String} {tail : List Char}

/-- What a pattern with a path finds in a text with a path. -/
theorem match?_path (w : List Char) (parts : List Text.Part) (hs : s.toList = path.text.toList ++ ':' :: tail) (htail : ':' ∉ tail) :
    Text.match? (Opening.path :: .word (':' :: w) :: parts) s =
      (Text.matchParts? (.word w :: parts) tail).map (path.text :: ·.map String.ofList) := by
  rw [Text.match?_eq, hs, Text.matchParts?_path path.toList_ne_nil
    (fun c hc => (path.ne_of_mem hc).1) fun h => htail (h.subset List.mem_cons_self), Option.map_map]
  simp [Function.comp_def]

theorem match?_path_eq_none {w : List Char} (parts : List Text.Part) (hs : s.toList = path.text.toList ++ ':' :: tail) (htail : ':' ∉ tail)
    (hw : w.isPrefixOf tail = false) :
    Text.match? (Opening.path :: .word (':' :: w) :: parts) s = none := by
  rw [match?_path path w parts hs htail, Text.matchParts?, hw]
  rfl

theorem colon_notMem (word : Word) : ':' ∉ word.text.toList :=
  fun h => (word.ne_of_mem h).1.2 rfl

/-- A text that begins with a path is no insertion. -/
theorem ofText_path (hs : s.toList = path.text.toList ++ ':' :: tail) :
    Directive.ofText s =
      match Opening.ofText? s with
      | some o => .opening o
      | none => .other := by
  unfold Directive.ofText
  split
  next rest heq =>
    rw [hs] at heq
    cases hpath : path.text.toList with
    | nil => exact absurd hpath path.toList_ne_nil
    | cons c cs =>
      rw [hpath, List.cons_append] at heq
      have hc := path.ne_of_mem (c := c) (by rw [hpath]; exact List.mem_cons_self)
      exact absurd (List.cons.inj heq).1 hc.2.2.2
  next => rfl

theorem ofText_insertion :
    Directive.ofText ("=" ++ path.text) = .insertion (Expression.parse path.text) := by
  simp [Directive.ofText]

theorem ofText_loop : Directive.ofText (path.text ++ ":each(" ++ name.text ++ ")") =
    .opening (.each path.text name.text) := by
  have hs : (path.text ++ ":each(" ++ name.text ++ ")").toList =
      path.text.toList ++ ':' :: ("each(".toList ++ (name.text.toList ++ [')'])) := by simp
  have htail : ':' ∉ "each(".toList ++ (name.text.toList ++ [')']) := by
    simp [colon_notMem name]
  have hname : ∀ c ∈ name.text.toList, decide (c ≠ ' ' ∧ c ≠ ')') = true ∧ c ≠ ')' := by
    intro c hc
    simp [name.ne_of_mem hc]
  have hfound : Text.match? Opening.eachPattern (path.text ++ ":each(" ++ name.text ++ ")") =
      some [path.text, name.text] := by
    refine (match?_path path "each(".toList _ hs htail).trans ?_
    rw [Text.matchParts?, if_pos (by simp), List.drop_left,
      Text.matchParts?_brackets name.toList_ne_nil hname (by simp)]
    simp
  rw [ofText_path path hs, Opening.ofText?, Opening.each?, hfound]
  rfl

theorem each?_eq_none (hs : s.toList = path.text.toList ++ ':' :: tail) (htail : ':' ∉ tail)
    (hw : "each(".toList.isPrefixOf tail = false) : Opening.each? s = none := by
  have hnone : Text.match? Opening.eachPattern s = none := match?_path_eq_none path _ hs htail hw
  rw [Opening.each?, hnone]

theorem match?_questionPattern_eq_none (hs : s.toList = path.text.toList ++ ':' :: tail)
    (htail : ':' ∉ tail) (hw : "if(".toList.isPrefixOf tail = false) :
    Text.match? Opening.questionPattern s = none := match?_path_eq_none path _ hs htail hw

theorem match?_conditionPattern_eq_none (hs : s.toList = path.text.toList ++ ':' :: tail)
    (htail : ':' ∉ tail) (hw : tail ≠ "if".toList) :
    Text.match? Opening.conditionPattern s = none := by
  refine (match?_path path "if".toList [] hs htail).trans ?_
  rw [Text.matchParts?]
  split
  next hbegins =>
    obtain ⟨more, rfl⟩ := List.isPrefixOf_iff_prefix.1 hbegins
    have hmore : more ≠ [] := fun h => hw (by rw [h, List.append_nil])
    rw [List.drop_left, Text.matchParts?]
    simp [hmore]
  next => rfl

theorem ofText_condition (question? : Option Word) :
    Directive.ofText (Head.condition path question?).text =
      .opening (.condition path.text (question?.map Word.text)) := by
  cases question? with
  | none =>
    have hs : (path.text ++ ":if").toList = path.text.toList ++ ':' :: "if".toList := by simp
    have htail : ':' ∉ "if".toList := by decide
    have hquestion := match?_questionPattern_eq_none path hs htail (by decide)
    have hfound : Text.match? Opening.conditionPattern (path.text ++ ":if") =
        some [path.text] := by
      refine (match?_path path "if".toList [] hs htail).trans ?_
      simp [Text.matchParts?]
    rw [Head.text, ofText_path path hs, Opening.ofText?,
      each?_eq_none path hs htail (by decide), Opening.condition?, hquestion, hfound]
    rfl
  | some question =>
    have hs : (path.text ++ ":if(" ++ question.text ++ ")").toList =
        path.text.toList ++ ':' :: ("if(".toList ++ (question.text.toList ++ [')'])) := by simp
    have htail : ':' ∉ "if(".toList ++ (question.text.toList ++ [')']) := by
      simp [colon_notMem question]
    have hmember : ∀ c ∈ question.text.toList, decide (c ≠ ')') = true ∧ c ≠ ')' := by
      intro c hc
      simp [question.ne_of_mem hc]
    have hfound : Text.match? Opening.questionPattern
        (path.text ++ ":if(" ++ question.text ++ ")") = some [path.text, question.text] := by
      refine (match?_path path "if(".toList _ hs htail).trans ?_
      rw [Text.matchParts?, if_pos (by simp), List.drop_left,
        Text.matchParts?_brackets question.toList_ne_nil hmember (by simp)]
      simp
    rw [Head.text, ofText_path path hs, Opening.ofText?,
      each?_eq_none path hs htail (by simp [List.isPrefixOf]), Opening.condition?, hfound]
    rfl

/-! ## Texts that open nothing -/

theorem call?_eq_none (hs : s.toList = path.text.toList ++ ':' :: tail) (htail : ':' ∉ tail)
    (hw : "call".toList.isPrefixOf tail = false) : Opening.call? s = none := by
  have hw' : "call(".toList.isPrefixOf tail = false := by
    rw [Bool.eq_false_iff] at hw ⊢
    intro h
    have hlonger : "call".toList <+: "call(".toList := ⟨['('], rfl⟩
    exact hw (List.isPrefixOf_iff_prefix.2 (hlonger.trans (List.isPrefixOf_iff_prefix.1 h)))
  have harguments : Text.match? Opening.argumentsPattern s = none :=
    match?_path_eq_none path _ hs htail hw'
  have hcall : Text.match? Opening.callPattern s = none :=
    match?_path_eq_none path _ hs htail hw
  rw [Opening.call?, harguments, hcall]

/-- A path with a word after it that is none of the known ones opens nothing. -/
theorem ofText_other (hs : s.toList = path.text.toList ++ ':' :: tail) (htail : ':' ∉ tail)
    (heach : "each(".toList.isPrefixOf tail = false) (hif : "if(".toList.isPrefixOf tail = false)
    (hif' : tail ≠ "if".toList) (hcall : "call".toList.isPrefixOf tail = false) :
    Directive.ofText s = .other := by
  have hcomment : s ≠ "comment" := by
    intro h
    have hmem : ':' ∈ s.toList := by simp [hs]
    rw [h] at hmem
    exact absurd hmem (by decide)
  rw [ofText_path path hs, Opening.ofText?, each?_eq_none path hs htail heach,
    Opening.condition?, match?_questionPattern_eq_none path hs htail hif,
    match?_conditionPattern_eq_none path hs htail hif', if_neg hcomment,
    call?_eq_none path hs htail hcall]
  rfl

theorem ofText_endEach : Directive.ofText (path.text ++ ":endEach") = .other := by
  have hs : (path.text ++ ":endEach").toList = path.text.toList ++ ':' :: "endEach".toList := by
    simp
  exact ofText_other path hs (by decide) (by decide) (by decide) (by decide) (by decide)

theorem ofText_endIf : Directive.ofText (path.text ++ ":endIf") = .other := by
  have hs : (path.text ++ ":endIf").toList = path.text.toList ++ ':' :: "endIf".toList := by simp
  exact ofText_other path hs (by decide) (by decide) (by decide) (by decide) (by decide)

/-- The text that opens a block is read as what it opens. -/
theorem Head.ofText_text (head : Head) : Directive.ofText head.text = .opening head.opening := by
  cases head with
  | loop path name => exact ofText_loop path name
  | condition path question? => exact ofText_condition path question?
  | comment => decide

/-- The text that closes a block does nothing by itself. -/
theorem Head.ofText_endText (head : Head) : Directive.ofText head.opening.endText = .other := by
  cases head with
  | loop path name => exact ofText_endEach path
  | condition path question? => exact ofText_endIf path
  | comment => decide

end Template

end MailMerge
