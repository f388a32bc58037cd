import Mathlib.Data.List.Induction
import MailMerge.Proofs.Statement.Pairing
import MailMerge.Proofs.Text.Pattern

/-!
# The statements in one pass

The texts that open blocks are told by how they are written (`Directive.ofText_eq_opening_iff_text`).
The search for the end of a block is a recursion into the blocks inside it. One pass over the fields
with a stack of the blocks that are still open finds the same statements, and the block that it
names when the fields run out is the innermost one that is open.
-/

namespace MailMerge

open Xml

/-! ## The texts that open blocks -/

namespace Opening

open Text

variable {s : String} {o o' : Opening} {first later : Option Opening} {r : Nat}

/-- The text that opens a block. -/
def text : Opening → String
  | each path name => path ++ ":each(" ++ name ++ ")"
  | condition path none => path ++ ":if"
  | condition path (some question) => path ++ ":if(" ++ question ++ ")"
  | call path none => path ++ ":call"
  | call path (some arguments) => path ++ ":call(" ++ arguments ++ ")"
  | comment => "comment"

/-- A path is not empty and has no space. -/
def IsPath (path : String) : Prop := path ≠ "" ∧ ∀ c ∈ path.toList, c ≠ ' '

/-- What opens a block can be told by a text: it has a path, and no closing bracket stands between the
brackets. -/
def Writable : Opening → Prop
  | each path name => IsPath path ∧ name ≠ "" ∧ ∀ c ∈ name.toList, c ≠ ' ' ∧ c ≠ ')'
  | condition path none => IsPath path
  | condition path (some question) => IsPath path ∧ question ≠ "" ∧ ∀ c ∈ question.toList, c ≠ ')'
  | call path none => IsPath path
  | call path (some arguments) => IsPath path ∧ ∀ c ∈ arguments.toList, c ≠ ')'
  | comment => True

/-- A text opens a block in a way that is written like this. -/
def WrittenAs (s : String) (o : Opening) : Prop := o.Writable ∧ s = o.text

/-- Which forms come before others. -/
def rank : Opening → Nat
  | each _ _ => 0
  | condition _ (some _) => 1
  | condition _ none => 2
  | comment => 3
  | call _ (some _) => 4
  | call _ none => 5

/-- How long the path is. -/
def reach : Opening → Nat
  | each path _ | condition path _ | call path _ => path.length
  | comment => 0

/-- One reading comes before another: its form does, or it has the same form and no shorter path. -/
def Precedes (o o' : Opening) : Prop := o.rank < o'.rank ∨ o.rank = o'.rank ∧ o'.reach ≤ o.reach

/-- Of the readings of one form, that with the longest path. -/
structure Longest (s : String) (r : Nat) (result : Option Opening) : Prop where
  found : ∀ o, result = some o → WrittenAs s o ∧ o.rank = r ∧
    ∀ o', WrittenAs s o' → o'.rank = r → o'.reach ≤ o.reach
  missed : result = none → ∀ o', WrittenAs s o' → o'.rank ≠ r

/-- Of the readings of one form and all later ones, the first. -/
structure First (s : String) (r : Nat) (result : Option Opening) : Prop where
  found : ∀ o, result = some o → WrittenAs s o ∧ r ≤ o.rank ∧
    ∀ o', WrittenAs s o' → r ≤ o'.rank → o.Precedes o'
  missed : result = none → ∀ o', WrittenAs s o' → o'.rank < r

theorem Longest.or (hfirst : Longest s r first) (hlater : First s (r + 1) later) :
    First s r (first.or later) where
  found o h := by
    rcases Option.or_eq_some_iff.1 h with hhere | ⟨hnone, hlater'⟩
    · obtain ⟨hwritten, hrank, hlongest⟩ := hfirst.found o hhere
      refine ⟨hwritten, Nat.le_of_eq hrank.symm, fun o' ho' hr => ?_⟩
      rcases Nat.eq_or_lt_of_le hr with heq | hlt
      · exact .inr ⟨hrank.trans heq, hlongest o' ho' heq.symm⟩
      · exact .inl (hrank ▸ hlt)
    · obtain ⟨hwritten, hrank, hprecedes⟩ := hlater.found o hlater'
      refine ⟨hwritten, Nat.le_of_succ_le hrank, fun o' ho' hr => ?_⟩
      exact hprecedes o' ho' (Nat.lt_of_le_of_ne hr (Ne.symm (hfirst.missed hnone o' ho')))
  missed h o' ho' := by
    obtain ⟨hnone, hnone'⟩ := Option.or_eq_none_iff.1 h
    exact Nat.lt_of_le_of_ne (Nat.le_of_lt_succ (hlater.missed hnone' o' ho'))
      (hfirst.missed hnone o' ho')

/-- Nothing has a form after the last one. -/
theorem first_none (s : String) : First s 6 none where
  found _ h := nomatch h
  missed _ o _ := by
    unfold rank
    split <;> decide

/-! ### What each pattern finds -/

/-- What a pattern with a path finds in a text is what the rest of it finds after the longest path. -/
theorem match?_path_eq_some_iff {parts : List Part} {found : List String} :
    match? (path :: parts) s = some found ↔ ∃ p rest more, IsPath p ∧
      s.toList = p.toList ++ rest ∧ matchParts? parts rest = some more ∧
      found = p :: more.map String.ofList ∧
      ∀ p' rest', s.toList = p'.toList ++ rest' → IsPath p' → (matchParts? parts rest').isSome →
        p'.length ≤ p.length := by
  rw [match?_eq, Option.map_eq_some_iff, path]
  simp only [matchParts?_keep_eq_some_iff]
  constructor
  · rintro ⟨_, ⟨run, rest, more, hs, hne, hrun, hmore, rfl, hlongest⟩, rfl⟩
    refine ⟨String.ofList run, rest, more, ⟨fun h => hne ?_, ?_⟩, by simpa using hs, hmore, rfl, ?_⟩
    · simpa using congrArg String.toList h
    · simpa using hrun
    · intro p' rest' hs' hp' hsome
      simpa [String.length_toList] using
        hlongest p'.toList rest' hs' (by simpa using hp'.2) hsome
  · rintro ⟨p, rest, more, hp, hs, hmore, rfl, hlongest⟩
    refine ⟨p.toList :: more, ⟨p.toList, rest, more, hs, ?_, by simpa using hp.2, hmore, rfl, ?_⟩,
      by simp⟩
    · exact fun h => hp.1 (String.toList_injective h)
    · intro longer later hs' hlonger hsome
      by_cases hnil : longer = []
      · simp [hnil]
      · have hpath : IsPath (String.ofList longer) :=
          ⟨fun h => hnil (by simpa using congrArg String.toList h), by simpa using hlonger⟩
        simpa [String.length_toList] using
          hlongest (String.ofList longer) later (by simpa using hs') hpath hsome

theorem isSome_match?_path {parts : List Part} {p : String} {rest : List Char} (hp : IsPath p)
    (hs : s.toList = p.toList ++ rest) (h : (matchParts? parts rest).isSome) :
    (match? (path :: parts) s).isSome := by
  have hne : p.toList ≠ [] := fun h => hp.1 (String.toList_injective h)
  have hfree : ∀ c ∈ p.toList, (fun c => decide (c ≠ ' ')) c = true :=
    fun c hc => decide_eq_true (hp.2 c hc)
  obtain ⟨run, a, hrun, -⟩ := exists_run?_of_append hne hfree h
  rw [match?_eq, Option.isSome_map, hs, path, matchParts?_keep, Option.isSome_map, hrun]
  rfl

/-- What a pattern finds is the longest reading of a form, if all readings of the form are told by what
can be found. -/
theorem longest_of_forms {parts : List Part} {make : List String → Option Opening}
    (hmake : ∀ p rest more, matchParts? parts rest = some more →
      ∃ o, make (p :: more.map String.ofList) = some o ∧ o.reach = p.length)
    (hforms : ∀ o, WrittenAs s o ∧ o.rank = r ↔ ∃ p rest more, IsPath p ∧
      s.toList = p.toList ++ rest ∧ matchParts? parts rest = some more ∧
      make (p :: more.map String.ofList) = some o) :
    Longest s r ((match? (path :: parts) s).bind make) where
  found o h := by
    obtain ⟨found, hmatch, hfound⟩ := Option.bind_eq_some_iff.1 h
    obtain ⟨p, rest, more, hp, hs, hmore, rfl, hlongest⟩ := match?_path_eq_some_iff.1 hmatch
    obtain ⟨hwritten, hrank⟩ := (hforms o).2 ⟨p, rest, more, hp, hs, hmore, hfound⟩
    refine ⟨hwritten, hrank, fun o' ho' hr => ?_⟩
    obtain ⟨p', rest', more', hp', hs', hmore', hfound'⟩ := (hforms o').1 ⟨ho', hr⟩
    obtain ⟨_, heq, hreach⟩ := hmake p rest more hmore
    obtain ⟨_, heq', hreach'⟩ := hmake p' rest' more' hmore'
    cases heq.symm.trans hfound
    cases heq'.symm.trans hfound'
    rw [hreach, hreach']
    exact hlongest p' rest' hs' hp' (Option.isSome_iff_exists.2 ⟨more', hmore'⟩)
  missed h o ho hr := by
    obtain ⟨p, rest, more, hp, hs, hmore, -⟩ := (hforms o).1 ⟨ho, hr⟩
    obtain ⟨found, hmatch⟩ := Option.isSome_iff_exists.1
      (isSome_match?_path hp hs (Option.isSome_iff_exists.2 ⟨more, hmore⟩))
    obtain ⟨p', rest', more', -, -, hmore', rfl, -⟩ := match?_path_eq_some_iff.1 hmatch
    obtain ⟨o', hmade, -⟩ := hmake p' rest' more' hmore'
    rw [hmatch, Option.bind_some, hmade] at h
    cases h

/-- What opens a block, from a path and something in brackets. -/
def ofTwo (make : String → String → Opening) : List String → Option Opening
  | [path, inner] => some (make path inner)
  | _ => none

/-- What opens a block, from a path. -/
def ofOne (make : String → Opening) : List String → Option Opening
  | [path] => some (make path)
  | _ => none

theorem longest_ofTwo {w : String} {optional : Bool} {member : Char → Bool}
    {make : String → String → Opening} (hreach : ∀ p a, (make p a).reach = p.length)
    (hforms : ∀ o, WrittenAs s o ∧ o.rank = r ↔ ∃ p a, o = make p a ∧ IsPath p ∧
      (optional = false → a ≠ "") ∧ (∀ c ∈ a.toList, member c = true) ∧
      s = p ++ w ++ a ++ ")") :
    Longest s r ((match? [path, .exactly w, .run true optional member, .exactly ")"] s).bind
      (ofTwo make)) := by
  refine longest_of_forms (fun p rest more hmore => ?_) fun o => (hforms o).trans ?_
  · obtain ⟨run, -, -, -, rfl⟩ := matchParts?_bracketed_eq_some_iff.1 hmore
    exact ⟨_, rfl, hreach _ _⟩
  · constructor
    · rintro ⟨p, a, rfl, hp, hne, ha, rfl⟩
      refine ⟨p, w.toList ++ (a.toList ++ [')']), [a.toList], hp, by simp,
        matchParts?_bracketed_eq_some_iff.2
          ⟨_, rfl, fun hopt h => hne hopt (String.toList_injective h), ha, rfl⟩, ?_⟩
      rw [List.map_singleton, String.ofList_toList]
      rfl
    · rintro ⟨p, rest, more, hp, hs, hmore, hmade⟩
      obtain ⟨run, rfl, hne, hrun, rfl⟩ := matchParts?_bracketed_eq_some_iff.1 hmore
      cases hmade
      refine ⟨p, _, rfl, hp, fun hopt h => hne hopt ?_, by simpa using hrun,
        String.toList_injective (by simpa using hs)⟩
      simpa using congrArg String.toList h

theorem longest_ofOne {w : String} {make : String → Opening}
    (hreach : ∀ p, (make p).reach = p.length)
    (hforms : ∀ o, WrittenAs s o ∧ o.rank = r ↔ ∃ p, o = make p ∧ IsPath p ∧ s = p ++ w) :
    Longest s r ((match? [path, .exactly w] s).bind (ofOne make)) := by
  refine longest_of_forms (fun p rest more hmore => ?_) fun o => (hforms o).trans ?_
  · obtain ⟨-, rfl⟩ := matchParts?_exactly_eq_some_iff.1 hmore
    exact ⟨_, rfl, hreach _⟩
  · constructor
    · rintro ⟨p, rfl, hp, rfl⟩
      exact ⟨p, w.toList, [], hp, by simp, matchParts?_exactly_eq_some_iff.2 ⟨rfl, rfl⟩, rfl⟩
    · rintro ⟨p, rest, more, hp, hs, hmore, hmade⟩
      obtain ⟨rfl, rfl⟩ := matchParts?_exactly_eq_some_iff.1 hmore
      cases hmade
      exact ⟨p, rfl, hp, String.toList_injective (by simpa using hs)⟩

/-! ### Which reading is taken -/

/-- A reading of two runs is what is made of them. -/
theorem ofTwo_eq (make : String → String → Opening) (found? : Option (List String)) :
    found?.bind (ofTwo make) =
      match found? with
      | some [path, inner] => some (make path inner)
      | _ => none := by
  rcases found? with _ | _ | ⟨_, _ | ⟨_, _ | _⟩⟩ <;> rfl

theorem each?_eq (s : String) : each? s = (match? eachPattern s).bind (ofTwo each) :=
  (ofTwo_eq _ _).symm

theorem condition?_eq (s : String) : condition? s =
    ((match? questionPattern s).bind (ofTwo fun path question => condition path (some question))).or
      ((match? conditionPattern s).bind (ofOne (condition · none))) := by
  unfold condition?
  rcases match? questionPattern s with _ | _ | ⟨_, _ | ⟨_, _ | _⟩⟩ <;>
    rcases match? conditionPattern s with _ | _ | ⟨_, _ | _⟩ <;> rfl

theorem call?_eq (s : String) : call? s =
    ((match? argumentsPattern s).bind (ofTwo fun path arguments => call path (some arguments))).or
      ((match? callPattern s).bind (ofOne (call · none))) := by
  unfold call?
  rcases match? argumentsPattern s with _ | _ | ⟨_, _ | ⟨_, _ | _⟩⟩ <;>
    rcases match? callPattern s with _ | _ | ⟨_, _ | _⟩ <;> rfl

theorem longest_comment (s : String) :
    Longest s 3 (if s = "comment" then some comment else none) where
  found o h := by
    obtain ⟨rfl, heq⟩ := Option.ite_none_right_eq_some.1 h
    cases heq
    refine ⟨⟨trivial, rfl⟩, rfl, fun o' _ hr => ?_⟩
    rcases o' with _ | ⟨_, _ | _⟩ | ⟨_, _ | _⟩ | _ <;> simp [rank] at hr
    exact Nat.le_refl _
  missed h o ho hr := by
    rcases o with _ | ⟨_, _ | _⟩ | ⟨_, _ | _⟩ | _ <;> simp [rank] at hr
    obtain ⟨-, rfl⟩ := ho
    cases h

/-- What is read is the reading that comes before all others. -/
theorem first_ofText? (s : String) : First s 0 (ofText? s) := by
  have heach : Longest s 0 ((match? eachPattern s).bind (ofTwo each)) := by
    refine longest_ofTwo (fun _ _ => rfl) fun o => ?_
    rcases o with _ | ⟨_, _ | _⟩ | ⟨_, _ | _⟩ | _ <;>
      simp [WrittenAs, Writable, text, rank, and_assoc]
  have hquestion : Longest s 1 ((match? questionPattern s).bind
      (ofTwo fun path question => condition path (some question))) := by
    refine longest_ofTwo (fun _ _ => rfl) fun o => ?_
    rcases o with _ | ⟨_, _ | _⟩ | ⟨_, _ | _⟩ | _ <;>
      simp [WrittenAs, Writable, text, rank, and_assoc]
  have hcondition : Longest s 2 ((match? conditionPattern s).bind (ofOne (condition · none))) := by
    refine longest_ofOne (fun _ => rfl) fun o => ?_
    rcases o with _ | ⟨_, _ | _⟩ | ⟨_, _ | _⟩ | _ <;>
      simp [WrittenAs, Writable, text, rank]
  have harguments : Longest s 4 ((match? argumentsPattern s).bind
      (ofTwo fun path arguments => call path (some arguments))) := by
    refine longest_ofTwo (fun _ _ => rfl) fun o => ?_
    rcases o with _ | ⟨_, _ | _⟩ | ⟨_, _ | _⟩ | _ <;>
      simp [WrittenAs, Writable, text, rank, and_assoc]
  have hcall : Longest s 5 ((match? callPattern s).bind (ofOne (call · none))) := by
    refine longest_ofOne (fun _ => rfl) fun o => ?_
    rcases o with _ | ⟨_, _ | _⟩ | ⟨_, _ | _⟩ | _ <;>
      simp [WrittenAs, Writable, text, rank]
  have hall := heach.or (hquestion.or (hcondition.or
    ((longest_comment s).or (harguments.or (hcall.or (first_none s))))))
  rw [Option.or_none] at hall
  rw [ofText?, each?_eq, condition?_eq, call?_eq, Option.or_assoc]
  split
  next heq =>
    rw [if_pos heq] at hall
    exact hall
  next hne =>
    rw [if_neg hne, Option.none_or] at hall
    exact hall

/-- Texts with paths of one length are the same only if the paths are. -/
theorem path_eq_of_append_eq {p p' a a' : String} (h : p ++ a = p' ++ a')
    (hlength : p.length = p'.length) : p = p' ∧ a = a' := by
  have hlists : p.toList ++ a.toList = p'.toList ++ a'.toList := by
    simpa using congrArg String.toList h
  obtain ⟨hp, ha⟩ := List.append_inj hlists (by simpa [String.length_toList] using hlength)
  exact ⟨String.toList_injective hp, String.toList_injective ha⟩

/-- Of two different readings of a text, only one comes before the other. -/
theorem Precedes.antisymm (h : o.Precedes o') (h' : o'.Precedes o) (ho : WrittenAs s o)
    (ho' : WrittenAs s o') : o = o' := by
  obtain ⟨hrank, hreach⟩ : o.rank = o'.rank ∧ o.reach = o'.reach := by
    unfold Precedes at h h'
    omega
  obtain ⟨-, rfl⟩ := ho
  obtain ⟨-, htext⟩ := ho'
  rcases o with ⟨p, a⟩ | ⟨p, _ | a⟩ | ⟨p, _ | a⟩ | _ <;>
    rcases o' with ⟨p', a'⟩ | ⟨p', _ | a'⟩ | ⟨p', _ | a'⟩ | _ <;> simp [rank] at hrank <;>
      simp only [text, String.append_assoc, reach] at htext hreach
  case comment.comment => rfl
  all_goals
    obtain ⟨rfl, htail⟩ := path_eq_of_append_eq htext hreach
    simp_all

/-- A text opens a block in the way that comes before all others in which it can be written. -/
theorem ofText?_eq_some_iff :
    ofText? s = some o ↔ WrittenAs s o ∧ ∀ o', WrittenAs s o' → o.Precedes o' := by
  have hfirst := first_ofText? s
  constructor
  · intro h
    obtain ⟨hwritten, -, hprecedes⟩ := hfirst.found o h
    exact ⟨hwritten, fun o' ho' => hprecedes o' ho' (Nat.zero_le _)⟩
  · rintro ⟨hwritten, hprecedes⟩
    cases hread : ofText? s with
    | none => exact absurd (hfirst.missed hread o hwritten) (Nat.not_lt_zero _)
    | some o' =>
      obtain ⟨hwritten', -, hprecedes'⟩ := hfirst.found o' hread
      rw [(hprecedes o' hwritten').antisymm (hprecedes' o hwritten (Nat.zero_le _)) hwritten
        hwritten']

/-- A text opens no block if there is no way to write it as one. -/
theorem ofText?_eq_none_iff : ofText? s = none ↔ ∀ o, ¬WrittenAs s o := by
  constructor
  · exact fun h o ho => Nat.not_lt_zero _ ((first_ofText? s).missed h o ho)
  · intro h
    cases hread : ofText? s with
    | none => rfl
    | some o => exact absurd (ofText?_eq_some_iff.1 hread).1 (h o)

end Opening

/-- The texts that open a block are those that do not begin with an equals sign and have the form of
an opening. -/
theorem Directive.ofText_eq_opening_iff {s : String} {opening : Opening} :
    ofText s = .opening opening ↔ s.toList.head? ≠ some '=' ∧ Opening.ofText? s = some opening := by
  unfold ofText
  split
  next heq => simp [heq]
  next hne =>
    have hhead : s.toList.head? ≠ some '=' := by
      intro heq
      obtain ⟨rest, hrest⟩ := List.head?_eq_some_iff.1 heq
      exact hne rest hrest
    cases Opening.ofText? s <;> simp [hhead]

/-- How the texts that open a block are written. -/
theorem Directive.ofText_eq_opening_iff_text {s : String} {opening : Opening} :
    ofText s = .opening opening ↔ s.toList.head? ≠ some '=' ∧ Opening.WrittenAs s opening ∧
      ∀ other, Opening.WrittenAs s other → opening.Precedes other := by
  rw [ofText_eq_opening_iff, Opening.ofText?_eq_some_iff]

/-- An insertion is written with an equals sign in front. -/
theorem Directive.ofText_eq_insertion_iff {s : String} {expression : Expression} :
    ofText s = .insertion expression ↔
      ∃ path, s = "=" ++ path ∧ expression = Expression.parse path := by
  unfold ofText
  split
  next rest heq =>
    have hs : s = "=" ++ String.ofList rest := String.toList_injective (by simp [heq])
    rw [Directive.insertion.injEq]
    constructor
    · rintro rfl
      exact ⟨_, hs, rfl⟩
    · rintro ⟨path, hpath, rfl⟩
      rw [(String.append_right_inj "=").1 (hs.symm.trans hpath)]
  next hne =>
    constructor
    · intro h
      cases hopening : Opening.ofText? s <;> rw [hopening] at h <;> cases h
    · rintro ⟨path, rfl, -⟩
      exact absurd (by simp) (hne path.toList)

/-- What is written as a call opens a loop if it ends as one. -/
example : Directive.ofText "f:call(a:each(b)" = .opening (.each "f:call(a" "b") := by decide +kernel

/-- The field with which a statement begins. -/
def Statement.opener : Statement → Field
  | insertion _ field => field
  | block _ b => b.start

/-- A block that is open: the field that opens it and what that field says. -/
structure OpenBlock where
  start : Field
  opening : Opening
deriving DecidableEq, Repr

/-- The state of the pass: the blocks that are open, innermost first, and the statements so far. -/
structure Scanner where
  stack : List OpenBlock := []
  statements : List Statement := []
deriving DecidableEq, Repr

namespace Scanner

/-- Closes a block, which is a statement unless another block is open around it. -/
def close (d : Document) (top : OpenBlock) (outer : List OpenBlock) (statements : List Statement)
    (stop : Field) : Scanner where
  stack := outer
  statements :=
    match outer with
    | [] => statements ++ [.block top.opening (Block.between d top.start stop)]
    | _ :: _ => statements

/-- Reads a field. -/
def step (d : Document) (s : Scanner) (field : Field) : Scanner :=
  match Directive.ofText field.expression, s.stack with
  | .opening opening, stack => { s with stack := ⟨field, opening⟩ :: stack }
  | .insertion expression, [] =>
    { s with statements := s.statements ++ [.insertion expression field] }
  | .other, [] => s
  | _, top :: outer =>
    if field.expression = top.opening.endText then close d top outer s.statements field else s

/-- Reads fields. -/
def run (d : Document) (fields : List Field) : Scanner := fields.foldl (step d) {}

/-- The outcome at the end of the fields. -/
def result (s : Scanner) : Except MergeError (List Statement) :=
  match s.stack with
  | [] => .ok s.statements
  | top :: _ => .error (top.opening.unmatched top.start)

variable {d : Document} {field : Field} {top : OpenBlock} {outer : List OpenBlock}
  {statements : List Statement} {opening : Opening}

theorem step_of_opening {s : Scanner} (h : Directive.ofText field.expression = .opening opening) :
    step d s field = { s with stack := ⟨field, opening⟩ :: s.stack } := by
  unfold step
  simp only [h]

theorem step_of_closing (h : ∀ inner, Directive.ofText field.expression ≠ .opening inner)
    (hend : field.expression = top.opening.endText) :
    step d ⟨top :: outer, statements⟩ field = close d top outer statements field := by
  unfold step
  cases hfield : Directive.ofText field.expression with
  | opening inner => exact absurd hfield (h inner)
  | insertion expression => simp only [if_pos hend]
  | other => simp only [if_pos hend]

theorem step_of_ignored (h : ∀ inner, Directive.ofText field.expression ≠ .opening inner)
    (hend : field.expression ≠ top.opening.endText) :
    step d ⟨top :: outer, statements⟩ field = ⟨top :: outer, statements⟩ := by
  unfold step
  cases hfield : Directive.ofText field.expression with
  | opening inner => exact absurd hfield (h inner)
  | insertion expression => simp only [if_neg hend]
  | other => simp only [if_neg hend]

theorem step_of_insertion {expression : Expression}
    (h : Directive.ofText field.expression = .insertion expression) :
    step d ⟨[], statements⟩ field = ⟨[], statements ++ [.insertion expression field]⟩ := by
  unfold step
  simp only [h]

theorem step_of_other (h : Directive.ofText field.expression = .other) :
    step d ⟨[], statements⟩ field = ⟨[], statements⟩ := by
  unfold step
  simp only [h]

/-- The field that the search finds is the one that takes the block from the stack, and the pass is
then where the search has left off. -/
theorem foldl_of_findEnd {start : Field} {fields : List Field} {found : Found fields.length}
    (h : opening.findEnd start fields = .ok found) (outer : List OpenBlock)
    (statements : List Statement) :
    fields.foldl (step d) ⟨⟨start, opening⟩ :: outer, statements⟩ =
      found.rest.foldl (step d) (close d ⟨start, opening⟩ outer statements found.field) := by
  -- The recursion of the search: an inner block first goes on the stack and off it again.
  fun_induction Opening.findEnd start opening fields generalizing outer with
  | case1 => cases h
  | case2 => cases h
  | case3 => cases h
  | case4 start opening field rest inner hinner closed hclosed _ found' hfound ihInner ih =>
    cases h
    rw [List.foldl_cons, step_of_opening hinner, ihInner hclosed]
    exact ih hfound outer
  | case5 start opening field rest heq hother =>
    cases h
    rw [List.foldl_cons, step_of_closing hother heq]
  | case6 => cases h
  | case7 start opening field rest hne found' hfound hother ih =>
    cases h
    rw [List.foldl_cons, step_of_ignored hother hne]
    exact ih hfound outer

/-- A search that fails names the block on top of the stack at the end of the pass. -/
theorem result_of_findEnd {start : Field} {fields : List Field} {e : MergeError}
    (h : opening.findEnd start fields = .error e) (outer : List OpenBlock)
    (statements : List Statement) :
    (fields.foldl (step d) ⟨⟨start, opening⟩ :: outer, statements⟩).result = .error e := by
  fun_induction Opening.findEnd start opening fields generalizing outer with
  | case1 =>
    cases h
    rfl
  | case2 start opening field rest inner hinner e' he ih =>
    cases h
    rw [List.foldl_cons, step_of_opening hinner]
    exact ih he _
  | case3 start opening field rest inner hinner closed hclosed _ e' he ihInner ih =>
    cases h
    rw [List.foldl_cons, step_of_opening hinner, foldl_of_findEnd hclosed]
    exact ih he outer
  | case4 => cases h
  | case5 => cases h
  | case6 start opening field rest hne e' he hother ih =>
    cases h
    rw [List.foldl_cons, step_of_ignored hother hne]
    exact ih he outer
  | case7 => cases h

theorem result_foldl (d : Document) (fields : List Field) (statements : List Statement) :
    (fields.foldl (step d) ⟨[], statements⟩).result =
      (Statement.ofFields d fields).map (statements ++ ·) := by
  fun_induction Statement.ofFields d fields generalizing statements with
  | case1 => simp [result, Except.map]
  | case2 field rest expression hfield e he ih =>
    rw [List.foldl_cons, step_of_insertion hfield, ih, he]
    rfl
  | case3 field rest expression hfield later hlater ih =>
    rw [List.foldl_cons, step_of_insertion hfield, ih, hlater]
    simp [Except.map]
  | case4 field rest opening hfield e he =>
    rw [List.foldl_cons, step_of_opening hfield, result_of_findEnd he]
    rfl
  | case5 field rest opening hfield closed hclosed _ e he ih =>
    rw [List.foldl_cons, step_of_opening hfield, foldl_of_findEnd hclosed]
    dsimp only [close]
    rw [ih, he]
    rfl
  | case6 field rest opening hfield closed hclosed _ later hlater ih =>
    rw [List.foldl_cons, step_of_opening hfield, foldl_of_findEnd hclosed]
    dsimp only [close]
    rw [ih, hlater]
    simp [Except.map]
  | case7 field rest hfield ih =>
    rw [List.foldl_cons, step_of_other hfield]
    exact ih statements

/-! ## The order of the statements -/

/-- The fields with which the statements so far begin, and the outermost block that is open. -/
def begun (s : Scanner) : List Field :=
  s.statements.map Statement.opener ++ (s.stack.getLast?.map OpenBlock.start).toList

theorem begun_step (s : Scanner) (field : Field) :
    (step d s field).begun = s.begun ∨ (step d s field).begun = s.begun ++ [field] := by
  obtain ⟨stack, statements⟩ := s
  cases stack with
  | nil =>
    cases hfield : Directive.ofText field.expression with
    | opening opening =>
      rw [step_of_opening hfield]
      simp [begun]
    | insertion expression =>
      rw [step_of_insertion hfield]
      simp [begun, Statement.opener]
    | other =>
      rw [step_of_other hfield]
      exact Or.inl rfl
  | cons top outer =>
    apply Or.inl
    by_cases hopening : ∃ inner, Directive.ofText field.expression = .opening inner
    · obtain ⟨inner, hinner⟩ := hopening
      rw [step_of_opening hinner]
      simp [begun]
    · rw [not_exists] at hopening
      by_cases hend : field.expression = top.opening.endText
      · -- The block leaves the stack; it was the outermost one exactly if it becomes a statement.
        rw [step_of_closing hopening hend]
        cases outer <;> simp [begun, close, Statement.opener, Block.between]
      · rw [step_of_ignored hopening hend]

theorem begun_run_sublist (d : Document) (fields : List Field) :
    (run d fields).begun.Sublist fields := by
  induction fields using List.reverseRecOn with
  | nil => exact List.Sublist.refl _
  | append_singleton fields field ih =>
    rw [run, List.foldl_append]
    change (step d (run d fields) field).begun.Sublist _
    rcases begun_step (run d fields) field with heq | heq
    · rw [heq]
      exact ih.trans (List.sublist_append_left _ _)
    · rw [heq]
      exact ih.append (List.Sublist.refl _)

end Scanner

/-- Fields make statements exactly if no block is open at the end of the pass. They are then the
statements that the pass has found, in the order of the fields with which they begin; otherwise the
failure names the innermost block that is open. -/
theorem Statement.ofFields_eq_run (d : Document) (fields : List Field) :
    (∀ statements, ofFields d fields = .ok statements ↔
      (Scanner.run d fields).stack = [] ∧ (Scanner.run d fields).statements = statements) ∧
    (∀ e, ofFields d fields = .error e ↔
      ∃ top outer, (Scanner.run d fields).stack = top :: outer ∧
        e = .unmatchedBlock top.start.expression top.opening.endText) ∧
    ((Scanner.run d fields).statements.map opener).Sublist fields := by
  have hresult : ofFields d fields = (Scanner.run d fields).result := by
    rw [Scanner.run, Scanner.result_foldl]
    cases ofFields d fields <;> rfl
  have hsublist := (List.sublist_append_left _ _).trans (Scanner.begun_run_sublist d fields)
  rw [hresult, Scanner.result]
  cases (Scanner.run d fields).stack with
  | nil => exact ⟨fun statements => by simp, fun e => by simp, hsublist⟩
  | cons top outer =>
    refine ⟨fun statements => by simp, fun e => ?_, hsublist⟩
    simp [Opening.unmatched, eq_comm]

/-- A field in a block is no statement of its own, and one behind it is. -/
example : (Statement.ofFields default [⟨.simple 1, "", "x:each(y)"⟩, ⟨.simple 2, "", "=y"⟩,
    ⟨.simple 3, "", "x:endEach"⟩, ⟨.simple 4, "", "=z"⟩]).toOption =
      some [.block (.each "x" "y") ⟨.inline, ⟨.simple 1, "", "x:each(y)"⟩,
        ⟨.simple 3, "", "x:endEach"⟩, 1, 3, none⟩, .insertion (.name "z") ⟨.simple 4, "", "=z"⟩] := by
  decide +kernel

/-- What goes wrong with fields is that a block is not closed. -/
theorem Statement.exists_unmatched_of_ofFields {d : Document} {fields : List Field}
    {error : MergeError} (h : ofFields d fields = .error error) :
    ∃ start stop, error = .unmatchedBlock start stop := by
  have hrun := Scanner.result_foldl d fields []
  rw [h, Scanner.result] at hrun
  split at hrun
  · cases hrun
  · cases hrun
    exact ⟨_, _, rfl⟩

/-- Fields after others that leave no block open make the statements that they make alone. -/
theorem Statement.ofFields_append (d : Document) {fields more : List Field}
    {statements : List Statement} (h : ofFields d fields = .ok statements) :
    ofFields d (fields ++ more) = (ofFields d more).map (statements ++ ·) := by
  have hfirst := Scanner.result_foldl d fields []
  have hall := Scanner.result_foldl d (fields ++ more) []
  rw [List.foldl_append] at hall
  rw [h] at hfirst
  generalize fields.foldl (Scanner.step d) ⟨[], []⟩ = s at hfirst hall
  obtain ⟨stack, found⟩ := s
  cases stack with
  | cons top outer => cases hfirst
  | nil =>
    cases hfirst
    rw [Scanner.result_foldl] at hall
    rw [hall]
    cases ofFields d (fields ++ more) <;> rfl

end MailMerge
