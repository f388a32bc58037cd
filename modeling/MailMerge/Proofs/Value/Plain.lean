import MailMerge.Proofs.Keyed
import MailMerge.Statement.Evaluation

/-!
# Values made from data

Values read from JSON are built from numbers, texts, lists and records alone. What is looked up in
them, or answered by them, is such a value again, and so is all that an expression can come to in a
context of JSON data. Where an expression does not come to a value, a number is too large
(`eq_overflow_of_evaluate?`).
-/

namespace MailMerge

namespace Value

/-- A value that data can have: there are no bytes, objects, callables and contents in it. -/
inductive Plain : Value → Prop where
  | null : Plain .null
  | bool (b : Bool) : Plain (.bool b)
  | integer (n : Int) : Plain (.integer n)
  | real (x : Float) : Plain (.real x)
  | string (s : String) : Plain (.string s)
  | list {items : List Value} (h : ∀ item ∈ items, Plain item) : Plain (.list items)
  | record {entries : List (String × Value)} (h : ∀ entry ∈ entries, Plain entry.2) :
    Plain (.record entries)

mutual

theorem plain_ofJson : (data : Json) → (ofJson data).Plain
  | .null => .null
  | .bool b => .bool b
  | .integer n => by
    rw [ofJson]
    split
    · exact .integer _
    · exact .real _
  | .real x => .real x
  | .string s => .string s
  | .array items => .list (plain_ofJsonItems items)
  | .object members =>
    .record fun entry hentry => plain_ofJsonMembers members entry (Keyed.mem_of_mem_ofList hentry)

theorem plain_ofJsonItems : (items : List Json) → ∀ item ∈ ofJsonItems items, item.Plain
  | [], _, h => nomatch h
  | first :: rest, item, h => by
    rw [ofJsonItems, List.mem_cons] at h
    rcases h with rfl | h
    · exact plain_ofJson first
    · exact plain_ofJsonItems rest item h

theorem plain_ofJsonMembers :
    (members : List (String × Json)) → ∀ entry ∈ ofJsonMembers members, entry.2.Plain
  | [], _, h => nomatch h
  | (_, first) :: rest, entry, h => by
    rw [ofJsonMembers, List.mem_cons] at h
    rcases h with rfl | h
    · exact plain_ofJson first
    · exact plain_ofJsonMembers rest entry h

end

variable {value answer : Value} {name : String}

theorem Plain.items {items : List Value} (h : (Value.list items).Plain) :
    ∀ item ∈ items, item.Plain := by
  cases h with
  | list hitems => exact hitems

/-- A value with nothing in it: a truth value, a number or a text. -/
def IsAtom : Value → Prop
  | bool _ | integer _ | real _ | string _ => True
  | _ => False

theorem IsAtom.plain (h : value.IsAtom) : value.Plain := by
  cases value with
  | bool b => exact .bool b
  | integer n => exact .integer n
  | real x => exact .real x
  | string s => exact .string s
  | _ => cases h

/-- An answer to a question has nothing in it, or it is an item of the list that is asked. -/
theorem isAtom_or_mem_of_question? (h : value.question? name = some answer) :
    answer.IsAtom ∨ ∃ items, value = .list items ∧ answer ∈ items := by
  unfold Value.question? at h
  split at h
  next => exact .inl (Option.some.inj h ▸ trivial)
  next => exact .inl (Option.some.inj h ▸ trivial)
  next => exact .inl (Option.some.inj h ▸ trivial)
  next =>
    obtain ⟨s, -, rfl⟩ := Option.map_eq_some_iff.1 h
    exact .inl trivial
  next =>
    split at h
    all_goals first
      | exact .inl (Option.some.inj h ▸ trivial)
      | exact .inr ⟨_, rfl, List.mem_of_head? h⟩
      | exact .inr ⟨_, rfl, List.mem_of_getLast? h⟩
      | cases h

theorem Plain.question? (h : value.Plain) (hanswer : value.question? name = some answer) :
    answer.Plain := by
  rcases isAtom_or_mem_of_question? hanswer with hatom | ⟨items, rfl, hmem⟩
  · exact hatom.plain
  · exact h.items answer hmem

/-- An absolute value is a number, or too large. -/
theorem absolute_cases (n : Int) :
    absolute n = .ok (.integer n.natAbs) ∨ absolute n = .error .overflow := by
  unfold absolute
  split
  next => exact .inl rfl
  next => exact .inr rfl

/-- What is dispatched is a member of an object, an absolute value, or a question like any other. -/
theorem dispatch?_eq_some (h : value.dispatch? name = .ok (some answer)) :
    (∃ identity description members, value = .object identity description members ∧
      Keyed.find? name members = some answer) ∨
      answer.IsAtom ∨ value.question? name = some answer := by
  unfold Value.dispatch? at h
  split at h
  next => exact .inl ⟨_, _, _, rfl, Except.ok.inj h⟩
  next n =>
    rcases absolute_cases n with hn | hn <;> rw [hn] at h <;> cases h
    exact .inr (.inl trivial)
  next => exact .inr (.inr (Except.ok.inj h))

theorem Plain.dispatch? (h : value.Plain) (hanswer : value.dispatch? name = .ok (some answer)) :
    answer.Plain := by
  rcases dispatch?_eq_some hanswer with ⟨_, _, _, rfl, -⟩ | hatom | hquestion
  · cases h
  · exact hatom.plain
  · exact h.question? hquestion

theorem Plain.member? (h : value.Plain) (hanswer : value.member? name = .ok (some answer)) :
    answer.Plain := by
  unfold Value.member? at hanswer
  split at hanswer
  next =>
    obtain ⟨key, hmem⟩ := Keyed.exists_mem_of_find? (Except.ok.inj hanswer)
    cases h with
    | record hentries => exact hentries _ hmem
  next => exact h.dispatch? hanswer

/-- Only an absolute value is not answered, and only because it is too large. -/
theorem eq_overflow_of_dispatch? {e : MergeError} (h : value.dispatch? name = .error e) :
    e = .overflow := by
  unfold Value.dispatch? at h
  split at h
  next => cases h
  next n =>
    rcases absolute_cases n with hn | hn <;> rw [hn] at h <;> cases h
    rfl
  next => cases h

theorem eq_overflow_of_member? {e : MergeError} (h : value.member? name = .error e) :
    e = .overflow := by
  unfold Value.member? at h
  split at h
  next => cases h
  next => exact eq_overflow_of_dispatch? h

/-- A plain value stands for its text, or for nothing. -/
theorem Plain.wrap (h : value.Plain) :
    Content.wrap value =
      match value.toText? with
      | some s => .ok (.text s)
      | none => .error (.unsupportedContent value.describe) := by
  cases h <;> rfl

end Value

namespace Context

/-- All bindings are to values that data can have. -/
def Plain (context : Context) : Prop := ∀ entry ∈ context.bindings, entry.2.Plain

variable {context : Context} {name : String} {value : Value}

theorem plain_ofJson {data : Json} (h : ofJson data = .ok context) : context.Plain := by
  have hplain := Value.plain_ofJson data
  unfold ofJson at h
  split at h
  next entries heq =>
    cases h
    rw [heq] at hplain
    cases hplain with
    | record hentries => exact hentries
  next => cases h

theorem Plain.bind (h : context.Plain) (name : String) (hvalue : value.Plain) :
    (context.bind name value).Plain := by
  intro entry hentry
  rcases List.mem_cons.1 hentry with rfl | hentry
  · exact hvalue
  · exact h entry hentry

end Context

namespace Expression

variable {context : Context} {expression : Expression} {value found : Value}

theorem eq_of_present? (h : present? found = some value) : value = found := by
  unfold present? at h
  split at h
  next => cases h
  next => exact (Option.some.inj h).symm

theorem follow?_cons_of_absent {member : String} {rest : List String} {answer? : Option Value}
    (hmember : found.member? member = .ok answer?) (h : answer?.bind present? = none) :
    follow? found (member :: rest) = .ok none := by
  rw [follow?, hmember]
  dsimp only [bind, Except.bind]
  rw [h]
  rfl

theorem follow?_cons_of_present {member : String} {rest : List String} {answer? : Option Value}
    (hmember : found.member? member = .ok answer?) (h : answer?.bind present? = some value) :
    follow? found (member :: rest) = follow? value rest := by
  rw [follow?, hmember]
  dsimp only [bind, Except.bind]
  rw [h]

/-- What is followed first is present, and the rest is followed from it. -/
theorem follow?_cons_eq_some {member : String} {rest : List String}
    (h : follow? found (member :: rest) = .ok (some value)) :
    ∃ answer, found.member? member = .ok (some answer) ∧ follow? answer rest = .ok (some value) := by
  cases hmember : found.member? member with
  | error e =>
    rw [follow?, hmember] at h
    cases h
  | ok answer? =>
    cases hpresent : answer?.bind present? with
    | none =>
      rw [follow?_cons_of_absent hmember hpresent] at h
      cases h
    | some next =>
      rw [follow?_cons_of_present hmember hpresent] at h
      obtain ⟨answer, rfl, heq⟩ := Option.bind_eq_some_iff.1 hpresent
      exact ⟨answer, rfl, eq_of_present? heq ▸ h⟩

/-- What is kept from a value to its members is kept from the bindings of a context to all that an
expression can come to. -/
theorem holds_of_evaluate? {p : Value → Prop} (hbindings : ∀ entry ∈ context.bindings, p entry.2)
    (hmember : ∀ v name answer, p v → v.member? name = .ok (some answer) → p answer)
    (hvalue : expression.evaluate? context = .ok (some value)) : p value := by
  have hfind : ∀ name found, (context.find? name).bind present? = some found → p found := by
    intro name found h
    obtain ⟨bound, hbound, hpresent⟩ := Option.bind_eq_some_iff.1 h
    obtain ⟨key, hmem⟩ := Keyed.exists_mem_of_find? hbound
    exact eq_of_present? hpresent ▸ hbindings _ hmem
  have hfollow : ∀ (path : List String) (found : Value), p found →
      follow? found path = .ok (some value) → p value := by
    intro path
    induction path with
    | nil => exact fun found h heq => Option.some.inj (Except.ok.inj heq) ▸ h
    | cons member rest ih =>
      intro found h heq
      obtain ⟨answer, hanswer, hlater⟩ := follow?_cons_eq_some heq
      exact ih answer (hmember found member answer h hanswer) hlater
  cases expression with
  | name text => exact hfind text value (Except.ok.inj hvalue)
  | lookup receiver path =>
    rw [evaluate?] at hvalue
    split at hvalue
    next => cases hvalue
    next found hfound => exact hfollow path found (hfind receiver found hfound) hvalue

/-- An expression comes to a plain value in a context of plain values. -/
theorem plain_of_evaluate? (h : context.Plain)
    (hvalue : expression.evaluate? context = .ok (some value)) : value.Plain :=
  holds_of_evaluate? h (fun _ _ _ hplain hanswer => hplain.member? hanswer) hvalue

theorem eq_overflow_of_follow? {e : MergeError} {path : List String}
    (h : follow? found path = .error e) : e = .overflow := by
  induction path generalizing found with
  | nil => cases h
  | cons member rest ih =>
    cases hmember : found.member? member with
    | error e' =>
      rw [follow?, hmember] at h
      exact Except.error.inj h ▸ Value.eq_overflow_of_member? hmember
    | ok answer? =>
      cases hpresent : answer?.bind present? with
      | none =>
        rw [follow?_cons_of_absent hmember hpresent] at h
        cases h
      | some next =>
        rw [follow?_cons_of_present hmember hpresent] at h
        exact ih h

/-- An expression is evaluated unless a number that is asked for is too large. -/
theorem eq_overflow_of_evaluate? {e : MergeError} (h : expression.evaluate? context = .error e) :
    e = .overflow := by
  cases expression with
  | name text => cases h
  | lookup receiver path =>
    rw [evaluate?] at h
    split at h
    next => cases h
    next => exact eq_overflow_of_follow? h

end Expression

/-- A condition is decided unless a number that is asked for is too large. -/
theorem Statement.eq_overflow_of_deciding? {context : Context} {path : String}
    {question? : Option String} {e : MergeError}
    (h : deciding? context path question? = .error e) : e = .overflow := by
  unfold deciding? at h
  cases hvalue : (Expression.parse path).evaluate? context with
  | error e' =>
    rw [hvalue] at h
    exact Except.error.inj h ▸ Expression.eq_overflow_of_evaluate? hvalue
  | ok value =>
    rw [hvalue] at h
    cases question? with
    | none => cases h
    | some question => exact Value.eq_overflow_of_dispatch? h

end MailMerge
