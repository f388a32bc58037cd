import MailMerge.Proofs.Merge
import MailMerge.Proofs.Value.Plain

/-!
# Values that call nothing

A value is passive when no callable can be reached in it: it is none itself, and there is none among
the items of its lists, the entries of its records and the members of its objects. Bytes and content
are passive. In a context of such values an expression never comes to a callable, so that there are
four courses that the evaluation of a block can take (`Statement.exists_course`).
-/

namespace MailMerge

namespace Value

/-- A value in which there is no callable. -/
inductive Passive : Value → Prop where
  | null : Passive .null
  | bool (b : Bool) : Passive (.bool b)
  | integer (n : Int) : Passive (.integer n)
  | real (x : Float) : Passive (.real x)
  | string (s : String) : Passive (.string s)
  | list {items : List Value} (h : ∀ item ∈ items, Passive item) : Passive (.list items)
  | record {entries : List (String × Value)} (h : ∀ entry ∈ entries, Passive entry.2) :
    Passive (.record entries)
  | bytes (data : Image.Bytes) : Passive (.bytes data)
  | object (identity : Nat) (description : String) {members : List (String × Value)}
    (h : ∀ entry ∈ members, Passive entry.2) : Passive (.object identity description members)
  | content (c : Content) : Passive (.content c)

variable {value answer : Value} {name : String}

theorem Plain.passive (h : value.Plain) : value.Passive := by
  induction h with
  | null => exact .null
  | bool b => exact .bool b
  | integer n => exact .integer n
  | real x => exact .real x
  | string s => exact .string s
  | list _ ih => exact .list ih
  | record _ ih => exact .record ih

theorem IsAtom.passive (h : value.IsAtom) : value.Passive := h.plain.passive

theorem Passive.items {items : List Value} (h : (Value.list items).Passive) :
    ∀ item ∈ items, item.Passive := by
  cases h with
  | list hitems => exact hitems

theorem Passive.question? (h : value.Passive) (hanswer : value.question? name = some answer) :
    answer.Passive := by
  rcases isAtom_or_mem_of_question? hanswer with hatom | ⟨items, rfl, hmem⟩
  · exact hatom.passive
  · exact h.items answer hmem

theorem Passive.dispatch? (h : value.Passive) (hanswer : value.dispatch? name = .ok (some answer)) :
    answer.Passive := by
  rcases dispatch?_eq_some hanswer with ⟨_, _, _, rfl, hfind⟩ | hatom | hquestion
  · obtain ⟨key, hmem⟩ := Keyed.exists_mem_of_find? hfind
    cases h with
    | object _ _ hmembers => exact hmembers _ hmem
  · exact hatom.passive
  · exact h.question? hquestion

theorem Passive.member? (h : value.Passive) (hanswer : value.member? name = .ok (some answer)) :
    answer.Passive := by
  unfold Value.member? at hanswer
  split at hanswer
  next =>
    obtain ⟨key, hmem⟩ := Keyed.exists_mem_of_find? (Except.ok.inj hanswer)
    cases h with
    | record hentries => exact hentries _ hmem
  next => exact h.dispatch? hanswer

end Value

namespace Context

variable {context : Context} {value : Value}

/-- There is no callable in any of the bindings. -/
def Passive (context : Context) : Prop := ∀ entry ∈ context.bindings, entry.2.Passive

theorem Plain.passive (h : context.Plain) : context.Passive :=
  fun entry hentry => (h entry hentry).passive

theorem Passive.bind (h : context.Passive) (name : String) (hvalue : value.Passive) :
    (context.bind name value).Passive := by
  intro entry hentry
  rcases List.mem_cons.1 hentry with rfl | hentry
  · exact hvalue
  · exact h entry hentry

end Context

/-- An expression comes to a passive value in a context of passive values. -/
theorem Expression.passive_of_evaluate? {context : Context} {expression : Expression} {value : Value}
    (h : context.Passive) (hvalue : expression.evaluate? context = .ok (some value)) :
    value.Passive :=
  holds_of_evaluate? h (fun _ _ _ hpassive hanswer => hpassive.member? hanswer) hvalue

/-! ## Blocks in a context of passive values -/

/-- An error that is told about a value. -/
def MergeError.isAboutValue : MergeError → Bool
  | overflow | notEnumerable _ _ | notCallable _ _ => true
  | _ => false

namespace Statement

variable {context : Context}

/-- The courses that the evaluation of a block can take where there is nothing to call: it fails, the
body is dropped, or a copy of it is rendered, once or for each item of a list. -/
inductive Course (context : Context) : Opening → (Renderer → Block → Merge Unit) → Prop where
  | fail {opening : Opening} {error : MergeError} (about : error.isAboutValue = true) :
    Course context opening fun _ _ => throw error
  | drop {opening : Opening} : Course context opening fun _ b => b.replace []
  | keep {path : String} {question? : Option String} {deciding : Option Value}
      (decided : deciding? context path question? = .ok deciding)
      (holds : deciding.any Value.isTruthy = true) :
    Course context (.condition path question?) fun r b => b.render r context >>= b.replace
  | loop {path name : String} {items : List Value}
      (list : (Expression.parse path).evaluate? context = .ok (some (.list items))) :
    Course context (.each path name) fun r b =>
      (items.mapM fun item => b.render r (context.bind name item)) >>= fun rows =>
        b.replace rows.flatten

theorem exists_course_each (context : Context) (path name : String) : ∃ course,
    Course context (.each path name) course ∧
      ∀ r b, evaluateLoop r context path name b = course r b := by
  unfold evaluateLoop
  dsimp only
  cases hvalue : (Expression.parse path).evaluate? context with
  | error e =>
    obtain rfl := Expression.eq_overflow_of_evaluate? hvalue
    exact ⟨_, .fail rfl, fun r b => rfl⟩
  | ok value? =>
    cases value? with
    | none => exact ⟨_, .fail rfl, fun r b => rfl⟩
    | some value =>
      cases value with
      | list items => exact ⟨_, .loop hvalue, fun r b => rfl⟩
      | _ => exact ⟨_, .fail rfl, fun r b => rfl⟩

theorem exists_course_condition (context : Context) (path : String) (question? : Option String) :
    ∃ course, Course context (.condition path question?) course ∧
      ∀ r b, evaluateCondition r context path question? b = course r b := by
  unfold evaluateCondition
  cases hdeciding : deciding? context path question? with
  | error e =>
    obtain rfl := eq_overflow_of_deciding? hdeciding
    exact ⟨_, .fail rfl, fun r b => rfl⟩
  | ok deciding =>
    simp only [Merge.ofExcept_ok_bind]
    cases hholds : deciding.any Value.isTruthy with
    | true => exact ⟨_, .keep hdeciding hholds, fun r b => rfl⟩
    | false => exact ⟨_, .drop, fun r b => rfl⟩

/-- There is nothing that could be called. -/
theorem exists_course_call (hpassive : context.Passive) (path : String) (arguments? : Option String) :
    ∃ course, Course context (.call path arguments?) course ∧
      ∀ host r b, evaluateCall host r context path arguments? b = course r b := by
  unfold evaluateCall
  dsimp only
  cases hvalue : (Expression.parse path).evaluate? context with
  | error e =>
    obtain rfl := Expression.eq_overflow_of_evaluate? hvalue
    exact ⟨_, .fail rfl, fun host r b => rfl⟩
  | ok value? =>
    cases value? with
    | none => exact ⟨_, .fail rfl, fun host r b => rfl⟩
    | some value =>
      cases value with
      | callable identity name => cases Expression.passive_of_evaluate? hpassive hvalue
      | _ => exact ⟨_, .fail rfl, fun host r b => rfl⟩

/-- Whatever renders the copies, a block takes the same course. -/
theorem exists_course (hpassive : context.Passive) (opening : Opening) : ∃ course,
    Course context opening course ∧ ∀ host r b,
      evaluateBlock host r context opening b =
        Merge.document >>= fun d => course r (b.settle d) := by
  cases opening with
  | each path name =>
    obtain ⟨course, hcourse, heq⟩ := exists_course_each context path name
    exact ⟨course, hcourse, fun host r b => congrArg _ (funext fun d => heq r (b.settle d))⟩
  | condition path question? =>
    obtain ⟨course, hcourse, heq⟩ := exists_course_condition context path question?
    exact ⟨course, hcourse, fun host r b => congrArg _ (funext fun d => heq r (b.settle d))⟩
  | call path arguments? =>
    obtain ⟨course, hcourse, heq⟩ := exists_course_call hpassive path arguments?
    exact ⟨course, hcourse, fun host r b => congrArg _ (funext fun d => heq host r (b.settle d))⟩
  | comment => exact ⟨_, .drop, fun host r b => rfl⟩

end Statement

end MailMerge
