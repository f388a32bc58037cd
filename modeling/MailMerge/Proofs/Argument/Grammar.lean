import MailMerge.Proofs.Argument.Splitting
import MailMerge.Proofs.Decimal.Grammar
import MailMerge.Proofs.Value.Plain

/-!
# The grammar of arguments

An argument is a word, a text between quotes, a path after an equals sign or a number. Some more
texts are taken as well, and everything else is rejected by an error that names it (`parse_cut`). A
path to a number that is too large is an argument, but it has no value.
-/

namespace MailMerge.Argument

open Decimal

/-- The words for truth values and null. -/
def words : List String := ["true", "false", "nil", "null"]

/-- Each underscore stands between two digits. -/
def Grouped (cs : List Char) : Prop :=
  ∀ before after, cs = before ++ '_' :: after →
    (∃ c ∈ before.getLast?, isDigit c = true) ∧ ∃ c ∈ after.head?, isDigit c = true

/-- What is written is a number, except for its underscores. -/
def IsNumber (cs : List Char) : Prop := Numeral (cs.filter (· ≠ '_'))

/-- What is written is read as infinity. -/
def Unbounded (cs : List Char) : Prop :=
  ∃ x : Float, number? cs = some (.real x) ∧ x.isFinite = false

/-- The arguments that are meant to be written. -/
inductive Regular : List Char → Prop where
  | word {w : String} (h : w ∈ words) : Regular w.toList
  | quoted {q : Char} {inner : List Char} (hq : q = '"' ∨ q = '\'') (h : q ∉ inner) :
    Regular (q :: (inner ++ [q]))
  | path (rest : List Char) : Regular ('=' :: rest)
  | number {cs : List Char} (h : IsNumber cs) (hgrouped : Grouped cs) (hfinite : ¬Unbounded cs) :
    Regular cs

/-- What is taken as an argument without being meant to: a text between quotes that has the quote in
it, a number with misplaced underscores, and a number too large for a finite value. -/
inductive Irregular : List Char → Prop where
  | quoted {q : Char} {inner : List Char} (hq : q = '"' ∨ q = '\'') (h : q ∈ inner) :
    Irregular (q :: (inner ++ [q]))
  | misplaced {cs : List Char} (h : IsNumber cs) (hgrouped : ¬Grouped cs) : Irregular cs
  | unbounded {cs : List Char} (h : IsNumber cs) (hunbounded : Unbounded cs) : Irregular cs

variable {cs inner : List Char} {c q : Char} {s : String}

/-! ## Numbers -/

theorem isNumeric_iff : isNumeric c = true ↔ isNumeral c = true ∨ c = '_' := by
  simp [isNumeric, isNumeral, or_assoc]

theorem forall_isNumeric_iff :
    (∀ c ∈ cs, isNumeric c = true) ↔ ∀ c ∈ cs.filter (· ≠ '_'), isNumeral c = true := by
  simp only [List.mem_filter, isNumeric_iff, decide_eq_true_eq, ne_eq, and_imp]
  exact forall₂_congr fun c _ => by rw [or_comm, or_iff_not_imp_left]

theorem IsNumber.isNumeric (h : IsNumber cs) : ∀ c ∈ cs, isNumeric c = true :=
  forall_isNumeric_iff.2 (Numeral.isNumeral h)

theorem isSome_number?_iff : (number? cs).isSome = true ↔ IsNumber cs := by
  have hread (hnumeric : ∀ c ∈ cs, isNumeric c = true) (hne : cs ≠ []) :
      (number? cs).isSome = true ↔ IsNumber cs := by
    have hall : cs.all isNumeric = true := List.all_eq_true.2 hnumeric
    have hreal : (real? (cs.filter (· ≠ '_'))).isSome = true ↔ IsNumber cs :=
      isSome_real?_iff (forall_isNumeric_iff.1 hnumeric)
    rw [number?, if_neg (by simp [hne, hall])]
    dsimp only
    split
    next n hn =>
      refine iff_of_true rfl ?_
      rw [integer?, Option.filter_eq_some_iff] at hn
      exact (isSome_signed?_iff.1 (Option.isSome_of_mem hn.1)).numeral
    next => rw [Option.isSome_map, hreal]
  constructor
  · intro h
    have hcond : ¬(cs.isEmpty || !cs.all isNumeric) = true := by
      intro hcond
      rw [number?, if_pos hcond] at h
      cases h
    simp only [Bool.or_eq_true, not_or, List.isEmpty_iff, Bool.not_eq_true', Bool.not_eq_false,
      List.all_eq_true] at hcond
    exact (hread hcond.2 hcond.1).1 h
  · intro h
    refine (hread h.isNumeric ?_).2 h
    rintro rfl
    exact Numeral.ne_nil h rfl

/-! ## Texts between quotes -/

theorem unquote?_quoted (q : Char) (inner : List Char) :
    unquote? q (q :: (inner ++ [q])) = some (String.ofList inner) := by
  simp [unquote?]

theorem exists_of_unquote? {text : String} (h : unquote? q cs = some text) :
    ∃ inner, cs = q :: (inner ++ [q]) := by
  cases cs with
  | nil => cases h
  | cons c rest =>
    rw [unquote?] at h
    split at h
    next hends =>
      rw [Bool.and_eq_true, decide_eq_true_eq, decide_eq_true_eq] at hends
      obtain ⟨rfl, hlast⟩ := hends
      obtain ⟨inner, rfl⟩ := List.getLast?_eq_some_iff.1 hlast
      exact ⟨inner, rfl⟩
    next => cases h

/-- A text stands between two quotes of one kind. -/
def Quoted (cs : List Char) : Prop :=
  ∃ q inner, (q = '"' ∨ q = '\'') ∧ cs = q :: (inner ++ [q])

theorem isSome_unquote?_iff :
    ((unquote? '"' cs).or (unquote? '\'' cs)).isSome = true ↔ Quoted cs := by
  rw [Option.isSome_or, Bool.or_eq_true, Option.isSome_iff_exists, Option.isSome_iff_exists]
  constructor
  · rintro (⟨text, h⟩ | ⟨text, h⟩)
    · obtain ⟨inner, heq⟩ := exists_of_unquote? h
      exact ⟨'"', inner, .inl rfl, heq⟩
    · obtain ⟨inner, heq⟩ := exists_of_unquote? h
      exact ⟨'\'', inner, .inr rfl, heq⟩
  · rintro ⟨q, inner, rfl | rfl, rfl⟩
    · exact .inl ⟨_, unquote?_quoted _ inner⟩
    · exact .inr ⟨_, unquote?_quoted _ inner⟩

/-! ## Single arguments -/

/-- What an argument is tested for. -/
def Taken (s : String) : Prop :=
  (∃ rest, s.toList = '=' :: rest) ∨ s ∈ words ∨ Quoted s.toList ∨ IsNumber s.toList

/-- A path to a number that is too large. -/
def Overflows (context : Context) (s : String) : Prop :=
  ∃ rest, s.toList = '=' :: rest ∧
    (Expression.parse (Text.trim (String.ofList rest))).evaluate? context = .error .overflow

/-- How the reading of an argument fails: it is none, or it is a path without a value. -/
inductive Refused (context : Context) (s : String) : MergeError → Prop where
  | invalid (h : ¬Taken s) : Refused context s (.invalidCallArgument s)
  | overflow (h : Overflows context s) : Refused context s .overflow

theorem value_cases (context : Context) (s : String) :
    (∃ v, value context s = .ok v) ∧ Taken s ∧ ¬Overflows context s ∨
      ∃ e, value context s = .error e ∧ Refused context s e := by
  unfold value
  split
  next rest heq =>
    dsimp only
    cases hvalue : (Expression.parse (Text.trim (String.ofList rest))).evaluate? context with
    | error e =>
      obtain rfl := Expression.eq_overflow_of_evaluate? hvalue
      exact .inr ⟨_, rfl, .overflow ⟨rest, heq, hvalue⟩⟩
    | ok found =>
      refine .inl ⟨⟨_, rfl⟩, .inl ⟨rest, heq⟩, ?_⟩
      rintro ⟨other, hother, herror⟩
      obtain ⟨-, rfl⟩ := List.cons.inj (heq.symm.trans hother)
      cases hvalue.symm.trans herror
  next hpath =>
    have hnot : ¬Overflows context s := fun ⟨rest, heq, _⟩ => hpath rest heq
    split
    next => exact .inl ⟨⟨_, rfl⟩, .inr (.inl (by decide)), hnot⟩
    next => exact .inl ⟨⟨_, rfl⟩, .inr (.inl (by decide)), hnot⟩
    next => exact .inl ⟨⟨_, rfl⟩, .inr (.inl (by decide)), hnot⟩
    next => exact .inl ⟨⟨_, rfl⟩, .inr (.inl (by decide)), hnot⟩
    next htrue hfalse hnil hnull =>
      split
      next text htext =>
        have hquoted := isSome_unquote?_iff.1 (Option.isSome_of_mem htext)
        exact .inl ⟨⟨_, rfl⟩, .inr (.inr (.inl hquoted)), hnot⟩
      next htext =>
        split
        next n hn =>
          have hnumber := isSome_number?_iff.1 (Option.isSome_of_mem hn)
          exact .inl ⟨⟨_, rfl⟩, .inr (.inr (.inr hnumber)), hnot⟩
        next hn =>
          refine .inr ⟨_, rfl, .invalid ?_⟩
          rintro (⟨rest, heq⟩ | hword | hquoted | hnumber)
          · exact hpath rest heq
          · simp_all [words]
          · rw [← isSome_unquote?_iff, htext] at hquoted
            cases hquoted
          · rw [← isSome_number?_iff, hn] at hnumber
            cases hnumber

theorem taken_iff : Taken s ↔ Regular s.toList ∨ Irregular s.toList := by
  constructor
  · rintro (⟨rest, heq⟩ | hword | ⟨q, inner, hq, heq⟩ | hnumber)
    · exact .inl (heq ▸ .path rest)
    · exact .inl (.word hword)
    · rw [heq]
      by_cases hinner : q ∈ inner
      · exact .inr (.quoted hq hinner)
      · exact .inl (.quoted hq hinner)
    · by_cases hgrouped : Grouped s.toList
      · by_cases hunbounded : Unbounded s.toList
        · exact .inr (.unbounded hnumber hunbounded)
        · exact .inl (.number hnumber hgrouped hunbounded)
      · exact .inr (.misplaced hnumber hgrouped)
  · rintro (h | h)
    · generalize hcs : s.toList = cs at h
      cases h with
      | word h => exact .inr (.inl (String.toList_injective hcs ▸ h))
      | quoted hq _ => exact .inr (.inr (.inl ⟨_, _, hq, hcs⟩))
      | path rest => exact .inl ⟨rest, hcs⟩
      | number h _ _ => exact .inr (.inr (.inr (hcs ▸ h)))
    · generalize hcs : s.toList = cs at h
      cases h with
      | quoted hq _ => exact .inr (.inr (.inl ⟨_, _, hq, hcs⟩))
      | misplaced h _ => exact .inr (.inr (.inr (hcs ▸ h)))
      | unbounded h _ => exact .inr (.inr (.inr (hcs ▸ h)))

theorem IsNumber.not_quoted (h : IsNumber cs) : ¬Quoted cs := by
  rintro ⟨q, inner, hq, rfl⟩
  have hnumeric := h.isNumeric q List.mem_cons_self
  rcases hq with rfl | rfl <;> exact absurd hnumeric (by decide)

theorem isNumeric_or_quote_of_mem_head? (h : Irregular cs) :
    ∀ c ∈ cs.head?, isNumeric c = true ∨ c = '"' ∨ c = '\'' := by
  intro c hc
  cases h with
  | quoted hq _ =>
    cases hc
    exact .inr hq
  | misplaced h _ => exact .inl (h.isNumeric c (List.mem_of_mem_head? hc))
  | unbounded h _ => exact .inl (h.isNumeric c (List.mem_of_mem_head? hc))

theorem Irregular.mem_of_quoted (h : Irregular (q :: (inner ++ [q]))) (hq : q = '"' ∨ q = '\'') :
    q ∈ inner := by
  have hquoted : Quoted (q :: (inner ++ [q])) := ⟨q, inner, hq, rfl⟩
  generalize hcs : q :: (inner ++ [q]) = cs at h hquoted
  cases h with
  | quoted _ hinner =>
    obtain ⟨rfl, hrest⟩ := List.cons.inj hcs
    exact List.append_cancel_right hrest ▸ hinner
  | misplaced h _ => exact absurd hquoted h.not_quoted
  | unbounded h _ => exact absurd hquoted h.not_quoted

/-- What is taken without being meant to is none of the arguments that are meant to be written. -/
theorem Irregular.not_regular (h : Irregular cs) : ¬Regular cs := by
  intro hregular
  cases hregular with
  | word hw =>
    have hfirst : ∀ w ∈ words, ∃ c ∈ w.toList.head?,
        ¬(isNumeric c = true ∨ c = '"' ∨ c = '\'') := by
      simp [words, isNumeric, isDigit]
    obtain ⟨c, hc, hother⟩ := hfirst _ hw
    exact hother (isNumeric_or_quote_of_mem_head? h c hc)
  | path rest =>
    exact absurd (isNumeric_or_quote_of_mem_head? h '=' rfl) (by decide)
  | quoted hq hnot => exact hnot (h.mem_of_quoted hq)
  | number hnumber hgrouped hfinite =>
    cases h with
    | quoted hq _ => exact hnumber.not_quoted ⟨_, _, hq, rfl⟩
    | misplaced _ h => exact h hgrouped
    | unbounded _ h => exact hfinite h

/-! ## Lists of arguments -/

/-- Texts are read one after the other up to the first that is refused. -/
theorem mapM_value (context : Context) (texts : List String) :
    (∃ vs, texts.mapM (value context) = .ok vs) ∧
        (∀ t ∈ texts, Taken t ∧ ¬Overflows context t) ∨
      ∃ before t after e, texts = before ++ t :: after ∧
        (∀ b ∈ before, Taken b ∧ ¬Overflows context b) ∧ Refused context t e ∧
        texts.mapM (value context) = .error e := by
  induction texts with
  | nil => exact .inl ⟨⟨[], rfl⟩, fun t ht => absurd ht List.not_mem_nil⟩
  | cons t texts ih =>
    rw [List.mapM_cons]
    rcases value_cases context t with ⟨⟨v, hv⟩, htaken⟩ | ⟨e, herror, hrefused⟩
    · rcases ih with ⟨⟨vs, hvs⟩, hall⟩ | ⟨before, u, after, e, rfl, hbefore, hrefused, herror⟩
      · refine .inl ⟨⟨v :: vs, ?_⟩, List.forall_mem_cons.2 ⟨htaken, hall⟩⟩
        rw [hv, hvs]
        rfl
      · refine .inr ⟨t :: before, u, after, e, rfl, List.forall_mem_cons.2 ⟨htaken, hbefore⟩,
          hrefused, ?_⟩
        rw [hv, herror]
        rfl
    · refine .inr ⟨[], t, texts, e, rfl, fun b hb => absurd hb List.not_mem_nil, hrefused, ?_⟩
      rw [herror]
      rfl

/-- A list is read just when all its pieces are arguments, be it regular ones or irregular ones, and
none of them is a path to a number that is too large. Else the first piece of which this does not hold
tells the error: one that is no argument is named by it. No argument is both regular and irregular. -/
theorem parse_cut (context : Context) {ps : List String} (hblank : Text.allBlank s = false)
    (hcut : Cut s.toList (ps.map String.toList)) :
    ((∃ vs, parse context (some s) = .ok vs) ∧
        (∀ p ∈ ps, (Regular (Text.trim p).toList ∨ Irregular (Text.trim p).toList) ∧
          ¬Overflows context (Text.trim p)) ∨
      ∃ before p after, ps = before ++ p :: after ∧
        (∀ b ∈ before, (Regular (Text.trim b).toList ∨ Irregular (Text.trim b).toList) ∧
          ¬Overflows context (Text.trim b)) ∧
        (¬Regular (Text.trim p).toList ∧ ¬Irregular (Text.trim p).toList ∧
            parse context (some s) = .error (.invalidCallArgument (Text.trim p)) ∨
          Overflows context (Text.trim p) ∧ parse context (some s) = .error .overflow)) ∧
      ∀ cs, Irregular cs → ¬Regular cs := by
  refine ⟨?_, fun cs h => h.not_regular⟩
  have hparse : parse context (some s) = (ps.map Text.trim).mapM (value context) := by
    rw [parse, hblank, pieces_eq_iff.2 hcut, List.mapM_map]
    rfl
  have hmem : ∀ {qs : List String}, (∀ t ∈ qs.map Text.trim, Taken t ∧ ¬Overflows context t) →
      ∀ q ∈ qs, (Regular (Text.trim q).toList ∨ Irregular (Text.trim q).toList) ∧
        ¬Overflows context (Text.trim q) := fun h q hq =>
    (h _ (List.mem_map_of_mem hq)).imp_left taken_iff.1
  rw [hparse]
  rcases mapM_value context (ps.map Text.trim) with
    ⟨hok, hall⟩ | ⟨before, t, after, e, heq, hbefore, hrefused, herror⟩
  · exact .inl ⟨hok, hmem hall⟩
  · obtain ⟨before, rest, rfl, rfl, hrest⟩ := List.map_eq_append_iff.1 heq
    obtain ⟨p, after, rfl, rfl, rfl⟩ := List.map_eq_cons_iff.1 hrest
    refine .inr ⟨before, p, after, rfl, hmem hbefore, ?_⟩
    cases hrefused with
    | invalid hnot =>
      rw [taken_iff, not_or] at hnot
      exact .inl ⟨hnot.1, hnot.2, herror⟩
    | overflow hover => exact .inr ⟨hover, herror⟩

/-- Two texts between quotes and a word between them are one text. -/
theorem parse_twoTexts :
    (∃ vs, parse ⟨[]⟩ (some "\"a\" or \"b\"") = .ok vs) ∧
      Irregular "\"a\" or \"b\"".toList ∧ ¬Regular "\"a\" or \"b\"".toList := by
  have hinner : '"' ∈ "a\" or \"b".toList := by decide
  have hirregular : Irregular "\"a\" or \"b\"".toList := .quoted (.inl rfl) hinner
  have hcut : Cut "\"a\" or \"b\"".toList (["\"a\" or \"b\""].map String.toList) :=
    pieces_eq_iff.1 (by decide)
  obtain ⟨h, hdisjoint⟩ := parse_cut ⟨[]⟩ (by decide) hcut
  refine ⟨?_, hirregular, hdisjoint _ hirregular⟩
  rcases h with ⟨hok, -⟩ | ⟨before, p, after, heq, -, hrefused⟩
  · exact hok
  · have hp : p ∈ ["\"a\" or \"b\""] := heq ▸ List.mem_append_right _ List.mem_cons_self
    obtain rfl := List.mem_singleton.1 hp
    rcases hrefused with ⟨-, hnot, -⟩ | ⟨⟨rest, heq, -⟩, -⟩
    · exact absurd hirregular hnot
    · cases (List.cons.inj heq).1

end MailMerge.Argument
