import Mathlib.Data.List.TakeDrop
import MailMerge.Decimal.Literal

/-!
# The grammar of numbers

A number is an optional sign, digits with at most one point among or around them, and an optional
exponent. Main statements: exactly these texts are read as floating-point numbers, if words for
infinity and for what is not a number are left aside (`isSome_real?_iff`), and whole numbers are
among them (`Whole.numeral`).
-/

namespace MailMerge.Decimal

/-- Digits, at least one of them. -/
structure Digits (cs : List Char) : Prop where
  ne_nil : cs ≠ []
  all : ∀ c ∈ cs, isDigit c = true

/-- A sign, which may be missing. -/
inductive Sign : List Char → Prop where
  | absent : Sign []
  | plus : Sign ['+']
  | minus : Sign ['-']

/-- Digits with an optional sign. -/
inductive Whole : List Char → Prop where
  | mk {sign digits : List Char} (hsign : Sign sign) (hdigits : Digits digits) :
    Whole (sign ++ digits)

/-- A point with the digits after it, which may be missing. -/
inductive Fraction : List Char → Prop where
  | absent : Fraction []
  | present {part : List Char} (h : ∀ c ∈ part, isDigit c = true) : Fraction ('.' :: part)

/-- The letter `e` in either case with a whole number, or nothing. -/
inductive Exponent : List Char → Prop where
  | absent : Exponent []
  | present {e : Char} {n : List Char} (he : e = 'e' ∨ e = 'E') (hn : Whole n) : Exponent (e :: n)

/-- Digits with at most one point, at least one digit in all, and an exponent. -/
inductive Unsigned : List Char → Prop where
  | mk {whole fraction exponent : List Char} (hwhole : ∀ c ∈ whole, isDigit c = true)
    (hfraction : Fraction fraction) (hdigit : ∃ c ∈ whole ++ fraction, isDigit c = true)
    (hexponent : Exponent exponent) : Unsigned (whole ++ (fraction ++ exponent))

/-- A number with an optional sign. -/
inductive Numeral : List Char → Prop where
  | mk {sign body : List Char} (hsign : Sign sign) (hbody : Unsigned body) : Numeral (sign ++ body)

variable {cs sign body more : List Char} {c : Char}

/-- A character that numbers are written with. -/
def isNumeral (c : Char) : Bool := isDigit c || "+-.eE".toList.contains c

/-! ## Signs and digits -/

theorem isSome_natural?_iff : (natural? cs).isSome = true ↔ Digits cs := by
  unfold natural?
  constructor
  · intro h
    split at h
    next => cases h
    next hcond =>
      simp only [Bool.or_eq_true, not_or, Bool.not_eq_true, Bool.not_eq_false',
        List.isEmpty_eq_false_iff, List.all_eq_true] at hcond
      exact ⟨hcond.1, hcond.2⟩
  · rintro ⟨hne, hall⟩
    have hdigits : cs.all isDigit = true := List.all_eq_true.2 hall
    simp [hne, hdigits]

theorem exists_sign_takeSign (cs : List Char) : ∃ sign, Sign sign ∧ cs = sign ++ (takeSign cs).2 := by
  unfold takeSign
  split
  next rest => exact ⟨['+'], .plus, rfl⟩
  next rest => exact ⟨['-'], .minus, rfl⟩
  next => exact ⟨[], .absent, rfl⟩

theorem takeSign_append (hsign : Sign sign) (hbody : ∀ c ∈ body.head?, c ≠ '+' ∧ c ≠ '-') :
    (takeSign (sign ++ body)).2 = body := by
  cases hsign with
  | plus => rfl
  | minus => rfl
  | absent =>
    rw [List.nil_append]
    unfold takeSign
    split
    next rest => exact absurd rfl (hbody '+' rfl).1
    next rest => exact absurd rfl (hbody '-' rfl).2
    next => rfl

theorem ne_sign_of_isDigit (h : isDigit c = true) : c ≠ '+' ∧ c ≠ '-' := by
  constructor <;> rintro rfl <;> revert h <;> decide

theorem isSome_signed? (cs : List Char) :
    (signed? cs).isSome = (natural? (takeSign cs).2).isSome := by
  unfold signed?
  cases h : natural? (takeSign cs).2 <;> simp [h]

theorem isSome_signed?_iff : (signed? cs).isSome = true ↔ Whole cs := by
  rw [isSome_signed?]
  constructor
  · intro h
    obtain ⟨sign, hsign, heq⟩ := exists_sign_takeSign cs
    rw [heq]
    exact .mk hsign (isSome_natural?_iff.1 h)
  · rintro ⟨hsign, hdigits⟩
    rw [takeSign_append hsign fun c hc => ne_sign_of_isDigit (hdigits.all c (List.mem_of_mem_head? hc))]
    exact isSome_natural?_iff.2 hdigits

theorem isSome_exponent?_iff : (exponent? cs).isSome = true ↔ Exponent cs := by
  cases cs with
  | nil => exact iff_of_true rfl .absent
  | cons e n =>
    have hstep : (exponent? (e :: n)).isSome = true ↔
        (e = 'e' ∨ e = 'E') ∧ (signed? n).isSome = true := by
      rw [exponent?]
      split
      next he => simp [he, signed?]
      next he => simp [he]
    rw [hstep, isSome_signed?_iff]
    exact ⟨fun h => .present h.1 h.2, fun | .present he hn => ⟨he, hn⟩⟩

/-! ## Floating-point numbers -/

theorem not_isDigit_of_exponent (h : Exponent cs) : ∀ c ∈ cs.head?, isDigit c = false := by
  cases h with
  | absent => exact fun c hc => nomatch hc
  | present he _ =>
    intro c hc
    cases hc
    rcases he with rfl | rfl <;> decide

theorem span_digits_append (h : ∀ c ∈ cs, isDigit c = true)
    (hmore : ∀ c ∈ more.head?, isDigit c = false) : (cs ++ more).span isDigit = (cs, more) := by
  rw [List.span_eq_takeWhile_dropWhile, List.takeWhile_append_of_pos h,
    List.dropWhile_append_of_pos h]
  cases more with
  | nil => simp
  | cons c more => simp [hmore c rfl]

theorem exists_span_digits (cs : List Char) : ∃ digits rest, cs = digits ++ rest ∧
    (∀ c ∈ digits, isDigit c = true) ∧ ∀ c ∈ rest.head?, isDigit c = false := by
  refine ⟨cs.takeWhile isDigit, cs.dropWhile isDigit, List.takeWhile_append_dropWhile.symm, ?_, ?_⟩
  · exact fun c hc => List.all_eq_true.1 List.all_takeWhile c hc
  · intro c hc
    have hhead := List.head?_dropWhile_not isDigit cs
    rw [Option.mem_def.1 hc] at hhead
    simpa using hhead

variable {whole fraction rest : List Char}

theorem isSome_unsigned?_append (hwhole : ∀ c ∈ whole, isDigit c = true)
    (hfraction : Fraction fraction) (hrest : ∀ c ∈ rest.head?, isDigit c = false)
    (hpoint : fraction = [] → ∀ c ∈ rest.head?, c ≠ '.') :
    (unsigned? (whole ++ (fraction ++ rest))).isSome = true ↔
      (∃ c ∈ whole ++ fraction, isDigit c = true) ∧ (exponent? rest).isSome = true := by
  have hsome : ∀ {cs : List Char}, (∀ c ∈ cs, isDigit c = true) →
      ((∃ c ∈ cs, isDigit c = true) ↔ cs ≠ []) := fun hcs =>
    ⟨fun ⟨_, hc, _⟩ => List.ne_nil_of_mem hc, fun hne =>
      let ⟨c, hc⟩ := List.exists_mem_of_ne_nil _ hne
      ⟨c, hc, hcs c hc⟩⟩
  unfold unsigned?
  cases hfraction with
  | absent =>
    rw [List.nil_append, List.append_nil, span_digits_append hwhole hrest, hsome hwhole]
    dsimp only
    split
    next part => exact absurd rfl (hpoint rfl '.' rfl)
    next => cases whole <;> simp
  | present hpart =>
    rename_i part
    have hpointed : ∀ c ∈ ('.' :: (part ++ rest)).head?, isDigit c = false := by
      intro c hc
      cases hc
      decide
    rw [List.cons_append, span_digits_append hwhole hpointed]
    simp only [span_digits_append hpart hrest]
    -- The point is no digit, so that a digit stands before or behind it.
    have hdigit : (∃ c ∈ whole ++ '.' :: part, isDigit c = true) ↔ whole ++ part ≠ [] := by
      rw [← hsome fun c hc => (List.mem_append.1 hc).elim (hwhole c) (hpart c)]
      constructor
      · rintro ⟨c, hc, hdigit⟩
        have hne : c ≠ '.' := by
          rintro rfl
          exact absurd hdigit (by decide)
        exact ⟨c, by simpa [hne] using hc, hdigit⟩
      · rintro ⟨c, hc, hdigit⟩
        exact ⟨c, (List.mem_append.1 hc).elim (List.mem_append_left _)
          fun hc => List.mem_append_right _ (List.mem_cons_of_mem _ hc), hdigit⟩
    rw [hdigit]
    cases whole <;> cases part <;> simp

theorem isSome_unsigned?_iff : (unsigned? cs).isSome = true ↔ Unsigned cs := by
  constructor
  · intro h
    obtain ⟨whole, rest, rfl, hwhole, hrest⟩ := exists_span_digits cs
    by_cases hpoint : ∀ c ∈ rest.head?, c ≠ '.'
    · rw [← List.nil_append rest, isSome_unsigned?_append hwhole .absent hrest fun _ => hpoint] at h
      exact .mk hwhole .absent h.1 (isSome_exponent?_iff.1 h.2)
    · obtain ⟨rest, rfl⟩ : ∃ more, rest = '.' :: more := by
        cases rest with
        | nil => simp at hpoint
        | cons c rest => exact ⟨rest, by simpa using hpoint⟩
      obtain ⟨part, rest, rfl, hpart, hrest⟩ := exists_span_digits rest
      rw [← List.cons_append,
        isSome_unsigned?_append hwhole (.present hpart) hrest (by simp)] at h
      exact .mk hwhole (.present hpart) h.1 (isSome_exponent?_iff.1 h.2)
  · rintro ⟨hwhole, hfraction, hdigit, hexponent⟩
    refine (isSome_unsigned?_append hwhole hfraction (not_isDigit_of_exponent hexponent) ?_).2
      ⟨hdigit, isSome_exponent?_iff.2 hexponent⟩
    rintro - c hc rfl
    cases hexponent with
    | absent => cases hc
    | present he hn =>
      cases hc
      revert he
      decide

/-- A number has no second sign in front. -/
theorem head_unsigned (h : Unsigned body) : ∀ c ∈ body.head?, c ≠ '+' ∧ c ≠ '-' := by
  obtain @⟨whole, fraction, exponent, hwhole, hfraction, hdigit, -⟩ := h
  intro c hc
  cases whole with
  | cons d whole =>
    cases hc
    exact ne_sign_of_isDigit (hwhole c List.mem_cons_self)
  | nil =>
    cases hfraction with
    | absent => simp at hdigit
    | present =>
      cases hc
      decide

theorem toLower_of_isDigit (h : isDigit c = true) : c.toLower = c := by
  have hle : c ≤ '9' := (of_decide_eq_true h).2
  unfold Char.toLower
  split
  next hupper =>
    have hletter : 'A' ≤ c := Char.le_def.2 hupper.1
    exact absurd (Char.le_trans hletter hle) (by decide)
  next => rfl

theorem isNumeral_toLower (h : isNumeral c = true) : isNumeral c.toLower = true := by
  rw [isNumeral, Bool.or_eq_true] at h
  rcases h with h | h
  · rw [toLower_of_isDigit h, isNumeral, h, Bool.true_or]
  · have hc : c = '+' ∨ c = '-' ∨ c = '.' ∨ c = 'e' ∨ c = 'E' := by simpa using h
    rcases hc with rfl | rfl | rfl | rfl | rfl <;> decide

/-- The words for infinity and for what is not a number are written with other letters. -/
theorem real?_of_isNumeral (h : ∀ c ∈ cs, isNumeral c = true) :
    (real? cs).isSome = (unsigned? (takeSign cs).2).isSome := by
  obtain ⟨sign, -, heq⟩ := exists_sign_takeSign cs
  have hlower : ∀ c ∈ (String.ofList ((takeSign cs).2.map Char.toLower)).toList,
      isNumeral c = true := by
    intro c hc
    rw [String.toList_ofList] at hc
    obtain ⟨b, hb, rfl⟩ := List.mem_map.1 hc
    exact isNumeral_toLower (h b (heq ▸ List.mem_append_right sign hb))
  unfold real?
  dsimp only
  rw [Option.isSome_map]
  split
  next heq => exact absurd (hlower 'n' (by rw [heq]; decide)) (by decide)
  next heq => exact absurd (hlower 'n' (by rw [heq]; decide)) (by decide)
  next heq => exact absurd (hlower 'n' (by rw [heq]; decide)) (by decide)
  next => rfl

theorem isSome_real?_iff (h : ∀ c ∈ cs, isNumeral c = true) :
    (real? cs).isSome = true ↔ Numeral cs := by
  rw [real?_of_isNumeral h]
  constructor
  · intro hsome
    obtain ⟨sign, hsign, heq⟩ := exists_sign_takeSign cs
    rw [heq]
    exact .mk hsign (isSome_unsigned?_iff.1 hsome)
  · rintro ⟨hsign, hbody⟩
    rw [takeSign_append hsign (head_unsigned hbody)]
    exact isSome_unsigned?_iff.2 hbody

theorem isNumeral_of_isDigit (h : isDigit c = true) : isNumeral c = true := by
  rw [isNumeral, h, Bool.true_or]

theorem Sign.isNumeral (h : Sign cs) : ∀ c ∈ cs, isNumeral c = true := by
  cases h with
  | absent => exact nofun
  | plus => exact List.forall_mem_singleton.2 (by decide)
  | minus => exact List.forall_mem_singleton.2 (by decide)

theorem Whole.isNumeral (h : Whole cs) : ∀ c ∈ cs, isNumeral c = true := by
  obtain ⟨hsign, hdigits⟩ := h
  exact fun c hc => (List.mem_append.1 hc).elim (hsign.isNumeral c)
    fun hc => isNumeral_of_isDigit (hdigits.all c hc)

theorem Fraction.isNumeral (h : Fraction cs) : ∀ c ∈ cs, isNumeral c = true := by
  cases h with
  | absent => exact fun c hc => absurd hc List.not_mem_nil
  | present hpart =>
    exact List.forall_mem_cons.2 ⟨by decide, fun c hc => isNumeral_of_isDigit (hpart c hc)⟩

theorem Exponent.isNumeral (h : Exponent cs) : ∀ c ∈ cs, isNumeral c = true := by
  cases h with
  | absent => exact fun c hc => absurd hc List.not_mem_nil
  | present he hn =>
    refine List.forall_mem_cons.2 ⟨?_, hn.isNumeral⟩
    rcases he with rfl | rfl <;> decide

theorem Numeral.isNumeral (h : Numeral cs) : ∀ c ∈ cs, isNumeral c = true := by
  obtain ⟨hsign, hwhole, hfraction, -, hexponent⟩ := h
  simp only [List.forall_mem_append]
  exact ⟨hsign.isNumeral, fun c hc => isNumeral_of_isDigit (hwhole c hc), hfraction.isNumeral,
    hexponent.isNumeral⟩

theorem Numeral.ne_nil (h : Numeral cs) : cs ≠ [] := by
  obtain ⟨-, -, -, ⟨c, hc, -⟩, -⟩ := h
  rintro heq
  simp only [List.append_eq_nil_iff] at heq
  obtain ⟨-, rfl, rfl, -⟩ := heq
  exact absurd hc List.not_mem_nil

theorem Whole.numeral (h : Whole cs) : Numeral cs := by
  obtain ⟨hsign, hdigits⟩ := h
  refine .mk hsign ?_
  obtain ⟨c, hc⟩ := List.exists_mem_of_ne_nil _ hdigits.ne_nil
  simpa using Unsigned.mk hdigits.all .absent ⟨c, by simpa using hc, hdigits.all c hc⟩ .absent

end MailMerge.Decimal
