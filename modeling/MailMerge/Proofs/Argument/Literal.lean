import MailMerge.Proofs.Argument.Splitting
import MailMerge.Proofs.Decimal
import MailMerge.Proofs.Text.Trim

/-!
# Literal arguments

Literals are written in a call as they are: whole numbers in digits, truth values and null by their
names, and texts between double quotes, parted by commas. Each is read as the value that it stands
for (`value_text`).
-/

namespace MailMerge

/-- An argument that stands for itself. -/
inductive Literal where
  /-- A whole number. -/
  | integer (n : Int)
  /-- A truth value. -/
  | bool (b : Bool)
  /-- No value. -/
  | null
  /-- A text. -/
  | string (s : String)
deriving DecidableEq, Repr

namespace Literal

/-- The value that a literal stands for. -/
def value : Literal → Value
  | integer n => .integer n
  | bool b => .bool b
  | null => .null
  | string s => .string s

/-- A literal as it is written. -/
def text : Literal → String
  | integer n => toString n
  | bool true => "true"
  | bool false => "false"
  | null => "nil"
  | string s => "\"" ++ s ++ "\""

/-- Numbers are written if they have 64 bits, and texts if they have no double quote. -/
def isWritable : Literal → Bool
  | integer n => Decimal.isWord n
  | bool _ | null => true
  | string s => !s.toList.contains '"'

/-- Literals as they are written, parted by commas. -/
def written (literals : List Literal) : String := ",".intercalate (literals.map text)

theorem toList_written_cons_cons (l m : Literal) (rest : List Literal) :
    (written (l :: m :: rest)).toList = l.text.toList ++ ',' :: (written (m :: rest)).toList := by
  simp [written]

theorem toList_written_singleton (l : Literal) : (written [l]).toList = l.text.toList := by
  simp [written]

end Literal

namespace Argument

open Literal

variable {l : Literal} {literals : List Literal} {cs rest : List Char} {c : Char}

/-! ## Splitting -/

theorem mem_toString_int {n : Int} (hc : c ∈ (toString n).toList) : c = '-' ∨ Decimal.isDigit c := by
  cases n with
  | ofNat m =>
    rw [Decimal.toList_toString_ofNat] at hc
    exact .inr (Decimal.isDigit_of_mem_toDigits hc)
  | negSucc m =>
    rw [Decimal.toList_toString_negSucc] at hc
    exact (List.mem_cons.1 hc).imp_right Decimal.isDigit_of_mem_toDigits

theorem ne_of_isNumeral {d : Char} (h : c = '-' ∨ Decimal.isDigit c) (hd : d ≠ '-')
    (hdigit : Decimal.isDigit d = false) : c ≠ d := by
  rintro rfl
  rcases h with rfl | h
  · exact hd rfl
  · rw [hdigit] at h
    cases h

theorem closed_text (h : l.isWritable = true) : Closed l.text.toList := by
  cases l with
  | integer n =>
    refine closed_of_plain fun c hc => ?_
    have hnumeral := mem_toString_int hc
    exact ⟨ne_of_isNumeral hnumeral (by decide) (by decide),
      ne_of_isNumeral hnumeral (by decide) (by decide),
      ne_of_isNumeral hnumeral (by decide) (by decide)⟩
  | bool b => cases b <;> exact closed_of_plain (by simp [text])
  | null => exact closed_of_plain (by simp [text])
  | string s =>
    have hquote : '"' ∉ s.toList := by simpa [isWritable] using h
    simpa [text] using closed_quoted (.inl rfl) hquote

/-! ## Reading -/

theorem isBlank_of_isNumeral (h : c = '-' ∨ Decimal.isDigit c) : Text.isBlank c = false := by
  rcases h with rfl | h
  · decide
  · obtain ⟨hlow, hhigh⟩ : 48 ≤ c.toNat ∧ c.toNat ≤ 57 := by
      simpa [Decimal.isDigit, Char.le_def, UInt32.le_iff_toNat_le] using h
    simp [Text.isBlank]
    omega

theorem toString_int_ne_nil (n : Int) : (toString n).toList ≠ [] := by
  cases n with
  | ofNat m =>
    rw [Decimal.toList_toString_ofNat]
    exact Nat.toDigits_ne_nil
  | negSucc m =>
    rw [Decimal.toList_toString_negSucc]
    exact List.cons_ne_nil _ _

theorem trim_text (l : Literal) : Text.trim l.text = l.text := by
  cases l with
  | integer n =>
    have hchars : ∀ c ∈ (toString n).toList, Text.isBlank c = false := fun c hc =>
      isBlank_of_isNumeral (mem_toString_int hc)
    exact Text.trim_eq_self (fun c hc => hchars c (List.mem_of_mem_head? hc))
      fun c hc => hchars c (List.mem_of_mem_getLast? hc)
  | bool b => cases b <;> decide
  | null => decide
  | string s =>
    have hcs : (Literal.string s).text.toList = ('"' :: s.toList) ++ ['"'] := by simp [text]
    refine Text.trim_eq_self (fun c hc => ?_) fun c hc => ?_
    · rw [hcs, List.cons_append, List.head?_cons, Option.mem_some_iff] at hc
      exact hc ▸ by decide
    · rw [hcs, List.getLast?_append, List.getLast?_singleton, Option.some_or, Option.mem_some_iff] at hc
      exact hc ▸ by decide

theorem number?_numeral {n : Int} (hchars : ∀ c ∈ cs, c = '-' ∨ Decimal.isDigit c) (hne : cs ≠ [])
    (hn : Decimal.integer? cs = some n) : number? cs = some (.integer n) := by
  have hnumeric : cs.all isNumeric = true := by
    refine List.all_eq_true.2 fun c hc => ?_
    rcases hchars c hc with rfl | hdigit
    · decide
    · simp [isNumeric, hdigit]
  have hdigits : cs.filter (· ≠ '_') = cs :=
    List.filter_eq_self.2 fun c hc => by
      simpa using ne_of_isNumeral (hchars c hc) (by decide) (by decide)
  simp only [number?, hdigits, hn]
  simp [hnumeric, hne]

theorem value_numeral (context : Context) {s : String} {n : Int}
    (hchars : ∀ c ∈ s.toList, c = '-' ∨ Decimal.isDigit c) (hne : s.toList ≠ [])
    (hn : Decimal.integer? s.toList = some n) : value context s = .ok (.integer n) := by
  have hout : ∀ d, d ≠ '-' → Decimal.isDigit d = false → d ∉ s.toList := fun d hd hdigit hin =>
    ne_of_isNumeral (hchars d hin) hd hdigit rfl
  have hword : ∀ w : String, (∃ d ∈ w.toList, d ≠ '-' ∧ Decimal.isDigit d = false) → s ≠ w := by
    rintro w ⟨d, hin, hd, hdigit⟩ rfl
    exact hout d hd hdigit hin
  have hunquote : ∀ q, q ≠ '-' → Decimal.isDigit q = false → unquote? q s.toList = none := by
    intro q hq hdigit
    obtain ⟨c, more, hcs⟩ := List.exists_cons_of_ne_nil hne
    have hc : c ≠ q := fun heq => hout q hq hdigit (heq ▸ hcs ▸ List.mem_cons_self)
    simp [hcs, unquote?, hc]
  unfold value
  split
  next rest heq => exact absurd (heq ▸ List.mem_cons_self) (hout '=' (by decide) (by decide))
  next =>
    split
    next => exact absurd rfl (hword "true" ⟨'t', by decide⟩)
    next => exact absurd rfl (hword "false" ⟨'f', by decide⟩)
    next => exact absurd rfl (hword "nil" ⟨'n', by decide⟩)
    next => exact absurd rfl (hword "null" ⟨'n', by decide⟩)
    next =>
      rw [hunquote '"' (by decide) (by decide), hunquote '\'' (by decide) (by decide),
        number?_numeral hchars hne hn]
      rfl

/-- What stands between two quotes of a kind is read as it is. -/
theorem value_quoted (context : Context) {q : Char} (hq : q = '"' ∨ q = '\'') {t s : String}
    (ht : t.toList = q :: (s.toList ++ [q])) : value context t = .ok (.string s) := by
  have hword : ∀ w : String, '"' ∉ w.toList → '\'' ∉ w.toList → t ≠ w := by
    rintro w hdouble hsingle rfl
    have hin : q ∈ t.toList := ht ▸ List.mem_cons_self
    rcases hq with rfl | rfl
    · exact hdouble hin
    · exact hsingle hin
  have hunquote : (unquote? '"' t.toList).or (unquote? '\'' t.toList) = some s := by
    rcases hq with rfl | rfl <;> simp [ht, unquote?]
  unfold value
  split
  next rest heq =>
    have hhead := (List.cons.inj (ht.symm.trans heq)).1
    rcases hq with rfl | rfl <;> cases hhead
  next =>
    split
    next => exact absurd rfl (hword "true" (by decide) (by decide))
    next => exact absurd rfl (hword "false" (by decide) (by decide))
    next => exact absurd rfl (hword "nil" (by decide) (by decide))
    next => exact absurd rfl (hword "null" (by decide) (by decide))
    next =>
      rw [hunquote]

/-- A written literal is read as its value. -/
theorem value_text (context : Context) (h : l.isWritable = true) :
    value context l.text = .ok l.value := by
  cases l with
  | integer n =>
    exact value_numeral context (fun c hc => mem_toString_int hc) (toString_int_ne_nil n)
      (Decimal.integer?_toString h)
  | bool b => cases b <;> rfl
  | null => rfl
  | string s => exact value_quoted context (.inl rfl) (by simp [text])

theorem allBlank_text (l : Literal) : Text.allBlank l.text = false := by
  cases l with
  | integer n =>
    obtain ⟨c, more, hcs⟩ := List.exists_cons_of_ne_nil (toString_int_ne_nil n)
    have hc := isBlank_of_isNumeral (mem_toString_int (hcs ▸ List.mem_cons_self))
    have htext : (Literal.integer n).text.toList = c :: more := hcs
    simp [Text.allBlank, htext, hc]
  | bool b => cases b <;> decide
  | null => decide
  | string s =>
    have hquote : Text.isBlank '"' = false := by decide
    simp [Text.allBlank, text, hquote]

end Argument

end MailMerge
