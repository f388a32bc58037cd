import Mathlib.Data.List.Forall2
import Mathlib.Data.List.TakeDrop
import MailMerge.Json.Reader
import MailMerge.Proofs.Decimal

/-!
# Reading back what was written

What the reader makes of written JSON is what was written, except that a whole number too large for
a word comes back as a floating-point number. Whether a text is read at all depends on how deep it
nests; the statements here say what is read if anything is (`Written`).
-/

namespace MailMerge.Json

variable {fuel : Nat} {seen rest left : List Char} {c : Char} {x : Json}

/-! ## Strings -/

theorem hexValue?_hexDigit {n : Nat} (hn : n < 16) : Text.hexValue? (Text.hexDigit n) = some n := by
  have h : ∀ m : Fin 16, Text.hexValue? (Text.hexDigit m) = some m.1 := by decide
  exact h ⟨n, hn⟩

theorem unicodeEscape_small {n : Nat} (hn : n < 32) (rest : List Char) :
    unicodeEscape ('0' :: '0' :: Text.hexDigit (n / 16) :: Text.hexDigit (n % 16) :: rest) =
      some (Char.ofNat n, rest) := by
  have hzero : Text.hexValue? '0' = some 0 := by decide
  have hlow : n / 16 * 16 + n % 16 = n := Nat.div_add_mod' n 16
  have hsmall : ¬(0xDC00 ≤ n ∧ n ≤ 0xDFFF) ∧ ¬(0xD800 ≤ n ∧ n ≤ 0xDBFF) := by omega
  rw [unicodeEscape, hex4, hzero, hexValue?_hexDigit (by omega), hexValue?_hexDigit (by omega)]
  simp [hlow, hsmall]

/-- A character is written as it is, or as an escape that stands for it. -/
theorem escapeChar_cases (c : Char) :
    (escapeChar c = [c] ∧ c ≠ '"' ∧ c ≠ '\\' ∧ 32 ≤ c.toNat) ∨
      ∃ letters, escapeChar c = '\\' :: letters ∧
        ∀ rest, escape (letters ++ rest) = some (c, rest) := by
  have hcode (n : Nat) (h : c.toNat = n) : Char.ofNat n = c := by rw [← h, Char.ofNat_toNat]
  by_cases hquote : c = '"'
  · exact .inr ⟨['"'], by simp [escapeChar, hquote], fun _ => by rw [hquote]; rfl⟩
  by_cases hslash : c = '\\'
  · exact .inr ⟨['\\'], by simp [escapeChar, hslash], fun _ => by rw [hslash]; rfl⟩
  by_cases hline : c = '\n'
  · exact .inr ⟨['n'], by simp [escapeChar, hline], fun _ => by rw [hline]; rfl⟩
  by_cases hreturn : c = '\r'
  · exact .inr ⟨['r'], by simp [escapeChar, hreturn], fun _ => by rw [hreturn]; rfl⟩
  by_cases htab : c = '\t'
  · exact .inr ⟨['t'], by simp [escapeChar, htab], fun _ => by rw [htab]; rfl⟩
  simp only [escapeChar, hquote, hslash, hline, hreturn, htab, if_false]
  by_cases hback : c.toNat = 8
  · exact .inr ⟨['b'], by simp [hback], fun _ => by rw [← hcode 8 hback]; rfl⟩
  by_cases hfeed : c.toNat = 12
  · exact .inr ⟨['f'], by simp [hfeed], fun _ => by rw [← hcode 12 hfeed]; rfl⟩
  simp only [hback, hfeed, if_false]
  by_cases hsmall : c.toNat < 32
  · refine .inr ⟨_, if_pos hsmall, fun rest => ?_⟩
    have hchar := unicodeEscape_small hsmall rest
    rw [hcode _ rfl] at hchar
    exact hchar
  · exact .inl ⟨if_neg hsmall, hquote, hslash, Nat.le_of_not_lt hsmall⟩

/-- Each written character is read back. -/
theorem stringRest_escapeChar (fuel : Nat) (seen : List Char) (c : Char) (rest : List Char) :
    stringRest (fuel + 1) seen (escapeChar c ++ rest) = stringRest fuel (c :: seen) rest := by
  rcases escapeChar_cases c with ⟨heq, hquote, hslash, hlarge⟩ | ⟨letters, heq, hescape⟩
  · rw [heq, List.singleton_append, stringRest, if_neg hquote, if_neg hslash,
      if_neg (Nat.not_lt.2 hlarge)]
  · rw [heq, List.cons_append, stringRest, if_neg (by decide), if_pos rfl, hescape]

theorem stringRest_quoted {cs : List Char} (hfuel : cs.length < fuel) :
    stringRest fuel seen (cs.flatMap escapeChar ++ '"' :: rest) =
      some (String.ofList (seen.reverse ++ cs), rest) := by
  induction cs generalizing fuel seen with
  | nil =>
    obtain ⟨fuel, rfl⟩ := Nat.exists_eq_succ_of_ne_zero (Nat.ne_of_gt hfuel)
    rw [List.flatMap_nil, List.nil_append, stringRest, if_pos rfl, List.append_nil]
  | cons c cs ih =>
    obtain ⟨fuel, rfl⟩ := Nat.exists_eq_succ_of_ne_zero (Nat.ne_zero_of_lt hfuel)
    rw [List.flatMap_cons, List.append_assoc, stringRest_escapeChar,
      ih (Nat.lt_of_succ_lt_succ hfuel), List.reverse_cons, List.append_assoc,
      List.singleton_append]

theorem length_le_length_flatMap_escapeChar (cs : List Char) :
    cs.length ≤ (cs.flatMap escapeChar).length := by
  induction cs with
  | nil => exact Nat.le_refl _
  | cons c cs ih =>
    have hc : 1 ≤ (escapeChar c).length := by
      rcases escapeChar_cases c with ⟨heq, -⟩ | ⟨letters, heq, -⟩ <;> simp [heq]
    rw [List.flatMap_cons, List.length_append, List.length_cons]
    omega

theorem toList_quote (s : String) :
    (quote s).toList = '"' :: (s.toList.flatMap escapeChar ++ ['"']) := by
  simp [quote]

/-- A written string is read back. -/
theorem stringRest_quote (s : String) (rest : List Char) :
    stringRest ((s.toList.flatMap escapeChar ++ '"' :: rest).length + 1) []
      (s.toList.flatMap escapeChar ++ '"' :: rest) = some (s, rest) := by
  rw [stringRest_quoted, List.reverse_nil, List.nil_append, String.ofList_toList]
  have := length_le_length_flatMap_escapeChar s.toList
  simp only [List.length_append]
  omega

/-! ## Values -/

/-- What follows a value in an array or object, or at the end of a text. -/
def Stops : List Char → Prop
  | [] => True
  | c :: _ => c = ',' ∨ c = ']' ∨ c = '\x7d'

/-- A text begins with a value, and whatever is read of it is as expected and leaves what follows
the text. -/
structure Written (interest : Interest) (text : List Char) (expected : Json → Prop) : Prop where
  head : ∃ c more, text = c :: more ∧ isSpace c = false ∧ c ≠ ']' ∧ c ≠ '\x7d'
  read : ∀ fuel depth rest x left, Stops rest →
    value fuel depth interest (text ++ rest) = some (x, left) → expected x ∧ left = rest

/-- What is of interest is read by what it begins with. -/
theorem value_cons {depth : Nat} {interest : Interest} (hinterest : interest ≠ .nothing)
    (hc : isSpace c = false) :
    value (fuel + 1) depth interest (c :: rest) =
      if c = 'n' then (afterWord? "ull" rest).map (null, ·)
      else if c = 't' then (afterWord? "rue" rest).map (bool true, ·)
      else if c = 'f' then (afterWord? "alse" rest).map (bool false, ·)
      else if c = '"' then
        (stringRest (rest.length + 1) [] rest).map fun (s, rest) => (string s, rest)
      else if c = '-' then number true rest
      else if c = '[' then
        if depth ≤ 1 then none
        else
          match skip rest with
          | ']' :: rest => some (array [], rest)
          | rest =>
            (items fuel (depth - 1) interest 0 rest).map fun (xs, rest) => (array xs, rest)
      else if c = '\x7b' then
        if depth ≤ 1 then none
        else
          match skip rest with
          | '\x7d' :: rest => some (object [], rest)
          | rest =>
            (members fuel (depth - 1) interest rest).map fun (xs, rest) => (object xs, rest)
      else number false (c :: rest) := by
  rw [value.eq_3 _ _ _ _ hinterest, skip, List.dropWhile_cons, hc]
  rfl

theorem written_string (interest : Interest) (hinterest : interest ≠ .nothing) (s : String) :
    Written interest (string s).compact.toList (· = string s) := by
  rw [compact, toList_quote]
  refine ⟨⟨_, _, rfl, by decide⟩, ?_⟩
  rintro (- | fuel) depth rest x left - h
  · rw [value] at h
    cases h
  · rw [List.cons_append, value_cons hinterest (by decide), List.append_assoc,
      List.singleton_append, stringRest_quote] at h
    cases h
    exact ⟨rfl, rfl⟩

/-- What follows a value ends its digits. -/
theorem span_digits {n : Nat} (hrest : Stops rest) :
    (Nat.toDigits 10 n ++ rest).span Decimal.isDigit = (Nat.toDigits 10 n, rest) := by
  have hdigits : ∀ c ∈ Nat.toDigits 10 n, Decimal.isDigit c = true :=
    fun c hc => Decimal.isDigit_of_mem_toDigits hc
  rw [List.span_eq_takeWhile_dropWhile, List.takeWhile_append_of_pos hdigits,
    List.dropWhile_append_of_pos hdigits]
  cases rest with
  | nil => simp
  | cons c rest =>
    have hc : Decimal.isDigit c = false := by
      rcases hrest with rfl | rfl | rfl <;> decide
    simp [hc]

theorem numeral_digits {n : Nat} (hrest : Stops rest) {found : Numeral}
    (h : numeral (Nat.toDigits 10 n ++ rest) = some (found, left)) :
    found = ⟨Nat.toDigits 10 n, none, none⟩ ∧ left = rest := by
  rw [numeral, span_digits hrest] at h
  simp only at h
  split at h
  · cases h
  · cases rest with
    | nil =>
      cases h
      exact ⟨rfl, rfl⟩
    | cons c rest =>
      rcases hrest with rfl | rfl | rfl <;>
      · cases h
        exact ⟨rfl, rfl⟩

/-- A whole number is read as it is, or as a floating-point number if it is too large. -/
def IsNumber (n : Nat) (x : Json) : Prop := x = integer n ∨ ∃ f, x = real f

theorem number_digits {n : Nat} (hrest : Stops rest)
    (h : number false (Nat.toDigits 10 n ++ rest) = some (x, left)) :
    IsNumber n x ∧ left = rest := by
  rw [number] at h
  obtain ⟨⟨found, after⟩, hfound, h⟩ := Option.bind_eq_some_iff.1 h
  obtain ⟨v, hv, h⟩ := Option.bind_eq_some_iff.1 h
  cases h
  obtain ⟨rfl, rfl⟩ := numeral_digits hrest hfound
  refine ⟨?_, rfl⟩
  simp only [Numeral.value?, Decimal.ofDigits_toDigits, Bool.false_eq_true, if_false] at hv
  split at hv
  · cases hv
    exact .inl rfl
  · obtain ⟨f, -, rfl⟩ := Option.map_eq_some_iff.1 hv
    exact .inr ⟨f, rfl⟩

theorem toList_compact_integer (n : Nat) : (integer n).compact.toList = Nat.toDigits 10 n := by
  rw [compact, ← Nat.toList_repr]
  rfl

theorem written_integer (interest : Interest) (hinterest : interest ≠ .nothing) (n : Nat) :
    Written interest (integer n).compact.toList (IsNumber n) := by
  rw [toList_compact_integer]
  obtain ⟨c, more, hcs⟩ := List.exists_cons_of_ne_nil (Nat.toDigits_ne_nil (n := n) (b := 10))
  have hdigit : Decimal.isDigit c :=
    Decimal.isDigit_of_mem_toDigits (hcs ▸ List.mem_cons_self)
  have hne : ∀ d, Decimal.isDigit d = false → c ≠ d := by
    rintro d hd rfl
    rw [hd] at hdigit
    cases hdigit
  have hspace : isSpace c = false := by
    simp [isSpace, hne ' ' (by decide), hne '\n' (by decide), hne '\t' (by decide),
      hne '\r' (by decide)]
  refine ⟨⟨c, more, hcs, hspace, hne _ (by decide), hne _ (by decide)⟩, ?_⟩
  rintro (- | fuel) depth rest x left hrest h
  · rw [value] at h
    cases h
  · rw [hcs, List.cons_append, value_cons hinterest hspace, if_neg (hne _ (by decide)),
      if_neg (hne _ (by decide)), if_neg (hne _ (by decide)), if_neg (hne _ (by decide)),
      if_neg (hne _ (by decide)), if_neg (hne _ (by decide)), if_neg (hne _ (by decide)),
      ← List.cons_append, ← hcs] at h
    exact number_digits hrest h

/-! ## Arrays and objects -/

/-- Texts parted by commas. -/
def parted : List (List Char) → List Char
  | [] => []
  | [text] => text
  | text :: rest => text ++ ',' :: parted rest

theorem parted_cons_cons (text next : List Char) (rest : List (List Char)) :
    parted (text :: next :: rest) = text ++ ',' :: parted (next :: rest) := rfl

section Arrays

variable {α : Type} {depth : Nat} {interest : Interest} {text : α → List Char}
variable {expected : α → Json → Prop}

/-- The items that are read are those that were written. -/
theorem items_parted {index : Nat} {as : List α} (hne : as ≠ [])
    (has : ∀ a ∈ as, ∀ k, Written (interest.item k) (text a) (expected a)) {xs : List Json}
    (h : items fuel depth interest index (parted (as.map text) ++ ']' :: rest) = some (xs, left)) :
    List.Forall₂ expected as xs ∧ left = rest := by
  induction as generalizing fuel index xs with
  | nil => exact absurd rfl hne
  | cons a as ih =>
    cases fuel with
    | zero =>
      rw [items] at h
      cases h
    | succ fuel =>
      have ha := has a List.mem_cons_self index
      rw [items] at h
      cases as with
      | nil =>
        split at h
        next => cases h
        next x after hx =>
          obtain ⟨hexpected, rfl⟩ := ha.read _ _ (']' :: rest) x after (Or.inr (.inl rfl)) hx
          cases h
          exact ⟨.cons hexpected .nil, rfl⟩
      | cons b as =>
        rw [List.map_cons, List.map_cons, parted_cons_cons, List.append_assoc] at h
        split at h
        next => cases h
        next x after hx =>
          obtain ⟨hexpected, rfl⟩ := ha.read _ _ (',' :: _) x after (Or.inl rfl) hx
          simp only [skip, List.dropWhile_cons, show isSpace ',' = false by decide] at h
          obtain ⟨⟨ys, after⟩, hys, heq⟩ := Option.map_eq_some_iff.1 h
          cases heq
          obtain ⟨hall, hleft⟩ :=
            ih (List.cons_ne_nil _ _) (fun a ha => has a (List.mem_cons_of_mem _ ha)) hys
          exact ⟨.cons hexpected hall, hleft⟩

theorem toList_compactItems (js : List Json) :
    (compactItems js).toList = parted (js.map (·.compact.toList)) := by
  induction js with
  | nil => rfl
  | cons j js ih =>
    cases js with
    | nil => rfl
    | cons k js =>
      rw [compactItems]
      · simp only [String.toList_append, ih, List.map_cons, parted_cons_cons, List.append_assoc]
        rfl
      · simp

/-- The first character of parted texts is that of the first text. -/
theorem skip_parted {as : List α} (hne : as ≠ []) {P : α → Json → Prop}
    (has : ∀ a ∈ as, ∃ i, Written i (text a) (P a)) (rest : List Char) :
    ∃ c more, skip (parted (as.map text) ++ rest) = c :: more ∧ c ≠ ']' ∧ c ≠ '\x7d' ∧
      c :: more = parted (as.map text) ++ rest := by
  obtain ⟨a, as, rfl⟩ := List.exists_cons_of_ne_nil hne
  obtain ⟨i, ha⟩ := has a List.mem_cons_self
  obtain ⟨c, more, htext, hspace, hbracket, hbrace⟩ := ha.head
  have hparted : ∃ tail, parted ((a :: as).map text) ++ rest = c :: tail := by
    cases as with
    | nil => exact ⟨more ++ rest, by simp [parted, htext]⟩
    | cons b as => exact ⟨_, by rw [List.map_cons, List.map_cons, parted_cons_cons, htext]; rfl⟩
  obtain ⟨tail, htail⟩ := hparted
  refine ⟨c, tail, ?_, hbracket, hbrace, htail.symm⟩
  rw [htail, skip, List.dropWhile_cons, hspace]
  rfl

/-- A written array is read as an array of what its items are read as. -/
theorem written_array (interest : Interest) (hinterest : interest ≠ .nothing) (as : List α)
    (f : α → Json) (expected : α → Json → Prop)
    (has : ∀ a ∈ as, ∀ k, Written (interest.item k) (f a).compact.toList (expected a)) :
    Written interest (array (as.map f)).compact.toList
      fun x => ∃ xs, x = array xs ∧ List.Forall₂ expected as xs := by
  have htext : (array (as.map f)).compact.toList =
      '[' :: (parted (as.map fun a => (f a).compact.toList) ++ [']']) := by
    simp [compact, toList_compactItems, List.map_map, Function.comp_def]
  rw [htext]
  refine ⟨⟨_, _, rfl, by decide⟩, ?_⟩
  rintro (- | fuel) depth rest x left hrest h
  · rw [value] at h
    cases h
  · rw [List.cons_append, value_cons hinterest (by decide), List.append_assoc] at h
    simp only [show ('[' = 'n') = False by decide, show ('[' = 't') = False by decide,
      show ('[' = 'f') = False by decide, show ('[' = '"') = False by decide,
      show ('[' = '-') = False by decide, if_false, if_true] at h
    split at h
    · cases h
    · cases as with
      | nil =>
        cases h
        exact ⟨⟨[], rfl, .nil⟩, rfl⟩
      | cons a as =>
        obtain ⟨c, more, hskip, hbracket, -, htail⟩ := skip_parted (List.cons_ne_nil a as)
          (fun a ha => ⟨_, has a ha 0⟩) (']' :: rest)
        rw [List.singleton_append, hskip] at h
        split at h
        next heq => exact absurd (List.cons.inj heq).1 hbracket
        next =>
          rw [htail] at h
          obtain ⟨⟨xs, after⟩, hxs, heq⟩ := Option.map_eq_some_iff.1 h
          cases heq
          obtain ⟨hall, hleft⟩ := items_parted (List.cons_ne_nil a as) has hxs
          exact ⟨⟨xs, rfl, hall⟩, hleft⟩

end Arrays

section Objects

variable {depth : Nat} {interest : Interest}

/-- The written form of a member. -/
def memberText (m : String × Json) : List Char := (quote m.1).toList ++ ':' :: m.2.compact.toList

theorem toList_compactMembers (ms : List (String × Json)) :
    (compactMembers ms).toList = parted (ms.map memberText) := by
  induction ms with
  | nil => rfl
  | cons m ms ih =>
    obtain ⟨name, j⟩ := m
    cases ms with
    | nil => simp [compactMembers, parted, memberText]
    | cons k ms =>
      rw [compactMembers]
      · simp only [String.toList_append, ih, List.map_cons, parted_cons_cons, List.append_assoc,
          memberText]
        rfl
      · simp

/-- A member is read before what follows it. -/
theorem members_memberText {m : String × Json} {expected : Json → Prop}
    (hm : Written (interest.member m.1) m.2.compact.toList expected) (tail : List Char)
    (htail : Stops tail) {xs : List (String × Json)}
    (h : members (fuel + 1) depth interest (memberText m ++ tail) = some (xs, left)) :
    ∃ x, expected x ∧
      (match skip tail with
        | ',' :: rest =>
          (members fuel depth interest rest).map fun (xs, rest) => ((m.1, x) :: xs, rest)
        | '\x7d' :: rest => some ([(m.1, x)], rest)
        | _ => none) = some (xs, left) := by
  have htext : memberText m ++ tail =
      '"' :: (m.1.toList.flatMap escapeChar ++ '"' :: (':' :: (m.2.compact.toList ++ tail))) := by
    simp [memberText, toList_quote]
  have hquote (cs : List Char) : skip ('"' :: cs) = '"' :: cs := rfl
  have hcolon (cs : List Char) : skip (':' :: cs) = ':' :: cs := rfl
  rw [members, htext, hquote] at h
  simp only [stringRest_quote, hcolon] at h
  split at h
  next => cases h
  next x after hx =>
    obtain ⟨hexpected, rfl⟩ := hm.read _ _ tail x after htail hx
    exact ⟨x, hexpected, h⟩

/-- The members that are read are those that were written. -/
theorem members_parted {ms : List (String × Json)} (hne : ms ≠ [])
    {expected : String × Json → Json → Prop}
    (hms : ∀ m ∈ ms, Written (interest.member m.1) m.2.compact.toList (expected m))
    {xs : List (String × Json)}
    (h : members fuel depth interest (parted (ms.map memberText) ++ '\x7d' :: rest) =
      some (xs, left)) :
    List.Forall₂ (fun m x => x.1 = m.1 ∧ expected m x.2) ms xs ∧ left = rest := by
  induction ms generalizing fuel xs with
  | nil => exact absurd rfl hne
  | cons m ms ih =>
    cases fuel with
    | zero =>
      rw [members] at h
      cases h
    | succ fuel =>
      have hm := hms m List.mem_cons_self
      cases ms with
      | nil =>
        obtain ⟨x, hexpected, h⟩ :=
          members_memberText hm ('\x7d' :: rest) (Or.inr (.inr rfl)) h
        cases h
        exact ⟨.cons ⟨rfl, hexpected⟩ .nil, rfl⟩
      | cons k ms =>
        rw [List.map_cons, List.map_cons, parted_cons_cons, List.append_assoc] at h
        obtain ⟨x, hexpected, h⟩ := members_memberText hm (',' :: _) (Or.inl rfl) h
        obtain ⟨⟨ys, after⟩, hys, heq⟩ := Option.map_eq_some_iff.1 h
        cases heq
        obtain ⟨hall, hleft⟩ :=
          ih (List.cons_ne_nil _ _) (fun m hm => hms m (List.mem_cons_of_mem _ hm)) hys
        exact ⟨.cons ⟨rfl, hexpected⟩ hall, hleft⟩

/-- A written object is read as an object with the members that were written. -/
theorem written_object (interest : Interest) (hinterest : interest ≠ .nothing)
    {ms : List (String × Json)} (hne : ms ≠ []) (expected : String × Json → Json → Prop)
    (hms : ∀ m ∈ ms, Written (interest.member m.1) m.2.compact.toList (expected m)) :
    Written interest (object ms).compact.toList fun x =>
      ∃ xs, x = object xs ∧ List.Forall₂ (fun m x => x.1 = m.1 ∧ expected m x.2) ms xs := by
  have htext : (object ms).compact.toList = '\x7b' :: (parted (ms.map memberText) ++ ['\x7d']) := by
    simp [compact, toList_compactMembers]
  have hquote : ∃ tail, parted (ms.map memberText) = '"' :: tail := by
    obtain ⟨m, ms, rfl⟩ := List.exists_cons_of_ne_nil hne
    cases ms with
    | nil => exact ⟨_, by rw [List.map_cons, List.map_nil, parted, memberText, toList_quote]; rfl⟩
    | cons k ms =>
      exact ⟨_, by rw [List.map_cons, List.map_cons, parted_cons_cons, memberText, toList_quote]; rfl⟩
  rw [htext]
  refine ⟨⟨_, _, rfl, by decide⟩, ?_⟩
  rintro (- | fuel) depth rest x left hrest h
  · rw [value] at h
    cases h
  · rw [List.cons_append, value_cons hinterest (by decide), List.append_assoc,
      List.singleton_append] at h
    simp only [show ('\x7b' = 'n') = False by decide, show ('\x7b' = 't') = False by decide,
      show ('\x7b' = 'f') = False by decide, show ('\x7b' = '"') = False by decide,
      show ('\x7b' = '-') = False by decide, show ('\x7b' = '[') = False by decide, if_false,
      if_true] at h
    split at h
    · cases h
    · obtain ⟨tail, htail⟩ := hquote
      -- No blank is skipped, for a member begins with a quote.
      have hskip : skip (parted (ms.map memberText) ++ '\x7d' :: rest) =
          parted (ms.map memberText) ++ '\x7d' :: rest := by
        rw [htail]
        rfl
      rw [hskip] at h
      split at h
      next heq =>
        rw [htail] at heq
        exact absurd (List.cons.inj heq).1 (by decide)
      next =>
        obtain ⟨⟨xs, after⟩, hxs, heq⟩ := Option.map_eq_some_iff.1 h
        cases heq
        obtain ⟨hall, hleft⟩ := members_parted hne hms hxs
        exact ⟨⟨xs, rfl, hall⟩, hleft⟩

/-- An object with two members is read as one with what these are read as. -/
theorem written_pair (interest : Interest) (hinterest : interest ≠ .nothing)
    (m k : String × Json) (hne : k.1 ≠ m.1) {p q : Json → Prop} (hm : Written (interest.member m.1) m.2.compact.toList p)
    (hk : Written (interest.member k.1) k.2.compact.toList q) :
    Written interest (object [m, k]).compact.toList fun x =>
      ∃ y z, x = object [(m.1, y), (k.1, z)] ∧ p y ∧ q z := by
  have hobject := written_object interest hinterest (List.cons_ne_nil m [k])
    (fun l x => if l.1 = m.1 then p x else q x) (by
      intro l hl
      rcases List.mem_pair.1 hl with rfl | rfl
      · simpa using hm
      · simpa [hne] using hk)
  refine ⟨hobject.head, fun fuel depth rest x left hrest hx => ?_⟩
  obtain ⟨⟨xs, rfl, hall⟩, hleft⟩ := hobject.read fuel depth rest x left hrest hx
  refine ⟨?_, hleft⟩
  obtain ⟨y, ys, ⟨hy, hp⟩, hys, rfl⟩ := List.forall₂_cons_left_iff.1 hall
  obtain ⟨z, zs, ⟨hz, hq⟩, hzs, rfl⟩ := List.forall₂_cons_left_iff.1 hys
  rw [List.forall₂_nil_left_iff.1 hzs]
  refine ⟨y.2, z.2, by rw [← hy, ← hz], ?_, ?_⟩
  · simpa using hp
  · simpa [hne] using hq

end Objects

/-- What is read of a whole text that was written is as expected. -/
theorem Written.parseFor? {interest : Interest} {s : String} {expected : Json → Prop}
    (h : Written interest s.toList expected) (hx : parseFor? interest s = some x) : expected x := by
  rw [Json.parseFor?] at hx
  split at hx
  next y after hy =>
    have hread := h.read _ _ [] y after trivial (by rw [List.append_nil]; exact hy)
    split at hx
    · cases hx
      exact hread.1
    · cases hx
  next => cases hx

end MailMerge.Json
