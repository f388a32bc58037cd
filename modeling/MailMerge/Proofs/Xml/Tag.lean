import Mathlib.Data.List.Nodup
import Mathlib.Data.List.TakeDrop
import MailMerge.Xml.Forest
import MailMerge.Xml.Reference
import MailMerge.Xml.Tag

/-!
# Tags that are read back

What is written for a text or for the value of an attribute is resolved to it again, for all texts,
and holds none of the characters at which a text or a value ends. The name and the attributes that are
written in a tag are read from it again, as long as all names are made of name characters and no two
attributes have the same name.
-/

namespace MailMerge.Xml

/-! ## Escaping and resolving -/

section Escaping

variable {c : Char} {piece rest : List Char}

/-- The written forms of a character: the character itself, unless it is an ampersand, and the five
references with a name. -/
inductive Stands : List Char → Char → Prop where
  | literal {c : Char} (h : c ≠ '&') : Stands [c] c
  | lt : Stands "&lt;".toList '<'
  | gt : Stands "&gt;".toList '>'
  | amp : Stands "&amp;".toList '&'
  | apos : Stands "&apos;".toList '\''
  | quot : Stands "&quot;".toList '"'

theorem stands_escapeTextChar (c : Char) : Stands (escapeTextChar c) c := by
  unfold escapeTextChar
  split
  next h => exact h ▸ .lt
  next =>
    split
    next h => exact h ▸ .gt
    next =>
      split
      next h => exact h ▸ .amp
      next h => exact .literal h

theorem stands_escapeValueChar (c : Char) : Stands (escapeValueChar c) c := by
  unfold escapeValueChar
  split
  next h => exact h ▸ .apos
  next =>
    split
    next h => exact h ▸ .quot
    next => exact stands_escapeTextChar c

/-- A written character is resolved, and resolving goes on behind it. -/
theorem unescapeFrom_append (h : Stands piece c) (total offset : Nat) (rest : List Char) :
    ∃ later, unescapeFrom total offset none (piece ++ rest) =
      (unescapeFrom total later none rest).map (c :: ·) := by
  cases h with
  | literal hc =>
    refine ⟨offset + c.utf8Size, ?_⟩
    rw [List.singleton_append, unescapeFrom, if_neg hc]
  | lt | gt | amp | apos | quot => exact ⟨_, rfl⟩

theorem unescapeFrom_flatMap {escape : Char → List Char} (hescape : ∀ c, Stands (escape c) c)
    (total offset : Nat) (cs : List Char) :
    unescapeFrom total offset none (cs.flatMap escape) = .ok cs := by
  induction cs generalizing offset with
  | nil => rfl
  | cons c cs ih =>
    obtain ⟨later, hlater⟩ := unescapeFrom_append (hescape c) total offset (cs.flatMap escape)
    rw [List.flatMap_cons, hlater, ih]
    rfl

/-- Every text is what its written form is resolved to. -/
theorem unescape_escapeText (s : String) : unescape (escapeText s).toList = .ok s := by
  rw [unescape, escapeText, String.toList_ofList, unescapeFrom_flatMap stands_escapeTextChar]
  exact congrArg Except.ok String.ofList_toList

/-- Every value is what its written form is resolved to. -/
theorem unescape_escapeValue (s : String) : unescape (escapeValue s).toList = .ok s := by
  rw [unescape, escapeValue, String.toList_ofList, unescapeFrom_flatMap stands_escapeValueChar]
  exact congrArg Except.ok String.ofList_toList

/-! ## What is not in written texts and values -/

/-- References hold neither brackets nor quotes. -/
theorem ne_of_mem_reference {x : Char} {word : String}
    (hword : word ∈ ["&lt;", "&gt;", "&amp;", "&apos;", "&quot;"]) (hx : x ∈ word.toList) :
    x ≠ '<' ∧ x ≠ '>' ∧ x ≠ '"' ∧ x ≠ '\'' := by
  have hnone : ∀ word ∈ ["&lt;", "&gt;", "&amp;", "&apos;", "&quot;"], '<' ∉ word.toList ∧
      '>' ∉ word.toList ∧ '"' ∉ word.toList ∧ '\'' ∉ word.toList := by decide
  obtain ⟨hlt, hgt, hquot, hapos⟩ := hnone word hword
  refine ⟨?_, ?_, ?_, ?_⟩
  · rintro rfl; exact hlt hx
  · rintro rfl; exact hgt hx
  · rintro rfl; exact hquot hx
  · rintro rfl; exact hapos hx

/-- A bracket is not written in a text, and a quote only for itself. -/
theorem notMem_escapeTextChar {x : Char} (h : x ∈ escapeTextChar c) :
    x ≠ '<' ∧ x ≠ '>' ∧ (x ≠ '"' ∧ x ≠ '\'' ∨ x = c) := by
  have hword : ∀ word ∈ ["&lt;", "&gt;", "&amp;", "&apos;", "&quot;"], x ∈ word.toList →
      x ≠ '<' ∧ x ≠ '>' ∧ (x ≠ '"' ∧ x ≠ '\'' ∨ x = c) := by
    intro word hword hx
    obtain ⟨hlt, hgt, hquotes⟩ := ne_of_mem_reference hword hx
    exact ⟨hlt, hgt, .inl hquotes⟩
  unfold escapeTextChar at h
  split at h
  next => exact hword _ (by simp) h
  next hlt =>
    split at h
    next => exact hword _ (by simp) h
    next hgt =>
      split at h
      next => exact hword _ (by simp) h
      next =>
        rw [List.mem_singleton] at h
        exact ⟨h ▸ hlt, h ▸ hgt, .inr h⟩

theorem escapeText_append (s t : String) : escapeText (s ++ t) = escapeText s ++ escapeText t := by
  simp [escapeText]

/-- Only nothing is written as nothing. -/
theorem escapeText_ne_nil {s : String} (h : s ≠ "") : (escapeText s).toList ≠ [] := by
  intro hnil
  have hread := unescape_escapeText s
  rw [hnil] at hread
  exact h (Except.ok.inj hread).symm

theorem lt_notMem_escapeText (s : String) : '<' ∉ (escapeText s).toList := by
  rw [escapeText, String.toList_ofList, List.mem_flatMap]
  rintro ⟨c, -, hc⟩
  exact (notMem_escapeTextChar hc).1 rfl

/-- Neither a bracket nor a quote is written in a value. -/
theorem notMem_escapeValue {x : Char} {s : String} (h : x ∈ (escapeValue s).toList) :
    x ≠ '<' ∧ x ≠ '>' ∧ x ≠ '"' ∧ x ≠ '\'' := by
  rw [escapeValue, String.toList_ofList, List.mem_flatMap] at h
  obtain ⟨c, -, hc⟩ := h
  unfold escapeValueChar at hc
  split at hc
  next => exact ne_of_mem_reference (by simp) hc
  next hapos =>
    split at hc
    next => exact ne_of_mem_reference (by simp) hc
    next hquot =>
      obtain ⟨hlt, hgt, hquotes | rfl⟩ := notMem_escapeTextChar hc
      · exact ⟨hlt, hgt, hquotes⟩
      · exact ⟨hlt, hgt, hquot, hapos⟩

end Escaping

/-! ## Names -/

/-- A character that the names of elements and attributes can have. -/
def isNameChar (c : Char) : Bool :=
  let n := c.toNat
  c.isAlphanum || c == ':' || c == '_' || c == '-' || c == '.' || n == 0xB7 ||
    (0xC0 ≤ n && n ≤ 0xD6) || (0xD8 ≤ n && n ≤ 0xF6) || (0xF8 ≤ n && n ≤ 0x37D) ||
    (0x37F ≤ n && n ≤ 0x1FFF) || (0x200C ≤ n && n ≤ 0x200D) || (0x203F ≤ n && n ≤ 0x2040) ||
    (0x2070 ≤ n && n ≤ 0x218F) || (0x2C00 ≤ n && n ≤ 0x2FEF) || (0x3001 ≤ n && n ≤ 0xD7FF) ||
    (0xF900 ≤ n && n ≤ 0xFDCF) || (0xFDF0 ≤ n && n ≤ 0xFFFD) || (0x10000 ≤ n && n ≤ 0xEFFFF)

/-- A non-empty row of name characters. -/
def IsName (cs : List Char) : Prop := cs ≠ [] ∧ ∀ c ∈ cs, isNameChar c = true

instance (cs : List Char) : Decidable (IsName cs) :=
  decidable_of_iff (cs ≠ [] ∧ cs.all isNameChar = true) (and_congr_right' List.all_eq_true)

variable {c : Char} {cs name value rest : List Char} {offset fuel : Nat}

/-- None of the characters that part a tag is a name character. -/
theorem ne_of_isNameChar {x : Char} (h : isNameChar c = true)
    (hx : x ∈ [' ', '\t', '\n', '\r', '=', '<', '>', '"', '\'', '/', '!', '?']) : c ≠ x := by
  rintro rfl
  have hnone : [' ', '\t', '\n', '\r', '=', '<', '>', '"', '\'', '/', '!', '?'].all
      (!isNameChar ·) = true := by decide
  simpa [h] using List.all_eq_true.1 hnone c hx

theorem isTagSpace_of_isNameChar (h : isNameChar c = true) : isTagSpace c = false := by
  simp [isTagSpace, ne_of_isNameChar h]

/-- What is taken off a row whose first characters all have a property, and the next one has not. -/
theorem span_append {p : Char → Bool} {xs ys : List Char} (hxs : ∀ x ∈ xs, p x = true)
    (hys : ∀ y ∈ ys.head?, p y = false) : (xs ++ ys).span p = (xs, ys) := by
  rw [List.span_eq_takeWhile_dropWhile, List.takeWhile_append_of_pos hxs,
    List.dropWhile_append_of_pos hxs]
  cases ys with
  | nil => simp
  | cons y ys => simp [hys y rfl]

/-! ## Attributes -/

namespace AttributeList

theorem skipSpace_cons (h : isTagSpace c = false) (offset : Nat) (cs : List Char) :
    skipSpace offset (c :: cs) = (offset, c :: cs) := by
  simp [skipSpace, h]

/-- The written form of an attribute whose value is written already. -/
def written (part : List Char × List Char) : List Char :=
  ' ' :: part.1 ++ '=' :: '"' :: part.2 ++ ['"']

theorem quoted_written (offset : Nat) (hvalue : '"' ∉ value) (rest : List Char) :
    ∃ later, quoted offset ('"' :: value ++ '"' :: rest) = .ok (value, later, rest) := by
  refine ⟨offset + 1 + Text.byteLength value + 1, ?_⟩
  have hspan : (value ++ '"' :: rest).span (· ≠ '"') = (value, '"' :: rest) := by
    apply span_append
    · intro x hx
      exact decide_eq_true fun heq => hvalue (heq ▸ hx)
    · simp
  have hspace : isTagSpace '"' = false := by decide
  rw [quoted, List.cons_append, skipSpace_cons hspace]
  dsimp only
  rw [if_pos (by decide), hspan]

/-- One written attribute is read, and reading goes on behind it. -/
theorem read_cons {unique : Bool} {known : List (List Char × Nat)} (hname : IsName name)
    (hvalue : '"' ∉ value) (hknown : unique = true → ∀ entry ∈ known, entry.1 ≠ name)
    (fuel offset : Nat) (rest : List Char) :
    ∃ start later, read unique (fuel + 1) known offset (written (name, value) ++ rest) =
      cons ⟨start, name, value⟩ (read unique fuel (known ++ [(name, start)]) later rest) := by
  obtain ⟨hsome, hchars⟩ := hname
  obtain ⟨first, more, rfl⟩ := List.exists_cons_of_ne_nil hsome
  have hfirst := isTagSpace_of_isNameChar (hchars first List.mem_cons_self)
  have hrest : nameRest (more ++ '=' :: '"' :: (value ++ '"' :: rest)) =
      (more, '=' :: '"' :: (value ++ '"' :: rest)) := by
    apply span_append
    · intro x hx
      have hx := hchars x (List.mem_cons_of_mem _ hx)
      simp [ne_of_isNameChar hx, isTagSpace_of_isNameChar hx]
    · simp
  have hskip : skipSpace offset (written (first :: more, value) ++ rest) =
      (offset + 1, first :: (more ++ '=' :: '"' :: (value ++ '"' :: rest))) := by
    have hspace : isTagSpace ' ' = true := by decide
    simp [written, skipSpace, hspace, hfirst]
  have hequals : isTagSpace '=' = false := by decide
  have hfind : (if unique then known.find? (·.1 = first :: more) else none) = none := by
    split
    next hunique =>
      rw [List.find?_eq_none]
      intro entry hentry
      simpa using hknown hunique entry hentry
    next => rfl
  obtain ⟨later, hquoted⟩ := quoted_written
    (offset + 1 + Text.byteLength (first :: more) + 1) hvalue rest
  refine ⟨offset + 1, later, ?_⟩
  rw [read, hskip]
  dsimp only
  rw [hrest]
  dsimp only
  rw [skipSpace_cons hequals]
  simp only [hfind]
  rw [← List.cons_append, hquoted]

/-- All written attributes are read, in their order. -/
theorem read_written {unique : Bool} {parts : List (List Char × List Char)} (fuel : Nat)
    (known : List (List Char × Nat)) (hnames : ∀ part ∈ parts, IsName part.1)
    (hvalues : ∀ part ∈ parts, '"' ∉ part.2)
    (hunique : unique = true → (known.map Prod.fst ++ parts.map Prod.fst).Nodup)
    (hfuel : parts.length ≤ fuel) (offset : Nat) :
    ∃ raws, read unique fuel known offset (parts.flatMap written) = ⟨raws, none⟩ ∧
      raws.map (fun raw => (raw.name, raw.value)) = parts := by
  induction parts generalizing known fuel offset with
  | nil =>
    refine ⟨[], ?_, rfl⟩
    cases fuel with
    | zero => rfl
    | succ fuel => rfl
  | cons part parts ih =>
    obtain ⟨name, value⟩ := part
    obtain ⟨fuel, rfl⟩ : ∃ n, fuel = n + 1 := Nat.exists_eq_succ_of_ne_zero (by rintro rfl; cases hfuel)
    have hknown : unique = true → ∀ entry ∈ known, entry.1 ≠ name := by
      intro h entry hentry heq
      have hdisjoint := (List.nodup_append.1 (hunique h)).2.2
      exact hdisjoint _ (List.mem_map_of_mem hentry) name (by simp) heq
    obtain ⟨start, later, hread⟩ := read_cons (hnames _ List.mem_cons_self)
      (hvalues _ List.mem_cons_self) hknown fuel offset (parts.flatMap written)
    obtain ⟨raws, hraws, hparts⟩ := ih fuel (known ++ [(name, start)])
      (fun part hpart => hnames part (List.mem_cons_of_mem _ hpart))
      (fun part hpart => hvalues part (List.mem_cons_of_mem _ hpart))
      (fun h => by simpa using hunique h) (by simpa using hfuel) later
    refine ⟨⟨start, name, value⟩ :: raws, ?_, by rw [List.map_cons, hparts]⟩
    rw [List.flatMap_cons, hread, hraws]
    rfl

theorem length_le_written (parts : List (List Char × List Char)) :
    parts.length ≤ (parts.flatMap written).length := by
  induction parts with
  | nil => exact Nat.le_refl 0
  | cons part parts ih =>
    simp only [List.length_cons, List.flatMap_cons, List.length_append, written]
    omega

theorem ofChars_written {unique : Bool} {parts : List (List Char × List Char)}
    (hnames : ∀ part ∈ parts, IsName part.1) (hvalues : ∀ part ∈ parts, '"' ∉ part.2)
    (hunique : unique = true → (parts.map Prod.fst).Nodup) (offset : Nat) :
    ∃ raws, ofChars unique offset (parts.flatMap written) = ⟨raws, none⟩ ∧
      raws.map (fun raw => (raw.name, raw.value)) = parts :=
  read_written _ [] hnames hvalues (by simpa using hunique)
    (Nat.le_succ_of_le (length_le_written parts)) offset

end AttributeList

/-! ## Elements -/

/-- The names in a tag are made of name characters, and no two attributes have the same name. -/
structure Element.WellNamed (tag : Element) : Prop where
  name : IsName tag.name.toList
  attributes : ∀ a ∈ tag.attributes, IsName a.name.toList
  nodup : (tag.attributes.map Attribute.name).Nodup

instance (tag : Element) : Decidable tag.WellNamed :=
  decidable_of_iff (IsName tag.name.toList ∧ (∀ a ∈ tag.attributes, IsName a.name.toList) ∧
      (tag.attributes.map Attribute.name).Nodup)
    ⟨fun ⟨hname, hattributes, hnodup⟩ => ⟨hname, hattributes, hnodup⟩,
      fun h => ⟨h.name, h.attributes, h.nodup⟩⟩

namespace Element

variable {tag : Element}

/-- An attribute as it is written. -/
def part (a : Attribute) : List Char × List Char := (a.name.toList, (escapeValue a.value).toList)

/-- What is written between the brackets of a tag. -/
def inner (tag : Element) : List Char :=
  tag.name.toList ++ (tag.attributes.map part).flatMap AttributeList.written

theorem toList_tagMarkup (tag : Element) : (Forest.tagMarkup tag).toList = '<' :: tag.inner := by
  have hattributes : ∀ as : List Attribute,
      (String.join (as.map Forest.attributeMarkup)).toList =
        (as.map part).flatMap AttributeList.written := by
    intro as
    induction as with
    | nil => rfl
    | cons a as ih =>
      simp [String.join_cons, ih, Forest.attributeMarkup, part, AttributeList.written]
  simp [Forest.tagMarkup, inner, hattributes]

theorem resolveAttributes_written {as : List Attribute} {raws : List RawAttribute}
    (h : raws.map (fun raw => (raw.name, raw.value)) = as.map part) :
    resolveAttributes none raws = .ok as := by
  induction as generalizing raws with
  | nil =>
    rw [List.map_nil, List.map_eq_nil_iff] at h
    rw [h]
    rfl
  | cons a as ih =>
    obtain ⟨raw, raws, rfl, hraw, hraws⟩ := List.map_eq_cons_iff.1 h
    obtain ⟨hname, hvalue⟩ := Prod.mk.inj hraw
    rw [resolveAttributes, hvalue, unescape_escapeValue]
    dsimp only
    rw [ih hraws, hname]
    simp [Except.map]

/-- The element that is written in a tag is read from it. -/
theorem ofChars_inner (h : tag.WellNamed) : ofChars tag.inner = .ok tag := by
  have hspan : tag.inner.span (!isTagSpace ·) =
      (tag.name.toList, (tag.attributes.map part).flatMap AttributeList.written) := by
    apply span_append
    · intro x hx
      simp [isTagSpace_of_isNameChar (h.name.2 x hx)]
    · cases tag.attributes with
      | nil => simp
      | cons a as =>
        intro y hy
        cases Option.some.inj hy
        rfl
  have hnames : ∀ p ∈ tag.attributes.map part, IsName p.1 := by
    intro p hp
    obtain ⟨a, ha, rfl⟩ := List.mem_map.1 hp
    exact h.attributes a ha
  have hvalues : ∀ p ∈ tag.attributes.map part, '"' ∉ p.2 := by
    intro p hp hquote
    obtain ⟨a, ha, rfl⟩ := List.mem_map.1 hp
    exact (notMem_escapeValue hquote).2.2.1 rfl
  have hunique : true = true → ((tag.attributes.map part).map Prod.fst).Nodup := by
    intro _
    have hfst : (tag.attributes.map part).map Prod.fst =
        (tag.attributes.map Attribute.name).map String.toList := by simp [part]
    rw [hfst]
    exact h.nodup.map fun a b heq => String.toList_inj.1 heq
  obtain ⟨raws, hraws, hparts⟩ :=
    AttributeList.ofChars_written hnames hvalues hunique (Text.byteLength tag.name.toList)
  rw [ofChars, hspan]
  dsimp only
  rw [hraws, resolveAttributes_written hparts]
  simp [Except.map]

end Element

end MailMerge.Xml
