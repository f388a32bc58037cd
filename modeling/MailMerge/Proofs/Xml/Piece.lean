import Mathlib.Data.List.TakeWhile
import MailMerge.Proofs.Xml.Tag
import MailMerge.Xml.Event

/-!
# Pieces that are read back

Each written piece of markup is read as the piece that it was written for, and reading goes on behind
it: tags, CDATA sections, texts and declarations.
-/

namespace MailMerge.Xml

variable {cs rest : List Char} {opened : List String} {position : Nat}

/-! ## Where markup ends -/

namespace Bracket

variable {kind : Bracket} {seen body : List Char}

/-- Markup ends at a closing bracket that ends it, if none before does. -/
theorem split_append (hinner : ∀ before after, body = before ++ '>' :: after →
      kind.closes (before.reverse ++ seen) = false)
    (hend : kind.closes (body.reverse ++ seen) = true) (rest : List Char) :
    kind.split seen (body ++ '>' :: rest) = some (seen.reverse ++ body, rest) := by
  induction body generalizing seen with
  | nil =>
    have hclosed : kind.closes seen = true := by simpa using hend
    simp [split, hclosed]
  | cons c body ih =>
    have hopen : (c = '>' && kind.closes seen) = false := by
      by_cases hc : c = '>'
      · simpa [hc] using hinner [] body (by rw [hc, List.nil_append])
      · simp [hc]
    have hlater : kind.split (c :: seen) (body ++ '>' :: rest) =
        some ((c :: seen).reverse ++ body, rest) := by
      apply ih
      · intro before after heq
        simpa using hinner (c :: before) after (by rw [heq, List.cons_append])
      · simpa using hend
    rw [List.cons_append, split, if_neg (by simpa using hopen), hlater]
    simp

theorem openQuote_of_plain (h : ∀ c ∈ cs, c ≠ '"' ∧ c ≠ '\'') (hseen : openQuote seen = none) :
    openQuote (cs.reverse ++ seen) = none := by
  induction cs generalizing seen with
  | nil => exact hseen
  | cons c cs ih =>
    obtain ⟨hquot, hapos⟩ := h c List.mem_cons_self
    rw [List.reverse_cons, List.append_assoc]
    apply ih fun x hx => h x (List.mem_cons_of_mem _ hx)
    simp [openQuote, hseen, hquot, hapos]

theorem openQuote_of_value (h : '"' ∉ cs) (hseen : openQuote seen = some '"') :
    openQuote (cs.reverse ++ seen) = some '"' := by
  induction cs generalizing seen with
  | nil => exact hseen
  | cons c cs ih =>
    rw [List.mem_cons, not_or] at h
    obtain ⟨hc, hcs⟩ := h
    rw [List.reverse_cons, List.append_assoc]
    apply ih hcs
    simp [openQuote, hseen, Ne.symm hc]

/-- The quotes around written values are balanced. -/
theorem openQuote_written {parts : List (List Char × List Char)}
    (hnames : ∀ part ∈ parts, IsName part.1) (hvalues : ∀ part ∈ parts, '"' ∉ part.2)
    (hseen : openQuote seen = none) :
    openQuote ((parts.flatMap AttributeList.written).reverse ++ seen) = none := by
  induction parts generalizing seen with
  | nil => exact hseen
  | cons part parts ih =>
    obtain ⟨name, value⟩ := part
    rw [List.flatMap_cons, List.reverse_append, List.append_assoc]
    apply ih (fun part hpart => hnames part (List.mem_cons_of_mem _ hpart))
      (fun part hpart => hvalues part (List.mem_cons_of_mem _ hpart))
    have hname : ∀ c ∈ ' ' :: name ++ ['='], c ≠ '"' ∧ c ≠ '\'' := by
      intro c hc
      simp only [List.cons_append, List.mem_cons, List.mem_append, List.not_mem_nil, or_false] at hc
      rcases hc with rfl | hc | rfl
      · decide
      · have hchar := (hnames _ List.mem_cons_self).2 c hc
        exact ⟨ne_of_isNameChar hchar (by simp), ne_of_isNameChar hchar (by simp)⟩
      · decide
    have hopened : openQuote ('"' :: ((' ' :: name ++ ['=']).reverse ++ seen)) = some '"' := by
      rw [openQuote, openQuote_of_plain hname hseen]
      rfl
    have hinside := openQuote_of_value (hvalues _ List.mem_cons_self) hopened
    have hwritten : (AttributeList.written (name, value)).reverse ++ seen =
        '"' :: (value.reverse ++ '"' :: ((' ' :: name ++ ['=']).reverse ++ seen)) := by
      simp [AttributeList.written]
    rw [hwritten, openQuote, hinside]
    rfl

/-- A mark before a closing bracket is not partly in what holds no bracket. -/
theorem infix_of_append {mark tail : List Char} (htail : '>' ∉ tail)
    (h : mark ++ ['>'] <:+: body ++ tail) : mark ++ ['>'] <:+: body := by
  rcases List.infix_append_iff.1 h with h | h | ⟨front, back, heq, hfront, hback⟩
  · exact h
  · exact absurd (h.subset (by simp)) htail
  · rcases List.eq_nil_or_concat back with rfl | ⟨before, c, rfl⟩
    · rw [List.append_nil] at heq
      exact heq ▸ hfront.isInfix
    · rw [List.concat_eq_append, ← List.append_assoc] at heq
      obtain ⟨-, hlast⟩ := List.append_inj' heq rfl
      have hc : c ∈ tail := hback.subset (by simp)
      exact absurd (List.cons.inj hlast).1 fun heq => htail (heq ▸ hc)

/-- Markup of a kind that ends at a closing bracket behind a given mark ends at its own mark, if the
mark and a closing bracket are nowhere inside. -/
theorem split_of_unmarked {mark : List Char}
    (hcloses : ∀ seen, kind.closes seen = true ↔ mark.reverse <+: seen)
    (hinner : ¬mark ++ ['>'] <:+: body) (hend : mark <:+ body) (rest : List Char) :
    kind.split [] (body ++ '>' :: rest) = some (body, rest) := by
  have hopen : ∀ before after, body = before ++ '>' :: after →
      kind.closes (before.reverse ++ []) = false := by
    intro before after heq
    rw [List.append_nil, Bool.eq_false_iff, Ne, hcloses, List.reverse_prefix]
    rintro ⟨start, rfl⟩
    apply hinner
    exact ⟨start, after, by rw [heq]; simp⟩
  have hclosed : kind.closes (body.reverse ++ []) = true := by
    rw [List.append_nil, hcloses, List.reverse_prefix]
    exact hend
  exact split_append hopen hclosed rest

/-- Brackets that hold no bracket themselves, and in which quotes are balanced, hold a whole tag. -/
theorem split_tag (hkind : kind = .startTag ∨ kind = .endTag) (hbody : '>' ∉ body)
    (hquotes : openQuote body.reverse = none) (rest : List Char) :
    kind.split [] (body ++ '>' :: rest) = some (body, rest) := by
  have hinner : ∀ before after, body = before ++ '>' :: after →
      kind.closes (before.reverse ++ []) = false := by
    rintro before after rfl
    simp at hbody
  have hend : kind.closes (body.reverse ++ []) = true := by
    rcases hkind with rfl | rfl <;> simp [closes, hquotes]
  exact split_append hinner hend rest

end Bracket

/-! ## What is written in a tag -/

theorem plain_of_isName {name : List Char} (h : IsName name) :
    ∀ c ∈ name, c ≠ '"' ∧ c ≠ '\'' := by
  intro c hc
  exact ⟨ne_of_isNameChar (h.2 c hc) (by simp), ne_of_isNameChar (h.2 c hc) (by simp)⟩

theorem gt_notMem_of_isName {name : List Char} (h : IsName name) : '>' ∉ name :=
  fun hmem => ne_of_isNameChar (h.2 _ hmem) (by simp) rfl

namespace Element

variable {tag : Element}

theorem WellNamed.isName_parts (h : tag.WellNamed) : ∀ p ∈ tag.attributes.map part, IsName p.1 := by
  intro p hp
  obtain ⟨a, ha, rfl⟩ := List.mem_map.1 hp
  exact h.attributes a ha

theorem quote_notMem_parts (tag : Element) : ∀ p ∈ tag.attributes.map part, '"' ∉ p.2 := by
  intro p hp hquote
  obtain ⟨a, -, rfl⟩ := List.mem_map.1 hp
  exact (notMem_escapeValue hquote).2.2.1 rfl

theorem WellNamed.gt_notMem_inner (h : tag.WellNamed) : '>' ∉ tag.inner := by
  rw [inner, List.mem_append, not_or, List.mem_flatMap]
  refine ⟨gt_notMem_of_isName h.name, ?_⟩
  rintro ⟨p, hp, hmem⟩
  have hname := gt_notMem_of_isName (h.isName_parts p hp)
  obtain ⟨a, -, rfl⟩ := List.mem_map.1 hp
  have hvalue : '>' ∉ (part a).2 := fun hmem => (notMem_escapeValue hmem).2.1 rfl
  simp [AttributeList.written, hname, hvalue] at hmem

theorem WellNamed.openQuote_inner (h : tag.WellNamed) :
    Bracket.openQuote tag.inner.reverse = none := by
  have hname : Bracket.openQuote (tag.name.toList.reverse ++ []) = none :=
    Bracket.openQuote_of_plain (plain_of_isName h.name) rfl
  have hall := Bracket.openQuote_written h.isName_parts (quote_notMem_parts tag) hname
  rw [inner, List.reverse_append]
  simpa using hall

theorem WellNamed.exists_inner (h : tag.WellNamed) :
    ∃ first more, tag.inner = first :: more ∧ isNameChar first = true := by
  obtain ⟨first, more, hname⟩ := List.exists_cons_of_ne_nil h.name.1
  refine ⟨first, _, by rw [inner, hname, List.cons_append], h.name.2 first ?_⟩
  rw [hname]
  exact List.mem_cons_self

/-- A tag is not taken for one that is closed at once: it ends with a name or with a quote. -/
theorem WellNamed.getLast?_inner (h : tag.WellNamed) : tag.inner.getLast? ≠ some '/' := by
  intro hlast
  rw [inner] at hlast
  rcases List.eq_nil_or_concat tag.attributes with hnil | ⟨before, a, hattributes⟩
  · rw [hnil] at hlast
    have hmem : '/' ∈ tag.name.toList := List.mem_of_getLast? (by simpa using hlast)
    exact ne_of_isNameChar (h.name.2 _ hmem) (by simp) rfl
  · rw [hattributes, List.concat_eq_append, List.map_append, List.flatMap_append,
      List.map_singleton, List.flatMap_singleton, AttributeList.written, ← List.append_assoc,
      ← List.append_assoc, List.getLast?_concat] at hlast
    exact absurd hlast (by decide)

end Element

/-! ## Reading on -/

namespace Reading

/-- Adds pieces in front. -/
def prepend (pieces : List (Nat × Event)) (reading : Reading) : Reading :=
  { reading with events := pieces ++ reading.events }

/-- With the given elements open, the text `cs` is read as the given pieces, after which reading
goes on at `rest`. -/
structure Reads (opened : List String) (cs : List Char) (events : List Event)
    (opened' : List String) (rest : List Char) : Prop where
  length_le : events.length + rest.length ≤ cs.length
  read_eq : ∀ fuel position, ∃ pieces next, pieces.map Prod.snd = events ∧
    read (fuel + events.length) position opened cs =
      prepend pieces (read fuel next opened' rest)

namespace Reads

variable {opened' opened'' : List String} {mid : List Char} {events events' : List Event}

theorem refl (opened : List String) (cs : List Char) : Reads opened cs [] opened cs :=
  ⟨by simp, fun _ position => ⟨[], position, rfl, rfl⟩⟩

theorem trans (h : Reads opened cs events opened' mid) (h' : Reads opened' mid events' opened'' rest) :
    Reads opened cs (events ++ events') opened'' rest := by
  refine ⟨?_, ?_⟩
  · have hfirst := h.length_le
    have hsecond := h'.length_le
    rw [List.length_append]
    omega
  · intro fuel position
    obtain ⟨pieces, middle, hpieces, hread⟩ := h.read_eq (fuel + events'.length) position
    obtain ⟨pieces', next, hpieces', hread'⟩ := h'.read_eq fuel middle
    refine ⟨pieces ++ pieces', next, by rw [List.map_append, hpieces, hpieces'], ?_⟩
    have hfuel : fuel + (events ++ events').length = fuel + events'.length + events.length := by
      rw [List.length_append]
      omega
    rw [hfuel, hread, hread']
    simp [prepend]

/-- Markup that is split off and interpreted is one piece. -/
theorem markup {kind : Bracket} {body : List Char} {event : Event}
    (hkind : Bracket.ofChars (body ++ '>' :: rest) = .ok kind)
    (hsplit : kind.split [] (body ++ '>' :: rest) = some (body, rest))
    (hevent : ∀ position, interpret position opened body kind = .ok (event, opened')) :
    Reads opened ('<' :: (body ++ '>' :: rest)) [event] opened' rest := by
  refine ⟨?_, ?_⟩
  · simp only [List.length_cons, List.length_nil, List.length_append]
    omega
  · intro fuel position
    refine ⟨[(position, event)], position + Text.byteLength body + 2, rfl, ?_⟩
    rw [List.length_singleton, read, readMarkup, hkind]
    dsimp only
    rw [hsplit]
    dsimp only
    rw [hevent]
    rfl

/-! ## Tags -/

theorem ofChars_startTag {c : Char} (hc : isNameChar c = true) (cs : List Char) :
    Bracket.ofChars (c :: cs) = .ok .startTag := by
  have hbang : c ≠ '!' := ne_of_isNameChar hc (by simp)
  have hslash : c ≠ '/' := ne_of_isNameChar hc (by simp)
  have hquestion : c ≠ '?' := ne_of_isNameChar hc (by simp)
  unfold Bracket.ofChars
  split
  all_goals simp_all

variable {tag : Element}

theorem start (h : tag.WellNamed) (opened : List String) (rest : List Char) :
    Reads opened ('<' :: (tag.inner ++ '>' :: rest)) [.start tag] (tag.name :: opened) rest := by
  obtain ⟨first, more, hinner, hfirst⟩ := h.exists_inner
  have hkind : Bracket.ofChars (tag.inner ++ '>' :: rest) = .ok .startTag := by
    rw [hinner]
    exact ofChars_startTag hfirst _
  apply markup hkind
  · exact Bracket.split_tag (.inl rfl) h.gt_notMem_inner h.openQuote_inner rest
  · intro position
    rw [interpret, readStart]
    simp only [h.getLast?_inner, if_false]
    rw [Element.ofChars_inner h]

theorem empty (h : tag.WellNamed) (opened : List String) (rest : List Char) :
    Reads opened ('<' :: (tag.inner ++ '/' :: '>' :: rest)) [.empty tag] opened rest := by
  obtain ⟨first, more, hinner, hfirst⟩ := h.exists_inner
  have hbody : tag.inner ++ '/' :: '>' :: rest = (tag.inner ++ ['/']) ++ '>' :: rest := by simp
  have hkind : Bracket.ofChars ((tag.inner ++ ['/']) ++ '>' :: rest) = .ok .startTag := by
    rw [hinner]
    exact ofChars_startTag hfirst _
  rw [hbody]
  apply markup hkind
  · apply Bracket.split_tag (.inl rfl)
    · simpa using h.gt_notMem_inner
    · rw [List.reverse_append]
      simp [Bracket.openQuote, h.openQuote_inner]
  · intro position
    rw [interpret, readStart]
    simp only [List.getLast?_append, List.getLast?_singleton, Option.some_or, if_true,
      List.dropLast_concat]
    rw [Element.ofChars_inner h]

theorem endName_of_isName {name : String} (h : IsName name.toList) :
    endName name.toList = name := by
  have hspaces : name.toList.reverse.dropWhile isTagSpace = name.toList.reverse := by
    rw [List.dropWhile_eq_self_iff]
    intro hlength hspace
    have hmem := List.mem_reverse.1 (List.getElem_mem hlength)
    rw [isTagSpace_of_isNameChar (h.2 _ hmem)] at hspace
    cases hspace
  simp [endName, hspaces, h.1]

/-- The end tag of the innermost open element closes it. -/
theorem stop {name : String} (h : IsName name.toList) (opened : List String) (rest : List Char) :
    Reads (name :: opened) ('<' :: '/' :: (name.toList ++ '>' :: rest)) [.stop name] opened rest := by
  have hkind : Bracket.ofChars ('/' :: name.toList ++ '>' :: rest) = .ok .endTag := rfl
  rw [← List.cons_append]
  apply markup hkind
  · apply Bracket.split_tag (.inr rfl)
    · simpa using gt_notMem_of_isName h
    · have hplain : ∀ c ∈ '/' :: name.toList, c ≠ '"' ∧ c ≠ '\'' := by
        intro c hc
        rcases List.mem_cons.1 hc with rfl | hc
        · decide
        · exact plain_of_isName h c hc
      have hquotes : Bracket.openQuote (('/' :: name.toList).reverse ++ []) = none :=
        Bracket.openQuote_of_plain hplain rfl
      simpa using hquotes
  · intro position
    rw [interpret, List.drop_one, List.tail_cons, endName_of_isName h, readEnd, if_pos rfl]

/-! ## CDATA sections and texts -/

theorem closes_cdata_iff (seen : List Char) :
    Bracket.cdata.closes seen = true ↔ "]]".toList.reverse <+: seen := by
  rw [List.prefix_iff_eq_take]
  simp [Bracket.closes, eq_comm]

/-- A CDATA section ends where it has been written to, unless an end is in what it holds. -/
theorem cdata {content : List Char} (h : ¬"]]>".toList <:+: content) (opened : List String)
    (rest : List Char) :
    Reads opened ('<' :: ("![CDATA[".toList ++ content ++ "]]".toList ++ '>' :: rest))
      [.cdata (String.ofList content)] opened rest := by
  have hkind : Bracket.ofChars (("![CDATA[".toList ++ content ++ "]]".toList) ++ '>' :: rest) =
      .ok .cdata := rfl
  apply markup hkind
  · apply Bracket.split_of_unmarked closes_cdata_iff
    · intro hinside
      have hcontent := Bracket.infix_of_append (by decide) hinside
      exact h (by simpa [List.infix_cons_iff] using hcontent)
    · exact List.suffix_append _ _
  · intro position
    have hlength : ("![CDATA[".toList ++ content ++ "]]".toList).length = content.length + 10 := by
      simp
    have hcontent : ("![CDATA[".toList ++ content ++ "]]".toList).drop 8 = content ++ "]]".toList :=
      rfl
    rw [interpret, if_pos (by rfl), hlength, hcontent, Nat.add_sub_cancel, List.take_left]

/-- A text is read up to the next bracket. -/
theorem text {content : String} (h : content ≠ "") (hrest : ∀ c ∈ rest.head?, c = '<')
    (opened : List String) :
    Reads opened ((escapeText content).toList ++ rest) [.text content] opened rest := by
  have hsome := escapeText_ne_nil h
  have hbracket := lt_notMem_escapeText content
  have hspan : ((escapeText content).toList ++ rest).span (· ≠ '<') =
      ((escapeText content).toList, rest) := by
    apply span_append
    · intro x hx
      exact decide_eq_true fun heq => hbracket (heq ▸ hx)
    · intro y hy
      simp [hrest y hy]
  refine ⟨?_, ?_⟩
  · have hlength := List.length_pos_of_ne_nil hsome
    rw [List.length_append, List.length_singleton]
    omega
  · intro fuel position
    refine ⟨[(position, .text content)],
      position + Text.byteLength (escapeText content).toList, rfl, ?_⟩
    obtain ⟨c, more, hcs⟩ := List.exists_cons_of_ne_nil hsome
    have hc : c ≠ '<' := fun heq => hbracket (by rw [hcs, heq]; exact List.mem_cons_self)
    have hcons : (escapeText content).toList ++ rest = c :: (more ++ rest) := by
      rw [hcs, List.cons_append]
    rw [List.length_singleton]
    rw [hcons] at hspan ⊢
    rw [read, hspan]
    · dsimp only
      rw [unescape_escapeText]
      rfl
    · exact nofun
    · rintro cs ⟨⟩
      exact hc rfl

end Reads

end Reading

end MailMerge.Xml
