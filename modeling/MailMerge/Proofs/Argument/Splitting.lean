import MailMerge.Argument

/-!
# Commas outside quotes

A list of arguments is cut at the commas outside quotes. A quote is opened by either quote character
where none is open, and closed by the same character. Main statement: the pieces of a text are the
only ones into which it is cut in this way (`pieces_eq_iff`).
-/

namespace MailMerge.Argument

/-- The quote that is open after a character. -/
def quoteAfter (quote : Option Char) (c : Char) : Option Char :=
  match quote with
  | some q => if c = q then none else some q
  | none => if c = '"' ∨ c = '\'' then some c else none

/-- The quote that is open after a text. -/
def openQuote (quote : Option Char) (cs : List Char) : Option Char := cs.foldl quoteAfter quote

/-- All commas of a text stand in quotes. -/
def Uncut (quote : Option Char) (cs : List Char) : Prop :=
  ∀ before after, cs = before ++ ',' :: after → openQuote quote before ≠ none

/-- The pieces into which a text is cut by the commas outside quotes. -/
inductive Cut : List Char → List (List Char) → Prop where
  /-- A text without such a comma is one piece. -/
  | last {piece : List Char} (h : Uncut none piece) : Cut piece [piece]
  /-- A comma outside quotes ends a piece. -/
  | comma {piece rest : List Char} {ps : List (List Char)} (h : Uncut none piece)
    (hclosed : openQuote none piece = none) (hrest : Cut rest ps) :
    Cut (piece ++ ',' :: rest) (piece :: ps)

variable {quote : Option Char} {cs more piece rest : List Char} {ps : List (List Char)} {c : Char}

@[simp] theorem openQuote_nil : openQuote quote [] = quote := rfl

@[simp] theorem openQuote_cons :
    openQuote quote (c :: cs) = openQuote (quoteAfter quote c) cs := rfl

@[simp] theorem openQuote_append :
    openQuote quote (cs ++ more) = openQuote (openQuote quote cs) more := List.foldl_append

theorem uncut_nil : Uncut quote [] := by
  intro before after h
  cases before <;> cases h

theorem uncut_cons_iff :
    Uncut quote (c :: cs) ↔ (c = ',' → quote ≠ none) ∧ Uncut (quoteAfter quote c) cs := by
  constructor
  · intro h
    refine ⟨fun hc => h [] cs (hc ▸ rfl), fun before after heq => ?_⟩
    exact h (c :: before) after (heq ▸ rfl)
  · rintro ⟨hc, hcs⟩ before after heq
    cases before with
    | nil => exact hc (List.cons.inj heq).1
    | cons b before =>
      obtain ⟨rfl, hrest⟩ := List.cons.inj heq
      exact hcs before after hrest

/-! ## How a text is split -/

theorem split_cons_comma :
    split none (',' :: rest) = ([], (split none rest).1 :: (split none rest).2) := rfl

theorem split_cons (h : c = ',' → quote ≠ none) :
    split quote (c :: cs) =
      (c :: (split (quoteAfter quote c) cs).1, (split (quoteAfter quote c) cs).2) := by
  cases quote with
  | some q => rfl
  | none =>
    have hcomma : c ≠ ',' := fun hc => h hc rfl
    rw [split, if_neg hcomma, quoteAfter]

/-- A text whose commas all stand in quotes stays in one piece with what follows it. -/
theorem split_append (h : Uncut quote cs) (rest : List Char) :
    split quote (cs ++ rest) =
      (cs ++ (split (openQuote quote cs) rest).1, (split (openQuote quote cs) rest).2) := by
  induction cs generalizing quote with
  | nil => rfl
  | cons c cs ih =>
    obtain ⟨hc, hcs⟩ := uncut_cons_iff.1 h
    rw [List.cons_append, split_cons hc, ih hcs]
    rfl

theorem split_of_cut (h : Cut cs ps) : (split none cs).1 :: (split none cs).2 = ps := by
  induction h with
  | last h =>
    have hsplit := split_append h []
    rw [List.append_nil] at hsplit
    rw [hsplit, split, List.append_nil]
  | comma h hclosed _ ih =>
    rw [split_append h, hclosed, split_cons_comma, List.append_nil, ih]

theorem Cut.of_first {more : List (List Char)} (huncut : Uncut none piece)
    (h : cs = piece ∧ more = [] ∨
      ∃ rest, cs = piece ++ ',' :: rest ∧ openQuote none piece = none ∧ Cut rest more) :
    Cut cs (piece :: more) := by
  rcases h with ⟨rfl, rfl⟩ | ⟨rest, rfl, hclosed, hrest⟩
  · exact .last huncut
  · exact .comma huncut hclosed hrest

/-- What is split off first has no comma outside quotes, and what follows it is cut. -/
theorem cut_rest_of_split (quote : Option Char) (cs : List Char) :
    Uncut quote (split quote cs).1 ∧
      (cs = (split quote cs).1 ∧ (split quote cs).2 = [] ∨
        ∃ rest, cs = (split quote cs).1 ++ ',' :: rest ∧
          openQuote quote (split quote cs).1 = none ∧ Cut rest (split quote cs).2) := by
  induction cs generalizing quote with
  | nil => exact ⟨uncut_nil, .inl ⟨rfl, rfl⟩⟩
  | cons c cs ih =>
    by_cases hc : c = ',' → quote ≠ none
    · obtain ⟨huncut, hmore⟩ := ih (quoteAfter quote c)
      rw [split_cons hc]
      refine ⟨uncut_cons_iff.2 ⟨hc, huncut⟩, ?_⟩
      rcases hmore with ⟨heq, hnone⟩ | ⟨rest, heq, hclosed, hcut⟩
      · exact .inl ⟨congrArg (c :: ·) heq, hnone⟩
      · exact .inr ⟨rest, congrArg (c :: ·) heq, hclosed, hcut⟩
    · rw [Classical.not_imp, Classical.not_not] at hc
      obtain ⟨rfl, rfl⟩ := hc
      obtain ⟨huncut, hmore⟩ := ih none
      exact ⟨uncut_nil, .inr ⟨cs, rfl, rfl, .of_first huncut hmore⟩⟩

theorem cut_split (cs : List Char) : Cut cs ((split none cs).1 :: (split none cs).2) :=
  .of_first (cut_rest_of_split none cs).1 (cut_rest_of_split none cs).2

/-- The pieces of a list are what it is cut into by the commas outside quotes. -/
theorem pieces_eq_iff {s : String} {ps : List String} :
    pieces s = ps ↔ Cut s.toList (ps.map String.toList) := by
  have hpieces : pieces s =
      ((split none s.toList).1 :: (split none s.toList).2).map String.ofList := rfl
  constructor
  · rintro rfl
    rw [hpieces, List.map_map, show String.toList ∘ String.ofList = id from
      funext fun _ => String.toList_ofList, List.map_id]
    exact cut_split s.toList
  · intro h
    rw [hpieces, split_of_cut h, List.map_map, show String.ofList ∘ String.toList = id from
      funext fun _ => String.ofList_toList, List.map_id]

/-! ## Lists written piece by piece -/

/-- All commas of a text stand in quotes, and all of its quotes are closed. -/
structure Closed (cs : List Char) : Prop where
  uncut : Uncut none cs
  closed : openQuote none cs = none

theorem closed_nil : Closed [] := ⟨uncut_nil, rfl⟩

theorem Closed.append (hcs : Closed cs) (hmore : Closed more) : Closed (cs ++ more) := by
  refine ⟨fun before after heq => ?_, by rw [openQuote_append, hcs.closed, hmore.closed]⟩
  rcases List.append_eq_append_iff.1 heq with ⟨middle, rfl, hmiddle⟩ | ⟨middle, rfl, hmiddle⟩
  · rw [openQuote_append, hcs.closed]
    exact hmore.uncut _ _ hmiddle
  · cases middle with
    | nil => exact absurd (hcs.closed) (by simpa using hmore.uncut [] _ hmiddle.symm)
    | cons c middle =>
      obtain ⟨rfl, -⟩ := List.cons.inj hmiddle
      exact hcs.uncut _ _ rfl

theorem closed_of_plain (h : ∀ c ∈ cs, c ≠ ',' ∧ c ≠ '"' ∧ c ≠ '\'') : Closed cs := by
  induction cs with
  | nil => exact closed_nil
  | cons c cs ih =>
    obtain ⟨hcomma, hdouble, hsingle⟩ := h c List.mem_cons_self
    obtain ⟨huncut, hclosed⟩ := ih fun c hc => h c (List.mem_cons_of_mem _ hc)
    have hquote : quoteAfter none c = none := by simp [quoteAfter, hdouble, hsingle]
    refine ⟨uncut_cons_iff.2 ⟨fun hc => absurd hc hcomma, ?_⟩, ?_⟩
    · rwa [hquote]
    · rwa [openQuote_cons, hquote]

/-- Between quotes anything can stand but the quote itself. -/
theorem closed_quoted {q : Char} (hq : q = '"' ∨ q = '\'') (h : q ∉ cs) :
    Closed (q :: (cs ++ [q])) := by
  have hopen : quoteAfter none q = some q := by simp [quoteAfter, hq]
  have hinner : Uncut (some q) (cs ++ [q]) ∧ openQuote (some q) (cs ++ [q]) = none := by
    induction cs with
    | nil => exact ⟨uncut_cons_iff.2 ⟨fun _ => by simp, uncut_nil⟩, by simp [quoteAfter]⟩
    | cons c cs ih =>
      rw [List.mem_cons, not_or] at h
      have hkeep : quoteAfter (some q) c = some q := by simp [quoteAfter, Ne.symm h.1]
      obtain ⟨huncut, hclosed⟩ := ih h.2
      refine ⟨uncut_cons_iff.2 ⟨fun _ => by simp, ?_⟩, ?_⟩
      · rwa [hkeep]
      · rwa [List.cons_append, openQuote_cons, hkeep]
  refine ⟨uncut_cons_iff.2 ⟨?_, ?_⟩, ?_⟩
  · rintro rfl
    simp at hq
  · rw [hopen]
    exact hinner.1
  · rw [openQuote_cons, hopen]
    exact hinner.2

/-- The commas between closed texts part them, and those inside do not. -/
theorem pieces_intercalate {text : String} {texts : List String}
    (h : ∀ t ∈ text :: texts, Closed t.toList) :
    pieces (",".intercalate (text :: texts)) = text :: texts := by
  rw [pieces_eq_iff]
  induction texts generalizing text with
  | nil => simpa using Cut.last (h text List.mem_cons_self).uncut
  | cons next texts ih =>
    have hfirst := h text List.mem_cons_self
    have hrest := ih fun t ht => h t (List.mem_cons_of_mem _ ht)
    have htext : (",".intercalate (text :: next :: texts)).toList =
        text.toList ++ ',' :: (",".intercalate (next :: texts)).toList := by simp
    rw [htext]
    exact .comma hfirst.uncut hfirst.closed hrest

theorem allBlank_intercalate {text : String} (h : Text.allBlank text = false) (texts : List String) :
    Text.allBlank (",".intercalate (text :: texts)) = false := by
  rw [Text.allBlank, List.all_eq_false] at h ⊢
  obtain ⟨c, hc, hblank⟩ := h
  refine ⟨c, ?_, hblank⟩
  cases texts with
  | nil => simpa using hc
  | cons next texts => simp [hc]

/-- A list that is written item by item is read item by item. -/
theorem parse_intercalate {α : Type} (context : Context) {text : α → String}
    {read : α → Except MergeError Value} {a : α} {list : List α}
    (hclosed : ∀ b ∈ a :: list, Closed (text b).toList) (hblank : Text.allBlank (text a) = false)
    (hread : ∀ b ∈ a :: list, value context (Text.trim (text b)) = read b) :
    parse context (some (",".intercalate ((a :: list).map text))) = (a :: list).mapM read := by
  have hpieces : pieces (",".intercalate ((a :: list).map text)) = (a :: list).map text := by
    refine pieces_intercalate fun t ht => ?_
    obtain ⟨b, hb, rfl⟩ := List.mem_map.1 (List.map_cons ▸ ht : t ∈ (a :: list).map text)
    exact hclosed b hb
  have hall : ∀ bs : List α, (∀ b ∈ bs, value context (Text.trim (text b)) = read b) →
      (bs.map text).mapM (fun piece => value context (Text.trim piece)) = bs.mapM read := by
    intro bs hbs
    induction bs with
    | nil => rfl
    | cons b bs ih =>
      rw [List.map_cons, List.mapM_cons, List.mapM_cons, hbs b List.mem_cons_self,
        ih fun c hc => hbs c (List.mem_cons_of_mem _ hc)]
  have hwritten : Text.allBlank (",".intercalate ((a :: list).map text)) = false :=
    List.map_cons ▸ allBlank_intercalate hblank (list.map text)
  rw [parse, hwritten, hpieces]
  exact hall _ hread

end MailMerge.Argument
