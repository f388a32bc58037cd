import MailMerge.Proofs.Part.Cells

/-!
# The first page number of a part

The properties of the last section and the page number among them are found, or made in their places;
then the first page is written to the page number. Nothing else changes, and what has been written is
found by the next call (`Cleanup.setStartPage_firstPage`). Together with the law of the cells this is
the main statement, `Cleanup.cleanUp_minimal`.
-/

namespace MailMerge

open Xml Xml.Forest Xml.Document

variable {d d₁ d₂ e : Document} {q s x y body : NodeId} {n : Nat}

namespace Cleanup

/-! ## Sections and page numbers -/

theorem lastNamed?_eq_getLast? (hd : d.Distinct) (body : NodeId) :
    ((d.elementChildren body).filter (d.isNamed · "w:sectPr")).getLast? =
      d.lastNamed? body "w:sectPr" := by
  rw [lastNamed?, ← hd.filter_elementChildren]
  simp

theorem lastSection_provided (hd : d.WellFormed) (hbody : body ∈ d.ids) :
    d.Provided body "w:sectPr" (d.children body) [] (d.lastNamed? body "w:sectPr")
      (lastSection d body).1 (lastSection d body).2 := by
  unfold lastSection
  rw [lastNamed?_eq_getLast? hd.toDistinct]
  cases hlast : d.lastNamed? body "w:sectPr" with
  | some s => exact .found (List.mem_of_getLast? hlast)
  | none =>
    obtain ⟨e, heq, hadded⟩ := addChild_added hd hbody "w:sectPr"
    dsimp only
    rw [heq]
    exact .made (List.append_nil _).symm hadded

/-- A row that is cut before the first later property. -/
structure Cut (d : Document) (row before after : List NodeId) : Prop where
  eq : row = before ++ after
  before : ∀ y ∈ before, d.isOneOf y laterProperties = false
  after : ∀ y ∈ after.head?, d.isOneOf y laterProperties = true

theorem exists_cut (d : Document) (row : List NodeId) : ∃ before after, Cut d row before after ∧
    row.find? (d.isOneOf · laterProperties) = after.head? := by
  have hhead : row.find? (d.isOneOf · laterProperties) =
      (row.dropWhile (!d.isOneOf · laterProperties)).head? := List.find?_eq_head?_dropWhile_not _ _
  refine ⟨_, _, ⟨List.takeWhile_append_dropWhile.symm, fun y hy => ?_, fun y hy => ?_⟩, hhead⟩
  · simpa using List.mem_takeWhile_imp hy
  · rw [← hhead] at hy
    exact List.find?_some (p := (d.isOneOf · laterProperties)) hy

/-- A new page number comes right before the first later property, or at the end. -/
theorem pageNumber_provided (hd : d.WellFormed) (hs : s ∈ d.ids) : ∃ before after,
    Cut d (d.children s) before after ∧
    d.Provided s "w:pgNumType" before after (d.childNamed? s "w:pgNumType")
      (pageNumber d s).1 (pageNumber d s).2 := by
  obtain ⟨before, after, hcut, hhead⟩ := exists_cut d (d.children s)
  have hlater : laterProperty? d s = after.head? := by
    rw [← hhead, ← List.head?_filter, ← hd.childrenNamed_eq, ← hd.filter_elementChildren,
      List.head?_filter]
    rfl
  refine ⟨before, after, hcut, ?_⟩
  unfold pageNumber
  cases hnumber : d.childNamed? s "w:pgNumType" with
  | some x =>
    rw [childNamed?_eq_head?] at hnumber
    exact .found (List.mem_of_head? hnumber)
  | none =>
    dsimp only
    rw [hlater]
    cases after with
    | nil =>
      obtain ⟨e, heq, hadded⟩ := addChild_added hd hs "w:pgNumType"
      rw [hcut.eq, List.append_nil] at hadded
      rw [List.head?_nil]
      dsimp only
      rw [heq]
      exact .made hcut.eq hadded
    | cons a after =>
      have hmem : a ∈ d.children s := hcut.eq ▸ List.mem_append_right _ List.mem_cons_self
      have hout : a ∉ before := fun hin =>
        Bool.false_ne_true ((hcut.before a hin).symm.trans (hcut.after a rfl))
      obtain ⟨e, hmove, hadded⟩ := hd.exists_added_before hmem "w:pgNumType"
      rw [hcut.eq, putBefore_append_cons hout] at hadded
      have hnext : (d.createElement "w:pgNumType").1 = d.next := rfl
      simp only [List.head?_cons, hnext, hmove, Option.getD_some]
      exact .made hcut.eq hadded

/-! ## The whole call -/

/-- The first page is written to the first page number of the last section of the first body. The
section is made if the body has none, and the page number if the section has none; it comes before
the first later property then. No other node, attribute or list of children changes. -/
structure FirstPage (n : Nat) (body s x : NodeId) (d e : Document) : Prop where
  wellFormed : e.WellFormed
  root : e.root = d.root
  declaration : e.declaration = d.declaration
  tops : e.allRows.map topIds = d.allRows.map topIds
  body_eq : e.childNamed? e.root "w:body" = some body
  last_eq : e.lastNamed? body "w:sectPr" = some s
  number_eq : e.childNamed? s "w:pgNumType" = some x
  start : e.attribute? x "w:start" = some (toString n)
  ids : ∀ q, q ∈ e.ids ↔ q ∈ d.ids ∨ q = s ∨ q = x
  kept : ∀ q ∈ d.ids, q ≠ x → e.node? q = d.node? q
  attributes : ∀ q ∈ d.ids, ∀ name, name ≠ "w:start" → e.attribute? q name = d.attribute? q name
  others : ∀ q ∈ d.ids, q ≠ body → q ≠ s → e.children q = d.children q
  sections : (d.lastNamed? body "w:sectPr" = some s ∧ e.children body = d.children body) ∨
    (d.lastNamed? body "w:sectPr" = none ∧ s ∉ d.ids ∧ e.children body = d.children body ++ [s] ∧
      e.node? s = some (.element ⟨"w:sectPr", []⟩))
  numbers : (d.childNamed? s "w:pgNumType" = some x ∧ e.children s = d.children s ∧
      ∃ tag, d.node? x = some (.element tag) ∧
        e.node? x = some (.element (tag.setAttribute "w:start" (toString n)))) ∨
    (d.childNamed? s "w:pgNumType" = none ∧ x ∉ d.ids ∧
      (∃ before after, Cut d (d.children s) before after ∧ e.children s = before ++ x :: after) ∧
      e.node? x = some (.element ⟨"w:pgNumType", [⟨"w:start", toString n⟩]⟩) ∧ e.children x = [])

/-- The section and its page number have been found or made, one after the other. -/
structure Reached (d : Document) (body s x : NodeId) (d₁ d₂ : Document) : Prop where
  wellFormed : d.WellFormed
  first_body : d.childNamed? d.root "w:body" = some body
  last_section : d.Provided body "w:sectPr" (d.children body) []
    (d.lastNamed? body "w:sectPr") s d₁
  page_number : ∃ before after, Cut d₁ (d₁.children s) before after ∧
    d₁.Provided s "w:pgNumType" before after (d₁.childNamed? s "w:pgNumType") x d₂

theorem reached (hd : d.WellFormed) (hbody : d.childNamed? d.root "w:body" = some body) :
    Reached d body (lastSection d body).1 (pageNumber (lastSection d body).2 (lastSection d body).1).1
      (lastSection d body).2 (pageNumber (lastSection d body).2 (lastSection d body).1).2 := by
  have hmem := (mem_ids_of_mem_children (hd.mem_of_childNamed? hbody).1).2
  have hsection := lastSection_provided hd hmem
  have hs := (mem_ids_of_mem_children (hsection.mem_children hd)).2
  exact ⟨hd, hbody, hsection, pageNumber_provided (hsection.wellFormed hd) hs⟩

namespace Reached

variable (h : Reached d body s x d₁ d₂)
include h

theorem wellFormed₁ : d₁.WellFormed := h.last_section.wellFormed h.wellFormed

theorem wellFormed₂ : d₂.WellFormed := by
  obtain ⟨_, _, -, hnumber⟩ := h.page_number
  exact hnumber.wellFormed h.wellFormed₁

theorem body_ne_root : body ≠ d.root := by
  rintro rfl
  exact h.wellFormed.notMem_children_self (h.wellFormed.mem_of_childNamed? h.first_body).1

theorem mem_body : s ∈ d₁.children body := h.last_section.mem_children h.wellFormed

theorem section_ne_body : s ≠ body := by
  rintro rfl
  exact h.wellFormed₁.notMem_children_self h.mem_body

theorem section_ne_root : s ≠ d.root := by
  rintro rfl
  have hbody : body ∈ d₁.children d.root := by
    rw [h.last_section.children_eq (Ne.symm h.body_ne_root)]
    exact (h.wellFormed.mem_of_childNamed? h.first_body).1
  exact h.wellFormed₁.notMem_children_of_mem_descendants (mem_descendants_of_mem_children hbody)
    h.mem_body

/-- The first body, its last section and the first page number of that are the ones reached. -/
theorem found : d₂.childNamed? d.root "w:body" = some body ∧
    d₂.lastNamed? body "w:sectPr" = some s ∧ d₂.childNamed? s "w:pgNumType" = some x := by
  obtain ⟨before, after, -, hnumber⟩ := h.page_number
  refine ⟨?_, ?_, hnumber.childNamed?_eq h.wellFormed₁⟩
  · rw [childNamed?_eq_head?, hnumber.childrenNamed_eq h.wellFormed₁ (Ne.symm h.section_ne_root),
      h.last_section.childrenNamed_eq h.wellFormed (Ne.symm h.body_ne_root),
      ← childNamed?_eq_head?]
    exact h.first_body
  · rw [lastNamed?, hnumber.childrenNamed_eq h.wellFormed₁ (Ne.symm h.section_ne_body), ← lastNamed?]
    exact h.last_section.lastNamed?_eq h.wellFormed

theorem mem_ids_iff : q ∈ d₂.ids ↔ q ∈ d.ids ∨ q = s ∨ q = x := by
  obtain ⟨_, _, -, hnumber⟩ := h.page_number
  rw [hnumber.mem_ids_iff h.wellFormed₁, h.last_section.mem_ids_iff h.wellFormed, or_assoc]

theorem node?_eq (hq : q ∈ d.ids) : d₂.node? q = d.node? q := by
  obtain ⟨_, _, -, hnumber⟩ := h.page_number
  have hq₁ : q ∈ d₁.ids := (h.last_section.mem_ids_iff h.wellFormed).2 (.inl hq)
  rw [hnumber.node?_eq h.wellFormed₁ hq₁, h.last_section.node?_eq h.wellFormed hq]

theorem children_eq (hbody : q ≠ body) (hs : q ≠ s) : d₂.children q = d.children q := by
  obtain ⟨_, _, -, hnumber⟩ := h.page_number
  rw [hnumber.children_eq hs, h.last_section.children_eq hbody]

theorem number_mem : x ∈ d₂.children s ∧ d₂.isNamed x "w:pgNumType" = true :=
  h.wellFormed₂.mem_of_childNamed? h.found.2.2

theorem number_ne_section : x ≠ s := by
  rintro rfl
  exact h.wellFormed₂.notMem_children_self h.number_mem.1

/-- The section is the last one of the body, or a new one at the end of it. -/
theorem sections : (d.lastNamed? body "w:sectPr" = some s ∧ d₂.children body = d.children body) ∨
    (d.lastNamed? body "w:sectPr" = none ∧ s ∉ d.ids ∧ d₂.children body = d.children body ++ [s] ∧
      d₂.node? s = some (.element ⟨"w:sectPr", []⟩)) := by
  obtain ⟨_, _, -, hnumber⟩ := h.page_number
  have hsection := h.last_section
  have hs : s ∈ d₁.ids := (mem_ids_of_mem_children h.mem_body).2
  rw [hnumber.children_eq (Ne.symm h.section_ne_body), hnumber.node?_eq h.wellFormed₁ hs]
  generalize d.lastNamed? body "w:sectPr" = last? at hsection ⊢
  cases hsection with
  | found => exact .inl ⟨rfl, rfl⟩
  | made _ added =>
    refine .inr ⟨rfl, h.wellFormed.next_notMem, ?_, ?_⟩
    · rw [added.children, if_pos rfl]
    · rw [added.node, if_pos rfl]

/-- The page number is the first one of the section, or a new one before the later properties. -/
theorem numbers : (d.childNamed? s "w:pgNumType" = some x ∧ d₂.children s = d.children s ∧
      ∃ tag, d.node? x = some (.element tag)) ∨
    (d.childNamed? s "w:pgNumType" = none ∧ x ∉ d.ids ∧
      (∃ before after, Cut d (d.children s) before after ∧ d₂.children s = before ++ x :: after) ∧
      d₂.node? x = some (.element ⟨"w:pgNumType", []⟩) ∧ d₂.children x = []) := by
  obtain ⟨before, after, hcut, hnumber⟩ := h.page_number
  have hsection := h.last_section
  have hchildren : d₁.children s = d.children s := hsection.children_eq h.section_ne_body
  have hsame : d₁.childNamed? s "w:pgNumType" = d.childNamed? s "w:pgNumType" := by
    rw [childNamed?_eq_head?, childNamed?_eq_head?,
      hsection.childrenNamed_eq h.wellFormed h.section_ne_body]
  rw [hsame] at hnumber
  generalize hfirst : d.childNamed? s "w:pgNumType" = first? at hnumber ⊢
  cases hnumber with
  | found =>
    obtain ⟨tag, htag⟩ :=
      exists_element_of_isNamed (h.wellFormed.mem_of_childNamed? hfirst).2
    exact .inl ⟨rfl, hchildren, tag, htag⟩
  | made split added =>
    have hs : s ∈ d₁.ids := (mem_ids_of_mem_children h.mem_body).2
    have hlater : ∀ y ∈ d.children s, d₁.isOneOf y laterProperties = d.isOneOf y laterProperties := by
      intro y hy
      have hy := (mem_ids_of_mem_children hy).2
      simp only [isOneOf, hsection.isNamed_eq h.wellFormed hy]
    have heq : d.children s = before ++ after := hchildren.symm.trans split
    refine .inr ⟨rfl, fun hin => ?_, ⟨before, after, ⟨heq, fun y hy => ?_, fun y hy => ?_⟩, ?_⟩, ?_, ?_⟩
    · exact h.wellFormed₁.next_notMem ((hsection.mem_ids_iff h.wellFormed).2 (.inl hin))
    · rw [← hlater y (heq ▸ List.mem_append_left _ hy)]
      exact hcut.before y hy
    · rw [← hlater y (heq ▸ List.mem_append_right _ (List.mem_of_mem_head? hy))]
      exact hcut.after y hy
    · rw [added.children, if_pos rfl]
    · rw [added.node, if_pos rfl]
    · exact added.children_next h.wellFormed₁.toDistinct hs

/-- The first page is written to the page number that has been reached. -/
theorem firstPage (n : Nat) : FirstPage n body s x d (d₂.setAttribute x "w:start" (toString n)) := by
  obtain ⟨hbody, hlast, hfirst⟩ := h.found
  obtain ⟨_, _, -, hnumber⟩ := h.page_number
  obtain ⟨tag, htag⟩ := exists_element_of_isNamed h.number_mem.2
  have hroot : d₂.root = d.root := hnumber.root.trans h.last_section.root
  have hnode : ∀ q, (d₂.setAttribute x "w:start" (toString n)).node? q = if q = x then
      some (.element (tag.setAttribute "w:start" (toString n))) else d₂.node? q := by
    intro q
    rw [setAttribute, node?_update]
    split
    next heq => rw [heq, htag]; rfl
    next => exact Option.map_id'
  have hchildren : ∀ q, (d₂.setAttribute x "w:start" (toString n)).children q = d₂.children q :=
    children_update d₂ x _
  have hnamed : ∀ q names, (d₂.setAttribute x "w:start" (toString n)).childrenNamed q names =
      d₂.childrenNamed q names := fun q names =>
    h.wellFormed₂.childrenNamed_congr (h.wellFormed₂.update _ _) (hchildren q)
      fun y _ name => isNamed_setAttribute d₂ x _ _ y name
  constructor
  case wellFormed =>
    exact ⟨h.wellFormed₂.update _ _, (update_ids d₂ x _).symm ▸ h.wellFormed₂.rooted⟩
  case root => exact hroot
  case declaration => exact hnumber.declaration.trans h.last_section.declaration
  case tops =>
    refine Eq.trans ?_ (hnumber.tops.trans h.last_section.tops)
    rw [setAttribute, update_allRows, List.map_map]
    exact List.map_congr_left fun row _ => topIds_update x _ row
  case body_eq =>
    rw [childNamed?_eq_head?, hnamed, ← childNamed?_eq_head?]
    exact (congrArg (d₂.childNamed? · "w:body") hroot).trans hbody
  case last_eq => rw [lastNamed?, hnamed, ← lastNamed?, hlast]
  case number_eq => rw [childNamed?_eq_head?, hnamed, ← childNamed?_eq_head?, hfirst]
  case start => exact attribute?_setAttribute htag _ _
  case ids =>
    intro q
    rw [setAttribute, update_ids]
    exact h.mem_ids_iff
  case kept =>
    intro q hq hne
    rw [hnode, if_neg hne, h.node?_eq hq]
  case attributes =>
    intro q hq name hne
    rw [attribute?_setAttribute_of_ne (Ne.symm hne), attribute?, attribute?, h.node?_eq hq]
  case others =>
    intro q _ hbody hs
    rw [hchildren, h.children_eq hbody hs]
  case sections =>
    rw [hchildren, hnode, if_neg (Ne.symm h.number_ne_section)]
    exact h.sections
  case numbers =>
    rw [hchildren, hchildren, hnode, if_pos rfl]
    rcases h.numbers with ⟨hsome, hrow, old, hold⟩ | ⟨hnone, hout, hcut, hmade, hempty⟩
    · have hkept := h.node?_eq (mem_ids_of_isNamed (h.wellFormed.mem_of_childNamed? hsome).2)
      rw [htag, hold] at hkept
      cases hkept
      exact .inl ⟨hsome, hrow, tag, hold, rfl⟩
    · rw [htag] at hmade
      cases hmade
      exact .inr ⟨hnone, hout, hcut, rfl, hempty⟩

end Reached

/-- The first page of a document with a body. -/
theorem setStartPage_firstPage (hd : d.WellFormed)
    (hbody : d.childNamed? d.root "w:body" = some body) :
    ∃ (s x : NodeId) (d₂ : Document), ∀ n,
      setStartPage n d = d₂.setAttribute x "w:start" (toString n) ∧
      FirstPage n body s x d (setStartPage n d) := by
  have heq : ∀ n, setStartPage n d =
      (pageNumber (lastSection d body).2 (lastSection d body).1).2.setAttribute
        (pageNumber (lastSection d body).2 (lastSection d body).1).1 "w:start" (toString n) := by
    intro n
    rw [setStartPage, hbody]
  exact ⟨_, _, _, fun n => ⟨heq n, heq n ▸ (reached hd hbody).firstPage n⟩⟩

/-- What a call has made is found by the next one. -/
theorem FirstPage.setStartPage_eq (h : FirstPage n body s x d e) (m : Nat) :
    setStartPage m e = e.setAttribute x "w:start" (toString m) := by
  have hsection : lastSection e body = (s, e) := by
    rw [lastSection, lastNamed?_eq_getLast? h.wellFormed.toDistinct, h.last_eq]
  have hnumber : pageNumber e s = (x, e) := by
    rw [pageNumber, h.number_eq]
  rw [setStartPage, h.body_eq]
  dsimp only
  rw [hsection]
  dsimp only
  rw [hnumber]

/-- Of two first pages the second one remains. -/
theorem setStartPage_setStartPage (hd : d.WellFormed)
    (hbody : d.childNamed? d.root "w:body" = some body) (n m : Nat) :
    setStartPage m (setStartPage n d) = setStartPage m d := by
  obtain ⟨s, x, d₂, hfirst⟩ := setStartPage_firstPage hd hbody
  rw [(hfirst n).2.setStartPage_eq, (hfirst n).1, setAttribute_setAttribute, (hfirst m).1]

/-! ## The order of the schema -/

/-- The properties of a section, in the order of the schema. -/
def schemaProperties : List String :=
  ["w:headerReference", "w:footerReference", "w:footnotePr", "w:endnotePr", "w:type", "w:pgSz",
    "w:pgMar", "w:paperSrc", "w:pgBorders", "w:lnNumType", "w:pgNumType", "w:cols", "w:formProt",
    "w:vAlign", "w:noEndnote", "w:titlePg", "w:textDirection", "w:bidi", "w:rtlGutter", "w:docGrid",
    "w:printerSettings", "w:sectPrChange"]

/-- The properties that the schema puts before the page number. -/
def earlierProperties : List String := schemaProperties.takeWhile (· ≠ "w:pgNumType")

/-- The properties that the schema puts after the page number. -/
def followingProperties : List String := (schemaProperties.dropWhile (· ≠ "w:pgNumType")).tail

/-- A new page number is put before the properties that follow it in the schema, and before no others. -/
theorem laterProperties_eq : laterProperties = followingProperties := by decide

/-- No property that precedes the page number in the schema stands after one that follows it. -/
def InOrder (d : Document) (s : NodeId) : Prop :=
  (d.children s).Pairwise fun y z =>
    d.isOneOf y followingProperties = true → d.isOneOf z earlierProperties = false

instance (d : Document) (s : NodeId) : Decidable (InOrder d s) :=
  inferInstanceAs (Decidable (List.Pairwise _ _))

/-- A page number stands after all properties that precede it in the schema, and before all that
follow it. -/
def InPlace (d : Document) (s x : NodeId) : Prop :=
  ∃ before after, d.children s = before ++ x :: after ∧
    (∀ y ∈ before, d.isOneOf y followingProperties = false) ∧
    ∀ y ∈ after, d.isOneOf y earlierProperties = false

/-- No property is both an earlier and a later one. -/
theorem isOneOf_earlier_of_later (h : d.isOneOf y laterProperties = true) :
    d.isOneOf y earlierProperties = false := by
  obtain ⟨name, hname, hnamed⟩ := List.any_eq_true.1 h
  have hdisjoint : ∀ name ∈ laterProperties, name ∉ earlierProperties := by decide
  exact isOneOf_eq_false hnamed (hdisjoint name hname)

namespace FirstPage

variable (h : FirstPage n body s x d e)
include h

theorem isNamed_eq (hq : q ∈ d.ids) (name : String) : e.isNamed q name = d.isNamed q name := by
  by_cases hne : q = x
  · subst hne
    rcases h.numbers with ⟨-, -, tag, hold, hnew⟩ | ⟨-, hout, -⟩
    · rw [isNamed, isNamed, name?, name?, hold, hnew]
      rfl
    · exact absurd hq hout
  · rw [isNamed, isNamed, name?, name?, h.kept q hq hne]

theorem isOneOf_eq (hy : y ∈ d.children s) (names : List String) :
    e.isOneOf y names = d.isOneOf y names := by
  have hy := (mem_ids_of_mem_children hy).2
  simp only [isOneOf, h.isNamed_eq hy]

/-- Properties in the order of the schema stay in order. -/
theorem inOrder (horder : InOrder d s) : InOrder e s := by
  rw [InOrder, ← laterProperties_eq] at horder ⊢
  have hsame : (d.children s).Pairwise fun y z =>
      e.isOneOf y laterProperties = true → e.isOneOf z earlierProperties = false := by
    refine horder.imp_of_mem fun hy hz hyz => ?_
    rwa [h.isOneOf_eq hy, h.isOneOf_eq hz]
  rcases h.numbers with ⟨-, hrow, -⟩ | ⟨-, -, ⟨before, after, hcut, hrow⟩, -⟩
  · rwa [hrow]
  have hx : e.isOneOf x laterProperties = false :=
    isOneOf_eq_false (h.wellFormed.mem_of_childNamed? h.number_eq).2 (by decide)
  have hnone : ∀ y ∈ before, e.isOneOf y laterProperties = false := fun y hy => by
    rw [h.isOneOf_eq (hcut.eq ▸ List.mem_append_left _ hy)]
    exact hcut.before y hy
  -- What comes before the new page number is no later property, so that it bars nothing after it.
  rw [hcut.eq, List.pairwise_append] at hsame
  rw [hrow, List.pairwise_append, List.pairwise_cons]
  refine ⟨hsame.1, ⟨fun z _ hin => ?_, hsame.2.1⟩, fun y hy z _ hin => ?_⟩
  · rw [hx] at hin
    cases hin
  · rw [hnone y hy] at hin
    cases hin

/-- A new page number is put in its place. -/
theorem inPlace (horder : InOrder d s) (hnew : x ∉ d.ids) : InPlace e s x := by
  rcases h.numbers with ⟨-, -, tag, hold, -⟩ | ⟨-, -, ⟨before, after, hcut, hrow⟩, -⟩
  · rw [← isSome_node?_iff, hold] at hnew
    exact absurd rfl hnew
  rw [InOrder, ← laterProperties_eq, hcut.eq, List.pairwise_append] at horder
  rw [InPlace, ← laterProperties_eq]
  refine ⟨before, after, hrow, fun y hy => ?_, fun y hy => ?_⟩
  · rw [h.isOneOf_eq (hcut.eq ▸ List.mem_append_left _ hy)]
    exact hcut.before y hy
  · rw [h.isOneOf_eq (hcut.eq ▸ List.mem_append_right _ hy)]
    -- What follows begins with a later property, and no earlier one comes after that.
    cases after with
    | nil => cases hy
    | cons z zs =>
      have hz : d.isOneOf z laterProperties = true := hcut.after z rfl
      rcases List.mem_cons.1 hy with rfl | hy
      · exact isOneOf_earlier_of_later hz
      · exact (List.pairwise_cons.1 horder.2.1).1 y hy hz

end FirstPage

/-- The clean-up of a well-formed document does no more than it has to. All cells below the root have
a paragraph afterwards, and the only change is a new one in each that had none. The first page is that
of the last section of the first body; the last one that is given remains, the properties of the section
stay in the order of the schema, and nothing else changes. -/
theorem cleanUp_minimal (hd : d.WellFormed) :
    (Filled (IsEmptyCell d) d (fillCells d) ∧
      (∀ x, IsCell (fillCells d) x → (fillCells d).HasChild x "w:p") ∧
      fillCells (fillCells d) = fillCells d) ∧
    (d.HasChild d.root "w:body" → ∀ n, ∃ body s x, d.childNamed? d.root "w:body" = some body ∧
      FirstPage n body s x d (setStartPage n d) ∧
      (InOrder d s → InOrder (setStartPage n d) s ∧ (x ∉ d.ids → InPlace (setStartPage n d) s x)) ∧
      ∀ m, setStartPage m (setStartPage n d) = setStartPage m d) := by
  refine ⟨⟨fillCells_filled hd, fun x hx => hasChild_of_isCell_fillCells hd hx,
    fillCells_fillCells hd⟩, fun hchild n => ?_⟩
  cases hbody : d.childNamed? d.root "w:body" with
  | none => exact absurd hchild (hd.childNamed?_eq_none_iff.1 hbody)
  | some body =>
    obtain ⟨s, x, _, hfirst⟩ := setStartPage_firstPage hd hbody
    exact ⟨body, s, x, rfl, (hfirst n).2,
      fun horder => ⟨(hfirst n).2.inOrder horder, (hfirst n).2.inPlace horder⟩,
      fun m => setStartPage_setStartPage hd hbody n m⟩

/-- A table within a cell, and a section without a page number. -/
def nestedTable : Document where
  rows := [single 0 (.element ⟨"w:document", []⟩) (single 1 (.element ⟨"w:body", []⟩)
    (cons 2 (.element ⟨"w:tbl", []⟩) (single 3 (.element ⟨"w:tr", []⟩)
        (single 4 (.element ⟨"w:tc", []⟩) (single 5 (.element ⟨"w:tbl", []⟩)
          (single 6 (.element ⟨"w:tr", []⟩) (single 7 (.element ⟨"w:tc", []⟩) .nil)))))
      (single 8 (.element ⟨"w:sectPr", []⟩) (cons 9 (.element ⟨"w:pgSz", []⟩) .nil
        (single 10 (.element ⟨"w:cols", []⟩) .nil)))))]
  aside := []
  root := 0
  next := 11
  declaration := none

set_option maxRecDepth 4000 in
/-- Both cells get a paragraph, and the page number comes between the size and the columns. -/
theorem cleanUp_minimal_nestedTable :
    parse ("<w:document><w:body><w:tbl><w:tr><w:tc><w:tbl><w:tr><w:tc/></w:tr></w:tbl></w:tc></w:tr>" ++
      "</w:tbl><w:sectPr><w:pgSz/><w:cols/></w:sectPr></w:body></w:document>") = .ok nestedTable ∧
    Filled (IsEmptyCell nestedTable) nestedTable (fillCells nestedTable) ∧
    (fillCells nestedTable).children 4 = [5, 11] ∧ (fillCells nestedTable).children 7 = [12] ∧
    fillCells (fillCells nestedTable) = fillCells nestedTable ∧
    FirstPage 5 1 8 11 nestedTable (setStartPage 5 nestedTable) ∧
    (setStartPage 5 nestedTable).children 8 = [9, 11, 10] ∧
    InOrder (setStartPage 5 nestedTable) 8 ∧ InPlace (setStartPage 5 nestedTable) 8 11 ∧
    setStartPage 7 (setStartPage 5 nestedTable) = setStartPage 7 nestedTable := by
  have hparse : parse
      ("<w:document><w:body><w:tbl><w:tr><w:tc><w:tbl><w:tr><w:tc/></w:tr></w:tbl></w:tc></w:tr>" ++
        "</w:tbl><w:sectPr><w:pgSz/><w:cols/></w:sectPr></w:body></w:document>") = .ok nestedTable := rfl
  obtain ⟨⟨hfilled, -, htwice⟩, hpage⟩ := cleanUp_minimal (proper_of_parse hparse).toWellFormed
  obtain ⟨body, s, x, hbody, hfirst, horder, hlast⟩ := hpage ⟨1, by decide, by decide⟩ 5
  obtain rfl : 1 = body := Option.some.inj hbody
  obtain rfl : 8 = s := Option.some.inj hfirst.last_eq
  obtain rfl : 11 = x := Option.some.inj hfirst.number_eq
  have hin : InOrder nestedTable 8 := by decide
  exact ⟨hparse, hfilled, by decide, by decide, htwice, hfirst, by decide, (horder hin).1,
    (horder hin).2 (by decide), hlast 7⟩

end Cleanup

end MailMerge
