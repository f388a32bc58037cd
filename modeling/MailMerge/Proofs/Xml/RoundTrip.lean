import MailMerge.Proofs.Xml.Bare
import MailMerge.Proofs.Xml.Declaration
import MailMerge.Proofs.Xml.WellFormed

/-!
# Documents that are read back

Writing a document and reading it gives the document back, except that texts that follow each other
come back as one and empty texts do not come back. Main statement: this holds whatever the texts and
the values of attributes are (`Document.parse_markup`), so nothing that is put into a document can
change which elements it has.
-/

namespace MailMerge.Xml

variable {opened : List String} {rest : List Char}

/-- What a node holds can be written: the names in a tag are names, and no CDATA section holds its
own end. -/
def Node.Writable : Node → Prop
  | .element tag => tag.WellNamed
  | .text _ => True
  | .cdata content => ¬"]]>".toList <:+: content.toList

instance : (node : Node) → Decidable node.Writable
  | .element tag => inferInstanceAs (Decidable tag.WellNamed)
  | .text _ => inferInstanceAs (Decidable True)
  | .cdata content => inferInstanceAs (Decidable (¬"]]>".toList <:+: content.toList))

namespace Forest

/-- A row that can be written: nothing stands below a text, and all nodes can be written. -/
structure Writable (f : Forest) : Prop where
  leaves : f.Leaves
  nodes : ∀ entry ∈ f.nodes, entry.2.Writable

theorem Writable.of_cons {id : NodeId} {node : Node} {children rest : Forest}
    (h : (cons id node children rest).Writable) :
    node.Writable ∧ (node.isElement = false → children = nil) ∧ children.Writable ∧
      rest.Writable := by
  obtain ⟨⟨hself, hbelow, hlater⟩, hnodes⟩ := h
  rw [Forest.nodes, List.forall_mem_cons, List.forall_mem_append] at hnodes
  exact ⟨hnodes.1, hself, ⟨hbelow, hnodes.2.1⟩, ⟨hlater, hnodes.2.2⟩⟩

/-! ## What comes back -/

/-- A text, unless it is empty. -/
def textRow (content : String) : Forest :=
  if content = "" then nil else single 0 (.text content) nil

/-- The row with texts that follow each other joined and empty texts left out; `pending` is the text
that stands before the row. -/
def joinTexts (pending : String) : Forest → Forest
  | nil => textRow pending
  | cons _ (.text content) _ rest => rest.joinTexts (pending ++ content)
  | cons id (.cdata content) _ rest =>
    textRow pending ++ cons id (.cdata content) nil (rest.joinTexts "")
  | cons id (.element tag) children rest =>
    textRow pending ++ cons id (.element tag) (children.joinTexts "") (rest.joinTexts "")

/-- The piece that a text is read as, unless it is empty. -/
def textEvents (content : String) : List Event :=
  if content = "" then [] else [.text content]

/-- The pieces that the written form of a row is read as; `pending` is the text before the row. -/
def events (pending : String) : Forest → List Event
  | nil => textEvents pending
  | cons _ (.text content) _ rest => rest.events (pending ++ content)
  | cons _ (.cdata content) _ rest => textEvents pending ++ (.cdata content :: rest.events "")
  | cons _ (.element tag) nil rest => textEvents pending ++ (.empty tag :: rest.events "")
  | cons _ (.element tag) children rest =>
    textEvents pending ++
      ((.start tag :: children.events "" ++ [.stop tag.name]) ++ rest.events "")

section

variable (id : NodeId) (tag : Element) (children rest : Forest)

theorem toList_markup_text (content : String) :
    (cons id (.text content) children rest).markup.toList =
      (escapeText content).toList ++ rest.markup.toList := by
  rw [markup, String.toList_append]

theorem toList_markup_cdata (content : String) :
    (cons id (.cdata content) children rest).markup.toList =
      '<' :: ("![CDATA[".toList ++ content.toList ++ "]]".toList ++ '>' :: rest.markup.toList) := by
  simp [markup]

theorem toList_markup_empty :
    (cons id (.element tag) nil rest).markup.toList =
      '<' :: (tag.inner ++ '/' :: '>' :: rest.markup.toList) := by
  rw [markup, String.toList_append, String.toList_append, Element.toList_tagMarkup]
  simp

variable {children}

theorem toList_markup_element (h : children ≠ nil) :
    (cons id (.element tag) children rest).markup.toList =
      '<' :: (tag.inner ++ '>' :: (children.markup.toList ++
        '<' :: '/' :: (tag.name.toList ++ '>' :: rest.markup.toList))) := by
  rw [markup]
  · simp [Element.toList_tagMarkup]
  · exact h

theorem events_element (h : children ≠ nil) (pending : String) :
    (cons id (.element tag) children rest).events pending =
      textEvents pending ++
        ((.start tag :: children.events "" ++ [.stop tag.name]) ++ rest.events "") := by
  rw [events]
  exact h

end

end Forest

/-! ## Reading rows -/

namespace Reading

open Forest

theorem Reads.texts (content : String) (hrest : ∀ c ∈ rest.head?, c = '<') (opened : List String) :
    Reads opened ((escapeText content).toList ++ rest) (textEvents content) opened rest := by
  unfold textEvents
  split
  next h =>
    subst h
    exact Reads.refl opened rest
  next h => exact Reads.text h hrest opened

theorem Reads.after {cs : List Char} {events : List Event} {opened' : List String}
    (h : Reads opened ('<' :: cs) events opened' rest) (content : String) :
    Reads opened ((escapeText content).toList ++ '<' :: cs) (textEvents content ++ events)
      opened' rest := by
  have hbracket : ∀ c ∈ ('<' :: cs).head?, c = '<' := by simp
  exact (Reads.texts content hbracket opened).trans h

/-- The written form of a row is read as the pieces of the row. -/
theorem Reads.row {f : Forest} (h : f.Writable) (pending : String) (opened : List String)
    (hrest : ∀ c ∈ rest.head?, c = '<') :
    Reads opened ((escapeText pending).toList ++ (f.markup.toList ++ rest)) (f.events pending)
      opened rest := by
  induction f generalizing pending opened rest with
  | nil => exact Reads.texts pending hrest opened
  | cons id node children later ihc ihr =>
    obtain ⟨hnode, hself, hbelow, hlater⟩ := h.of_cons
    cases node with
    | text content =>
      have hjoined := ihr hlater (pending ++ content) opened hrest
      rw [escapeText_append, String.toList_append, List.append_assoc] at hjoined
      rw [toList_markup_text, List.append_assoc]
      exact hjoined
    | cdata content =>
      have hread : Reads opened (later.markup.toList ++ rest) (later.events "") opened rest :=
        ihr hlater "" opened hrest
      have hcdata := (Reads.cdata hnode opened _).trans hread
      rw [String.ofList_toList] at hcdata
      rw [toList_markup_cdata, List.cons_append, List.append_assoc, List.cons_append]
      exact hcdata.after pending
    | element tag =>
      have hread : Reads opened (later.markup.toList ++ rest) (later.events "") opened rest :=
        ihr hlater "" opened hrest
      by_cases hnil : children = nil
      · subst hnil
        have hempty := (Reads.empty hnode opened _).trans hread
        rw [toList_markup_empty]
        simpa [Forest.events] using hempty.after pending
      · let close := '<' :: '/' :: (tag.name.toList ++ '>' :: (later.markup.toList ++ rest))
        have hbelow : Reads (tag.name :: opened) (children.markup.toList ++ close)
            (children.events "") (tag.name :: opened) close :=
          ihc hbelow "" (tag.name :: opened) (by simp [close])
        have hstop : Reads (tag.name :: opened) close _ opened _ := Reads.stop hnode.name opened _
        have helement := (Reads.start hnode opened _).trans (hbelow.trans (hstop.trans hread))
        rw [toList_markup_element _ _ _ hnil, events_element _ _ _ hnil]
        simpa [close] using helement.after pending

end Reading

/-! ## Building rows -/

@[simp] theorem Forest.reverseOnto_append (f g done : Forest) :
    (f ++ g).reverseOnto done = g.reverseOnto (f.reverseOnto done) := by
  induction f generalizing done with
  | nil => rfl
  | cons id node children rest _ ih => exact ih _

@[simp] theorem Forest.reverse_reverse (f : Forest) : f.reverse.reverse = f := by
  have hall : ∀ (f done : Forest), (f.reverseOnto done).reverse = done.reverseOnto f := by
    intro f
    induction f with
    | nil => intro done; rfl
    | cons id node children rest _ ih => intro done; exact ih _
  exact hall f .nil

/-- An open element with a row put at its end. -/
def OpenElement.extend (o : OpenElement) (row : Forest) : OpenElement :=
  { o with children := row.reverseOnto o.children }

namespace Builder

open Forest

variable {b c d : Builder} {events events' : List Event}

theorem run_append {scope : Scope} {pieces : List (Nat × Event)}
    (h : b.run scope pieces = .ok c) (more : List (Nat × Event)) :
    b.run scope (pieces ++ more) = c.run scope more := by
  induction pieces generalizing b with
  | nil => cases h; rfl
  | cons piece pieces ih =>
    obtain ⟨position, event⟩ := piece
    rw [run] at h
    rw [List.cons_append, run]
    split at h
    next => cases h
    next => exact ih h

/-- The pieces build `c` from `b`, whatever their positions are. -/
def Builds (b : Builder) (events : List Event) (c : Builder) : Prop :=
  ∀ pieces : List (Nat × Event), pieces.map Prod.snd = events → b.run .document pieces = .ok c

theorem Builds.refl (b : Builder) : Builds b [] b := by
  intro pieces hpieces
  rw [List.map_eq_nil_iff.1 hpieces]
  rfl

theorem Builds.single {event : Event}
    (hstep : ∀ position, b.step .document position event = .ok c) : Builds b [event] c := by
  intro pieces hpieces
  obtain ⟨⟨position, _⟩, rfl, rfl⟩ := List.map_eq_singleton_iff.1 hpieces
  rw [run, hstep position]
  rfl

theorem Builds.trans (h : Builds b events c) (h' : Builds c events' d) :
    Builds b (events ++ events') d := by
  intro pieces hpieces
  obtain ⟨before, after, rfl, hbefore, hafter⟩ := List.map_eq_append_iff.1 hpieces
  rw [run_append (h before hbefore)]
  exact h' after hafter

/-- Inside an open element, the pieces build the row, up to its identities. -/
def Grows (events : List Event) (f : Forest) : Prop :=
  ∀ next o outer top declaration, ∃ row later, row.bare = f.bare ∧
    Builds ⟨next, o :: outer, top, declaration⟩ events
      ⟨later, o.extend row :: outer, top, declaration⟩

variable {f g : Forest}

theorem Grows.nil : Grows [] .nil :=
  fun next _ _ _ _ => ⟨.nil, next, rfl, Builds.refl _⟩

theorem Grows.append (hf : Grows events f) (hg : Grows events' g) :
    Grows (events ++ events') (f ++ g) := by
  intro next o outer top declaration
  obtain ⟨row, middle, hrow, hbuilds⟩ := hf next o outer top declaration
  obtain ⟨more, later, hmore, hbuilds'⟩ := hg middle (o.extend row) outer top declaration
  refine ⟨row ++ more, later, by rw [bare_append, bare_append, hrow, hmore], ?_⟩
  have hextend : o.extend (row ++ more) = (o.extend row).extend more := by
    simp [OpenElement.extend]
  rw [hextend]
  exact hbuilds.trans hbuilds'

/-- A piece that is a node of its own. -/
theorem Grows.leaf {event : Event} {node : Node}
    (hstep : ∀ next o outer top declaration position,
      (⟨next, o :: outer, top, declaration⟩ : Builder).step .document position event =
        .ok ⟨next + 1, o.extend (single next node .nil) :: outer, top, declaration⟩) (id : NodeId) :
    Grows [event] (single id node .nil) := by
  intro next o outer top declaration
  exact ⟨single next node .nil, next + 1, rfl,
    Builds.single fun position => hstep next o outer top declaration position⟩

theorem Grows.text (content : String) : Grows (textEvents content) (textRow content) := by
  unfold textEvents textRow
  split
  next => exact Grows.nil
  next => exact Grows.leaf (fun _ _ _ _ _ _ => rfl) 0

theorem Grows.cdata (content : String) (id : NodeId) :
    Grows [.cdata content] (single id (.cdata content) .nil) :=
  Grows.leaf (fun _ _ _ _ _ _ => rfl) id

/-- Inside an open element any element may begin. -/
theorem admitsElement_of_opened (h : b.opened ≠ []) (scope : Scope) :
    b.admitsElement scope = true := by
  simp [admitsElement, h]

theorem Grows.empty (tag : Element) (id : NodeId) :
    Grows [.empty tag] (single id (.element tag) .nil) := by
  apply Grows.leaf
  intro next o outer top declaration position
  rw [step, if_pos (admitsElement_of_opened (List.cons_ne_nil _ _) _)]
  rfl

/-- The end tag of an open element puts it into the one around it, or at the top. -/
theorem step_stop (next id : NodeId) (tag : Element) (row : Forest) (outer : List OpenElement)
    (top : Forest) (declaration : Option String) (position : Nat) :
    (⟨next, OpenElement.extend ⟨id, tag, .nil⟩ row :: outer, top, declaration⟩ : Builder).step
        .document position (.stop tag.name) =
      .ok ((⟨next, outer, top, declaration⟩ : Builder).put id (.element tag) row) := by
  have hrow : (row.reverseOnto .nil).reverse = row := reverse_reverse row
  simp [step, OpenElement.extend, hrow]

theorem Grows.element (h : Grows events f) (tag : Element) (id : NodeId) :
    Grows (.start tag :: events ++ [.stop tag.name]) (single id (.element tag) f) := by
  intro next o outer top declaration
  obtain ⟨row, later, hrow, hbelow⟩ := h (next + 1) ⟨next, tag, .nil⟩ (o :: outer) top declaration
  have hstart : Builds ⟨next, o :: outer, top, declaration⟩ [.start tag]
      ⟨next + 1, ⟨next, tag, .nil⟩ :: o :: outer, top, declaration⟩ := by
    apply Builds.single
    intro position
    rw [step, if_pos (admitsElement_of_opened (List.cons_ne_nil _ _) _)]
  have hstop := Builds.single (step_stop later next tag row (o :: outer) top declaration)
  refine ⟨single next (.element tag) row, later, by rw [bare_single, bare_single, hrow], ?_⟩
  exact (hstart.trans hbelow).trans hstop

/-- The pieces of a row build it with its texts joined. -/
theorem Grows.row (f : Forest) (pending : String) : Grows (f.events pending) (f.joinTexts pending) := by
  induction f generalizing pending with
  | nil => exact Grows.text pending
  | cons id node children rest ihc ihr =>
    have hrest := ihr ""
    cases node with
    | text content => exact ihr (pending ++ content)
    | cdata content => exact (Grows.text pending).append ((Grows.cdata content id).append hrest)
    | element tag =>
      by_cases hnil : children = .nil
      · subst hnil
        exact (Grows.text pending).append ((Grows.empty tag id).append hrest)
      · rw [events_element _ _ _ hnil]
        exact (Grows.text pending).append (((ihc "").element tag id).append hrest)

/-- The pieces of a root build it at the top. -/
theorem Builds.root (tag : Element) (children : Forest) (id : NodeId)
    (declaration : Option String) : ∃ later row, row.bare = (children.joinTexts "").bare ∧
      Builds ⟨0, [], .nil, declaration⟩ ((Forest.single id (.element tag) children).events "")
        ⟨later, [], Forest.single 0 (.element tag) row, declaration⟩ := by
  by_cases hnil : children = .nil
  · subst hnil
    refine ⟨1, .nil, rfl, Builds.single fun position => ?_⟩
    rfl
  · obtain ⟨row, later, hrow, hbelow⟩ :=
      Grows.row children "" 1 ⟨0, tag, .nil⟩ [] .nil declaration
    have hstart : Builds ⟨0, [], .nil, declaration⟩ [.start tag]
        ⟨1, [⟨0, tag, .nil⟩], .nil, declaration⟩ := Builds.single fun position => rfl
    have hstop := Builds.single (step_stop later 0 tag row [] .nil declaration)
    refine ⟨later, row, hrow, ?_⟩
    rw [Forest.single, events_element _ _ _ hnil]
    exact ((hstart.trans hbelow).trans hstop).trans (Builds.refl _)

end Builder

/-! ## Reading documents -/

namespace Document

open Forest

variable {d : Document}

/-- The pieces before the root: the declaration and the line break after it. -/
def prologEvents : Option String → List Event
  | none => []
  | some body => [.declaration body, .text "\n"]

theorem builds_prolog (declaration : Option String) :
    Builder.Builds (.begin 0) (prologEvents declaration) ⟨0, [], .nil, declaration⟩ := by
  cases declaration with
  | none => exact Builder.Builds.refl _
  | some body =>
    have hdeclaration : Builder.Builds (.begin 0) [.declaration body]
        ⟨0, [], .nil, some body⟩ := Builder.Builds.single fun position => rfl
    have hbreak : Builder.Builds ⟨0, [], .nil, some body⟩ [.text "\n"]
        ⟨0, [], .nil, some body⟩ := Builder.Builds.single fun position => rfl
    exact hdeclaration.trans hbreak

theorem exists_markup_cons (id : NodeId) (tag : Element) (children : Forest) :
    ∃ cs, (single id (.element tag) children).markup.toList = '<' :: cs := by
  by_cases hnil : children = nil
  · subst hnil
    exact ⟨_, toList_markup_empty id tag nil⟩
  · exact ⟨_, toList_markup_element id tag nil hnil⟩

/-- The written form of a document is read as its pieces. -/
theorem reads_markup {id : NodeId} {tag : Element} {children : Forest}
    (htree : d.tree d.root = single id (.element tag) children)
    (hwritable : (single id (.element tag) children).Writable)
    (hdeclared : ∀ body ∈ d.declaration, Declared body) :
    ∃ cs, d.markup.toList = '<' :: cs ∧ Reading.Reads [] ('<' :: cs)
      (prologEvents d.declaration ++ (single id (.element tag) children).events "") [] [] := by
  obtain ⟨cs, hcs⟩ := exists_markup_cons id tag children
  have hend : ∀ c ∈ ([] : List Char).head?, c = '<' := nofun
  have hroot := Reading.Reads.row hwritable "" [] hend
  rw [List.append_nil, hcs] at hroot
  have hmarkup : (d.nodeMarkup d.root).toList = '<' :: cs := by rw [nodeMarkup, htree, hcs]
  rcases hdeclaration : d.declaration with _ | body
  · refine ⟨cs, ?_, hroot⟩
    rw [markup, hdeclaration]
    exact hmarkup
  · have hread := ((hdeclared body hdeclaration).reads [] _).trans (hroot.after "\n")
    refine ⟨_, ?_, hread⟩
    rw [markup, hdeclaration]
    have hbreak : (escapeText "\n").toList = ['\n'] := rfl
    simp [hmarkup, hbreak]

/-- A text that is read to its end is read as its pieces, unless it starts with a byte order mark. -/
theorem exists_pieces {s : String} {cs : List Char} {events : List Event}
    (hs : s.toList = '<' :: cs) (h : Reading.Reads [] ('<' :: cs) events [] []) :
    ∃ pieces, pieces.map Prod.snd = events ∧ Reading.ofString s = ⟨pieces, none⟩ := by
  have hlength := h.length_le
  obtain ⟨pieces, next, hpieces, hread⟩ := h.read_eq (cs.length + 2 - events.length) 0
  have hfuel : cs.length + 2 - events.length + events.length = cs.length + 2 := by
    rw [List.length_cons] at hlength
    omega
  have hdone : ∀ fuel, Reading.read fuel next [] [] = .done := by
    intro fuel
    cases fuel <;> rfl
  refine ⟨pieces, hpieces, ?_⟩
  rw [hfuel, hdone] at hread
  rw [Reading.ofString, hs]
  dsimp only
  rw [if_neg (by decide), List.length_cons, hread]
  simp [Reading.prepend, Reading.done]

/-- **A document that has been written is read back**, up to texts that follow each other and empty
texts, whatever its texts and the values of its attributes are. -/
theorem parse_markup {tag : Element} (hroot : d.node? d.root = some (.element tag))
    (hwritable : (d.tree d.root).Writable) (hdeclared : ∀ body ∈ d.declaration, Declared body) :
    ∃ e, parse d.markup = .ok e ∧ e.declaration = d.declaration ∧
      (e.tree e.root).bare = ((d.tree d.root).joinTexts "").bare := by
  rw [node?_eq_site?, Option.map_eq_some_iff] at hroot
  obtain ⟨site, hsite, hnode⟩ := hroot
  have htree : d.tree d.root = single d.root (.element tag) site.children := by
    rw [tree_eq_site?, hsite, ← hnode]
    rfl
  rw [htree] at hwritable ⊢
  obtain ⟨cs, hcs, hreads⟩ := reads_markup htree hwritable hdeclared
  obtain ⟨pieces, hpieces, hreading⟩ := exists_pieces hcs hreads
  obtain ⟨later, row, hrow, hbuilds⟩ := Builder.Builds.root tag site.children d.root d.declaration
  have hrun := (builds_prolog d.declaration).trans hbuilds pieces hpieces
  refine ⟨⟨[single 0 (.element tag) row], [], 0, later, d.declaration⟩, ?_, rfl, ?_⟩
  · rw [parse, hreading, ofReading, Builder.build, hrun]
    rfl
  · have hjoined : (single d.root (.element tag) site.children).joinTexts "" =
        single d.root (.element tag) (site.children.joinTexts "") := rfl
    have hread : tree ⟨[single 0 (.element tag) row], [], 0, later, d.declaration⟩ 0 =
        single 0 (.element tag) row := rfl
    rw [hjoined, hread, bare_single, bare_single, hrow]

/-- A document whose texts and values look like markup. -/
def lookalike : Document where
  rows := [.single 0 (.element ⟨"w:body", [⟨"w:val", "a\"b\'<&lt;/>]]>"⟩, ⟨"xml:space", "\n"⟩]⟩)
    (.cons 1 (.text "x < y ") .nil <| .cons 2 (.text "&amp; ]]>") .nil <| .cons 3 (.text "") .nil <|
      .cons 4 (.cdata "<w:p>&]]") .nil <|
      .cons 5 (.element ⟨"w:p", []⟩) (.single 6 (.text "") .nil) <|
      .single 7 (.element ⟨"w:br", []⟩) .nil)]
  aside := []
  root := 0
  next := 8
  declaration := some "xml version=\"1.0\" encoding=\"UTF-8\" standalone=\"yes\""

/-- Everything in such a document is read as what it was. -/
theorem parse_markup_lookalike :
    (∃ tag, lookalike.node? lookalike.root = some (.element tag)) ∧
      (lookalike.tree lookalike.root).Writable ∧
      (∀ body ∈ lookalike.declaration, Declared body) ∧
      ∃ e, parse lookalike.markup = .ok e ∧ e.declaration = lookalike.declaration ∧
        (e.tree e.root).bare = ((lookalike.tree lookalike.root).joinTexts "").bare := by
  have hroot : lookalike.node? lookalike.root =
      some (.element ⟨"w:body", [⟨"w:val", "a\"b\'<&lt;/>]]>"⟩, ⟨"xml:space", "\n"⟩]⟩) := rfl
  have hwritable : (lookalike.tree lookalike.root).Writable := ⟨by decide, by decide +kernel⟩
  have hdeclared : ∀ body ∈ lookalike.declaration, Declared body := by
    rintro body ⟨⟩
    have hparse : parse "<?xml version='1.0' encoding=\"UTF-8\" standalone='yes'?><a/>" =
        .ok ⟨[.single 0 (.element ⟨"a", []⟩) .nil], [], 0, 1, lookalike.declaration⟩ := rfl
    refine ⟨⟨_, _, hparse, rfl⟩, ?_⟩
    exact ⟨⟨"1.0".toList, some "UTF-8".toList, some "yes".toList⟩, by decide, by decide⟩
  exact ⟨⟨_, hroot⟩, hwritable, hdeclared, parse_markup hroot hwritable hdeclared⟩

end Document

end MailMerge.Xml
