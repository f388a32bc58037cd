import MailMerge.Proofs.Rendering.Undisturbed
import MailMerge.Proofs.Xml.Revision
import MailMerge.Proofs.Xml.Stream

/-!
# From streams to trees

While a stream is built, what has been built is the stream so far (`Builder.trail`), and the open
elements are those of the stream. So a document is built of just the streams that nest to a single
element among blanks, and walking through its tree gives this element's stretch of the stream again.
-/

namespace MailMerge.Xml

variable {events : List Event} {event : Event} {f g : Forest}

/-! ## Walks -/

/-- A piece with an empty tag as a start tag and an end tag. -/
def Event.spelled : Event → List Event
  | empty tag => [start tag, stop tag.name]
  | declaration _ | aside => []
  | event => [event]

namespace Forest

/-- A walk through a row: an element, what stands below it and its end, then its later siblings. -/
def walk : Forest → List Event
  | nil => []
  | cons _ (.text content) _ rest => .text content :: rest.walk
  | cons _ (.cdata content) _ rest => .cdata content :: rest.walk
  | cons _ (.element tag) nil rest => .empty tag :: rest.walk
  | cons _ (.element tag) children rest =>
    .start tag :: (children.walk ++ .stop tag.name :: rest.walk)

/-- A walk that gives each element a start and an end. -/
def spelled : Forest → List Event
  | nil => []
  | cons _ (.text content) _ rest => .text content :: rest.spelled
  | cons _ (.cdata content) _ rest => .cdata content :: rest.spelled
  | cons _ (.element tag) children rest =>
    .start tag :: (children.spelled ++ .stop tag.name :: rest.spelled)

theorem spelled_append (f g : Forest) : (f ++ g).spelled = f.spelled ++ g.spelled := by
  induction f with
  | nil => rfl
  | cons id node children rest _ ih => cases node <;> simp [spelled, ih]

theorem walk_append (f g : Forest) : (f ++ g).walk = f.walk ++ g.walk := by
  induction f with
  | nil => rfl
  | cons id node children rest _ ih =>
    cases node with
    | text | cdata => simp [walk, ih]
    | element tag => cases children <;> simp [walk, ih]

theorem spelled_ne_stop {name : String} {later : List Event} (hf : f ≠ nil) :
    ∀ more, f.spelled ++ more ≠ .stop name :: later := by
  intro more
  cases f with
  | nil => contradiction
  | cons id node children rest => cases node <;> simp [spelled]

end Forest

theorem closed_start {tag : Element} (h : ∀ name rest, events ≠ .stop name :: rest) :
    closed (.start tag :: events) = .start tag :: closed events := by
  cases events with
  | nil => rfl
  | cons first rest =>
    cases first with
    | stop name => exact absurd rfl (h name rest)
    | _ => rfl

open Forest in
/-- Where an empty element is told as such, a walk is what it is spelled as. -/
theorem closed_spelled_append (f : Forest) (more : List Event) :
    closed (f.spelled ++ more) = f.walk ++ closed more := by
  induction f generalizing more with
  | nil => rfl
  | cons id node children rest ihc ihr =>
    cases node with
    | text | cdata => exact congrArg _ (ihr more)
    | element tag =>
      have hbelow : closed (children.spelled ++ .stop tag.name :: (rest.spelled ++ more)) =
          children.walk ++ .stop tag.name :: (rest.walk ++ closed more) := by
        rw [ihc, ← ihr more]
        rfl
      rw [spelled, List.cons_append, List.append_assoc, List.cons_append]
      -- Only the start of an element without children is directly followed by its end.
      cases children with
      | nil => exact congrArg _ (ihr more)
      | cons x n c r =>
        have hne : cons x n c r ≠ nil := by simp
        rw [closed_start fun name later => spelled_ne_stop hne _, hbelow]
        simp [walk]

theorem closed_spelled (f : Forest) : closed f.spelled = f.walk := by
  have h := closed_spelled_append f []
  rwa [List.append_nil, closed, List.append_nil] at h

theorem closed_flatMap_spelled (h : ∀ event ∈ events, event.isContent = true) :
    closed (events.flatMap Event.spelled) = closed events := by
  fun_induction closed events with
  | case1 => rfl
  | case2 tag name rest ih =>
    simp only [List.forall_mem_cons] at h
    exact congrArg _ (ih h.2.2)
  | case3 event rest hpair ih =>
    rw [List.forall_mem_cons] at h
    rw [List.flatMap_cons, ← ih h.2]
    cases event with
    | declaration | aside => cases h.1
    | start tag =>
      refine closed_start fun name later heq => ?_
      cases rest with
      | nil => cases heq
      | cons first rest =>
        cases first with
        | stop => exact hpair tag _ rest rfl rfl
        | declaration | aside => cases h.2 _ List.mem_cons_self
        | _ => cases heq
    | _ => rfl

/-! ## What has been built -/

namespace Forest

theorem reverseOnto_eq (f done : Forest) : f.reverseOnto done = f.reverse ++ done := by
  induction f generalizing done with
  | nil => rfl
  | cons id node children rest _ ih =>
    rw [reverse, reverseOnto, reverseOnto, ih, ih, append_assoc]
    rfl

theorem reverse_cons (id : NodeId) (node : Node) (children rest : Forest) :
    (cons id node children rest).reverse = rest.reverse ++ single id node children :=
  reverseOnto_eq rest _

theorem length_tops_reverse (f : Forest) : f.reverse.tops.length = f.tops.length := by
  induction f with
  | nil => rfl
  | cons id node children rest _ ih =>
    rw [reverse_cons, tops_append, List.length_append, ih]
    rfl

end Forest

/-- The pieces of an element that is open. -/
def OpenElement.spelled (o : OpenElement) : List Event := .start o.tag :: o.children.reverse.spelled

namespace Event.Leaf

variable {node : Node} (h : event.Leaf node)
include h

theorem characters : event.characters? = some node.characters := by cases h <;> rfl

theorem isBlank : event.isBlank = Text.allBlank node.characters := by cases h <;> rfl

theorem isContent : event.isContent = true := by cases h <;> rfl

theorem isElement : event.isElement = false := by cases h <;> rfl

theorem after (opened : List String) : event.after opened = opened := by cases h <;> rfl

theorem spelled (id : NodeId) : (Forest.single id node .nil).spelled = event.spelled := by
  cases h <;> rfl

end Event.Leaf

namespace Builder

open Forest

variable {b c : Builder} {scope : Scope} {position : Nat} {e : Error}
variable {pieces : List (Nat × Event)}

/-- The names of the open elements, the innermost first. -/
def names (b : Builder) : List String := b.opened.map (·.tag.name)

/-- The pieces of what has been built. -/
def trail (b : Builder) : List Event :=
  b.top.reverse.spelled ++ b.opened.reverse.flatMap OpenElement.spelled

/-- The number of nodes that have begun at the top. -/
def begun (b : Builder) : Nat := b.top.tops.length + if b.opened = [] then 0 else 1

theorem names_eq_nil_iff : b.names = [] ↔ b.opened = [] := List.map_eq_nil_iff

theorem names_put (b : Builder) (id : NodeId) (node : Node) (children : Forest) :
    (b.put id node children).names = b.names := by
  obtain ⟨next, opened, top, declaration⟩ := b
  cases opened <;> rfl

theorem trail_put (b : Builder) (id : NodeId) (node : Node) (children : Forest) :
    (b.put id node children).trail = b.trail ++ (single id node children).spelled := by
  obtain ⟨next, opened, top, declaration⟩ := b
  cases opened with
  | nil => simp [put, trail, reverse_cons, spelled_append]
  | cons parent outer =>
    simp [put, trail, OpenElement.spelled, reverse_cons, spelled_append]

theorem begun_put (b : Builder) (id : NodeId) (node : Node) (children : Forest) :
    (b.put id node children).begun = b.begun + if b.opened = [] then 1 else 0 := by
  obtain ⟨next, opened, top, declaration⟩ := b
  cases opened <;> simp [put, begun, tops]

/-! ## One piece -/

/-- A piece is built as the stream tells. -/
theorem step_ok (h : b.step scope position event = .ok c) :
    c.names = event.after b.names ∧
      c.trail = b.trail ++ (kept b.names [event]).flatMap Event.spelled := by
  have hstep := stepped scope b position event
  rw [h] at hstep
  cases hstep with
  | start =>
    refine ⟨rfl, ?_⟩
    simp [trail, OpenElement.spelled, spelled, reverse, reverseOnto, kept, Event.isContent,
      Event.isBlank, Event.characters?, Event.spelled]
  | empty =>
    refine ⟨names_put b _ _ _, (trail_put b _ _ _).trans ?_⟩
    simp [single, spelled, kept, Event.isContent, Event.isBlank, Event.characters?, Event.spelled]
  | stop hopened =>
    obtain ⟨next, opened, top, declaration⟩ := b
    cases hopened
    refine ⟨names_put _ _ _ _, (trail_put _ _ _ _).trans ?_⟩
    simp [trail, OpenElement.spelled, single, spelled, kept, Event.isContent, Event.isBlank,
      Event.characters?, Event.spelled]
  | leaf hleaf hkept =>
    have hone : kept b.names [event] = [event] := by
      by_cases htop : b.opened = []
      · simp [kept, hleaf.isBlank, hleaf.isContent, (hkept htop).2]
      · simp [kept_inside (mt names_eq_nil_iff.1 htop), hleaf.isContent]
    rw [hone, List.flatMap_singleton, ← hleaf.spelled b.next, hleaf.after]
    exact ⟨names_put b _ _ _, trail_put b _ _ _⟩
  | blank hleaf htop hblank =>
    have hnone : kept b.names [event] = [] := by
      simp [kept, names_eq_nil_iff.2 htop, hleaf.isBlank, hblank]
    rw [hnone, hleaf.after]
    exact ⟨rfl, (List.append_nil _).symm⟩
  | declaration | aside => exact ⟨rfl, (List.append_nil _).symm⟩

theorem begun_of_top (h : b.opened = []) : b.begun = 0 ↔ b.top = .nil := by
  rw [begun, if_pos h, Nat.add_zero, List.length_eq_zero_iff]
  cases b.top <;> simp [tops]

theorem admitsElement_iff :
    b.admitsElement scope = true ↔ scope = .document → b.opened = [] → b.begun = 0 := by
  by_cases hopened : b.opened = []
  · simp [admitsElement, hopened, begun_of_top hopened, imp_iff_not_or]
  · simp [admitsElement, hopened]

theorem roots_names_of_element (h : event.isElement = true) :
    roots b.names [event] = if b.opened = [] then [event] else [] := by
  by_cases hopened : b.opened = []
  · rw [names_eq_nil_iff.2 hopened, roots_top, h, if_pos hopened]
    rfl
  · rw [roots_inside (mt names_eq_nil_iff.1 hopened), if_neg hopened]

theorem roots_of_not_element (names : List String) (h : event.isElement = false) :
    roots names [event] = [] := by
  by_cases hnames : names = []
  · rw [hnames, roots_top, h]
    rfl
  · exact roots_inside hnames

theorem blankTop_of_none (names : List String) (h : event.characters? = none) :
    BlankTop names [event] := by
  by_cases hnames : names = []
  · rw [hnames, blankTop_top, h]
    exact nofun
  · exact blankTop_inside hnames

/-- What a document refuses: a second element at the top, or a text there. -/
theorem step_error (hfits : event.Fits b.names) (h : b.step scope position event = .error e) :
    scope = .document ∧
      ((roots b.names [event] ≠ [] ∧ b.begun ≠ 0 ∧ e = .manyRoots (some position)) ∨
        (¬BlankTop b.names [event] ∧
          e = .badStructure "Text content outside of the root element" (some position))) := by
  have hstep := stepped scope b position event
  rw [h] at hstep
  cases hstep with
  | refused hevent hrefused =>
    rw [admitsElement_iff] at hrefused
    push Not at hrefused
    obtain ⟨hscope, hopened, hbegun⟩ := hrefused
    have helement : event.isElement = true := by rcases hevent with rfl | rfl <;> rfl
    refine ⟨hscope, .inl ⟨?_, hbegun, rfl⟩⟩
    rw [roots_names_of_element helement, if_pos hopened]
    exact List.cons_ne_nil _ _
  | misfit hother => exact absurd (hfits _ rfl) hother
  | outside hleaf htop hscope hshown =>
    refine ⟨hscope, .inr ⟨fun hblank => hshown ?_, rfl⟩⟩
    rw [names_eq_nil_iff.2 htop, blankTop_top] at hblank
    exact hblank _ hleaf.characters

/-- At the top of a document there is one element at most, and no text. -/
theorem step_document_ok (h : b.step .document position event = .ok c) :
    c.begun = b.begun + (roots b.names [event]).length ∧ BlankTop b.names [event] ∧
      (roots b.names [event] ≠ [] → b.begun = 0) := by
  have hstep := stepped .document b position event
  rw [h] at hstep
  cases hstep with
  | start hadmitted =>
    rw [roots_names_of_element rfl]
    refine ⟨?_, blankTop_of_none _ rfl, fun hroots => ?_⟩
    · rw [begun, begun, if_neg (List.cons_ne_nil _ _)]
      split <;> rfl
    · exact admitsElement_iff.1 hadmitted rfl (by simpa using hroots)
  | empty hadmitted =>
    rw [roots_names_of_element rfl]
    refine ⟨?_, blankTop_of_none _ rfl, fun hroots => ?_⟩
    · exact (begun_put b _ _ _).trans (by split <;> rfl)
    · exact admitsElement_iff.1 hadmitted rfl (by simpa using hroots)
  | stop hopened =>
    rw [roots_of_not_element _ rfl]
    refine ⟨?_, blankTop_of_none _ rfl, fun hroots => absurd rfl hroots⟩
    rw [begun_put, begun, begun, hopened, if_neg (List.cons_ne_nil _ _)]
    dsimp only
    split <;> rfl
  | @leaf _ node hleaf hkept =>
    have hinside : b.opened ≠ [] := fun htop => nomatch (hkept htop).1
    have hput := begun_put b b.next node .nil
    rw [if_neg hinside] at hput
    rw [roots_of_not_element _ hleaf.isElement]
    exact ⟨hput, blankTop_inside (mt names_eq_nil_iff.1 hinside), fun hroots => absurd rfl hroots⟩
  | blank hleaf htop hblank =>
    rw [roots_of_not_element _ hleaf.isElement, names_eq_nil_iff.2 htop, blankTop_top,
      hleaf.characters]
    exact ⟨rfl, fun content hcontent => Option.some.inj hcontent ▸ hblank,
      fun hroots => absurd rfl hroots⟩
  | declaration | aside =>
    rw [roots_of_not_element _ rfl]
    exact ⟨rfl, blankTop_of_none _ rfl, fun hroots => absurd rfl hroots⟩

/-! ## Whole streams -/

theorem run_ok (h : b.run scope pieces = .ok c) :
    c.names = openAfter b.names (pieces.map Prod.snd) ∧
      c.trail = b.trail ++ (kept b.names (pieces.map Prod.snd)).flatMap Event.spelled := by
  induction pieces generalizing b with
  | nil =>
    cases h
    exact ⟨rfl, (List.append_nil _).symm⟩
  | cons piece pieces ih =>
    obtain ⟨position, event⟩ := piece
    rw [run] at h
    split at h
    next => cases h
    next hstep =>
      obtain ⟨hnames, htrail⟩ := step_ok hstep
      obtain ⟨hnames', htrail'⟩ := ih h
      rw [hnames] at hnames' htrail'
      refine ⟨hnames', ?_⟩
      rw [htrail', htrail, List.map_cons, kept_cons b.names event (pieces.map Prod.snd),
        List.flatMap_append, List.append_assoc]

/-- Of a stream that nests, a fragment is always built, and a document is refused by its top. -/
theorem run_error (hmatched : Matched b.names (pieces.map Prod.snd))
    (h : b.run scope pieces = .error e) :
    scope = .document ∧ ((∃ position, e = .manyRoots (some position)) ∨
      ∃ position, e = .badStructure "Text content outside of the root element" (some position)) := by
  induction pieces generalizing b with
  | nil => cases h
  | cons piece pieces ih =>
    obtain ⟨position, event⟩ := piece
    rw [run] at h
    split at h
    next hstep =>
      cases h
      obtain ⟨hscope, ⟨-, -, rfl⟩ | ⟨-, rfl⟩⟩ := step_error hmatched.1 hstep
      · exact ⟨hscope, .inl ⟨_, rfl⟩⟩
      · exact ⟨hscope, .inr ⟨_, rfl⟩⟩
    next hstep => exact ih ((step_ok hstep).1 ▸ hmatched.2) h

theorem length_roots_single_le (names : List String) (event : Event) :
    (roots names [event]).length ≤ 1 := by
  by_cases hnames : names = []
  · rw [hnames, roots_top]
    split <;> simp
  · simp [roots_inside hnames]

/-- A document is built of the streams that have one element at the top at most, and no text. -/
theorem exists_run_document (hmatched : Matched b.names (pieces.map Prod.snd)) (hb : b.begun ≤ 1) :
    (∃ c, b.run .document pieces = .ok c) ↔
      b.begun + (roots b.names (pieces.map Prod.snd)).length ≤ 1 ∧
        BlankTop b.names (pieces.map Prod.snd) := by
  induction pieces generalizing b with
  | nil =>
    have hblank : BlankTop b.names [] := nofun
    exact iff_of_true ⟨b, rfl⟩ ⟨hb, hblank⟩
  | cons piece pieces ih =>
    obtain ⟨position, event⟩ := piece
    rw [List.map_cons, roots_cons, blankTop_cons, List.length_append]
    cases hstep : b.step .document position event with
    | error e =>
      have hnone : ¬∃ c, b.run .document ((position, event) :: pieces) = .ok c := by
        rintro ⟨c, hrun⟩
        rw [run, hstep] at hrun
        cases hrun
      -- The piece that is refused breaks one of the two conditions itself.
      refine iff_of_false hnone ?_
      rintro ⟨hcount, hblank, -⟩
      obtain ⟨-, ⟨hroots, hbegun, -⟩ | ⟨hrefused, -⟩⟩ := step_error hmatched.1 hstep
      · have hone := List.length_pos_iff.2 hroots
        omega
      · exact hrefused hblank
    | ok c =>
      obtain ⟨hbegun, hblank, hfirst⟩ := step_document_ok hstep
      have hnames := (step_ok hstep).1
      have hlater : c.begun ≤ 1 := by
        have hone := length_roots_single_le b.names event
        by_cases hroots : roots b.names [event] = []
        · rw [hbegun, hroots]
          exact hb
        · rw [hbegun, hfirst hroots]
          omega
      have hrun : b.run .document ((position, event) :: pieces) = c.run .document pieces := by
        rw [run, hstep]
      rw [hrun, ih (hnames ▸ hmatched.2) hlater, hnames, hbegun, Nat.add_assoc]
      simp [hblank]

theorem run_document_begun (h : b.run .document pieces = .ok c) :
    c.begun = b.begun + (roots b.names (pieces.map Prod.snd)).length := by
  induction pieces generalizing b with
  | nil =>
    cases h
    rfl
  | cons piece pieces ih =>
    obtain ⟨position, event⟩ := piece
    rw [run] at h
    split at h
    next => cases h
    next hstep =>
      rw [ih h, (step_document_ok hstep).1, (step_ok hstep).1, List.map_cons,
        roots_cons b.names event (pieces.map Prod.snd), List.length_append, Nat.add_assoc]

/-! ## Whole readings -/

section Readings

variable {n : NodeId} {reading : Reading}

/-- What is built of a reading is what is kept of it, with all elements closed. -/
theorem spelled_of_build (h : build scope n reading = .ok c) :
    openAfter [] (reading.events.map Prod.snd) = [] ∧
      c.top.reverse.spelled =
        (kept [] (reading.events.map Prod.snd)).flatMap Event.spelled := by
  obtain ⟨hrun, hopened⟩ := run_of_build h
  obtain ⟨hnames, htrail⟩ := run_ok hrun
  rw [trail, hopened, List.reverse_nil, List.flatMap_nil, List.append_nil] at htrail
  exact ⟨hnames.symm.trans (names_eq_nil_iff.2 hopened), htrail⟩

theorem walk_of_build (h : build scope n reading = .ok c) :
    c.top.reverse.walk = closed (kept [] (reading.events.map Prod.snd)) := by
  rw [← closed_spelled, (spelled_of_build h).2]
  exact closed_flatMap_spelled fun event => isContent_of_mem_kept

/-- A reading without a fault is built if all its pieces are and all its elements are closed. -/
theorem build_of_run (hfault : reading.fault = none)
    (hrun : (begin n).run scope reading.events = .ok c)
    (hclosed : openAfter [] (reading.events.map Prod.snd) = []) :
    build scope n reading = .ok c := by
  have hopened : c.opened = [] := names_eq_nil_iff.1 ((run_ok hrun).1.trans hclosed)
  rw [build, hrun]
  dsimp only
  rw [hfault, hopened]

theorem exists_build_fragment (hfault : reading.fault = none)
    (hmatched : Matched [] (reading.events.map Prod.snd)) :
    (∃ c, build .fragment n reading = .ok c) ↔ openAfter [] (reading.events.map Prod.snd) = [] := by
  refine ⟨fun ⟨c, hbuild⟩ => (spelled_of_build hbuild).1, fun hclosed => ?_⟩
  cases hrun : (begin n).run .fragment reading.events with
  | error e => cases (run_error (b := begin n) hmatched hrun).1
  | ok c => exact ⟨c, build_of_run hfault hrun hclosed⟩

end Readings

end Builder

/-- A stream nests to a single element, with only blanks around it. -/
structure Nests (events : List Event) : Prop where
  closes : openAfter [] events = []
  root : (roots [] events).length = 1
  blank : BlankTop [] events

/-- The pieces that a text is read as. -/
def pieces (s : String) : List Event := (Reading.ofString s).events.map Prod.snd

theorem matched_pieces (s : String) : Matched [] (pieces s) := Reading.matched_read

/-- The builder tells that an end tag closes no element, or one of another name. -/
def Error.IsEndTag (error : Error) : Prop :=
  (∃ expected found position, error = .mismatchedEnd expected found position) ∨
    ∃ (name : String) (position : Option Nat),
      error = .badStructure s!"Unexpected closing tag </{name}>" position

theorem not_isEndTag_text (position : Option Nat) :
    ¬(Error.badStructure "Text content outside of the root element" position).IsEndTag := by
  rintro (⟨expected, found, position, h⟩ | ⟨name, position, h⟩)
  · cases h
  · have hfirst := congrArg (fun message => message.toList.head?) (Error.badStructure.inj h).1
    rw [String.toList_append, String.toList_append, List.append_assoc] at hfirst
    exact absurd (Option.some.inj hfirst) (by decide)

/-- What is read is matched, so that the builder never meets an end tag that does not fit. -/
theorem Builder.not_isEndTag_of_build {scope : Scope} {n : NodeId} {s : String} {error : Error}
    (h : build scope n (Reading.ofString s) = .error error) : ¬error.IsEndTag := by
  rw [build] at h
  split at h
  next hrun =>
    cases h
    obtain ⟨-, ⟨position, rfl⟩ | ⟨position, rfl⟩⟩ :=
      run_error (b := begin n) (matched_pieces s) hrun
    · rintro (⟨_, _, _, h⟩ | ⟨_, _, h⟩) <;> cases h
    · exact not_isEndTag_text _
  next hrun =>
    split at h
    next hfault =>
      cases h
      obtain ⟨message, position, rfl⟩ := Reading.malformed_of_read hfault
      rintro (⟨_, _, _, h⟩ | ⟨_, _, h⟩) <;> cases h
    next => cases h
    next =>
      cases h
      rintro (⟨_, _, _, h⟩ | ⟨_, _, h⟩) <;> cases h

namespace Document

open Forest

variable {d e : Document} {s : String} {n : NodeId} {nodes : List NodeId} {error : Error}

theorem exists_single_of_tops {f : Forest} (h : f.tops.length = 1) :
    ∃ x node children, f = single x node children := by
  cases f with
  | nil => cases h
  | cons x node children rest =>
    cases rest with
    | nil => exact ⟨x, node, children, rfl⟩
    | cons => cases h

theorem nests_of_parse (h : parse s = .ok e) : Nests (pieces s) := by
  obtain ⟨b, x, node, children, hbuild, hrow, -⟩ := exists_of_reading h
  obtain ⟨hrun, hopened⟩ := Builder.run_of_build hbuild
  have hblank := (Builder.exists_run_document (b := .begin 0) (matched_pieces s)
    (Nat.zero_le 1)).1 ⟨b, hrun⟩
  have hroots := Builder.run_document_begun hrun
  rw [Builder.begun, if_pos hopened, ← length_tops_reverse, hrow] at hroots
  exact ⟨(Builder.spelled_of_build hbuild).1, (Nat.zero_add _).symm.trans hroots.symm, hblank.2⟩

theorem exists_parse_of_nests (hfault : (Reading.ofString s).fault = none)
    (h : Nests (pieces s)) : ∃ e, parse s = .ok e := by
  have hcount : (Builder.begin 0).begun + (roots [] (pieces s)).length = 1 :=
    (Nat.zero_add _).trans h.root
  obtain ⟨b, hrun⟩ := (Builder.exists_run_document (b := .begin 0) (matched_pieces s)
    (Nat.zero_le 1)).2 ⟨hcount.le, h.blank⟩
  have hbuild := Builder.build_of_run hfault hrun h.closes
  have hbegun := Builder.run_document_begun hrun
  rw [Builder.begun, if_pos (Builder.run_of_build hbuild).2, ← length_tops_reverse] at hbegun
  obtain ⟨x, node, children, hrow⟩ := exists_single_of_tops (hbegun.trans hcount)
  rw [parse, ofReading, hbuild]
  dsimp only
  rw [hrow]
  exact ⟨_, rfl⟩

/-- The tree of a document is walked as the stretch of the stream between the blanks around it. -/
theorem walk_of_parse (h : parse s = .ok e) :
    ∃ before inner after, (pieces s).filter Event.isContent = before ++ inner ++ after ∧
      (∀ event ∈ before ++ after, event.isBlank = true) ∧ (e.tree e.root).walk = closed inner := by
  obtain ⟨hcloses, hroot, hblank⟩ := nests_of_parse h
  obtain ⟨before, after, hstretch, hblanks⟩ := exists_around_kept (matched_pieces s) hroot hblank
  obtain ⟨b, x, node, children, hbuild, hrow, rfl⟩ := exists_of_reading h
  refine ⟨before, _, after, hstretch, hblanks, ?_⟩
  rw [(proper_of_parse h).tree_of_row List.mem_cons_self, ← hrow]
  exact Builder.walk_of_build hbuild

theorem not_isEndTag_of_parse (h : parse s = .error error) : ¬error.IsEndTag := by
  rw [parse, ofReading] at h
  split at h
  next hbuild =>
    cases h
    exact Builder.not_isEndTag_of_build hbuild
  next =>
    split at h <;> cases h <;> rintro (⟨_, _, _, h⟩ | ⟨_, _, h⟩) <;> cases h

theorem not_isEndTag_of_parseFragment (h : d.parseFragment s = .error error) :
    ¬error.IsEndTag := by
  rw [parseFragment] at h
  split at h
  next hbuild =>
    cases h
    exact Builder.not_isEndTag_of_build hbuild
  next => cases h

theorem exists_parseFragment (hfault : (Reading.ofString s).fault = none) :
    (∃ nodes e, d.parseFragment s = .ok (nodes, e)) ↔ openAfter [] (pieces s) = [] := by
  rw [pieces, ← Builder.exists_build_fragment (n := d.next) hfault (matched_pieces s),
    parseFragment]
  constructor
  · rintro ⟨nodes, e, h⟩
    split at h
    next => cases h
    next b hbuild => exact ⟨b, hbuild⟩
  · rintro ⟨b, hbuild⟩
    rw [hbuild]
    exact ⟨_, _, rfl⟩

theorem walk_trees (f : Forest) : f.trees.flatMap walk = f.walk := by
  induction f with
  | nil => rfl
  | cons id node children rest _ ih =>
    rw [trees, List.flatMap_cons, ih, ← walk_append]
    rfl

/-- The nodes of a fragment are walked as what is kept of the stream. -/
theorem walk_of_parseFragment (hd : d.Distinct) (h : d.parseFragment s = .ok (nodes, e)) :
    nodes.flatMap (fun x => (e.tree x).walk) = closed (kept [] (pieces s)) := by
  have he := (hd.apart.parseFragment h).1.apart.distinct
  rw [parseFragment] at h
  split at h
  next => cases h
  next b hbuild =>
    cases h
    have hrows : ∀ row ∈ b.top.reverse.trees,
        row ∈ (d.adopt b.top.reverse.trees b.next).allRows := fun row hrow =>
      List.mem_append_left _ (List.mem_append_left _ hrow)
    rw [pieces, ← Builder.walk_of_build hbuild, ← walk_trees]
    generalize d.adopt b.top.reverse.trees b.next = e at he hrows
    generalize b.top.reverse = row at hrows
    induction row with
    | nil => rfl
    | cons x node children rest _ ih =>
      rw [trees, List.forall_mem_cons] at hrows
      rw [trees, tops, List.map_cons, List.flatMap_cons, List.flatMap_cons, ih hrows.2,
        he.tree_of_row hrows.1]

theorem insertMarkupAfter_error (h : d.parseFragment s = .error error) {anchor : NodeId}
    {w : Workspace} (hw : w.document = d) :
    Merge.insertMarkupAfter anchor s w = .error (.xml error) w := by
  subst hw
  have hread : Merge.document w = .ok w.document w := rfl
  unfold Merge.insertMarkupAfter
  rw [Merge.bind_ok hread, h]
  rfl

/-- A text without a fault is read as a document just if its stream nests to a single element, and as
a fragment just if its stream closes all its elements. What is read gives back the stream: a document
the stretch of its root, a fragment all but the blanks that stand in no element. Reading a fragment
leaves what is written of the document that receives it, a fragment that cannot be read leaves this
document as it is, and no text is refused by the builder for its end tags. -/
theorem parse_nests (hd : d.WellFormed) (s : String) :
    ((Reading.ofString s).fault = none →
      ((∃ e, parse s = .ok e) ↔ Nests (pieces s)) ∧
      (∀ e, parse s = .ok e → ∃ before inner after,
        (pieces s).filter Event.isContent = before ++ inner ++ after ∧
        (∀ event ∈ before ++ after, event.isBlank = true) ∧
        (e.tree e.root).walk = closed inner) ∧
      ((∃ nodes e, d.parseFragment s = .ok (nodes, e)) ↔ openAfter [] (pieces s) = []) ∧
      ∀ nodes e, d.parseFragment s = .ok (nodes, e) →
        nodes.flatMap (fun x => (e.tree x).walk) = closed (kept [] (pieces s))) ∧
    (∀ nodes e, d.parseFragment s = .ok (nodes, e) → e.markup = d.markup) ∧
    (∀ error, d.parseFragment s = .error error → ∀ anchor w, w.document = d →
      Merge.insertMarkupAfter anchor s w = .error (.xml error) w) ∧
    ∀ error, parse s = .error error ∨ d.parseFragment s = .error error → ¬error.IsEndTag := by
  refine ⟨fun hfault => ⟨⟨fun ⟨e, he⟩ => nests_of_parse he, exists_parse_of_nests hfault⟩,
    fun e => walk_of_parse, exists_parseFragment hfault, fun nodes e =>
    walk_of_parseFragment hd.toDistinct⟩, ?_, ?_, ?_⟩
  · intro nodes e h
    exact (hd.apart.parseFragment h).1.markup_eq hd
  · intro error h anchor w hw
    exact insertMarkupAfter_error h hw
  · intro error h
    cases h with
    | inl h => exact not_isEndTag_of_parse h
    | inr h => exact not_isEndTag_of_parseFragment h

/-- A comment is left out, an element that ends at once is empty, and the blank at the end is not in
the root. A fragment with two elements is read beside it without the blank between them, and one that
is not closed is refused and leaves all as it is. -/
theorem parse_nests_couple :
    couple.WellFormed ∧ (Reading.ofString "<a><b></b><!-- x --><c/></a>\n").fault = none ∧
      parse "<a><b></b><!-- x --><c/></a>\n" = .ok couple ∧
      Nests (pieces "<a><b></b><!-- x --><c/></a>\n") ∧
      (couple.tree 0).walk =
        [.start ⟨"a", []⟩, .empty ⟨"b", []⟩, .empty ⟨"c", []⟩, .stop "a"] ∧
      (∃ before inner after, (pieces "<a><b></b><!-- x --><c/></a>\n").filter Event.isContent =
          before ++ inner ++ after ∧
        (∀ event ∈ before ++ after, event.isBlank = true) ∧
        (couple.tree couple.root).walk = closed inner) ∧
      (∃ nodes e, couple.parseFragment "<d>x</d> <c></c>" = .ok (nodes, e) ∧
        nodes.flatMap (fun x => (e.tree x).walk) =
          [.start ⟨"d", []⟩, .text "x", .stop "d", .empty ⟨"c", []⟩] ∧ e.markup = couple.markup) ∧
      ∃ error, couple.parseFragment "<d>" = .error error ∧ ¬error.IsEndTag ∧
        Merge.insertMarkupAfter 1 "<d>" ⟨couple, [], {}⟩ = .error (.xml error) ⟨couple, [], {}⟩ := by
  have hparse : parse "<a><b></b><!-- x --><c/></a>\n" = .ok couple := rfl
  have hd : couple.WellFormed := (proper_of_parse hparse).toWellFormed
  have hfault : (Reading.ofString "<a><b></b><!-- x --><c/></a>\n").fault = none := rfl
  obtain ⟨hnests, hwalk, -⟩ := (parse_nests hd _).1 hfault
  refine ⟨hd, hfault, hparse, hnests.1 ⟨_, hparse⟩, rfl, hwalk _ hparse, ?_, ?_⟩
  · obtain ⟨hfragment, hmarkup, -⟩ := parse_nests hd "<d>x</d> <c></c>"
    obtain ⟨-, -, hcloses, hread⟩ := hfragment rfl
    obtain ⟨nodes, e, hok⟩ := hcloses.2 rfl
    exact ⟨nodes, e, hok, (hread nodes e hok).trans rfl, hmarkup nodes e hok⟩
  · obtain ⟨-, -, hinsert, hend⟩ := parse_nests hd "<d>"
    have herror : couple.parseFragment "<d>" = .error (.unexpectedEnd "closing tag </d>") := rfl
    exact ⟨_, herror, hend _ (.inr herror), hinsert _ herror 1 _ rfl⟩

end Document

end MailMerge.Xml
