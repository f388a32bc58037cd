import MailMerge.Proofs.Xml.RoundTrip

/-!
# Streams of pieces

A text is read as a stream of pieces that open and close elements. What is read can always be nested
(`Reading.matched_read`): an end tag closes the innermost open element, or the text is unreadable.
Of a stream with a single top-level element and nothing but blanks around it, what is kept is one
stretch (`exists_around_kept`).
-/

namespace MailMerge.Xml

variable {opened opened' : List String} {events : List Event} {event : Event}

namespace Event

/-- The elements that are open after a piece, the innermost first. -/
def after (opened : List String) : Event → List String
  | start tag => tag.name :: opened
  | stop _ => opened.tail
  | _ => opened

/-- A piece begins an element. -/
def isElement : Event → Bool
  | start _ | empty _ => true
  | _ => false

/-- The characters of a text or a CDATA section. -/
def characters? : Event → Option String
  | text content | cdata content => some content
  | _ => none

/-- A piece is a text or a CDATA section of blanks. -/
def isBlank (event : Event) : Bool := event.characters?.any Text.allBlank

/-- A piece is not left out, as comments, instructions, document types and declarations are. -/
def isContent : Event → Bool
  | declaration _ | aside => false
  | _ => true

/-- An end tag closes the innermost open element. -/
def Fits (opened : List String) (event : Event) : Prop :=
  ∀ name, event = stop name → opened.head? = some name

end Event

/-- The elements that are open after a stream, the innermost first. -/
def openAfter (opened : List String) (events : List Event) : List String :=
  events.foldl Event.after opened

/-- The pieces of a stream that stand in no element. -/
def topLevel (opened : List String) : List Event → List Event
  | [] => []
  | event :: rest =>
    (if opened = [] then [event] else []) ++ topLevel (event.after opened) rest

/-- The elements at the top of a stream. -/
def roots (opened : List String) (events : List Event) : List Event :=
  (topLevel opened events).filter Event.isElement

/-- At the top of a stream there is no text but blanks. -/
def BlankTop (opened : List String) (events : List Event) : Prop :=
  ∀ event ∈ topLevel opened events, ∀ content ∈ event.characters?, Text.allBlank content = true

/-- The content of a stream without the blanks that stand in no element. -/
def kept (opened : List String) : List Event → List Event
  | [] => []
  | event :: rest =>
    (if event.isContent && !(opened.isEmpty && event.isBlank) then [event] else []) ++
      kept (event.after opened) rest

/-- Every end tag closes the innermost open element. -/
def Matched (opened : List String) : List Event → Prop
  | [] => True
  | event :: rest => event.Fits opened ∧ Matched (event.after opened) rest

/-- A start tag directly followed by its end tag is an empty tag. -/
def closed : List Event → List Event
  | [] => []
  | .start tag :: .stop _ :: rest => .empty tag :: closed rest
  | event :: rest => event :: closed rest

section Steps

variable {first : Event} {rest : List Event}

theorem topLevel_cons (opened : List String) (first : Event) (rest : List Event) :
    topLevel opened (first :: rest) =
      topLevel opened [first] ++ topLevel (first.after opened) rest := by
  simp [topLevel]

theorem roots_cons (opened : List String) (first : Event) (rest : List Event) :
    roots opened (first :: rest) = roots opened [first] ++ roots (first.after opened) rest := by
  rw [roots, topLevel_cons, List.filter_append]
  rfl

theorem blankTop_cons : BlankTop opened (first :: rest) ↔
    BlankTop opened [first] ∧ BlankTop (first.after opened) rest := by
  rw [BlankTop, topLevel_cons, List.forall_mem_append]
  rfl

theorem kept_cons (opened : List String) (first : Event) (rest : List Event) :
    kept opened (first :: rest) = kept opened [first] ++ kept (first.after opened) rest := by
  simp [kept]

theorem roots_top : roots [] [event] = if event.isElement then [event] else [] := by
  simp [roots, topLevel, List.filter_cons]

theorem blankTop_top : BlankTop [] [event] ↔
    ∀ content ∈ event.characters?, Text.allBlank content = true := by
  simp [BlankTop, topLevel]

theorem roots_inside (h : opened ≠ []) : roots opened [event] = [] := by
  simp [roots, topLevel, h]

theorem blankTop_inside (h : opened ≠ []) : BlankTop opened [event] := by
  simp [BlankTop, topLevel, h]

theorem kept_inside (h : opened ≠ []) : kept opened [event] = [event].filter Event.isContent := by
  simp [kept, h, List.filter_cons]

end Steps

theorem isContent_of_mem_kept (h : event ∈ kept opened events) : event.isContent = true := by
  induction events generalizing opened with
  | nil => cases h
  | cons first rest ih =>
    rw [kept, List.mem_append] at h
    rcases h with h | h
    · split at h
      next hkept =>
        rw [List.mem_singleton.1 h]
        exact (Bool.and_eq_true_iff.1 hkept).1
      next => cases h
    · exact ih h

/-! ## What is read -/

namespace Reading

variable {fuel position next : Nat} {cs rest body : List Char} {name : String} {e : Error}

/-- What markup is read as, with the elements that are open before and after it. -/
inductive Taken (opened : List String) : Event → List String → Prop
  | aside : Taken opened .aside opened
  | declaration (body : String) : Taken opened (.declaration body) opened
  | cdata (content : String) : Taken opened (.cdata content) opened
  | stop {name : String} {outer : List String} (h : opened = name :: outer) :
    Taken opened (.stop name) outer
  | start {cs : List Char} {tag : Element} (h : Element.ofChars cs = .ok tag) :
    Taken opened (.start tag) (tag.name :: opened)
  | empty {cs : List Char} {tag : Element} (h : Element.ofChars cs = .ok tag) :
    Taken opened (.empty tag) opened

/-- What reading markup comes to: a piece is taken, or the markup is unreadable. -/
inductive Outcome (opened : List String) : Except Error (Event × List String) → Prop
  | taken {event : Event} {opened' : List String} (h : Taken opened event opened') :
    Outcome opened (.ok (event, opened'))
  | malformed (message : String) (position : Option Nat) :
    Outcome opened (.error (.malformed message position))

theorem outcome_readInstruction (position : Nat) (opened : List String) (body : List Char) :
    Outcome opened ((readInstruction position body).map (·, opened)) := by
  rw [readInstruction]
  split
  next => exact .malformed _ _
  next =>
    dsimp only
    split
    next =>
      split
      next => exact .malformed _ _
      next => exact .taken (.declaration _)
    next => exact .taken .aside

theorem outcome_interpret (position : Nat) (opened : List String) (body : List Char)
    (kind : Bracket) : Outcome opened (interpret position opened body kind) := by
  cases kind with
  | comment =>
    rw [interpret]
    split
    next => exact .taken .aside
    next => exact .malformed _ _
  | cdata =>
    rw [interpret]
    split
    next => exact .taken (.cdata _)
    next => exact .malformed _ _
  | doctype =>
    rw [interpret]
    split
    next => exact .malformed _ _
    next =>
      split
      next => exact .malformed _ _
      next => exact .taken .aside
  | instruction => exact outcome_readInstruction position opened body
  | endTag =>
    cases opened with
    | nil => exact .malformed _ _
    | cons expected outer =>
      rw [interpret, readEnd]
      split
      next heq => exact .taken (.stop (heq ▸ rfl))
      next => exact .malformed _ _
  | startTag =>
    rw [interpret, readStart]
    split
    next => exact .malformed _ _
    next => exact .malformed _ _
    next htag =>
      split
      next => exact .taken (.empty htag)
      next => exact .taken (.start htag)

theorem taken_of_readMarkup
    (h : readMarkup position opened cs = .ok (event, opened', next, rest)) :
    Taken opened event opened' := by
  rw [readMarkup] at h
  split at h
  next => cases h
  next kind _ =>
    split at h
    next => cases h
    next body behind _ =>
      have houtcome := outcome_interpret position opened body kind
      generalize interpret position opened body kind = result at h houtcome
      cases houtcome with
      | taken htaken => cases h; exact htaken
      | malformed => cases h

theorem malformed_of_readMarkup (h : readMarkup position opened cs = .error e) :
    ∃ m p, e = .malformed m p := by
  rw [readMarkup] at h
  split at h
  next => cases h; exact ⟨_, _, rfl⟩
  next kind _ =>
    split at h
    next => cases h; exact ⟨_, _, rfl⟩
    next body behind _ =>
      have houtcome := outcome_interpret position opened body kind
      generalize interpret position opened body kind = result at h houtcome
      cases houtcome with
      | taken => cases h
      | malformed message position => cases h; exact ⟨_, _, rfl⟩

/-- The open elements are followed as the pieces say. -/
theorem Taken.fits (h : Taken opened event opened') :
    event.Fits opened ∧ opened' = event.after opened := by
  cases h with
  | stop heq =>
    subst heq
    refine ⟨fun name hname => ?_, rfl⟩
    cases hname
    rfl
  | aside | declaration | cdata | start | empty => exact ⟨nofun, rfl⟩

/-- Whatever is read before the text ends or is unreadable, its end tags close open elements. -/
theorem matched_read :
    Matched opened ((read fuel position opened cs).events.map Prod.snd) := by
  fun_induction read fuel position opened cs with
  | case1 => trivial
  | case2 => trivial
  | case3 _ _ _ _ _ hmarkup => trivial
  | case4 fuel position opened cs event opened' next rest hmarkup ih =>
    obtain ⟨hfits, rfl⟩ := (taken_of_readMarkup hmarkup).fits
    exact ⟨hfits, ih⟩
  | case5 => trivial
  | case6 _ _ _ _ _ _ _ _ _ _ _ ih => exact ⟨nofun, ih⟩

/-- An unreadable text is told by the fault of a piece of markup. -/
theorem malformed_of_read (h : (read fuel position opened cs).fault = some e) :
    ∃ m p, e = .malformed m p := by
  fun_induction read fuel position opened cs with
  | case1 => cases h
  | case2 => cases h
  | case3 fuel position opened cs e' hmarkup => cases h; exact malformed_of_readMarkup hmarkup
  | case4 _ _ _ _ _ _ _ _ _ ih => exact ih h
  | case5 => cases h; exact ⟨_, _, rfl⟩
  | case6 _ _ _ _ _ _ _ _ _ _ _ ih => exact ih h

end Reading

/-! ## The stretch of the root -/

/-- At the top of a stream there are only blanks. -/
structure Rootless (opened : List String) (events : List Event) : Prop where
  noRoot : roots opened events = []
  blank : BlankTop opened events

/-- A piece that stands in no element and begins none is content only if it is a text. -/
theorem after_nil_of_fits (hfits : event.Fits []) (helement : event.isElement = false)
    (hblank : ∀ content ∈ event.characters?, Text.allBlank content = true) :
    event.after [] = [] ∧ (event.isContent = true → event.isBlank = true) := by
  cases event with
  | start | empty => cases helement
  | stop name => cases hfits name rfl
  | text content | cdata content => exact ⟨rfl, fun _ => hblank content rfl⟩
  | declaration | aside => exact ⟨rfl, nofun⟩

theorem Rootless.kept_nil (h : Rootless [] events) (hmatched : Matched [] events) :
    kept [] events = [] ∧ ∀ event ∈ events.filter Event.isContent, event.isBlank = true := by
  induction events with
  | nil => exact ⟨rfl, nofun⟩
  | cons first rest ih =>
    obtain ⟨hroots, hblank⟩ := h
    rw [roots_cons, roots_top] at hroots
    rw [blankTop_cons, blankTop_top] at hblank
    split at hroots
    next => cases hroots
    next helement =>
      obtain ⟨hafter, hcontent⟩ :=
        after_nil_of_fits hmatched.1 (Bool.not_eq_true _ ▸ helement) hblank.1
      rw [hafter] at hroots hblank
      obtain ⟨hkept, hall⟩ := ih ⟨hroots, hblank.2⟩ (hafter ▸ hmatched.2)
      rw [kept, hafter, hkept, List.append_nil, List.filter_cons]
      cases hfirst : first.isContent with
      | false => exact ⟨rfl, hall⟩
      | true =>
        rw [hcontent hfirst]
        exact ⟨rfl, List.forall_mem_cons.2 ⟨hcontent hfirst, hall⟩⟩

/-- What comes in the root is kept, and what comes after it is blank. -/
theorem Rootless.exists_after (h : Rootless opened events) (hmatched : Matched opened events)
    (hopened : opened ≠ []) :
    ∃ after, events.filter Event.isContent = kept opened events ++ after ∧
      ∀ event ∈ after, event.isBlank = true := by
  induction events generalizing opened with
  | nil => exact ⟨[], rfl, nofun⟩
  | cons first rest ih =>
    obtain ⟨hroots, hblank⟩ := h
    rw [roots_cons, roots_inside hopened] at hroots
    replace hblank := (blankTop_cons.1 hblank).2
    rw [kept_cons, kept_inside hopened, ← List.singleton_append, List.filter_append]
    by_cases hclosed : first.after opened = []
    · rw [hclosed] at hroots hblank
      obtain ⟨hkept, hall⟩ := Rootless.kept_nil ⟨hroots, hblank⟩ (hclosed ▸ hmatched.2)
      rw [hclosed, hkept, List.append_nil]
      exact ⟨_, rfl, hall⟩
    · obtain ⟨after, hrest, hall⟩ := ih ⟨hroots, hblank⟩ hmatched.2 hclosed
      exact ⟨after, by rw [hrest, List.append_assoc], hall⟩

/-- Of a stream with a single element at its top, what is kept is one stretch between blanks. -/
theorem exists_around_kept (hmatched : Matched [] events) (hroot : (roots [] events).length = 1)
    (hblank : BlankTop [] events) :
    ∃ before after, events.filter Event.isContent = before ++ kept [] events ++ after ∧
      ∀ event ∈ before ++ after, event.isBlank = true := by
  induction events with
  | nil => cases hroot
  | cons first rest ih =>
    rw [roots_cons, roots_top] at hroot
    rw [blankTop_cons, blankTop_top] at hblank
    rw [List.filter_cons]
    split at hroot
    next helement =>
      rw [List.singleton_append, List.length_cons, Nat.add_eq_right, List.length_eq_zero_iff] at hroot
      have hcontent : first.isContent = true ∧ first.isBlank = false := by
        cases first <;> first | exact ⟨rfl, rfl⟩ | cases helement
      have hrootless : Rootless (first.after []) rest := ⟨hroot, hblank.2⟩
      rw [kept, hcontent.1, hcontent.2]
      -- The root is an empty tag, or it is open from here on.
      by_cases hclosed : first.after [] = []
      · rw [hclosed] at hrootless ⊢
        obtain ⟨hkept, hall⟩ := hrootless.kept_nil (hclosed ▸ hmatched.2)
        rw [hkept]
        exact ⟨[], _, rfl, hall⟩
      · obtain ⟨after, hrest, hall⟩ := hrootless.exists_after hmatched.2 hclosed
        rw [hrest]
        exact ⟨[], after, rfl, hall⟩
    next helement =>
      obtain ⟨hafter, hcontent⟩ :=
        after_nil_of_fits hmatched.1 (Bool.not_eq_true _ ▸ helement) hblank.1
      rw [hafter] at hroot hblank
      obtain ⟨before, after, hrest, hall⟩ := ih (hafter ▸ hmatched.2) hroot hblank.2
      rw [kept, hafter, hrest]
      cases hfirst : first.isContent with
      | false => exact ⟨before, after, rfl, hall⟩
      | true =>
        rw [hcontent hfirst]
        exact ⟨first :: before, after, rfl, List.forall_mem_cons.2 ⟨hcontent hfirst, hall⟩⟩

end MailMerge.Xml
