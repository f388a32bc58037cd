import MailMerge.Part
import MailMerge.Proofs.Argument.Legible
import MailMerge.Proofs.Argument.Listed
import MailMerge.Proofs.Block.Span
import MailMerge.Proofs.Field.Instruction
import MailMerge.Proofs.Merge
import MailMerge.Proofs.Statement.Scanner

/-!
# Parts with a called block

A part whose two fields are a call with literal arguments and its end hands the values of the
literals to the callable, once, and puts what it answers in the place of the block. Main statement:
`Session.render_call` says this of legible arguments, and of all others that no callable is asked
for anything.
-/

namespace MailMerge

open Xml

namespace Field

/-- The fields at and below a node, in document order, also those without a directive. -/
def begun (d : Document) (x : NodeId) : List Field :=
  (d.tree x).nodes.filterMap fun (y, node) => ofNode? d y node

theorem discover_eq_filter_begun (d : Document) (x : NodeId) :
    discover d x = (begun d x).filter isValid := by
  rw [discover, begun, List.filter_filterMap]

end Field

namespace Opening

variable {path : Template.Word} {opening : Opening}

theorem ofText_endCall (path : Template.Word) :
    Directive.ofText (path.text ++ ":endCall") = .other := by
  have hs : (path.text ++ ":endCall").toList = path.text.toList ++ ':' :: "endCall".toList := by
    simp
  exact Template.ofText_other path hs (by decide) (by decide) (by decide) (by decide) (by decide)

/-- Only a call of the same path is closed by the end of a call. -/
theorem eq_call_of_endText {path : String} (h : opening.endText = path ++ ":endCall") :
    ∃ arguments?, opening = .call path arguments? := by
  have hchars := congrArg String.toList h
  have hlast := congrArg List.getLast? hchars
  cases opening with
  | call path' arguments? =>
    simp only [endText, String.toList_append, List.append_cancel_right_eq] at hchars
    exact ⟨arguments?, by rw [String.toList_injective hchars]⟩
  | each path' name => simp [endText, List.getLast?_append] at hlast
  | condition path' question? => simp [endText, List.getLast?_append] at hlast
  | comment => simp [endText, List.getLast?_append] at hlast

end Opening

/-! ## The two fields of a call -/

section Markers

variable {f : Template.Word} {literals : List Literal} (hf : ∀ c ∈ f.text.toList, Text.isBlank c = false)

include hf

theorem Field.directive_afterPath {tail : String} {last : Char}
    (hlast : tail.toList.getLast? = some last) (hblank : Text.isBlank last = false)
    (hword : last ∉ "\\*MERGEFORMAT".toList) :
    directive (instructionFor (f.text ++ tail)) =
      if ' ' ∈ tail.toList then "" else f.text ++ tail := by
  obtain ⟨c, cs, hcs⟩ := List.exists_cons_of_ne_nil f.toList_ne_nil
  have hfirst : (f.text ++ tail).toList.head? = some c := by simp [hcs]
  have hlast' : (f.text ++ tail).toList.getLast? = some last := by simp [List.getLast?_append, hlast]
  have hspace : ' ' ∈ (f.text ++ tail).toList ↔ ' ' ∈ tail.toList := by
    rw [String.toList_append, List.mem_append]
    exact ⟨fun h => h.resolve_left fun hin => (f.ne_of_mem hin).1.1 rfl, .inr⟩
  rw [directive_instructionFor hfirst (hf c (by simp [hcs])) hlast' hblank hword]
  simp only [hspace]

theorem Field.directive_endCall :
    directive (instructionFor (f.text ++ ":endCall")) = f.text ++ ":endCall" := by
  rw [directive_afterPath hf (by decide : _ = some 'l') (by decide) (by decide), if_neg (by decide)]

theorem Field.directive_call (arguments : String) :
    directive (instructionFor (Opening.callText f.text arguments)) =
      if ' ' ∈ arguments.toList then "" else Opening.callText f.text arguments := by
  have hcall : Opening.callText f.text arguments = f.text ++ (":call(" ++ arguments ++ ")") := by
    simp [Opening.callText, String.append_assoc]
  have hlast : (":call(" ++ arguments ++ ")").toList.getLast? = some ')' := by
    rw [String.toList_append, List.getLast?_append]
    rfl
  rw [hcall, directive_afterPath hf hlast (by decide) (by decide)]
  simp

end Markers

namespace Statement

variable {d : Document} {fields : List Field} {statements : List Statement}

/-- Fields that display nothing and close no block make no statements. -/
theorem eq_nil_of_ofFields (h : ofFields d fields = .ok statements)
    (hinsertion : ∀ field ∈ fields, ∀ expression,
      Directive.ofText field.expression ≠ .insertion expression)
    (hclosed : ∀ start stop opening, [start, stop].Sublist fields →
      Directive.ofText start.expression = .opening opening → stop.expression ≠ opening.endText) :
    statements = [] := by
  refine List.eq_nil_iff_forall_not_mem.2 fun statement hin => ?_
  cases statement with
  | insertion expression field =>
    obtain ⟨hfield, hdirective⟩ := mem_of_mem_insertion h hin
    exact hinsertion field hfield expression hdirective
  | block opening b =>
    obtain ⟨before, start, inside, stop, after, rfl, hstart, hstop, -⟩ := exists_of_mem_block h hin
    have hpair : [start, stop].Sublist (before ++ start :: (inside ++ stop :: after)) :=
      (((List.singleton_sublist.2 (by simp)).cons_cons start)).trans (List.sublist_append_right _ _)
    exact hclosed start stop opening hpair hstart hstop

end Statement

namespace Session

variable {s : Session} {context : Context} {startPage? : Option Nat}

/-- Does something to the part of a session without a cache. -/
def perform (s : Session) (step : Merge Unit) : EStateM.Result MergeError Session Unit :=
  match step ⟨s.part.document, s.resources, s.numbering⟩ with
  | .ok () w => .ok () (s.after none w)
  | .error e w => .error e (s.after none w)

theorem render_eq_perform (host : Host) (hcache : s.cache? = none) :
    s.render host context startPage? = s.perform (do
      Rendering.renderFields host context (Field.discover s.part.document s.part.document.root)
      Merge.edit (cleanUp s.part.kind startPage?)) := by
  have hfields : s.part.fields none =
      (Field.discover s.part.document s.part.document.root, none) := rfl
  rw [render, hcache, hfields]
  rfl

/-- Where nothing is evaluated, no host is asked. -/
theorem render_eq_of_idle (host host' : Host) (hcache : s.cache? = none)
    (hidle : ∀ statements, Statement.ofFields s.part.document
      (Field.discover s.part.document s.part.document.root) = .ok statements → statements = []) :
    s.render host context startPage? = s.render host' context startPage? := by
  let w : Workspace := ⟨s.part.document, s.resources, s.numbering⟩
  have hrun : ∀ host : Host, Rendering.renderFields host context
      (Field.discover s.part.document s.part.document.root) w =
        match Statement.ofFields s.part.document
          (Field.discover s.part.document s.part.document.root) with
        | .ok _ => .ok () w
        | .error e => .error e w := by
    intro host
    unfold Rendering.renderFields Statement.evaluateFields
    rw [Merge.document_bind, Merge.document_bind]
    cases hfields : Statement.ofFields s.part.document
      (Field.discover s.part.document s.part.document.root) with
    | error e => rfl
    | ok statements =>
      rw [hidle statements hfields]
      rfl
  rw [render_eq_perform host hcache, render_eq_perform host' hcache]
  simp only [perform, bind, EStateM.bind, hrun, w]

end Session

/-- A name without a point is an expression by itself. -/
theorem Expression.parse_eq_name {s : String} (h : ∀ c ∈ s.toList, c ≠ '.') : parse s = name s := by
  have hsplit : s.toList.splitOn '.' = [s.toList] :=
    List.splitOnP_eq_singleton fun c hc => by simpa using h c hc
  rw [parse, hsplit]

/-- Hands the body of a block to a callable, and puts what it answers in the place of the block. -/
def Block.handTo (host : Host) (name : String) (scope : CallScope) (arguments : List Value)
    (b : Block) : Merge Unit := do
  let body := b.body (← Merge.document)
  b.replace (← host.call name scope body arguments)

namespace Statement

variable {d : Document} {start stop : Field} {f : Template.Word} {literals : List Literal}

theorem evaluateBlock_eq_handTo {host : Host} {renderBelow : Renderer} {context : Context}
    {arguments? : Option String} {arguments : List Value} {id : Nat} {path name : String}
    (hcallable : (Expression.parse path).evaluate? context = .ok (some (.callable id name)))
    (harguments : Argument.parse context arguments? = .ok arguments) (b : Block) (w : Workspace) :
    evaluateBlock host renderBelow context (.call path arguments?) b w =
      (b.settle w.document).handTo host name (.ofContext renderBelow context) arguments w := by
  unfold evaluateBlock evaluateCall
  rw [Merge.document_bind]
  dsimp only
  rw [hcallable, Merge.ofExcept_ok_bind]
  dsimp only
  rw [harguments]
  rfl

section Fields

variable (hf : ∀ c ∈ f.text.toList, Text.isBlank c = false)
  (hstart : start.expression = Field.directive
    (Field.instructionFor (Opening.callText f.text (Literal.written literals))))
  (hstop : stop.expression = Field.directive (Field.instructionFor (f.text ++ ":endCall")))

include hf hstart hstop

theorem ofFields_of_legible (hlegible : ∀ l ∈ literals, l.Legible) (d : Document) :
    ofFields d ([start, stop].filter Field.isValid) =
      .ok [block (.call f.text (some (Literal.written literals)))
        (Block.between d start stop)] := by
  have hspace : ' ' ∉ (Literal.written literals).toList := fun hin =>
    Literal.not_infix_written hlegible (w := " ".toList) (by simp [Literal.breaks])
      ((List.singleton_infix_iff _ _).2 hin)
  rw [Field.directive_call hf, if_neg hspace] at hstart
  rw [Field.directive_endCall hf] at hstop
  have hother : Directive.ofText stop.expression = .other := hstop ▸ Opening.ofText_endCall f
  have hvalid : [start, stop].filter Field.isValid = [start, stop] := by
    simp [Field.isValid, hstart, hstop, Opening.callText]
  rw [hvalid]
  refine ofFields_of_finds (hstart ▸ Literal.ofText_call hlegible)
    (Opening.finds_end (fun inner heq => ?_) hstop) (by rw [ofFields])
  rw [hother] at heq
  cases heq

/-- A call whose arguments are not all legible is lost, or what it is read as is not closed. -/
theorem eq_nil_of_illegible (hillegible : ∃ l ∈ literals, ¬l.Legible)
    {statements : List Statement}
    (h : ofFields d ([start, stop].filter Field.isValid) = .ok statements) : statements = [] := by
  rw [Field.directive_call hf] at hstart
  rw [Field.directive_endCall hf] at hstop
  have hother : Directive.ofText stop.expression = .other := hstop ▸ Opening.ofText_endCall f
  have hread := Template.ofText_path f (Opening.toList_callText f.text (Literal.written literals))
  refine eq_nil_of_ofFields h (fun field hfield expression heq => ?_)
    fun first last opening hpair hopening hend => ?_
  · obtain ⟨hmem, hvalid⟩ := List.mem_filter.1 hfield
    simp only [List.mem_cons, List.not_mem_nil, or_false] at hmem
    rcases hmem with rfl | rfl
    · split at hstart
      next => simp [Field.isValid, hstart] at hvalid
      next =>
        rw [hstart, hread] at heq
        split at heq <;> cases heq
    · rw [hother] at heq
      cases heq
  · have hvalid := (List.mem_filter.1 (hpair.subset List.mem_cons_self)).2
    have hwhole := (hpair.trans List.filter_sublist).eq_of_length rfl
    obtain ⟨rfl, rfl⟩ : first = start ∧ last = stop := by simpa using hwhole
    split at hstart
    next => simp [Field.isValid, hstart] at hvalid
    next hspace =>
      obtain ⟨arguments?, rfl⟩ := Opening.eq_call_of_endText (hend.symm.trans hstop)
      rw [hstart, Directive.ofText_eq_opening_iff] at hopening
      exact Literal.ofText?_ne_call hillegible hspace arguments? hopening.2

end Fields

end Statement

namespace Session

variable {s : Session} {context : Context} {startPage? : Option Nat} {f : Template.Word}
  {literals : List Literal} {start stop : Field} {id : Nat} {name : String}

/-- A part with the two fields of a call hands the values of its literal arguments to the callable,
together with what stands between the fields, and puts what it answers in the place of the block. The
callable is asked for nothing if some text among the arguments is not legible. -/
theorem render_call (host : Host) (hcache : s.cache? = none)
    (hf : ∀ c ∈ f.text.toList, Text.isBlank c = false ∧ c ≠ '.')
    (hwritable : ∀ l ∈ literals, l.isWritable = true)
    (hfields : Field.begun s.part.document s.part.document.root = [start, stop])
    (hstart : start.expression = Field.directive
      (Field.instructionFor (Opening.callText f.text (Literal.written literals))))
    (hstop : stop.expression = Field.directive (Field.instructionFor (f.text ++ ":endCall")))
    (hcallable : context.find? f.text = some (.callable id name)) :
    ((∀ l ∈ literals, l.Legible) → s.render host context startPage? = s.perform (do
      ((Block.between s.part.document start stop).settle s.part.document).handTo host name
        (.ofContext (Rendering.renderBelow host (Rendering.depth s.part.document)) context)
        (literals.map Literal.value)
      Merge.edit (cleanUp s.part.kind startPage?))) ∧
    ((∃ l ∈ literals, ¬l.Legible) → ∀ host' : Host,
      s.render host' context startPage? = s.render host context startPage?) := by
  have hblank := fun c hc => (hf c hc).1
  have hdiscover : Field.discover s.part.document s.part.document.root =
      [start, stop].filter Field.isValid := hfields ▸ Field.discover_eq_filter_begun _ _
  refine ⟨fun hlegible => ?_, fun hillegible host' => ?_⟩
  · have hstatements := Statement.ofFields_of_legible hblank hstart hstop hlegible s.part.document
    have hvalue : (Expression.parse f.text).evaluate? context = .ok (some (.callable id name)) := by
      rw [Expression.parse_eq_name fun c hc => (hf c hc).2, Expression.evaluate?, hcallable]
      rfl
    -- The only statement is the call, and the rest of the fields make none.
    have hrun : Rendering.renderFields host context ([start, stop].filter Field.isValid)
        ⟨s.part.document, s.resources, s.numbering⟩ =
          ((Block.between s.part.document start stop).settle s.part.document).handTo host name
            (.ofContext (Rendering.renderBelow host (Rendering.depth s.part.document)) context)
            (literals.map Literal.value) ⟨s.part.document, s.resources, s.numbering⟩ := by
      unfold Rendering.renderFields Statement.evaluateFields
      rw [Merge.document_bind, Merge.document_bind, hstatements]
      rw [Merge.bind_ok (Merge.ofExcept_ok _ _), List.forM_eq_forM, List.forM_cons, List.forM_nil,
        bind_pure_unit]
      exact Statement.evaluateBlock_eq_handTo hvalue (Argument.parse_written context hwritable) _ _
    rw [render_eq_perform host hcache, hdiscover]
    simp only [perform, bind, EStateM.bind, hrun]
  · refine render_eq_of_idle host' host hcache fun statements h => ?_
    rw [hdiscover] at h
    exact Statement.eq_nil_of_illegible hblank hstart hstop hillegible h

end Session

/-! ## A call with four arguments -/

/-- Literals of all kinds, the last one with a comma. -/
def fourLiterals : List Literal := [.integer (-1), .bool true, .null, .string "a,b"]

/-- The name of the callable. -/
def countName : Template.Word where
  text := "count"
  nonempty := by decide
  unparted c hc := by
    have hletters : "count".toList = ['c', 'o', 'u', 'n', 't'] := rfl
    simp only [hletters, List.mem_cons, List.not_mem_nil, or_false] at hc
    rcases hc with rfl | rfl | rfl | rfl | rfl <;> decide

/-- A called block around one paragraph. -/
def countedSession : Session where
  part :=
    { kind := .headerFooter
      document :=
        { rows := [.ofElement 0 "w:body" (.ofElement 1 "w:p"
            (.ofDirective 2 (Opening.callText "count" (Literal.written fourLiterals))) ++
            .ofElement 3 "w:p" .nil ++ .ofElement 4 "w:p" (.ofDirective 5 "count:endCall"))]
          aside := []
          root := 0
          next := 6
          declaration := none }
      source? := none }

/-- A host whose callables answer a paragraph for each argument. -/
def counting : Host where
  call _ _ _ arguments := arguments.mapM fun _ => Merge.create (·.createElement "w:p")

/-- What can be checked of a session after a success. -/
theorem exists_of_check {result : EStateM.Result MergeError Session Unit} {p : Session → Prop}
    [DecidablePred p]
    (h : (match result with | .ok () left => decide (p left) | .error _ _ => false) = true) :
    ∃ left, result = .ok () left ∧ p left := by
  cases result with
  | ok a left => exact ⟨left, rfl, of_decide_eq_true h⟩
  | error e left => cases h

/-- The callable sees all four arguments, and the block becomes as many paragraphs. -/
theorem countedSession_render : ∃ left,
    countedSession.render counting ⟨[("count", .callable 0 "count")]⟩ none = .ok () left ∧
      left.part.document.children 0 = [6, 7, 8, 9] := by
  let d := countedSession.part.document
  have hplain : ∀ c ∈ countName.text.toList, Text.isBlank c = false ∧ c ≠ '.' := by
    intro c hc
    have hletters : countName.text.toList = ['c', 'o', 'u', 'n', 't'] := rfl
    simp only [hletters, List.mem_cons, List.not_mem_nil, or_false] at hc
    rcases hc with rfl | rfl | rfl | rfl | rfl <;> decide
  have hrender := (@Session.render_call countedSession ⟨[("count", .callable 0 "count")]⟩ none
    countName fourLiterals (Field.ofSimple d 2) (Field.ofSimple d 5) 0 "count"
    counting rfl hplain (by decide +kernel) (by decide +kernel) (by decide +kernel)
    (by decide +kernel) rfl).1 (by decide +kernel)
  rw [hrender]
  refine exists_of_check ?_
  decide +kernel

end MailMerge
