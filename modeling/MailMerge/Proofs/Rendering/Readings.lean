import MailMerge.Proofs.Rendering.Bodies

/-!
# What a render reads

A render makes statements of the fields below the root, and again of the fields in each copy of a
body. The places where copies of bodies come to be rendered are told by a relation (`Enters`), on
which alone it depends what statements do with a renderer (`Statement.forM_evaluate_congr`). All
that is read on the way are statements of the template, whatever content the context holds, where no
block begins at or below the nodes at which an earlier insertion takes its content
(`render_reads_template`).
-/

namespace MailMerge

open Xml Xml.Forest Xml.Document Merge

variable {ρ : NodeId → NodeId} {d e : Document} {x y : NodeId} {w w' v : Workspace} {host : Host}
variable {context inner : Context} {rest : List Forest} {r r' : Renderer} {b : Block}
variable {opening : Opening} {statements : List Statement} {reading : List Directive}

/-! ## Copies that come to be rendered -/

/-- What a statement is made of, apart from the nodes by which it is told. -/
def Statement.directive : Statement → Directive
  | insertion expression _ => .insertion expression
  | block opening _ => .opening opening

/-- While statements are evaluated in turn, a copy of a body comes to be rendered: in a context,
below a node and in a state. -/
inductive Enters (host : Host) (r : Renderer) (context : Context) :
    List Statement → Workspace → Context → NodeId → Workspace → Prop where
  /-- For a later statement. -/
  | later {s : Statement} {statements : List Statement} {w w' v : Workspace} {inner : Context}
      {y : NodeId} (done : Statement.evaluate host r context s w = .ok () w')
      (enters : Enters host r context statements w' inner y v) :
    Enters host r context (s :: statements) w inner y v
  /-- For a condition that holds. -/
  | condition {path : String} {question? : Option String} {b : Block} {statements : List Statement}
      {w v : Workspace} {y : NodeId}
      {deciding : Option Value} (decided : Statement.deciding? context path question? = .ok deciding)
      (holds : deciding.any Value.isTruthy = true)
      (copied : Block.copyAll (b.body w.document) w = .ok y v) :
    Enters host r context (.block (.condition path question?) b :: statements) w context y v
  /-- For an item of a list, after copies for earlier items have been rendered. -/
  | item {path name : String} {b : Block} {statements : List Statement} {before after : List Value}
      {item : Value} {rows : List (List NodeId)} {w w' v : Workspace} {y : NodeId}
      (list : (Expression.parse path).evaluate? context = .ok (some (.list (before ++ item :: after))))
      (done : (before.mapM fun item => (b.settle w.document).render r (context.bind name item)) w =
        .ok rows w')
      (copied : Block.copyAll (b.body w.document) w' = .ok y v) :
    Enters host r context (.block (.each path name) b :: statements) w (context.bind name item) y v

/-- Statements are made while what stands below a node is rendered, at this level or further in. -/
inductive Reads (host : Host) : Nat → Context → NodeId → Workspace → List Directive → Prop where
  | here {depth : Nat} {context : Context} {x : NodeId} {w : Workspace}
      {statements : List Statement}
      (made : Statement.ofFields w.document (Field.discover w.document x) = .ok statements) :
    Reads host (depth + 1) context x w (statements.map Statement.directive)
  | further {depth : Nat} {context inner : Context} {x y : NodeId} {w v : Workspace}
      {statements : List Statement} {reading : List Directive}
      (made : Statement.ofFields w.document (Field.discover w.document x) = .ok statements)
      (enters : Enters host (Rendering.renderBelow host depth) context statements w inner y v)
      (reads : Reads host depth inner y v reading) :
    Reads host (depth + 1) context x w reading

/-- Steps are the same from where they start when their first steps are, and the later ones from
where these end. -/
theorem Merge.bind_congr {α β : Type} {m m' : Merge α} {next next' : α → Merge β}
    (h : m w = m' w) (hnext : ∀ a w', m w = .ok a w' → next a w' = next' a w') :
    (m >>= next) w = (m' >>= next') w := by
  cases hm : m w with
  | error e w' => rw [bind_error hm, bind_error (h.symm.trans hm)]
  | ok a w' => rw [bind_ok hm, bind_ok (h.symm.trans hm), hnext a w' hm]

namespace Block

/-- Copies of a body are rendered alike by renderers that do the same with each of them. -/
theorem render_congr {nodes : List NodeId} (hsettled : b.settled? = some nodes)
    (h : ∀ y v, copyAll nodes w = .ok y v → r context y v = r' context y v) :
    b.render r context w = b.render r' context w := by
  have hbody : b.body w.document = nodes := by rw [Block.body, hsettled, Option.getD_some]
  unfold render
  rw [document_bind, document_bind, hbody]
  exact Merge.bind_congr rfl fun y v hcopy => Merge.bind_congr (h y v hcopy) fun _ _ _ => rfl

theorem renderEach_congr {nodes : List NodeId} (hsettled : b.settled? = some nodes) (name : String)
    {items : List Value}
    (h : ∀ before item after rows w' y v, items = before ++ item :: after →
      (before.mapM fun item => b.render r (context.bind name item)) w = .ok rows w' →
        copyAll nodes w' = .ok y v →
          r (context.bind name item) y v = r' (context.bind name item) y v) :
    (items.mapM fun item => b.render r (context.bind name item)) w =
      (items.mapM fun item => b.render r' (context.bind name item)) w := by
  induction items generalizing w with
  | nil => rfl
  | cons item items ih =>
    rw [List.mapM_cons, List.mapM_cons]
    refine Merge.bind_congr ?_ fun row w₁ hrow => Merge.bind_congr (ih ?_) fun _ _ _ => rfl
    · exact render_congr hsettled fun y v hcopy => h [] item items [] w y v rfl rfl hcopy
    · intro before item' after rows w₂ y v hitems hrows hcopy
      refine h (item :: before) item' after (row :: rows) w₂ y v (congrArg _ hitems) ?_ hcopy
      rw [List.mapM_cons, bind_ok hrow, bind_ok hrows, pure_apply]

end Block

namespace Statement

/-- A block depends on a renderer only through the copies of its body that come to be rendered. -/
theorem evaluateBlock_congr (hpassive : context.Passive)
    (h : ∀ inner y v, Enters host r context (.block opening b :: statements) w inner y v →
      r inner y v = r' inner y v) :
    evaluateBlock host r context opening b w = evaluateBlock host r' context opening b w := by
  have hsettled : (b.settle w.document).settled? = some (b.body w.document) := rfl
  obtain ⟨course, hcourse, hrun⟩ := exists_course hpassive opening
  rw [hrun, hrun]
  refine Merge.bind_congr rfl fun _ _ hdocument => ?_
  cases hdocument
  cases hcourse with
  | fail => rfl
  | drop => rfl
  | keep hdeciding hholds =>
    refine Merge.bind_congr ?_ fun _ _ _ => rfl
    exact Block.render_congr hsettled fun y v hcopy => h _ y v (.condition hdeciding hholds hcopy)
  | @loop path name items hlist =>
    refine Merge.bind_congr ?_ fun _ _ _ => rfl
    exact Block.renderEach_congr hsettled name fun before item after rows w' y v hitems hrows hcopy =>
      h _ y v (.item (hitems ▸ hlist) hrows hcopy)

/-- Statements depend on a renderer only through the copies of bodies that come to be rendered. -/
theorem forM_evaluate_congr (hpassive : context.Passive)
    (h : ∀ inner y v, Enters host r context statements w inner y v → r inner y v = r' inner y v) :
    statements.forM (evaluate host r context) w = statements.forM (evaluate host r' context) w := by
  induction statements generalizing w with
  | nil => rfl
  | cons s statements ih =>
    refine Merge.bind_congr ?_ fun _ w' hrun => ih fun inner y v henters =>
      h inner y v (.later hrun henters)
    cases s with
    | insertion expression field => rfl
    | block opening b => exact evaluateBlock_congr hpassive h

end Statement

/-! ## The template -/

/-- What can be read in a template: below a node, and in the bodies, on their own, of blocks of
which copies are rendered. -/
inductive InTemplate : Document → NodeId → List Directive → Prop where
  | here {d : Document} {x : NodeId} {statements : List Statement}
      (made : Statement.ofFields d (Field.discover d x) = .ok statements) :
    InTemplate d x (statements.map Statement.directive)
  | further {d : Document} {x : NodeId} {statements : List Statement} {opening : Opening}
      {b : Block} {reading : List Directive}
      (made : Statement.ofFields d (Field.discover d x) = .ok statements)
      (block : .block opening b ∈ statements) (rendered : opening.isRendered = true)
      (inner : InTemplate (b.excerpt d) 0 reading) : InTemplate d x reading

/-- In a template and in all bodies of which copies are rendered, no block begins at or below the
nodes at which an earlier insertion takes its content. -/
inductive Sealed : Document → NodeId → Prop where
  | intro {d : Document} {x : NodeId}
      (unmixed : ∀ statements, Statement.ofFields d (Field.discover d x) = .ok statements →
        Statement.Unmixed d statements)
      (inner : ∀ statements, Statement.ofFields d (Field.discover d x) = .ok statements →
        ∀ opening b, .block opening b ∈ statements → opening.isRendered = true →
          Sealed (b.excerpt d) 0) : Sealed d x

/-- A template is sealed, with at most `depth` levels of bodies. -/
def sealedWithin : Nat → Document → NodeId → Bool
  | 0, _, _ => false
  | depth + 1, d, x =>
    match Statement.ofFields d (Field.discover d x) with
    | .error _ => true
    | .ok statements =>
      decide (Statement.Unmixed d statements) && statements.all fun
        | .insertion _ _ => true
        | .block opening b => !opening.isRendered || sealedWithin depth (b.excerpt d) 0

theorem Sealed.of_within {depth : Nat} (h : sealedWithin depth d x = true) : Sealed d x := by
  induction depth generalizing d x with
  | zero => cases h
  | succ depth ih =>
    rw [sealedWithin] at h
    refine .intro (fun statements hmade => ?_) fun statements hmade opening b hb hrendered => ih ?_
    · rw [hmade, Bool.and_eq_true, decide_eq_true_iff] at h
      exact h.1
    · rw [hmade, Bool.and_eq_true, List.all_eq_true] at h
      have hinner := h.2 _ hb
      dsimp only at hinner
      rwa [hrendered, Bool.not_true, Bool.false_or] at hinner

section Renaming

theorem Statement.directive_rename (ρ : NodeId → NodeId) (s : Statement) :
    (s.rename ρ).directive = s.directive := by
  cases s <;> rfl

theorem Statement.takers_rename (ρ : NodeId → NodeId) (s : Statement) :
    (s.rename ρ).takers = s.takers.map ρ := by
  cases s with
  | insertion expression field =>
    obtain ⟨shape, instruction, text⟩ := field
    cases shape with
    | simple x => rfl
    | complex first others after => cases after <;> rfl
    | image x => rfl
  | block opening b => rfl

theorem Statement.mem_of_mem_takers (ha : d.Apex x rest)
    (h : ofFields d (Field.discover d x) = .ok statements) {s : Statement} (hs : s ∈ statements)
    (hy : y ∈ s.takers) : y ∈ d.descendants x := by
  cases s with
  | insertion expression field =>
    refine Field.mem_descendants_of_mem_discover ha (mem_of_mem_insertion h hs).1 ?_
    exact field.takers_subset_handles hy
  | block opening b => cases hy

/-- The statements of renamed nodes are the statements with their nodes renamed. -/
theorem Statement.exists_made_of_renamed (h : Renamed ρ d x e)
    (hmade : ofFields e (Field.discover e (ρ x)) = .ok statements) :
    ∃ old, ofFields d (Field.discover d x) = .ok old ∧
      statements = old.map (Statement.rename ρ) := by
  rw [ofFields_discover_rename h] at hmade
  cases hold : ofFields d (Field.discover d x) with
  | error error =>
    rw [hold] at hmade
    cases hmade
  | ok old =>
    rw [hold] at hmade
    cases hmade
    exact ⟨old, rfl, rfl⟩

/-- A block of renamed nodes is one with its nodes renamed, and has the same body on its own. -/
theorem Statement.exists_block_of_renamed (h : Renamed ρ d x e)
    (hmade : ofFields d (Field.discover d x) = .ok statements)
    (hb : .block opening b ∈ statements.map (Statement.rename ρ)) :
    ∃ old, .block opening old ∈ statements ∧ b.excerpt e = old.excerpt d := by
  obtain ⟨rest, ha⟩ := h.alone
  obtain ⟨s, hs, heq⟩ := List.mem_map.1 hb
  cases s with
  | insertion expression field => cases heq
  | block opening' old =>
    cases heq
    obtain ⟨hfirst, hlast⟩ := mem_of_made ha hmade hs
    exact ⟨old, hs, Block.excerpt_rename h hfirst hlast⟩

/-- Whether a template is sealed does not depend on the numbers of its nodes. -/
theorem Sealed.rename (h : Renamed ρ d x e) (hsealed : Sealed d x) : Sealed e (ρ x) := by
  obtain ⟨rest, ha⟩ := h.alone
  cases hsealed with
  | intro unmixed inner =>
    refine .intro (fun statements hmade => ?_) fun statements hmade opening b hb hrendered => ?_
    · obtain ⟨old, hold, rfl⟩ := Statement.exists_made_of_renamed h hmade
      exact Statement.pairwise_out_rename h hold (Statement.takers_rename ρ)
        (fun _ hs _ hy => Statement.mem_of_mem_takers ha hold hs hy) (unmixed old hold)
    · obtain ⟨old, hold, rfl⟩ := Statement.exists_made_of_renamed h hmade
      obtain ⟨b', hb', hsame⟩ := Statement.exists_block_of_renamed h hold hb
      rw [hsame]
      exact inner old hold opening b' hb' hrendered

/-- What can be read does not depend on the numbers of the nodes. -/
theorem InTemplate.of_renamed (h : Renamed ρ d x e) (hread : InTemplate e (ρ x) reading) :
    InTemplate d x reading := by
  cases hread with
  | here made =>
    obtain ⟨old, hold, rfl⟩ := Statement.exists_made_of_renamed h made
    rw [List.map_map]
    have hsame : Statement.directive ∘ Statement.rename ρ = Statement.directive :=
      funext (Statement.directive_rename ρ)
    rw [hsame]
    exact .here hold
  | further made block rendered inner =>
    obtain ⟨old, hold, rfl⟩ := Statement.exists_made_of_renamed h made
    obtain ⟨b', hb', hsame⟩ := Statement.exists_block_of_renamed h hold block
    exact .further hold hb' rendered (hsame ▸ inner)

end Renaming

/-! ## Copies of bodies -/

/-- A container that stands alone with the markup of a body as it is in the template, or with
nothing. -/
structure Block.CopiedTo (d : Document) (b : Block) (e : Document) (y : NodeId) : Prop where
  apex : ∃ rest, e.Apex y rest
  framed : (e.tree y).framed = true
  markup : (e.tree y).bare = (single 0 (.element ⟨containerName, []⟩) .nil).bare ∨
    (e.tree y).bare = ((b.excerpt d).tree 0).bare

namespace Statement

variable {m m' : NodeId} {turns : List Turn}

/-- When the turn of a block has come, copies have the markup of its body in the template, or none
if that has been taken out. -/
theorem Schedule.copiedTo (hs : Schedule d x (⟨m, m', .block opening b⟩ :: turns))
    (ha : d.Apex x rest) (hframed : Field.Framed d x)
    (h : Steady (Opens (⟨m, m', .block opening b⟩ :: turns)) d w.document)
    (hspares : w.document.Spares w.document.allRows w'.document)
    (hcopy : Block.copyAll (b.body w.document) w' = .ok y v) : b.CopiedTo d v.document y := by
  have hspan : b.body w.document = b.span w.document :=
    (hs.spans _ List.mem_cons_self).foundAt.body_eq w.document
  have hmem : ∀ z ∈ b.span w.document, z ∈ w.document.ids := fun _ hz => b.span_subset_ids _ hz
  rw [hspan] at hcopy
  obtain ⟨c, copied, e, hcopied, hbare, hholds⟩ :=
    Block.copyAll_apply hspares.apart.distinct fun z hz => hspares.ids (hmem z hz)
  rw [hcopied] at hcopy
  cases hcopy
  rw [hspares.apart.map_tree_eq h.distinct.apart hmem] at hbare
  have htree : (e.tree y).bare =
      (single 0 (.element ⟨Block.containerName, []⟩) (b.content w.document)).bare := by
    rw [hholds.tree_self, bare_single, bare_single, hbare, Block.content]
  rcases b.content_of_whole h.toWhole ha.distinct ⟨_, List.mem_cons_self, rfl⟩ with hnone | hsame
  · rw [hnone] at htree
    exact ⟨⟨_, hholds.apex⟩, (framed_of_bare htree).trans rfl, .inl htree⟩
  · rw [hsame] at htree
    refine ⟨⟨_, hholds.apex⟩, ?_, .inr ?_⟩
    · have hcontainer : admits (.element ⟨Block.containerName, []⟩) (b.content d) = true := by
        rw [admits, Bool.or_eq_true]
        exact .inr rfl
      have hbody : (b.content d).framed = true :=
        (span_fits (waits_self ha hs.queue) hs.queue ha hframed).framed
      rw [framed_of_bare htree, single, framed, hcontainer, hbody]
      rfl
    · rw [htree, Block.tree_excerpt, bare_single, bare_single, bare_relabel]

/-- Copies that come to be rendered are made of bodies in the template. -/
theorem copiedTo_of_enters (hapart : Block.RendersApart r) (hpassive : context.Passive)
    (hs : Schedule d x turns) (ha : d.Apex x rest) (hframed : Field.Framed d x)
    (h : Steady (Opens turns) d w.document)
    (hunmixed : Unmixed d (turns.map Turn.statement))
    (henters : Enters host r context (turns.map Turn.statement) w inner y v) :
    inner.Passive ∧ ∃ opening b, .block opening b ∈ turns.map Turn.statement ∧
      opening.isRendered = true ∧ b.CopiedTo d v.document y := by
  induction turns generalizing w with
  | nil => cases henters
  | cons turn turns ih =>
    obtain ⟨m, m', statement⟩ := turn
    cases henters with
    | later done enters =>
      have hlater : Steady (Opens turns) d _ :=
        (evaluate_steadies hapart hpassive h hs ha hframed hunmixed).of_ok done
      obtain ⟨hinner, opening, b, hb, hcopied⟩ :=
        ih hs.tail hlater (List.pairwise_cons.1 hunmixed).2 enters
      exact ⟨hinner, opening, b, List.mem_cons_of_mem _ hb, hcopied⟩
    | condition decided holds copied =>
      refine ⟨hpassive, _, _, List.mem_cons_self, rfl, ?_⟩
      exact hs.copiedTo ha hframed h (.refl h.distinct.apart) copied
    | @item path name b _ before after item rows _ w' _ _ list done copied =>
      have hbody := (hs.spans _ List.mem_cons_self).foundAt.body_eq w.document
      have hitems := (Expression.passive_of_evaluate? hpassive list).items
      have hrows := Block.renderEach_spares hapart hpassive h.distinct.apart
        (b := b.settle w.document) rfl (fun z hz => b.span_subset_ids _ (hbody ▸ hz)) name
        fun item hitem => hitems item (List.mem_append_left _ hitem)
      refine ⟨hpassive.bind name (hitems item (by simp)), _, b, List.mem_cons_self, rfl, ?_⟩
      exact hs.copiedTo ha hframed h (Leaves.of_ok hrows done).1 copied

end Statement

/-! ## All that is read -/

/-- Where there is nothing, nothing is read. -/
theorem Reads.eq_nil {depth : Nat} (h : Reads host depth context x w reading)
    (ha : w.document.Apex x rest)
    (hmarkup : (w.document.tree x).bare =
      (single 0 (.element ⟨Block.containerName, []⟩) .nil).bare) : reading = [] := by
  have hnone := Block.discover_of_empty ha hmarkup
  cases h with
  | here made =>
    rw [hnone, Statement.ofFields] at made
    cases made
    rfl
  | further made enters reads =>
    rw [hnone, Statement.ofFields] at made
    cases made
    cases enters

/-- Below a node that stands alone, all that is read is in the template. -/
theorem Reads.inTemplate {depth : Nat} (h : Reads host depth context x w reading)
    (hpassive : context.Passive) (ha : w.document.Apex x rest)
    (hframed : (w.document.tree x).framed = true) (hsealed : Sealed w.document x) :
    reading = [] ∨ InTemplate w.document x reading := by
  induction h generalizing rest with
  | here made => exact .inr (.here made)
  | @further depth context inner x y w v statements reading made enters reads ih =>
    cases hsealed with
    | intro unmixed inner' =>
      obtain ⟨turns, rfl, hschedule⟩ := Statement.exists_schedule ha.distinct made
      obtain ⟨hinner, opening, b, hb, hrendered, hcopied⟩ := Statement.copiedTo_of_enters
        (Rendering.renderBelow_spares host depth) hpassive hschedule ha
        (Field.framed_of_tree ha hframed) (.refl ha.distinct) (unmixed _ made) enters
      obtain ⟨rest', hapex⟩ := hcopied.apex
      rcases hcopied.markup with hnone | hsame
      · exact .inl (reads.eq_nil hapex hnone)
      · obtain ⟨ρ, rfl, hrenamed⟩ := (b.excerpt_apex w.document).exists_renamed hapex hsame.symm
        have hbody := inner' _ made opening b hb hrendered
        refine (ih hinner hapex hcopied.framed (hbody.rename hrenamed)).imp_right fun hread => ?_
        exact .further made hb hrendered (hread.of_renamed hrenamed)

/-- Each sequence of statements that a render makes is one that the template makes, at its root or in
a body, or is empty where the body has been taken out: there is never a field in it that some content
has brought in. Which of them are made can depend on the content. This holds for all content that a
context without callables can hold, if no block of the template begins at or below the nodes at which
an earlier insertion takes its content. -/
theorem render_reads_template (host : Host) {kind : PartKind} {text : String} {part : Part}
    (hpart : Part.parse kind text = .ok part)
    (hframed : (part.document.tree part.document.root).framed = true)
    (hsealed : Sealed part.document part.document.root) (hpassive : context.Passive)
    (resources : Resources) (numbering : Numbering) {depth : Nat}
    (h : Reads host depth context part.document.root ⟨part.document, resources, numbering⟩
      reading) :
    reading = [] ∨ InTemplate part.document part.document.root reading :=
  h.inTemplate hpassive (Part.proper_of_parse hpart).2 hframed hsealed

/-- A condition around an insertion. -/
def guardedInsertionText : String :=
  "<p><w:fldSimple w:instr=\" MERGEFIELD b:if \\* MERGEFORMAT \"/>" ++
    "<w:fldSimple w:instr=\" MERGEFIELD =x \\* MERGEFORMAT \"/>" ++
    "<w:fldSimple w:instr=\" MERGEFIELD b:endIf \\* MERGEFORMAT \"/></p>"

/-- What is read from `guardedInsertionText`. -/
def guardedInsertion : Document where
  rows := [.ofElement 0 "p" (.ofDirective 1 "b:if" ++ .ofDirective 2 "=x" ++
    .ofDirective 3 "b:endIf")]
  aside := []
  root := 0
  next := 4
  declaration := none

set_option maxRecDepth 4000 in
theorem parse_guardedInsertionText :
    Part.parse .headerFooter guardedInsertionText =
      .ok ⟨.headerFooter, guardedInsertion, some guardedInsertionText⟩ := by rfl

/-- Data with markup in which there is a field. -/
def markupContext : Context :=
  ⟨[("b", .bool true), ("secret", .string "leak"),
    ("x", .content (.inlineWordMl
      "<w:fldSimple w:instr=\" MERGEFIELD =secret \\* MERGEFORMAT \"/>" true))]⟩

/-- The block in `guardedInsertion`. -/
def guardedBlock : Block where
  kind := .inline
  start := ⟨.simple 1, " MERGEFIELD b:if \\* MERGEFORMAT ", "b:if"⟩
  stop := ⟨.simple 3, " MERGEFIELD b:endIf \\* MERGEFORMAT ", "b:endIf"⟩
  first := 1
  last := 3

/-- `guardedInsertion` with a copy of the body. -/
def guardedCopy : Document :=
  { guardedInsertion with
    rows := .ofElement 4 "tmp" (.ofDirective 5 "=x") :: guardedInsertion.rows
    next := 6 }

theorem guardedInsertion_reads :
    Reads {} 2 markupContext guardedInsertion.root ⟨guardedInsertion, [], {}⟩
        [Directive.insertion (.name "x")] ∧
      ([Directive.insertion (.name "x")] = [] ∨
        InTemplate guardedInsertion guardedInsertion.root [.insertion (.name "x")]) := by
  have hmade : Statement.ofFields guardedInsertion (Field.discover guardedInsertion 0) =
      .ok [.block (.condition "b" none) guardedBlock] := by decide +kernel
  have hcopied : Block.copyAll [2] ⟨guardedInsertion, [], {}⟩ =
      .ok 4 ⟨guardedCopy, [], {}⟩ := by rfl
  have hinner : Statement.ofFields guardedCopy (Field.discover guardedCopy 4) =
      .ok [.insertion (.name "x") ⟨.simple 5, " MERGEFIELD =x \\* MERGEFORMAT ", "=x"⟩] := by
    decide +kernel
  have hbody : Reads {} 1 markupContext 4 ⟨guardedCopy, [], {}⟩
      (List.map Statement.directive _) := .here hinner
  have hreads : Reads {} 2 markupContext guardedInsertion.root ⟨guardedInsertion, [], {}⟩
      [.insertion (.name "x")] :=
    .further hmade (.condition rfl rfl hcopied) hbody
  have hsealed : sealedWithin 2 guardedInsertion guardedInsertion.root = true := by decide +kernel
  have hpassive : markupContext.Passive := by
    intro entry hentry
    rcases List.mem_cons.1 hentry with rfl | hentry
    · exact .bool true
    rcases List.mem_cons.1 hentry with rfl | hentry
    · exact .string "leak"
    · cases List.mem_singleton.1 hentry
      exact .content _
  exact ⟨hreads, render_reads_template {} parse_guardedInsertionText (by decide)
    (.of_within hsealed) hpassive [] {} hreads⟩

end MailMerge
