import MailMerge.Proofs.Rendering.Intact

/-!
# Blocks that are never left open

Where the fields of a template match at every level, no data can bring a render to a block that no
field closes. The body of a block whose turn has come is the one in the template, so that its copies
have the same markup and match at every level as well (`Block.render_returns`). A render goes
through the levels by induction (`Rendering.renderBelow_matched`). Main statement:
`render_matched`.
-/

namespace MailMerge

open Xml Xml.Forest Xml.Document

variable {d e : Document} {x m m' : NodeId} {w : Workspace} {host : Host} {context : Context}
variable {rest : List Forest} {r : Renderer} {b : Block} {nodes : List NodeId} {opening : Opening}

/-! ## Copies of bodies -/

/-- The failure is not that of a block that no field closes. -/
def MergeError.AllClosed (e : MergeError) : Prop :=
  ∀ start expectedEnd, e ≠ .unmatchedBlock start expectedEnd

/-- Below nodes that stand alone and whose fields match at every level, a renderer does not fail
because of a block that no field closes. -/
def RendersMatched (r : Renderer) : Prop :=
  ∀ ⦃context : Context⦄ ⦃w : Workspace⦄ ⦃x : NodeId⦄ ⦃rest : List Forest⦄,
    context.Plain → w.document.Apex x rest → (w.document.tree x).framed = true →
      Matched w.document x → (r context x).Returns w MergeError.AllClosed fun _ _ => True

namespace Block

/-- Copies of nodes in a container match at every level. -/
def CopiesMatch (d : Document) (nodes : List NodeId) : Prop :=
  ∀ ⦃e : Document⦄ ⦃c : NodeId⦄ ⦃rest : List Forest⦄, e.Apex c rest →
    (e.tree c).bare =
        (single 0 (.element ⟨containerName, []⟩) (join (nodes.map d.tree))).bare → Matched e c

theorem copiesMatch_of_nil (h : join (nodes.map d.tree) = .nil) : CopiesMatch d nodes := by
  intro e c rest hc hbare
  have hfields := discover_of_empty hc (h ▸ hbare)
  refine .intro (by rw [hfields, Statement.ofFields]) List.Pairwise.nil fun opening b hb => ?_
  cases hb

/-- Copies match at every level when the body that they are made from does so on its own. -/
theorem copiesMatch_of_excerpt (h : Matched (b.excerpt d) 0)
    (hsame : join (nodes.map e.tree) = b.content d) : CopiesMatch e nodes := by
  intro d' c rest hc hbare
  have hexcerpt : ((b.excerpt d).tree 0).bare = (d'.tree c).bare := by
    rw [hbare, hsame, tree_excerpt, bare_single, bare_single, bare_relabel]
  obtain ⟨ρ, rfl, hrenamed⟩ := (b.excerpt_apex d).exists_renamed hc hexcerpt
  exact h.rename hrenamed

theorem copyAll_returns {n : Nat} {fails : MergeError → Prop} (hd : w.document.Distinct)
    (hbody : w.document.Fits n nodes) (hmatch : CopiesMatch w.document nodes) :
    (copyAll nodes).Returns w fails fun c d =>
      d.Apex c w.document.allRows ∧ (d.tree c).framed = true ∧ Matched d c := by
  obtain ⟨c, copied, w₁, hcopy, hbare, hholds⟩ := copyAll_apply hd hbody.mem
  refine Merge.returns_ok hcopy
    ⟨hholds.apex, ((copyAll_ends hd hbody).of_ok hcopy).2.1, hmatch hholds.apex ?_⟩
  rw [hholds.tree_self, bare_single, bare_single, hbare]

theorem CopiesMatch.later (h : CopiesMatch d nodes) (hd : d.Distinct)
    (hmem : ∀ y ∈ nodes, y ∈ d.ids) (hspares : d.Spares d.allRows e) : CopiesMatch e nodes := by
  have hsame := hspares.apart.map_tree_eq hd.apart hmem
  unfold CopiesMatch
  rw [hsame]
  exact h

theorem render_returns {n : Nat} (hrenders : RendersMatched r) (hapart : RendersApart r)
    (hplain : context.Plain) (hd : d.Distinct) (hspares : d.Spares d.allRows w.document)
    (hsettled : b.settled? = some nodes) (hbody : d.Fits n nodes) (hmatch : CopiesMatch d nodes) :
    (b.render r context).Returns w MergeError.AllClosed (Rendered d) := by
  have hsame : b.body w.document = nodes := by
    rw [Block.body, hsettled]
    rfl
  have hfits := hbody.later hd hspares
  have hrun : (b.render r context).Returns w MergeError.AllClosed fun _ _ => True := by
    unfold render
    refine Merge.returns_document ?_
    rw [hsame]
    refine (copyAll_returns hspares.apart.distinct hfits
      (hmatch.later hd hbody.mem hspares)).bind fun c w₁ hc _ => ?_
    obtain ⟨hapex, hframed, hmatched⟩ := hc
    refine (hrenders hplain hapex hframed hmatched).bind fun _ w₂ _ _ => ?_
    exact Merge.returns_document (Merge.returns_ok rfl trivial)
  have hleaves := render_spares hapart hplain.passive hspares.apart (hsame.symm ▸ hfits.mem)
  exact (hrun.and_leaves hleaves).imp fun copied e h => ⟨hspares.trans h.2.1, h.2.2⟩

theorem renderEach_returns {n : Nat} (hrenders : RendersMatched r) (hapart : RendersApart r)
    (hplain : context.Plain) (hd : w.document.Distinct) (hsettled : b.settled? = some nodes)
    (hbody : w.document.Fits n nodes) (hmatch : CopiesMatch w.document nodes) (name : String)
    {items : List Value} (hitems : ∀ item ∈ items, item.Plain) :
    (items.mapM fun item => b.render r (context.bind name item)).Returns w MergeError.AllClosed
      fun rows e => Rendered w.document rows.flatten e := by
  have hrun : (items.mapM fun item => b.render r (context.bind name item)).Returns w
      MergeError.AllClosed fun _ e => w.document.Spares w.document.allRows e := by
    refine Merge.returns_mapM (.refl hd.apart) fun item hitem w' hspares => ?_
    have hplain' := hplain.bind name (hitems item hitem)
    exact (render_returns hrenders hapart hplain' hd hspares hsettled hbody hmatch).imp
      fun _ _ h => h.1
  have hleaves := renderEach_spares hapart hplain.passive hd.apart hsettled hbody.mem name
    fun item hitem => (hitems item hitem).passive
  exact (hrun.and_leaves hleaves).imp fun rows e h => ⟨h.1, h.2.2⟩

end Block

/-! ## Statements in turn -/

namespace Statement

variable {turns : List Turn}

/-- A block leaves waiting statements what they rely on, and no block in the copies of its body is
left open. -/
theorem evaluateBlock_intact (hrenders : RendersMatched r) (hapart : Block.RendersApart r)
    (hplain : context.Plain) (h : Intact d x (⟨m, m', .block opening b⟩ :: turns) w.document)
    (hs : Schedule d x (⟨m, m', .block opening b⟩ :: turns)) (ha : d.Apex x rest)
    (hframed : Field.Framed d x)
    (hmatched : opening.isRendered = true → Matched (b.excerpt d) 0) :
    (evaluateBlock host r context opening b).Returns w MergeError.AllClosed
      fun _ => Intact d x turns := by
  have hd := h.waits.kept.distinct
  have hmisplaced : MergeError.AllClosed .misplacedNode := fun _ _ => nofun
  have hrefl : w.document.Spares w.document.allRows w.document := .refl hd.apart
  have hbody : b.body w.document = b.span w.document :=
    (hs.spans _ List.mem_cons_self).foundAt.body_eq w.document
  have hfits := span_fits h.waits hs.queue ha hframed
  have hcopies : opening.isRendered = true →
      Block.CopiesMatch w.document (b.span w.document) := by
    intro hrendered
    rcases h.content ha.distinct with hnone | hsame
    · exact Block.copiesMatch_of_nil hnone
    · exact Block.copiesMatch_of_excerpt (hmatched hrendered) hsame
  have hnothing : ((b.settle w.document).replace []).Returns w MergeError.AllClosed
      fun _ => Intact d x turns :=
    replace_intact hmisplaced h hs ha hframed ⟨hrefl, by simp⟩
  have hsettled : (b.settle w.document).settled? = some (b.span w.document) := congrArg some hbody
  obtain ⟨course, hcourse, hrun⟩ := exists_course hplain.passive opening
  rw [hrun]
  refine Merge.returns_document ?_
  cases hcourse with
  | fail habout =>
    refine Merge.returns_error rfl fun start expectedEnd => ?_
    rintro rfl
    cases habout
  | drop => exact hnothing
  | keep =>
    have hcopy := Block.render_returns hrenders hapart hplain hd hrefl hsettled hfits (hcopies rfl)
    exact hcopy.bind fun copied w₁ hrendered _ =>
      replace_intact hmisplaced h hs ha hframed hrendered
  | @loop path name items hlist =>
    have hitems := (Expression.plain_of_evaluate? hplain hlist).items
    have hrows := Block.renderEach_returns hrenders hapart hplain hd hsettled hfits (hcopies rfl)
      name hitems
    exact hrows.bind fun rows w₁ hrendered _ =>
      replace_intact hmisplaced h hs ha hframed hrendered

/-- No block is left open where statements are evaluated in turn. -/
theorem evaluate_returns (hrenders : RendersMatched r) (hapart : Block.RendersApart r)
    (hplain : context.Plain) (ha : d.Apex x rest) (hframed : Field.Framed d x)
    (hs : Schedule d x turns) (h : Intact d x turns w.document)
    (hclear : Clear d (turns.map Turn.statement))
    (hmatched : ∀ opening b, .block opening b ∈ turns.map Turn.statement →
      opening.isRendered = true → Matched (b.excerpt d) 0) :
    ((turns.map Turn.statement).forM (evaluate host r context)).Returns w MergeError.AllClosed
      fun _ _ => True := by
  induction turns generalizing w with
  | nil => exact Merge.returns_ok rfl trivial
  | cons turn turns ih =>
    obtain ⟨m, m', statement⟩ := turn
    obtain ⟨hfirst, hlater⟩ := List.pairwise_cons.1 hclear
    have hstep : (evaluate host r context statement).Returns w MergeError.AllClosed
        fun _ => Intact d x turns := by
      cases statement with
      | insertion expression field =>
        refine evaluateInsertion_intact hplain (fun _ _ => nofun) (fun _ _ => nofun)
          (fun _ _ _ => nofun) h hs ha hframed fun y hy f hf => ?_
        obtain ⟨turn, hturn, hopens⟩ := hf
        exact hfirst turn.statement (List.mem_map_of_mem hturn) y hy f hopens
      | block opening b =>
        exact evaluateBlock_intact hrenders hapart hplain h hs ha hframed
          (hmatched opening b List.mem_cons_self)
    exact hstep.bind fun _ w₁ hintact _ => ih hs.tail hintact hlater fun opening b hb =>
      hmatched opening b (List.mem_cons_of_mem _ hb)

/-- No block is left open below a node whose fields match at every level. -/
theorem evaluateFields_returns (host : Host) (hrenders : RendersMatched r)
    (hapart : Block.RendersApart r) (hplain : context.Plain) (ha : w.document.Apex x rest)
    (hframed : (w.document.tree x).framed = true) (hmatched : Matched w.document x) :
    (evaluateFields host r context (Field.discover w.document x)).Returns w MergeError.AllClosed
      fun _ _ => True := by
  cases hmatched with
  | intro made clear inner =>
    obtain ⟨turns, rfl, hschedule⟩ := exists_schedule ha.distinct made
    unfold evaluateFields
    refine Merge.returns_document ?_
    rw [made]
    exact evaluate_returns hrenders hapart hplain ha (Field.framed_of_tree ha hframed) hschedule
      (intact_self ha hschedule) clear inner

end Statement

/-! ## Whole renders -/

namespace Rendering

/-- However deep blocks are nested, none is left open where fields match at every level. -/
theorem renderBelow_matched (host : Host) (depth : Nat) :
    RendersMatched (renderBelow host depth) := by
  induction depth with
  | zero => exact fun _ _ _ _ _ _ _ _ => Merge.returns_error rfl fun _ _ => nofun
  | succ depth ih =>
    intro context w x rest hplain ha hframed hmatched
    unfold renderBelow
    exact Merge.returns_document (Statement.evaluateFields_returns host ih
      (renderBelow_spares host depth) hplain ha hframed hmatched)

end Rendering

/-- A part whose fields match at every level, so that the fields in the body of each block match
when they are taken on their own, is never found to have an unmatched block: not in any context of
JSON data, neither at the top nor in a copy of a body at any depth. -/
theorem render_matched (host : Host) {kind : PartKind} {text : String} {part : Part} {data : Json}
    {context : Context} (hpart : Part.parse kind text = .ok part)
    (hframed : (part.document.tree part.document.root).framed = true)
    (hmatched : Matched part.document part.document.root)
    (hcontext : Context.ofJson data = .ok context) (startPage? : Option Nat) (resources : Resources)
    (numbering : Numbering) (start expectedEnd : String) (left : Session) :
    Session.render host context startPage? { part, resources, numbering } ≠
      .error (.unmatchedBlock start expectedEnd) left := by
  intro hleft
  obtain ⟨w', hw'⟩ := Session.exists_of_render_error hleft
  have ha := (Part.proper_of_parse hpart).2
  obtain ⟨depth, -, hdepth⟩ := Rendering.exists_depth host context
    (Field.discover part.document part.document.root) ⟨part.document, resources, numbering⟩
  have hrun := Statement.evaluateFields_returns host
    (w := ⟨part.document, resources, numbering⟩) (Rendering.renderBelow_matched host depth)
    (Rendering.renderBelow_spares host depth) (Context.plain_ofJson hcontext) ha hframed hmatched
  exact hrun.of_error (hdepth.symm.trans hw') start expectedEnd rfl

/-- A condition within another one. -/
def nestedConditionsText : String :=
  "<p><w:fldSimple w:instr=\" MERGEFIELD x:if \\* MERGEFORMAT \"/>" ++
    "<w:fldSimple w:instr=\" MERGEFIELD y:if \\* MERGEFORMAT \"/>" ++
    "<w:fldSimple w:instr=\" MERGEFIELD y:endIf \\* MERGEFORMAT \"/>" ++
    "<w:fldSimple w:instr=\" MERGEFIELD x:endIf \\* MERGEFORMAT \"/></p>"

/-- What is read from `nestedConditionsText`. -/
def nestedConditions : Document where
  rows := [.ofElement 0 "p" (.ofDirective 1 "x:if" ++ .ofDirective 2 "y:if" ++
    .ofDirective 3 "y:endIf" ++ .ofDirective 4 "x:endIf")]
  aside := []
  root := 0
  next := 5
  declaration := none

set_option maxRecDepth 4000 in
theorem parse_nestedConditionsText :
    Part.parse .headerFooter nestedConditionsText =
      .ok ⟨.headerFooter, nestedConditions, some nestedConditionsText⟩ := by rfl

theorem nestedConditions_matched :
    matchesWithin 3 nestedConditions nestedConditions.root = true ∧
    ∀ start expectedEnd left,
      Session.render {} ⟨[("x", .bool true), ("y", .bool true)]⟩ none
        { part := ⟨.headerFooter, nestedConditions, some nestedConditionsText⟩ } ≠
          .error (.unmatchedBlock start expectedEnd) left := by
  have hwithin : matchesWithin 3 nestedConditions nestedConditions.root = true := by
    decide +kernel
  refine ⟨hwithin, ?_⟩
  exact render_matched {} parse_nestedConditionsText (by decide) (Matched.of_within hwithin)
    (rfl : Context.ofJson (.object [("x", .bool true), ("y", .bool true)]) = _) none [] {}

end MailMerge
