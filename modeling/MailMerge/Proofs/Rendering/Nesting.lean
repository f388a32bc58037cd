import MailMerge.Proofs.Rendering.Session
import MailMerge.Proofs.Rendering.Turns
import MailMerge.Proofs.Statement.Scanner

/-!
# How deep blocks are nested

The copies of a body have fewer markers than what the block stands in, whatever the statements before
it have done to the document. So blocks are not nested deeper than there are markers, when begin
markers only stand right below elements that are not simple fields.
-/

namespace MailMerge

open Xml Xml.Forest Xml.Document

variable {d e : Document} {x m : NodeId} {w : Workspace} {host : Host} {context : Context}
variable {pending : List (NodeId × Statement)} {rest : List Forest} {n : Nat} {r r' : Renderer}
variable {b : Block} {nodes : List NodeId} {opening : Opening}

/-- Two renderers do the same, and come to an end, below each node that stands alone with fewer than
a number of markers, in every context of data. -/
def AgreeBelow (n : Nat) (r r' : Renderer) : Prop :=
  ∀ ⦃context : Context⦄ ⦃w : Workspace⦄ ⦃x : NodeId⦄ ⦃rest : List Forest⦄,
    context.Plain → w.document.Apex x rest → (w.document.tree x).framed = true →
      (w.document.tree x).markers < n → (r context x).Agrees (r' context x) w fun _ _ => True

namespace Xml.Document

/-- Nodes whose trees one after the other have fewer markers than a number. -/
structure Fits (d : Document) (n : Nat) (nodes : List NodeId) : Prop where
  mem : ∀ y ∈ nodes, y ∈ d.ids
  framed : (join (nodes.map d.tree)).framed = true
  lt : (join (nodes.map d.tree)).markers < n

theorem Fits.later (h : d.Fits n nodes) (hd : d.Distinct) (hspares : d.Spares d.allRows e) :
    e.Fits n nodes := by
  have hsame := hspares.apart.map_tree_eq hd.apart h.mem
  exact ⟨fun y hy => hspares.ids (h.mem y hy), hsame ▸ h.framed, hsame ▸ h.lt⟩

/-- Where all rows have been spared, only new nodes have come. -/
theorem Spares.fresh (h : d.Spares d.allRows e) (hd : d.Distinct) {old : List NodeId}
    (hold : old ⊆ d.ids) : Gains old (Fresh old) d e :=
  h.gains hd.apart hold fun _ hy _ hn => hn.1 hy

end Xml.Document

namespace Block

/-- What has become of copies of a body: new nodes, apart from all rows. -/
def Rendered (d : Document) (nodes : List NodeId) (e : Document) : Prop :=
  d.Spares d.allRows e ∧ ∀ y ∈ nodes, e.Free d.allRows y

/-- A container with copies of a body has no more markers than the body. -/
theorem copyAll_ends (hd : w.document.Distinct) (hbody : w.document.Fits n nodes) :
    (copyAll nodes).Ends w fun c d =>
      d.Apex c w.document.allRows ∧ (d.tree c).framed = true ∧ (d.tree c).markers < n := by
  obtain ⟨c, copied, w₁, hcopy, hbare, hholds⟩ := copyAll_apply hd hbody.mem
  have hcontainer : admits (.element ⟨containerName, []⟩) copied = true := by
    rw [admits, Bool.or_eq_true]
    exact .inr rfl
  refine Merge.ends_ok hcopy ⟨hholds.apex, ?_, ?_⟩
  · rw [hholds.tree_self, single, framed, hcontainer, framed_of_bare hbare, hbody.framed]
    rfl
  · rw [hholds.tree_self, single, markers_cons, markers_of_bare hbare]
    have hlt := hbody.lt
    change 0 + (_ + 0) < n
    omega

/-- Renderers that agree render the same copies of a body. -/
theorem render_agrees (hagree : AgreeBelow n r r') (hrenders : RendersApart r)
    (hplain : context.Plain) (hd : d.Distinct) (hspares : d.Spares d.allRows w.document)
    (hsettled : b.settled? = some nodes) (hbody : d.Fits n nodes) :
    (b.render r context).Agrees (b.render r' context) w (Rendered d) := by
  have hfits : w.document.Fits n (b.body w.document) := by
    rw [Block.body, hsettled]
    exact hbody.later hd hspares
  have hsame : (b.render r context).Agrees (b.render r' context) w fun _ _ => True := by
    unfold render
    refine Merge.agrees_document ?_
    refine (copyAll_ends hspares.apart.distinct hfits).bind fun c w₁ _ hc => ?_
    obtain ⟨hapex, hframed, hlt⟩ := hc
    refine (hagree hplain hapex hframed hlt).bind fun _ w₂ _ _ => ?_
    exact Merge.agrees_document (Merge.ends_ok rfl trivial)
  have hleaves := render_spares hrenders hplain.passive hspares.apart hfits.mem
  exact (hsame.and_leaves hleaves).imp fun copied e h => ⟨hspares.trans h.2.1, h.2.2⟩

theorem renderEach_agrees (hagree : AgreeBelow n r r') (hrenders : RendersApart r)
    (hplain : context.Plain) (hd : w.document.Distinct) (hsettled : b.settled? = some nodes)
    (hbody : w.document.Fits n nodes) (name : String) {items : List Value}
    (hitems : ∀ item ∈ items, item.Plain) :
    (items.mapM fun item => b.render r (context.bind name item)).Agrees
      (items.mapM fun item => b.render r' (context.bind name item)) w
      fun rows e => Rendered w.document rows.flatten e := by
  have hapart : w.document.Apart w.document.allRows := hd.apart
  have hsame : (items.mapM fun item => b.render r (context.bind name item)).Agrees
      (items.mapM fun item => b.render r' (context.bind name item)) w
      fun _ e => w.document.Spares w.document.allRows e := by
    refine Merge.agrees_mapM (.refl hapart) fun item hitem w' hspares => ?_
    have hplain' := hplain.bind name (hitems item hitem)
    exact (render_agrees hagree hrenders hplain' hd hspares hsettled hbody).imp fun _ _ h => h.1
  have hleaves := renderEach_spares hrenders hplain.passive hapart hsettled hbody.mem name
    fun item hitem => (hitems item hitem).passive
  exact (hsame.and_leaves hleaves).imp fun rows e h => ⟨h.1, h.2.2⟩

end Block

namespace Statement

/-- The body of a block has fewer markers than the template. -/
theorem span_fits (h : Waits d x ((m, .block opening b) :: pending) e)
    (hq : Queue d x ((m, .block opening b) :: pending)) (ha : d.Apex x rest)
    (hframed : Field.Framed d x) : e.Fits (d.tree x).markers (b.span e) := by
  have hquiet := h.quiet _ List.mem_cons_self b.first rfl
  have hshows := h.kept.distinct.shows_following b.first
  have hsub : (b.span e).Sublist (e.following b.first).topIds :=
    (List.takeWhile_sublist _).trans (List.filter_sublist.map Prod.fst)
  refine ⟨fun y hy => ?_, hshows.framed (framed_following hframed h.kept h.markers hquiet) hsub, ?_⟩
  · exact mem_ids_of_mem_following (mem_ids_of_mem_topIds (hsub.subset hy))
  · exact Nat.lt_of_le_of_lt (hshows.markers_le hsub)
      (markers_following_lt ha h.kept (hq.found _ List.mem_cons_self) hquiet)

theorem replace_rendered (h : Waits d x ((m, .block opening b) :: pending) e)
    (hq : Queue d x ((m, .block opening b) :: pending)) (ha : d.Apex x rest)
    (hframed : Field.Framed d x) (hrendered : Block.Rendered e nodes w.document) :
    ((b.settle e).replace nodes).Ends w fun _ => Waits d x pending := by
  have hgains := hrendered.1.fresh h.kept.distinct h.old_subset
  have hwaits := h.bounds hq ha (hgains.bounds h.old_subset)
  refine replace_waits e hwaits hq ha hframed fun y hy hin => ?_
  exact (hrendered.2 y hy).out (h.old_subset hin)

/-- Renderers that agree on bodies evaluate a block to the same, and the later statements can still
rely on what they wait for. -/
theorem evaluateBlock_agrees (hagree : AgreeBelow (d.tree x).markers r r')
    (hrenders : Block.RendersApart r) (hplain : context.Plain)
    (h : Waits d x ((m, .block opening b) :: pending) w.document)
    (hq : Queue d x ((m, .block opening b) :: pending)) (ha : d.Apex x rest)
    (hframed : Field.Framed d x) :
    (evaluateBlock host r context opening b).Agrees (evaluateBlock host r' context opening b) w
      fun _ => Waits d x pending := by
  have hd := h.kept.distinct
  have hrefl : w.document.Spares w.document.allRows w.document := .refl hd.apart
  have hfits : w.document.Fits (d.tree x).markers (b.body w.document) := by
    cases hq.found _ List.mem_cons_self with
    | block => exact span_fits h hq ha hframed
  have hnothing : ((b.settle w.document).replace []).Ends w fun _ => Waits d x pending :=
    replace_rendered h hq ha hframed ⟨hrefl, by simp⟩
  obtain ⟨course, hcourse, hrun⟩ := exists_course hplain.passive opening
  rw [hrun, hrun]
  refine Merge.agrees_document ?_
  cases hcourse with
  | fail habout =>
    refine Merge.ends_error rfl ?_
    rintro rfl
    cases habout
  | drop => exact hnothing
  | keep =>
    have hcopy := Block.render_agrees hagree hrenders hplain hd hrefl (b := b.settle w.document) rfl
      hfits
    exact hcopy.bind fun copied w₁ _ hrendered => replace_rendered h hq ha hframed hrendered
  | @loop path name items hlist =>
    have hitems := (Expression.plain_of_evaluate? hplain hlist).items
    have hrows := Block.renderEach_agrees hagree hrenders hplain hd (b := b.settle w.document) rfl
      hfits name hitems
    exact hrows.bind fun rows w₁ _ hrendered => replace_rendered h hq ha hframed hrendered

/-- Renderers that agree on bodies evaluate statements in turn to the same. -/
theorem evaluate_agrees (hagree : AgreeBelow (d.tree x).markers r r')
    (hrenders : Block.RendersApart r) (hplain : context.Plain) (ha : d.Apex x rest)
    (hframed : Field.Framed d x) (hq : Queue d x pending) (h : Waits d x pending w.document) :
    ((pending.map Prod.snd).forM (evaluate host r context)).Agrees
      ((pending.map Prod.snd).forM (evaluate host r' context)) w fun _ _ => True := by
  induction pending generalizing w with
  | nil => exact Merge.ends_ok rfl trivial
  | cons entry pending ih =>
    obtain ⟨m, statement⟩ := entry
    have hstep : (evaluate host r context statement).Agrees (evaluate host r' context statement) w
        fun _ => Waits d x pending := by
      cases statement with
      | insertion expression field => exact evaluateInsertion_waits hplain ha hframed hq h
      | block opening b => exact evaluateBlock_agrees hagree hrenders hplain h hq ha hframed
    exact hstep.bind fun _ w₁ _ hwaits => ih hq.tail hwaits

theorem waits_self (ha : d.Apex x rest) (hq : Queue d x pending) : Waits d x pending d where
  kept := .refl ha
  markers _ _ _ _ _ _ _ hin := hin
  led entry hentry := (hq.found entry hentry).led ha
  quiet entry hentry f hf z n hz hnew := by
    have hmem := (hq.found entry hentry).anchor_mem ha hf
    exact absurd (ha.mem_of_mem_following hmem (List.mem_map_of_mem hz)) hnew

theorem evaluateFields_agrees (host : Host) (hagree : AgreeBelow (w.document.tree x).markers r r')
    (hrenders : Block.RendersApart r) (hplain : context.Plain) (ha : w.document.Apex x rest)
    (hframed : (w.document.tree x).framed = true) :
    (evaluateFields host r context (Field.discover w.document x)).Agrees
      (evaluateFields host r' context (Field.discover w.document x)) w fun _ _ => True := by
  unfold evaluateFields
  refine Merge.agrees_document ?_
  cases hstatements : ofFields w.document (Field.discover w.document x) with
  | error error =>
    obtain ⟨start, stop, rfl⟩ := exists_unmatched_of_ofFields hstatements
    exact Merge.ends_error rfl (by simp)
  | ok statements =>
    obtain ⟨pending, rfl, hq⟩ := exists_queue ha.distinct hstatements
    change ((pending.map Prod.snd).forM (evaluate host r context)).Agrees
      ((pending.map Prod.snd).forM (evaluate host r' context)) w _
    exact evaluate_agrees hagree hrenders hplain ha (Field.framed_of_tree ha hframed) hq
      (waits_self ha hq)

end Statement

theorem AgreeBelow.mono {k : Nat} (h : AgreeBelow n r r') (hk : k ≤ n) : AgreeBelow k r r' :=
  fun _ _ _ _ hplain ha hframed hlt => h hplain ha hframed (Nat.lt_of_lt_of_le hlt hk)

namespace Rendering

/-- As many levels as there are markers are enough, and more of them change nothing. -/
theorem renderBelow_agrees (host : Host) {k k' : Nat} (hk : n ≤ k) (hk' : n ≤ k') :
    AgreeBelow n (renderBelow host k) (renderBelow host k') := by
  induction n generalizing k k' with
  | zero => exact fun _ _ _ _ _ _ _ hlt => absurd hlt (Nat.not_lt_zero _)
  | succ n ih =>
    intro context w x rest hplain ha hframed hlt
    cases k with
    | zero => exact absurd hk (Nat.not_succ_le_zero _)
    | succ k =>
      cases k' with
      | zero => exact absurd hk' (Nat.not_succ_le_zero _)
      | succ k' =>
        have hbodies := (ih (Nat.le_of_succ_le_succ hk) (Nat.le_of_succ_le_succ hk')).mono
          (Nat.le_of_lt_succ hlt)
        have hfields := Statement.evaluateFields_agrees host hbodies
          (renderBelow_spares host k) hplain ha hframed
        unfold renderBelow
        exact Merge.agrees_document hfields

/-- Rendering follows nested blocks in at least as many levels as there are markers. -/
theorem exists_depth (host : Host) (context : Context) (fields : List Field) (w : Workspace) :
    ∃ k, markers w.document ≤ k ∧ renderFields host context fields w =
      Statement.evaluateFields host (renderBelow host k) context fields w := by
  refine ⟨depth w.document, ?_, ?_⟩
  · unfold depth
    omega
  · unfold renderFields
    rw [Merge.document_bind]

/-- Any two numbers of levels that are not less than the number of markers do the same. -/
theorem evaluateFields_agrees (host : Host) {k k' : Nat} (hplain : context.Plain)
    (ha : w.document.Apex x rest) (hframed : (w.document.tree x).framed = true)
    (hk : markers w.document ≤ k) (hk' : markers w.document ≤ k') :
    (Statement.evaluateFields host (renderBelow host k) context
      (Field.discover w.document x)).Agrees
      (Statement.evaluateFields host (renderBelow host k') context
        (Field.discover w.document x)) w fun _ _ => True := by
  have hle := ha.markers_tree_le
  have hbodies := renderBelow_agrees host (hle.trans hk) (hle.trans hk')
  exact Statement.evaluateFields_agrees host hbodies (renderBelow_spares host k) hplain ha hframed

theorem renderFields_agrees (host : Host) {k : Nat} (hplain : context.Plain)
    (ha : w.document.Apex x rest) (hframed : (w.document.tree x).framed = true)
    (hk : markers w.document ≤ k) :
    (renderFields host context (Field.discover w.document x)).Agrees
      (Statement.evaluateFields host (renderBelow host k) context
        (Field.discover w.document x)) w fun _ _ => True := by
  obtain ⟨bound, hbound, hrun⟩ := exists_depth host context (Field.discover w.document x) w
  obtain ⟨hsame, hends⟩ := evaluateFields_agrees host hplain ha hframed hbound hk
  rw [← hrun] at hsame hends
  exact ⟨hsame, hends⟩

end Rendering

/-- A part is rendered in no more levels of bodies than it has markers, in every context of JSON
data, if its begin markers only stand right below elements that are not simple fields. More levels
would make no difference, and rendering does not stop because blocks are nested too deep. -/
theorem render_nesting (host : Host) {kind : PartKind} {text : String} {part : Part} {data : Json}
    {context : Context} (hpart : Part.parse kind text = .ok part)
    (hframed : (part.document.tree part.document.root).framed = true)
    (hcontext : Context.ofJson data = .ok context) (startPage? : Option Nat) (resources : Resources)
    (numbering : Numbering) :
    let fields := Field.discover part.document part.document.root
    (∀ depth, Rendering.markers part.document ≤ depth →
      Statement.evaluateFields host (Rendering.renderBelow host depth) context fields
          ⟨part.document, resources, numbering⟩ =
        Rendering.renderFields host context fields ⟨part.document, resources, numbering⟩) ∧
    ∀ left, Session.render host context startPage? { part, resources, numbering } ≠
      .error .nestedTooDeep left := by
  have ha := (Part.proper_of_parse hpart).2
  have hagrees := fun k => Rendering.renderFields_agrees host (k := k)
    (w := ⟨part.document, resources, numbering⟩) (Context.plain_ofJson hcontext) ha hframed
  intro fields
  constructor
  · intro depth hdepth
    exact (hagrees depth hdepth).1
  · intro left hleft
    obtain ⟨w', hw'⟩ := Session.exists_of_render_error hleft
    exact (hagrees _ (Nat.le_refl _)).ne_nestedTooDeep hw'

/-- A condition in a condition, around an insertion. -/
def nestedConditionText : String :=
  "<p><w:fldSimple w:instr=\"MERGEFIELD x:if \\* MERGEFORMAT\"/>" ++
    "<w:fldSimple w:instr=\"MERGEFIELD x:if \\* MERGEFORMAT\"/>" ++
    "<w:fldSimple w:instr=\"MERGEFIELD =x \\* MERGEFORMAT\"/>" ++
    "<w:fldSimple w:instr=\"MERGEFIELD x:endIf \\* MERGEFORMAT\"/>" ++
    "<w:fldSimple w:instr=\"MERGEFIELD x:endIf \\* MERGEFORMAT\"/></p>"

/-- What is read from `nestedConditionText`. -/
def nestedCondition : Document where
  rows := [.ofElement 0 "p"
    (.single 1 (.element ⟨"w:fldSimple", [⟨"w:instr", "MERGEFIELD x:if \\* MERGEFORMAT"⟩]⟩) .nil ++
      .single 2 (.element ⟨"w:fldSimple", [⟨"w:instr", "MERGEFIELD x:if \\* MERGEFORMAT"⟩]⟩) .nil ++
      .single 3 (.element ⟨"w:fldSimple", [⟨"w:instr", "MERGEFIELD =x \\* MERGEFORMAT"⟩]⟩) .nil ++
      .single 4 (.element ⟨"w:fldSimple", [⟨"w:instr", "MERGEFIELD x:endIf \\* MERGEFORMAT"⟩]⟩) .nil ++
      .single 5 (.element ⟨"w:fldSimple", [⟨"w:instr", "MERGEFIELD x:endIf \\* MERGEFORMAT"⟩]⟩) .nil)]
  aside := []
  root := 0
  next := 6
  declaration := none

set_option maxRecDepth 4000 in
theorem parse_nestedConditionText :
    Part.parse .headerFooter nestedConditionText =
      .ok ⟨.headerFooter, nestedCondition, some nestedConditionText⟩ := by rfl

/-- Two levels of bodies are rendered, within the bound of five. -/
theorem nestedCondition_nesting :
    Rendering.markers nestedCondition = 5 ∧
    Statement.evaluateFields {} (Rendering.renderBelow {} 5) ⟨[("x", .string "y")]⟩
        (Field.discover nestedCondition nestedCondition.root) ⟨nestedCondition, [], {}⟩ =
      Rendering.renderFields {} ⟨[("x", .string "y")]⟩
        (Field.discover nestedCondition nestedCondition.root) ⟨nestedCondition, [], {}⟩ ∧
    (∀ left, Session.render {} ⟨[("x", .string "y")]⟩ none
      { part := ⟨.headerFooter, nestedCondition, some nestedConditionText⟩ } ≠
        .error .nestedTooDeep left) ∧
    ((Session.render {} ⟨[("x", .string "y")]⟩ none >>= fun _ => (·.part.markup) <$> get).run'
      { part := ⟨.headerFooter, nestedCondition, some nestedConditionText⟩ }) =
        some "<p><w:r><w:t>y</w:t></w:r></p>" := by
  have hnesting := render_nesting {} parse_nestedConditionText (by decide)
    (rfl : Context.ofJson (.object [("x", .string "y")]) = _) none [] {}
  exact ⟨by decide, hnesting.1 5 (by decide), hnesting.2, by decide +kernel⟩

end MailMerge
