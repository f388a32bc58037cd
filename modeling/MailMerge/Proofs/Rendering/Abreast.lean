import MailMerge.Proofs.Block.Abreast

/-!
# Rendering documents with unfolded fields

All statements of a tidy row are evaluated in both of two documents that are unfoldings of one another.
When its turn has come, a block finds its anchors and its body as it has relied on them
(`Agenda.block_atTurn`). Main statement: below a node that stands alone, the same is rendered in both
documents (`Rendering.renderBelow_simulates`).
-/

namespace MailMerge

open Xml Xml.Forest Xml.Document Field

variable {c d d' e e' e₀ : Document} {u v v' v₁ : Unfolding} {a x y z : NodeId} {f row : Forest}
variable {w w' : Workspace} {xs ys : List NodeId} {copies more : List (NodeId × Forest)}
variable {rest trees : List Forest} {renderBelow renderBelow' : Renderer} {context : Context}
variable {p : NodeId → Prop} {b : Block} {host : Host} {path name : String}

namespace Statement

/-- When the turn of a block has come, a step leaves documents in which later blocks find what they
rely on. -/
def Passes (v : Unfolding) (p : NodeId → Prop) (m m' : Merge Unit) (w w' : Workspace) : Prop :=
  Merge.Lockstep m m' w w' fun _ _ d e =>
    ∃ v', Continues w.document v (fun y => w.document.isNamed y "w:fldSimple" = true) p v' d e ∧
      Shown v' d

section Block

variable (hrenders : Block.Simulates renderBelow renderBelow') (hpassive : context.Passive)
  (hturn : b.AtTurn v w.document p) (h : w.document.Unfolds v w'.document)
  (hsame : Merge.SameRegistries w w') (hshown : Shown v w.document)
include hturn h hsame hshown

theorem replaceNone_abreast : Passes v p ((b.settle w.document).replace [])
    ((v.block w.document (b.settle w.document)).replace []) w w' :=
  (hturn.replace_abreast h hsame (.refl h hshown) nofun).imp fun _ _ _ _ _ hlater => ⟨_, hlater⟩

include hrenders hpassive

/-- When the turn of a block has come, it is evaluated in both documents. -/
theorem evaluateBlock_abreast (host : Host) (opening : Opening) :
    Passes v p (evaluateBlock host renderBelow context opening b)
      (evaluateBlock host renderBelow' context opening (v.block w.document b)) w w' := by
  have hbody := hturn.body_eq
  obtain ⟨course, hcourse, hrun⟩ := exists_course hpassive opening
  rw [hrun, hrun]
  refine Merge.lockstep_document ?_
  rw [hturn.settle_eq h]
  cases hcourse with
  | fail => exact Merge.lockstep_throw hsame _
  | drop => exact replaceNone_abreast hturn h hsame hshown
  | keep =>
    refine (Block.render_abreast hrenders hpassive h hsame hshown (hturn.bodied h)
      (by rw [← hbody]; rfl) (by rw [← hbody]; rfl)).bind ?_
    rintro row w₁ row' w₁' - hsame₁ ⟨copy, v₁, hcopied, rfl, rfl, hnil⟩
    have hreplaced := hturn.replace_abreast h hsame₁ hcopied fun hspan =>
      List.forall_mem_singleton.2 (hnil hspan)
    rw [List.flatMap_singleton, List.flatMap_singleton] at hreplaced
    exact hreplaced.imp fun _ _ _ _ _ hlater => ⟨_, hlater⟩
  | @loop path name items hlist =>
    have hitems := (Expression.passive_of_evaluate? hpassive hlist).items
    refine (Block.renderEach_abreast hrenders hpassive h hsame hshown (hturn.bodied h)
      (by rw [← hbody]; rfl) (by rw [← hbody]; rfl) name hitems).bind ?_
    rintro rows w₁ rows' w₁' - hsame₁ ⟨copies, v₁, hcopied, hrows, hrows', hnil⟩
    rw [hrows, hrows']
    exact (hturn.replace_abreast h hsame₁ hcopied hnil).imp fun _ _ _ _ _ hlater => ⟨_, hlater⟩

end Block

/-! ## The turn of a block -/

variable {turn : Turn} {turns : List Turn} {opening : Opening}

namespace Agenda

variable (hagenda : Agenda c x rest (turn :: turns)) (hb : turn.statement = .block opening b)
include hagenda hb

theorem spans_block : Spans c x turn.first turn.last (.block opening b) :=
  hb ▸ hagenda.schedule.spans turn List.mem_cons_self

theorem simple_block : b.Simple c turn.first turn.last :=
  hagenda.simple turn List.mem_cons_self opening b hb

/-- Either anchor of a block is at or around one of its fields. -/
theorem exists_of_anchor (ha : a ∈ [b.first, b.last]) : ∃ m, (m = turn.first ∨ m = turn.last) ∧
    m ∈ c.descendants a ∧ c.isNamed m "w:fldSimple" = true ∧ a ∈ c.descendants x ∧
      (c.isNamed a "w:fldSimple" = true → a = m) := by
  have hsimple := hagenda.simple_block hb
  have hspans := hagenda.spans_block hb
  have houter : ∀ {a : NodeId} {name : String}, name = "w:tr" ∨ name = "w:p" →
      c.isNamed a name = true → c.isNamed a "w:fldSimple" = false := fun hname ha =>
    isNamed_of_ne ha (by rcases hname with rfl | rfl <;> decide)
  rcases List.mem_pair.1 ha with rfl | rfl
  · refine ⟨_, .inl rfl, hsimple.first, hsimple.name, hspans.first_mem hagenda.apex, fun hname => ?_⟩
    rcases hsimple.kind with ⟨-, heq, -⟩ | ⟨-, name, hkind, hfirst, -⟩
    · exact heq
    · rw [houter hkind hfirst] at hname
      cases hname
  · refine ⟨_, .inr rfl, hsimple.last, hsimple.name', hspans.lastAnchor_mem hagenda.apex, fun hname => ?_⟩
    rcases hsimple.kind with ⟨-, -, heq⟩ | ⟨-, name, hkind, -, hlast⟩
    · exact heq
    · rw [houter hkind hlast] at hname
      cases hname

/-- An anchor is in no simple field. -/
theorem anchor_clear (ha : a ∈ [b.first, b.last]) (hy : c.isNamed y "w:fldSimple" = true) :
    a ∉ (c.below y).ids := by
  obtain ⟨m, -, hm, hname, hmem, -⟩ := hagenda.exists_of_anchor hb ha
  intro hin
  have hy' := hagenda.apex.mem_of_mem_descendants hmem (mem_descendants_of_mem_below hin)
  refine hagenda.tidy.notMem_below hagenda.distinct hy' hy hname ?_
  rcases (mem_descendants_iff_below (mem_ids_of_mem_descendants hmem)).1 hm with rfl | hbelow
  · exact hin
  · exact hagenda.distinct.mem_below_trans hbelow (mem_descendants_of_mem_below hin)

section Reached

variable (h : Reached c u x (turn :: turns) v d e)
include h

theorem anchor_mem (ha : a ∈ [b.first, b.last]) : a ∈ d.ids := by
  obtain ⟨-, -, -, -, hmem, -⟩ := hagenda.exists_of_anchor hb ha
  exact h.continues.lasts.ids (mem_ids_of_mem_descendants hmem)

theorem anchor_display (ha : a ∈ [b.first, b.last]) (hname : d.isNamed a "w:fldSimple" = true) :
    Display (d.below a) := by
  obtain ⟨m, hm, -, hnamed, hmem, heq⟩ := hagenda.exists_of_anchor hb ha
  rw [h.continues.lasts.isNamed (mem_ids_of_mem_descendants hmem)] at hname
  obtain rfl := heq hname
  exact (h.continues.lasts.display a ⟨hname, .inr ⟨turn, List.mem_cons_self, hm⟩⟩ hname
    (hagenda.display hmem hname)).1

/-- An anchor that has no parent has no siblings either. -/
theorem first_parted (hnone : d.parent? b.first = none) : d.following b.first = .nil := by
  have hlasts := h.continues.lasts
  have hmem := (hagenda.spans_block hb).first_mem hagenda.apex
  have hopens : Opens (turn :: turns) b.first := ⟨turn, List.mem_cons_self, by rw [hb]; rfl⟩
  rcases hlasts.parted b.first (.inr hopens) hnone with halone | hbefore
  · exact halone.following hlasts.distinct
  · rcases (mem_descendants_iff_below hagenda.apex.mem_ids).1 hmem with heq | hbelow
    · rw [heq]
      exact (hlasts.alone x (.inl rfl) hagenda.alone).following hlasts.distinct
    · have hsome := hagenda.distinct.isSome_parent?_of_mem_below hbelow
      rw [hbefore] at hsome
      cases hsome

/-- What follows the first anchor is tidy: what has come there cannot begin a field. -/
theorem following_tidy : Tidy (d.following b.first) := by
  have hlasts := h.continues.lasts
  have hd := hlasts.distinct
  have hmem := (hagenda.spans_block hb).first_mem hagenda.apex
  have hopens : Opens (turn :: turns) b.first := ⟨turn, List.mem_cons_self, by rw [hb]; rfl⟩
  refine (hd.shows_following _).tidy_iff.2 fun z hz => ?_
  rcases hlasts.following b.first (.inr hopens) z hz with hold | ⟨-, hsimple, hmarker⟩
  · have hz' := hagenda.apex.mem_of_mem_following hmem hold
    have htidy := (hagenda.distinct.shows_tree x).tidy_iff.1 hagenda.tidy z hz'
    rw [hlasts.isNamed (mem_ids_of_mem_descendants hz'), hlasts.isNamed (mem_ids_of_mem_descendants hz')]
    refine ⟨htidy.1, fun hname => ?_⟩
    cases hparent : d.parent? b.first with
    | none =>
      rw [hagenda.first_parted hb h hparent] at hz
      cases hz
    | some y =>
      have hin := mem_ids_of_mem_topIds (hd.mem_children_of_parent? hparent)
      have hsome := hd.isSome_parent?_of_mem_below (hd.mem_below_of_following hin hz)
      exact (hlasts.display z ⟨hname, .inl hsome⟩ hname (htidy.2 hname)).1
  · exact ⟨hmarker, fun hname => by rw [hsimple] at hname; cases hname⟩

/-- The anchors of a block are taken out with it in either document. -/
theorem frame_block : (v.block d b).frame = [b.first, b.last].flatMap (v.runs d) := by
  have hsimple := hagenda.simple_block hb
  have hunfolds := h.continues.unfolds
  have hfirst := hagenda.anchor_mem hb h List.mem_cons_self
  have hlast := hagenda.anchor_mem hb h (List.mem_cons_of_mem _ List.mem_cons_self)
  have hdisplay : ∀ a ∈ [b.first, b.last], ∀ m, a = m → c.isNamed m "w:fldSimple" = true →
      Display (d.below a) := by
    rintro a ha _ rfl hname
    rw [← h.continues.lasts.isNamed (mem_ids_of_isNamed hname)] at hname
    exact hagenda.anchor_display hb h ha hname
  rcases hsimple.kind with ⟨hkind, heq, heq'⟩ | ⟨hkind, name, hname, hnamed, hnamed'⟩
  · have hremoved := removed_field hunfolds hfirst (hdisplay _ List.mem_cons_self _ heq hsimple.name)
      b.start.instruction b.start.expression
    have hremoved' := removed_field hunfolds hlast
      (hdisplay _ (List.mem_cons_of_mem _ List.mem_cons_self) _ heq' hsimple.name')
      b.stop.instruction b.stop.expression
    rw [heq, ← hsimple.start] at hremoved
    rw [heq', ← hsimple.stop] at hremoved'
    rw [Block.frame_of_inline (b := v.block d b) hkind, List.flatMap_cons, List.flatMap_singleton, heq, heq']
    exact congrArg₂ _ hremoved hremoved'
  · have hplain : ∀ a ∈ [b.first, b.last], c.isNamed a name = true → v.frame? a = none := by
      intro a ha hnamed
      by_contra hframe
      have hsimple := hunfolds.isNamed_of_unfolded (hagenda.anchor_mem hb h ha) hframe
      rw [h.continues.lasts.isNamed (mem_ids_of_isNamed hnamed)] at hsimple
      have hother : c.isNamed a name = false :=
        isNamed_of_ne hsimple (by rcases hname with rfl | rfl <;> decide)
      rw [hnamed] at hother
      cases hother
    have hframe := hplain _ List.mem_cons_self hnamed
    have hframe' := hplain _ (List.mem_cons_of_mem _ List.mem_cons_self) hnamed'
    rw [Block.frame_of_ne (b := v.block d b) hkind, List.flatMap_cons, List.flatMap_singleton,
      runs_of_none hfirst hframe, runs_of_none hlast hframe', ← Unfolding.stop_of_none hframe,
      ← Unfolding.start_of_none hframe']
    rfl

/-- Its turn has come when a block is the next statement. -/
theorem block_atTurn : b.AtTurn v d (Awaits x turns) where
  first := hagenda.anchor_mem hb h List.mem_cons_self
  last := hagenda.anchor_mem hb h (List.mem_cons_of_mem _ List.mem_cons_self)
  clear y hy a ha hin := by
    obtain ⟨-, -, -, -, hmem, -⟩ := hagenda.exists_of_anchor hb ha
    have hbefore := h.continues.lasts.inner (mem_ids_of_mem_descendants hmem) hin
    have hy' := mem_ids_of_descendants (mem_descendants_of_mem_below hbefore)
    exact hagenda.anchor_clear hb ha ((h.continues.lasts.isNamed hy' _).symm.trans hy) hbefore
  display a ha hname := hagenda.anchor_display hb h ha hname
  tidy := hagenda.following_tidy hb h
  parted := hagenda.first_parted hb h
  mem f hf := h.continues.lasts.ids (mem_ids_of_mem_descendants (hagenda.tail.mem_of_awaits hf))
  after f hf hin := by
    have hmem := (hagenda.spans_block hb).first_mem hagenda.apex
    rcases h.continues.lasts.following f hf.of_tail _ hin with hbefore | ⟨hnew, -⟩
    · have hsimple := hagenda.simple_block hb
      have hin := hagenda.distinct.mem_descendants_trans hsimple.first hmem
      exact hagenda.tail.notMem_following hagenda.first_lt hin hf hsimple.first hbefore
    · exact hnew (mem_ids_of_mem_descendants hmem)
  frame := (hagenda.simple_block hb).frame
  frame' := hagenda.frame_block hb h
  unsettled := (hagenda.simple_block hb).settled

/-- The block is told by the same nodes as when the statements were made. -/
theorem block_same (hc : c.Unfolds u e') : v.block d b = u.block c b := by
  have hsimple := hagenda.simple_block hb
  have hfirst := (hagenda.spans_block hb).first_mem hagenda.apex
  have hlast := (hagenda.spans_block hb).lastAnchor_mem hagenda.apex
  have hfield : ∀ {m : NodeId} {field : Field}, m = turn.first ∨ m = turn.last →
      c.isNamed m "w:fldSimple" = true → m ∈ c.descendants x → field.shape = .simple m →
        v.field d field = u.field c field := by
    rintro m ⟨shape, instruction, expression⟩ hm hname hmem rfl
    exact (h.continues.field_eq hc ⟨hname, .inr ⟨turn, List.mem_cons_self, hm⟩⟩ hname
      (hagenda.display hmem hname) instruction expression).1
  have hin := hagenda.distinct.mem_descendants_trans hsimple.first hfirst
  have hin' := hagenda.distinct.mem_descendants_trans hsimple.last hlast
  rw [Unfolding.block, Unfolding.block, h.continues.agrees.stop (mem_ids_of_mem_descendants hfirst),
    h.continues.agrees.start (mem_ids_of_mem_descendants hlast),
    hfield (.inl rfl) hsimple.name hin hsimple.start, hfield (.inr rfl) hsimple.name' hin' hsimple.stop,
    hsimple.settled, Option.map_none, Option.map_none]

end Reached

end Agenda

/-! ## One statement after the other -/

section Evaluate

variable (hc : c.Unfolds u e₀) (hrenders : Block.Simulates renderBelow renderBelow')
  (hpassive : context.Passive)
include hc hrenders hpassive

/-- A statement leaves those that wait what they rely on. -/
theorem evaluate_abreast (hagenda : Agenda c x rest (turn :: turns))
    (h : Reached c u x (turn :: turns) v w.document w'.document) (hsame : Merge.SameRegistries w w') :
    Merge.Lockstep (evaluate host renderBelow context turn.statement)
      (evaluate host renderBelow' context (turn.statement.map (u.field c) (u.block c))) w w'
      fun _ _ d e => ∃ v', Reached c u x turns v' d e := by
  cases hstatement : turn.statement with
  | insertion expression field => exact evaluateInsertion_abreast hagenda h hsame hc hstatement
  | block opening b =>
    rw [Statement.map, ← hagenda.block_same hstatement h hc]
    refine (evaluateBlock_abreast hrenders hpassive (hagenda.block_atTurn hstatement h)
      h.continues.unfolds hsame h.shown host opening).imp ?_
    rintro _ w₁ _ w₁' - ⟨v₁, hcontinues, hshown⟩
    exact ⟨v₁, h.next hcontinues hshown fun z hz _ => hz⟩

theorem evaluateEach_abreast (host : Host) (hagenda : Agenda c x rest turns)
    (h : Reached c u x turns v w.document w'.document) (hsame : Merge.SameRegistries w w') :
    Merge.Lockstep ((turns.map Turn.statement).forM (evaluate host renderBelow context))
      ((turns.map fun turn => turn.statement.map (u.field c) (u.block c)).forM
        (evaluate host renderBelow' context)) w w' fun _ _ d e => ∃ v', Reached c u x [] v' d e := by
  induction turns generalizing v w w' with
  | nil => exact Merge.lockstep_pure hsame ⟨v, h⟩
  | cons turn turns ih =>
    rw [List.map_cons, List.map_cons]
    refine (evaluate_abreast hc hrenders hpassive hagenda h hsame).bind ?_
    rintro - w₁ - w₁' - hsame₁ ⟨v₁, h₁⟩
    exact ih hagenda.tail h₁ hsame₁

end Evaluate

/-! ## The fields below a node -/

theorem sits_of_tidy (h : d.Unfolds v e) (hframe : v.frame? x = none) (htidy : Tidy (d.tree x))
    (hx : x ∈ d.ids) : ∀ field ∈ discover d x, field.Sits v d := by
  intro field hfield
  rw [← map_entries] at hfield
  obtain ⟨⟨m, _⟩, hentry, rfl⟩ := List.mem_map.1 hfield
  have hfound := foundAt_of_mem_entries h.distinct hentry
  have hm := mem_ids_of_mem_descendants hfound.mem
  rw [Field.Sits]
  rcases hfound.shape_of_tidy h.distinct htidy with ⟨hshape, hname⟩ | ⟨hshape, hname, -⟩
  · rw [hshape]
    refine ⟨hm, fun hunfolded => ?_⟩
    have hne : m ≠ x := fun heq => hunfolded (heq ▸ hframe)
    have hbelow := ((mem_descendants_iff_below hx).1 hfound.mem).resolve_left hne
    have hdisplay := htidy.display h.distinct hfound.mem hname
    obtain ⟨y, n, inner, hrow, -⟩ := hdisplay.exists_single
    exact ⟨h.distinct.isSome_parent?_of_mem_below hbelow, y, n, inner, hrow,
      h.frame?_of_display (h.distinct.shows_below m) hdisplay y (by simp [hrow, single])⟩
  · rw [hshape]
    refine ⟨hm, ?_⟩
    by_contra hunfolded
    have hother : d.isNamed m "w:drawing" = false :=
      isNamed_of_ne (h.isNamed_of_unfolded hm hunfolded) (by decide)
    rw [hname] at hother
    cases hother

theorem exists_agenda (hd : d.Distinct) (halone : d.Alone x) (htidy : Tidy (d.tree x))
    {statements : List Statement} (h : ofFields d (discover d x) = .ok statements) :
    ∃ rest turns, turns.map Turn.statement = statements ∧ Agenda d x rest turns := by
  obtain ⟨node, f, hrow⟩ := halone
  obtain ⟨before, after, hrows⟩ := List.append_of_mem hrow
  obtain ⟨turns, rfl, hschedule⟩ := exists_schedule hd h
  refine ⟨before ++ after, turns, rfl, ⟨hd, node, f, hrows ▸ List.perm_middle⟩, htidy, hschedule,
    fun turn hturn opening b hb => ?_⟩
  refine (hb ▸ hschedule.spans turn hturn).simple hd htidy (expression_stop h ?_)
  exact hb ▸ List.mem_map_of_mem hturn

theorem Reached.refl (h : d.Unfolds v e) (hshown : Shown v d) (x : NodeId) (turns : List Turn) :
    Reached d v x turns v d e :=
  ⟨⟨.refl _ _, h, .refl h.distinct _ _⟩, hshown⟩

/-- The fields below a node make the same of both documents. -/
theorem evaluateFields_abreast (host : Host) (hrenders : Block.Simulates renderBelow renderBelow')
    (hpassive : context.Passive) (hsame : Merge.SameRegistries w w')
    (h : w.document.Unfolds v w'.document) (hshown : Shown v w.document)
    (halone : w.document.Alone x) (hframe : v.frame? x = none) (htidy : Tidy (w.document.tree x)) :
    Merge.Lockstep (evaluateFields host renderBelow context (discover w.document x))
      (evaluateFields host renderBelow' context (discover w'.document (v.name x))) w w'
      fun _ _ d e => ∃ v', Reached w.document v x [] v' d e := by
  unfold evaluateFields
  refine Merge.lockstep_document ?_
  rw [h.discover_eq halone.mem_ids hframe htidy, h.ofFields_eq (sits_of_tidy h hframe htidy halone.mem_ids)]
  cases hmade : ofFields w.document (discover w.document x) with
  | error error => exact Merge.lockstep_throw hsame error
  | ok statements =>
    obtain ⟨rest, turns, rfl, hagenda⟩ := exists_agenda h.distinct halone htidy hmade
    have hlater := evaluateEach_abreast h hrenders hpassive host hagenda
      (.refl h hshown x turns) hsame
    have hturns : turns.map (fun turn => turn.statement.map (v.field w.document) (v.block w.document)) =
        (turns.map Turn.statement).map (map (v.field w.document) (v.block w.document)) := by
      rw [List.map_map]
      rfl
    rw [hturns] at hlater
    exact hlater.of_eq rfl rfl

end Statement

namespace Rendering

/-- Where there are no fields, nothing is done. -/
theorem renderBelow_idle (host : Host) (depth : Nat) {w₁ : Workspace}
    (hnone : discover w.document x = []) (h : Rendering.renderBelow host depth context x w = .ok () w₁) :
    w₁ = w := by
  cases depth with
  | zero => cases h
  | succ depth =>
    have hidle : Rendering.renderBelow host (depth + 1) context x w =
        Statement.evaluateFields host (Rendering.renderBelow host depth) context [] w := by
      rw [← hnone]
      rfl
    have hnothing : Statement.evaluateFields host (Rendering.renderBelow host depth) context [] w =
        .ok () w := by
      unfold Statement.evaluateFields Statement.ofFields
      rfl
    rw [hidle, hnothing] at h
    cases h
    rfl

/-- What is rendered below a node is the same in both documents, whatever fields are unfolded. -/
theorem renderBelow_simulates (host : Host) (depth : Nat) :
    Block.Simulates (Rendering.renderBelow host depth) (Rendering.renderBelow host depth) := by
  induction depth with
  | zero =>
    exact ⟨renderBelow_spares host 0, fun _ _ _ _ => renderBelow_idle host 0,
      fun _ _ _ _ _ _ hsame _ _ _ _ _ => Merge.lockstep_throw hsame _⟩
  | succ depth ih =>
    refine ⟨renderBelow_spares host (depth + 1), fun _ _ _ _ => renderBelow_idle host (depth + 1), ?_⟩
    intro context w w' v x hpassive hsame h hshown halone hframe htidy
    unfold Rendering.renderBelow
    exact Merge.lockstep_document
      (Statement.evaluateFields_abreast host ih hpassive hsame h hshown halone hframe htidy)

end Rendering
end MailMerge
