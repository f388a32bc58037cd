import MailMerge.Proofs.Field.Planting
import MailMerge.Proofs.Rendering.Apart
import MailMerge.Proofs.Statement.Abreast

/-!
# Blocks in documents with unfolded fields

Copies of the body of a block are made and rendered in both of two documents that are unfoldings of
one another, and then take the place of the block. The containers of the copies are the same in both
documents (`Block.Copied`), and what is in them are unfoldings again. If renderers do the same in both
documents (`Block.Simulates`), so does the evaluation of a block.
-/

namespace MailMerge

open Xml Xml.Forest Xml.Document Field Template

variable {c d d' e e' : Document} {u v v' v₁ : Unfolding} {a x y z : NodeId} {f row : Forest}
variable {w w' : Workspace} {xs ys : List NodeId} {copies more : List (NodeId × Forest)}
variable {rest trees : List Forest} {renderBelow renderBelow' : Renderer} {context : Context}

namespace Block

/-! ## Copies -/

/-- Siblings after a node in a tidy row, which is in no field that is unfolded. -/
structure Bodied (v : Unfolding) (d : Document) (a : NodeId) (ys : List NodeId) : Prop where
  mem : a ∈ d.ids
  clear : ∀ z, d.parent? a = some z → v.frame? z = none
  tidy : Tidy (d.following a)
  nodes : ys ⊆ (d.following a).topIds

/-- Containers have been added to one of two documents, and to the other one what is made of them. -/
structure Copied (d : Document) (v : Unfolding) (copies : List (NodeId × Forest)) (v' : Unfolding)
    (d' e' : Document) : Prop where
  spares : d.Spares d.allRows d'
  agrees : Unfolding.Extends d.ids v v'
  unfolds : d'.Unfolds v' e'
  shown : Shown v' d'
  rows : ∃ own, d'.allRows.Perm (copies.map container ++ (own ++ d.allRows))
  name : ∀ copy ∈ copies, v'.frame? copy.1 = none

namespace Bodied

variable (hbody : Bodied v d a ys)
include hbody

theorem mem_ids (hy : y ∈ ys) : y ∈ d.ids := mem_ids_of_mem_following (mem_ids_of_mem_topIds (hbody.nodes hy))

theorem tidy_join (hd : d.Distinct) : Tidy (join (ys.map d.tree)) :=
  (hd.shows_following a).tidy_join hbody.tidy hbody.nodes

variable (h : d.Unfolds v e)
include h

theorem shows : e.Shows ((d.following a).unfold v) := by
  rw [← h.following_stop hbody.mem hbody.clear]
  exact h.distinct'.shows_following _

theorem mem_ids_runs : ∀ y ∈ ys.flatMap (v.runs d), y ∈ e.ids := by
  intro y hy
  obtain ⟨z, hz, hy⟩ := List.mem_flatMap.1 hy
  have hshows := Unfolds.shows_tree (h.distinct.shows_following a) (hbody.shows h) (hbody.nodes hz)
  exact hshows.ids_subset (mem_ids_of_mem_topIds hy)

theorem join_runs : join ((ys.flatMap (v.runs d)).map e.tree) = (join (ys.map d.tree)).unfold v :=
  Unfolds.join_runs (h.distinct.shows_following a) (hbody.shows h) hbody.nodes

end Bodied

theorem Copied.refl (h : d.Unfolds v e) (hshown : Shown v d) : Copied d v [] v d e where
  spares := .refl h.distinct.apart
  agrees := .refl _ _
  unfolds := h
  shown := hshown
  rows := ⟨[], .refl _⟩
  name := nofun

theorem Copied.of_container (hspares : d.Spares d.allRows d') (hagrees : Unfolding.Extends d.ids v v')
    (h : d'.Unfolds v' e') (hshown : Shown v' d') (hframe : v'.frame? x = none) (hout : x ∉ d.ids)
    (hrow : container (x, f) ∈ d'.allRows) : Copied d v [(x, f)] v' d' e' where
  spares := hspares
  agrees := hagrees
  unfolds := h
  shown := hshown
  rows := by
    obtain ⟨own, hrows⟩ := hspares.apart.rows
    have hown : container (x, f) ∈ own := by
      refine (List.mem_append.1 (hrows.mem_iff.1 hrow)).resolve_right fun hin => hout ?_
      exact List.mem_flatMap.2 ⟨_, hin, List.mem_cons_self⟩
    obtain ⟨before, after, rfl⟩ := List.append_of_mem hown
    refine ⟨before ++ after, hrows.trans ?_⟩
    rw [List.append_assoc, List.append_assoc]
    exact List.perm_middle
  name copy hcopy := (List.mem_singleton.1 hcopy) ▸ hframe

theorem Copied.mem_rows (h : Copied c u copies v d e) {copy : NodeId × Forest} (hcopy : copy ∈ copies) :
    container copy ∈ d.allRows := by
  obtain ⟨own, hrows⟩ := h.rows
  exact hrows.mem_iff.2 (List.mem_append_left _ (List.mem_map_of_mem hcopy))

theorem Copied.mem_ids (h : Copied c u copies v d e) {copy : NodeId × Forest} (hcopy : copy ∈ copies) :
    (container copy).ids ⊆ d.ids := fun _ hy => List.mem_flatMap.2 ⟨_, h.mem_rows hcopy, hy⟩

/-- What stands in the containers is new. -/
theorem Copied.out (h : Copied c u copies v d e) {copy : NodeId × Forest} (hcopy : copy ∈ copies)
    (hy : y ∈ (container copy).ids) : y ∉ c.ids := by
  obtain ⟨own, hrows⟩ := h.rows
  have hnodup := (hrows.flatMap_right Forest.ids).nodup_iff.1 h.unfolds.distinct.nodup
  rw [List.flatMap_append] at hnodup
  intro hin
  refine (List.nodup_append.1 hnodup).2.2 y ?_ y ?_ rfl
  · exact List.mem_flatMap.2 ⟨_, List.mem_map_of_mem hcopy, hy⟩
  · rw [List.flatMap_append]
    exact List.mem_append_right _ hin

theorem Copied.trans (h : Copied c u copies v d e) (h' : Copied d v more v' d' e') :
    Copied c u (copies ++ more) v' d' e' := by
  obtain ⟨own, hrows⟩ := h.rows
  obtain ⟨own', hrows'⟩ := h'.rows
  have hall : d'.allRows.Perm ((copies ++ more).map container ++ ((own' ++ own) ++ c.allRows)) := by
    refine hrows'.trans (((hrows.append_left own').append_left _).trans ?_)
    rw [List.map_append, List.append_assoc, List.append_assoc]
    refine (List.Perm.append_left _ (List.perm_append_comm_assoc _ _ _)).trans ?_
    exact List.perm_append_comm_assoc _ _ _
  have hapart : d'.Apart c.allRows :=
    ⟨h'.spares.apart.distinct, _, hall.trans (.of_eq (List.append_assoc _ _ _).symm)⟩
  refine ⟨⟨hapart, fun _ hx => h'.spares.ids (h.spares.ids hx), h.spares.grows.trans h'.spares.grows⟩,
    h.agrees.trans h'.agrees h.spares.ids, h'.unfolds, h'.shown, ⟨_, hall⟩, fun copy hcopy => ?_⟩
  rcases List.mem_append.1 hcopy with hcopy | hcopy
  · rw [h'.agrees.frame _ (h.mem_ids hcopy List.mem_cons_self)]
    exact h.name copy hcopy
  · exact h'.name copy hcopy

namespace Bodied

variable (hbody : Bodied u c a ys) (h : Copied c u copies v d e) (hc : c.Distinct)
include hbody h hc

theorem later : Bodied v d a ys where
  mem := h.spares.ids hbody.mem
  clear z hz := by
    rw [← hc.apart.parent?_eq h.spares.apart hbody.mem] at hz
    have hin := mem_ids_of_mem_topIds (hc.mem_children_of_parent? hz)
    rw [h.agrees.frame z (mem_ids_of_descendants (mem_descendants_of_mem_below hin))]
    exact hbody.clear z hz
  tidy := by
    rw [← hc.apart.following_eq h.spares.apart hbody.mem]
    exact hbody.tidy
  nodes := by
    rw [← hc.apart.following_eq h.spares.apart hbody.mem]
    exact hbody.nodes

theorem runs_later : ys.flatMap (v.runs d) = ys.flatMap (u.runs c) := by
  refine List.flatMap_congr fun y hy => ?_
  have hmem := hbody.mem_ids hy
  rw [Unfolding.runs, Unfolding.runs, ← hc.apart.tree_eq h.spares.apart hmem,
    h.agrees.unfold (hc.shows_tree y).ids_subset]

end Bodied

/-- Copies of siblings are made in both documents. -/
theorem copyAll_abreast (h : w.document.Unfolds v w'.document) (hsame : Merge.SameRegistries w w')
    (hshown : Shown v w.document) (hbody : Bodied v w.document a ys) :
    Merge.Lockstep (copyAll ys) (copyAll (ys.flatMap (v.runs w.document))) w w' fun x x' d e =>
      ∃ f v', Copied w.document v [(x, f)] v' d e ∧ x' = v'.name x ∧ Tidy f ∧
        (ys = [] → f = .nil) := by
  have hd := h.distinct
  have hmem : ∀ y ∈ ys, y ∈ w.document.ids := fun y hy => hbody.mem_ids hy
  have hmem' := hbody.mem_ids_runs h
  obtain ⟨x, f, d, hcopy, hbare, hholds⟩ := copyAll_apply hd hmem
  obtain ⟨x', f', e, hcopy', hbare', hholds'⟩ := copyAll_apply h.distinct' hmem'
  obtain ⟨hspares, -⟩ := (copyAll_spares hd.apart hmem).of_ok hcopy
  obtain ⟨hspares', -⟩ := (copyAll_spares h.distinct'.apart hmem').of_ok hcopy'
  have hrows := hholds.rows
  have hrows' := hholds'.rows
  rw [refill_single] at hrows hrows'
  have hadded : d.allRows.Perm ((container (x, f)).trees ++ w.document.allRows) := hrows
  have hadded' : e.allRows.Perm ((container (x', f')).trees ++ w'.document.allRows) := hrows'
  rw [hbody.join_runs h] at hbare'
  have htidy : Tidy f := (hbody.tidy_join hd).of_bare hbare
  -- The root stands for the container, as any node would that is not unfolded.
  obtain ⟨v', hagrees, hunfold, htops, -, hunfolds⟩ := h.grow
    (f := single w.document.root (.element ⟨containerName, []⟩) (join (ys.map w.document.tree)))
    hholds.distinct hholds'.distinct hspares.grows hspares'.grows hadded hadded' (by rw [container, bare_single, bare_single, hbare])
    (by rw [container, unfold_single, Unfolding.slot_of_none h.root, bare_single, bare_single, hbare'])
    (h.fitsIn_tree h.root fun _ hentry => hd.mem_nodes_of_mem_trees hentry)
    fun t ht => (List.mem_singleton.1 ht) ▸ h.root
  have hframe : v'.frame? x = none := htops x List.mem_cons_self
  rw [container, unfold_single, Unfolding.slot_of_none hframe, container] at hunfold
  have hshown' : Shown v' d := by
    refine hshown.spares hd hspares hagrees hunfolds fun z hz hout hz' => ?_
    have hin := (hrows.flatMap_right Forest.ids).mem_iff.1 hz
    rw [List.flatMap_cons, List.mem_append] at hin
    have hin := hin.resolve_right hout
    rw [single, ids_cons, ids_nil, List.append_nil, List.mem_cons] at hin
    have hin := hin.resolve_left fun heq => hz' (heq ▸ hframe)
    have hshows := hholds.distinct.shows_below x
    have hcontainer : container (x, f) ∈ d.allRows := hrows.mem_iff.2 List.mem_cons_self
    rw [hholds.distinct.below_container hcontainer] at hshows
    exact (hshows.tidy_iff.1 htidy z hin).2 (hunfolds.isNamed_of_unfolded hz hz')
  refine Merge.lockstep_ok hcopy hcopy' (hsame.document _ _)
    ⟨f, v', ⟨hspares, hagrees, hunfolds, hshown', ⟨[], hrows⟩, ?_⟩, ?_, htidy, ?_⟩
  · exact fun copy hcopy => (List.mem_singleton.1 hcopy) ▸ hframe
  · exact (cons.inj hunfold).1.symm
  · rintro rfl
    exact eq_nil_of_bare hbare

/-! ## Rendered copies -/

/-- Two renderers do the same below nodes that stand alone, where one document is the other one with
fields unfolded. Where there are no fields, nothing is done. -/
structure Simulates (renderBelow renderBelow' : Renderer) : Prop where
  apart : RendersApart renderBelow
  idle : ∀ ⦃context : Context⦄ ⦃w w₁ : Workspace⦄ ⦃x : NodeId⦄, Field.discover w.document x = [] →
    renderBelow context x w = .ok () w₁ → w₁ = w
  abreast : ∀ ⦃context : Context⦄ ⦃w w' : Workspace⦄ ⦃v : Unfolding⦄ ⦃x : NodeId⦄, context.Passive →
    Merge.SameRegistries w w' → w.document.Unfolds v w'.document → Shown v w.document →
    w.document.Alone x → v.frame? x = none → Tidy (w.document.tree x) →
      Merge.Lockstep (renderBelow context x) (renderBelow' context (v.name x)) w w' fun _ _ d e =>
        ∃ v', Statement.Reached w.document v x [] v' d e

/-- What has been rendered in a container is still in it. -/
theorem exists_container (h : Statement.Reached d v x [] v' d' e') (hd : d.Distinct)
    (hrow : container (x, f) ∈ d.allRows) : ∃ g, container (x, g) ∈ d'.allRows := by
  have hlasts := h.continues.lasts
  have hsite := hd.site?_container hrow
  have hname : d.isNamed x containerName = true := by
    rw [isNamed, name?, node?_eq_site?, hsite]
    rfl
  obtain ⟨node, g, halone⟩ := hlasts.alone x (.inl rfl) ⟨_, _, hrow⟩
  have hnode := hlasts.node x (mem_ids_of_site? hsite) fun name hplaced => isNamed_of_ne hname fun heq => by
    subst heq
    revert hplaced
    decide
  rw [node?_eq_site?, node?_eq_site?, hsite, hlasts.distinct.site?_of_row halone List.mem_cons_self,
    single, Forest.site?, if_pos rfl] at hnode
  obtain rfl : node = .element ⟨containerName, []⟩ := Option.some.inj hnode
  exact ⟨g, halone⟩

section Render

variable (hrenders : Simulates renderBelow renderBelow') (hpassive : context.Passive)
  (h : w.document.Unfolds v w'.document) (hsame : Merge.SameRegistries w w')
  (hshown : Shown v w.document) (hbody : Bodied v w.document a ys)
include hrenders hpassive h hsame hshown hbody

/-- A copy of the body is rendered in both documents. -/
theorem render_abreast {b b' : Block} (hb : b.settled? = some ys)
    (hb' : b'.settled? = some (ys.flatMap (v.runs w.document))) :
    Merge.Lockstep (b.render renderBelow context) (b'.render renderBelow' context) w w'
      fun row row' d e => ∃ copy v', Copied w.document v [copy] v' d e ∧ row = copy.2.topIds ∧
        row' = (copy.2.unfold v').topIds ∧ (ys = [] → copy.2 = .nil) := by
  have hd := h.distinct
  have hmem : ∀ y ∈ ys, y ∈ w.document.ids := fun y hy => hbody.mem_ids hy
  have hrendered : Merge.Lockstep (b.render renderBelow context) (b'.render renderBelow' context) w w'
      fun row row' d e => ∃ x v', (∃ f, container (x, f) ∈ d.allRows) ∧ x ∉ w.document.ids ∧
        Unfolding.Extends w.document.ids v v' ∧ d.Unfolds v' e ∧ Shown v' d ∧ v'.frame? x = none ∧
          row = d.children x ∧ row' = e.children (v'.name x) ∧ (ys = [] → d.below x = .nil) := by
    unfold render
    refine Merge.lockstep_document ?_
    rw [body, body, hb, hb']
    refine (copyAll_abreast h hsame hshown hbody).bind ?_
    rintro x w₁ _ w₁' - hsame₁ ⟨f, v₁, hcopied, rfl, htidy, hnil⟩
    have hd₁ := hcopied.unfolds.distinct
    have hrow := hcopied.mem_rows (List.mem_singleton_self _)
    have hframe := hcopied.name _ (List.mem_singleton_self _)
    have hsite := hd₁.site?_container hrow
    have htree : w₁.document.tree x = container (x, f) := tree_of_site? hsite
    have hx := mem_ids_of_site? hsite
    refine (hrenders.abreast hpassive hsame₁ hcopied.unfolds hcopied.shown ⟨_, _, hrow⟩ hframe ?_).bind ?_
    · rw [htree]
      exact ⟨rfl, fun hname => absurd hname (by decide), htidy, trivial⟩
    rintro _ w₂ _ w₂' hrender hsame₂ ⟨v₂, ⟨hagrees, hunfolds, hlasts⟩, hshown₂⟩
    refine Merge.lockstep_document (Merge.lockstep_pure hsame₂ ?_)
    refine ⟨x, v₂, ?_, hcopied.out (List.mem_singleton_self _) List.mem_cons_self,
      hcopied.agrees.trans hagrees hcopied.spares.ids, hunfolds, hshown₂,
      (hagrees.frame x hx).trans hframe, rfl, by rw [hagrees.name x hx], fun hys => ?_⟩
    · exact exists_container ⟨⟨hagrees, hunfolds, hlasts⟩, hshown₂⟩ hd₁ hrow
    · obtain rfl := hnil hys
      have hidle := hrenders.idle (by rw [Field.discover, htree]; rfl) hrender
      rw [hidle, hd₁.below_container hrow]
  -- That the copy stands apart from what was there is known of the first document alone.
  have hleft := render_spares hrenders.apart hpassive hd.apart (b := b)
    (by rw [body, hb]; exact hmem)
  refine hrendered.imp fun row w₂ row' w₂' hrow hrelated => ?_
  obtain ⟨x, v', ⟨f, hcontainer⟩, hout, hagrees, hunfolds, hshown', hframe, rfl, rfl, hnil⟩ := hrelated
  obtain ⟨hspares, -⟩ := hleft.of_ok hrow
  have hbelow := hunfolds.distinct.below_container hcontainer
  have hx := mem_ids_of_site? (hunfolds.distinct.site?_container hcontainer)
  refine ⟨(x, f), v', .of_container hspares hagrees hunfolds hshown' hframe hout hcontainer, ?_, ?_,
    fun hys => ?_⟩
  · rw [Document.children, hbelow]
    rfl
  · rw [Document.children, hunfolds.below_eq hx hframe, hbelow]
    rfl
  · rw [← hnil hys, hbelow]

/-- Copies of the body are rendered in both documents, one for each of several values. -/
theorem renderEach_abreast {b b' : Block} (hb : b.settled? = some ys)
    (hb' : b'.settled? = some (ys.flatMap (v.runs w.document))) (name : String) {items : List Value}
    (hitems : ∀ item ∈ items, item.Passive) :
    Merge.Lockstep (items.mapM fun item => b.render renderBelow (context.bind name item))
      (items.mapM fun item => b'.render renderBelow' (context.bind name item)) w w'
      fun rows rows' d e => ∃ copies v', Copied w.document v copies v' d e ∧
        rows.flatten = copies.flatMap (·.2.topIds) ∧
        rows'.flatten = copies.flatMap (fun copy => (copy.2.unfold v').topIds) ∧
        (ys = [] → ∀ copy ∈ copies, copy.2 = .nil) := by
  induction items generalizing w w' v with
  | nil => exact Merge.lockstep_pure hsame ⟨[], v, .refl h hshown, rfl, rfl, nofun⟩
  | cons item items ih =>
    rw [List.forall_mem_cons] at hitems
    rw [List.mapM_cons, List.mapM_cons]
    refine (render_abreast hrenders (hpassive.bind name hitems.1) h hsame hshown hbody hb hb').bind ?_
    rintro _ w₁ _ w₁' - hsame₁ ⟨copy, v₁, hcopied, rfl, rfl, hnil⟩
    have hb' : b'.settled? = some (ys.flatMap (v₁.runs w₁.document)) := by
      rw [hb', hbody.runs_later hcopied h.distinct]
    refine (ih hcopied.unfolds hsame₁ hcopied.shown (hbody.later hcopied h.distinct) hb' hitems.2).bind ?_
    rintro rows w₂ rows' w₂' - hsame₂ ⟨copies, v₂, hcopies, hrows, hrows', hnils⟩
    refine Merge.lockstep_pure hsame₂ ⟨copy :: copies, v₂, hcopied.trans hcopies, ?_, ?_, fun hys => ?_⟩
    · rw [List.flatten_cons, hrows, List.flatMap_cons]
    · have hold : copy.2.ids ⊆ w₁.document.ids := fun y hy =>
        hcopied.mem_ids (List.mem_singleton_self _) (by simp [container, single, hy])
      rw [List.flatten_cons, hrows', List.flatMap_cons, hcopies.agrees.unfold hold]
    · exact List.forall_mem_cons.2 ⟨hnil hys, hnils hys⟩

end Render

/-! ## Replacing -/

/-- The turn of a block between simple fields has come. It is in no field, in a tidy row, and stands
before none of the anchors that later blocks rely on. -/
structure AtTurn (v : Unfolding) (d : Document) (p : NodeId → Prop) (b : Block) : Prop where
  first : b.first ∈ d.ids
  last : b.last ∈ d.ids
  clear : ∀ y, d.isNamed y "w:fldSimple" = true → ∀ a ∈ [b.first, b.last], a ∉ (d.below y).ids
  display : ∀ a ∈ [b.first, b.last], d.isNamed a "w:fldSimple" = true → Display (d.below a)
  tidy : Tidy (d.following b.first)
  parted : d.parent? b.first = none → d.following b.first = .nil
  mem : ∀ f, p f → f ∈ d.ids
  after : ∀ f, p f → b.first ∉ (d.following f).ids
  frame : b.frame = [b.first, b.last]
  frame' : (v.block d b).frame = [b.first, b.last].flatMap (v.runs d)
  unsettled : b.settled? = none

theorem span_subset (d : Document) (b : Block) : b.span d ⊆ (d.following b.first).topIds := fun _ hy =>
  mem_topIds_of_mem_followingElements ((List.takeWhile_sublist _).subset hy)

namespace AtTurn

variable {p : NodeId → Prop} {b : Block} (hturn : AtTurn v d p b) (h : d.Unfolds v e)
include hturn

theorem body_eq : b.body d = b.span d := by
  rw [body, hturn.unsettled, Option.getD_none]

include h

theorem parent_clear (ha : a ∈ [b.first, b.last]) : ∀ z, d.parent? a = some z → v.frame? z = none := by
  intro z hz
  by_contra hframe
  have hin := mem_ids_of_mem_topIds (h.distinct.mem_children_of_parent? hz)
  have hmem := mem_ids_of_descendants (mem_descendants_of_mem_below hin)
  exact hturn.clear z (h.isNamed_of_unfolded hmem hframe) a ha hin

theorem bodied : Bodied v d b.first (b.span d) where
  mem := hturn.first
  clear := hturn.parent_clear h List.mem_cons_self
  tidy := hturn.tidy
  nodes := span_subset d b

theorem display_of_following (hy : y ∈ (d.following b.first).topIds)
    (hname : d.isNamed y "w:fldSimple" = true) : Display (d.below y) :=
  ((h.distinct.shows_following _).tidy_iff.1 hturn.tidy y (mem_ids_of_mem_topIds hy)).2 hname

theorem display_of_taken (hy : y ∈ b.span d ++ [b.first, b.last])
    (hname : d.isNamed y "w:fldSimple" = true) : Display (d.below y) := by
  rcases List.mem_append.1 hy with hy | hy
  · exact hturn.display_of_following h (span_subset d b hy) hname
  · exact hturn.display y hy hname

theorem taken_clear (hz : z ∈ b.span d ++ [b.first, b.last]) (hname : d.isNamed y "w:fldSimple" = true) :
    z ∉ (d.below y).ids := by
  rcases List.mem_append.1 hz with hz | hz
  · intro hin
    have hne : z ≠ y := by
      rintro rfl
      exact h.distinct.notMem_below_self _ hin
    have hfirst := h.distinct.mem_descendants_of_following (span_subset d b hz)
      (mem_descendants_of_mem_below hin) hne
    rcases (mem_descendants_iff_below (mem_ids_of_isNamed hname)).1 hfirst with rfl | hfirst
    · exact h.distinct.notMem_below_of_following (mem_ids_of_mem_topIds (span_subset d b hz)) hin
    · exact hturn.clear y hname _ List.mem_cons_self hfirst
  · exact hturn.clear y hname z hz

theorem taken_subset : b.span d ++ [b.first, b.last] ⊆ d.ids := by
  intro y hy
  rcases List.mem_append.1 hy with hy | hy
  · exact (hturn.bodied h).mem_ids hy
  · rcases List.mem_pair.1 hy with rfl | rfl
    · exact hturn.first
    · exact hturn.last

/-- A block in the document with unfolded fields has the body that is made of the body of the other
one. -/
theorem settle_eq :
    (v.block d b).settle e = v.block d (b.settle d) := by
  have hspan := h.span_eq hturn.first hturn.last (hturn.parent_clear h List.mem_cons_self)
    (hturn.parent_clear h (List.mem_cons_of_mem _ List.mem_cons_self)) fun y hy hframe =>
      hturn.display_of_following h hy
        (h.isNamed_of_unfolded (mem_ids_of_mem_following (mem_ids_of_mem_topIds hy)) hframe)
  have hbody : (v.block d b).body e = (b.body d).flatMap (v.runs d) := by
    have hnone : (v.block d b).settled? = none := by rw [Unfolding.block, hturn.unsettled, Option.map_none]
    rw [body, hnone, Option.getD_none, hspan, hturn.body_eq]
  rw [settle, hbody]
  rfl

end AtTurn

section Replace

variable {p : NodeId → Prop} {b : Block} (hturn : AtTurn v d p b) (h : d.Unfolds v e)
  (hsame : Merge.SameRegistries w w')
include hturn h hsame

/-- Settled blocks are replaced by rendered copies in both documents. -/
theorem AtTurn.replace_abreast (hcopied : Copied d v copies v' w.document w'.document)
    (hempty : b.span d = [] → ∀ copy ∈ copies, copy.2 = .nil) :
    Merge.Lockstep ((b.settle d).replace (copies.flatMap (·.2.topIds)))
      ((v.block d (b.settle d)).replace (copies.flatMap fun copy => (copy.2.unfold v').topIds)) w w'
      fun _ _ d' e' => Continues d v (fun y => d.isNamed y "w:fldSimple" = true) p v' d' e' ∧
        Shown v' d' := by
  have hd := h.distinct
  have hd' := hcopied.unfolds.distinct
  have hbody := hturn.bodied h
  have hstop := hcopied.agrees.stop hturn.first
  have hmem : b.first ∈ w.document.ids := hcopied.spares.ids hturn.first
  -- What lasts until the anchors and the body are taken out.
  have hlasts : Lasts (fun y => d.isNamed y "w:fldSimple" = true)
      (fun f => p f ∧ f ∉ b.span d ++ [b.first, b.last]) d w.document :=
    .of_spares hd hcopied.spares (fun _ hy => mem_ids_of_isNamed hy) fun f hf => hturn.mem f hf.1
  have hat : Remote (fun y => d.isNamed y "w:fldSimple" = true)
      (fun f => p f ∧ f ∉ b.span d ++ [b.first, b.last]) d b.first :=
    ⟨fun y hy _ => hturn.clear y hy _ List.mem_cons_self,
      fun f hf heq => hf.2 (heq ▸ List.mem_append_right _ List.mem_cons_self),
      fun f hf => hturn.after f hf.1⟩
  have hinserted : Merge.Lockstep (Merge.insertAllAfter b.first (copies.flatMap (·.2.topIds)))
      (Merge.insertAllAfter (v.stop b.first) (copies.flatMap fun copy => (copy.2.unfold v').topIds)) w w'
      fun _ _ d' e' => Continues d v (fun y => d.isNamed y "w:fldSimple" = true)
        (fun f => p f ∧ f ∉ b.span d ++ [b.first, b.last]) v' d' e' ∧ Shown v' d' := by
    have hparent := hd.apart.parent?_eq hcopied.spares.apart hturn.first
    cases hnone : w.document.parent? b.first with
    | none =>
      have hspan : b.span d = [] := by
        rw [Block.span, followingElements, hturn.parted (hparent.trans hnone)]
        rfl
      have hnil := hempty hspan
      rw [List.flatMap_eq_nil_iff.2 fun copy hcopy => by rw [hnil copy hcopy]; rfl,
        List.flatMap_eq_nil_iff.2 fun copy hcopy => by rw [hnil copy hcopy]; rfl]
      exact Merge.lockstep_pure hsame ⟨⟨hcopied.agrees, hcopied.unfolds, hlasts⟩, hcopied.shown⟩
    | some z =>
      obtain ⟨own, hrows⟩ := hcopied.rows
      have hlater := hbody.later hcopied hd
      obtain ⟨d₂, e₂, hins, hins', hplanted, hunfolds⟩ :=
        hcopied.unfolds.insertContainers hrows hcopied.name
          (by rw [List.flatMap_append]; exact List.mem_append_right _ hturn.first) (by simp [hnone])
          hlater.clear
      rw [hstop] at hins'
      refine Merge.lockstep_ok hins hins' (hsame.document _ _) ⟨⟨hcopied.agrees, hunfolds, ?_⟩, ?_⟩
      · refine hlasts.plant hplanted (fun y hy => ?_) (fun _ hy => mem_ids_of_isNamed hy)
          (fun f hf => hturn.mem f hf.1) (hat.later hturn.first (fun _ hy => mem_ids_of_isNamed hy) hlasts)
        obtain ⟨_, htree, hy⟩ := List.mem_flatMap.1 hy
        obtain ⟨copy, hcopy, rfl⟩ := List.mem_map.1 htree
        exact hcopied.out hcopy hy
      · refine hcopied.shown.plant hd' hplanted hcopied.name (fun copy hcopy => hcopied.mem_rows hcopy)
          fun y hy hframe hin => ?_
        have hbefore := hlasts.inner hturn.first hin
        have hy' := mem_ids_of_descendants (mem_descendants_of_mem_below hbefore)
        have hname := hcopied.unfolds.isNamed_of_unfolded hy hframe
        rw [hlasts.isNamed hy'] at hname
        exact hturn.clear y hname _ List.mem_cons_self hbefore
  unfold replace
  refine Merge.lockstep_document (hinserted.bind ?_)
  rintro - w₂ - w₂' - hsame₂ ⟨hcont, hshown₂⟩
  refine Merge.lockstep_edit hsame₂ ?_
  rw [removeFrame_detachAll, removeFrame_detachAll]
  have hspan := hturn.body_eq
  have hbody₁ : (b.settle d).body w.document ++ (b.settle d).frame = b.span d ++ [b.first, b.last] := by
    change b.body d ++ b.frame = _
    rw [hspan, hturn.frame]
  have hbody₂ : (v.block d (b.settle d)).body w'.document ++ (v.block d (b.settle d)).frame =
      (b.span d ++ [b.first, b.last]).flatMap (v.runs d) := by
    change (b.body d).flatMap (v.runs d) ++ (v.block d b).frame = _
    rw [hspan, hturn.frame', List.flatMap_append]
  rw [hbody₁, hbody₂]
  exact hcont.detachAll h hshown₂ hturn.mem (hturn.taken_subset h)
    (fun y hy hframe => hturn.display_of_taken h hy
      (h.isNamed_of_unfolded (hturn.taken_subset h hy) hframe))
    fun y hy z hz => hturn.taken_clear h hz hy

end Replace

end Block
end MailMerge
