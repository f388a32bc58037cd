import MailMerge.Proofs.Block.Anchors
import MailMerge.Proofs.Block.Siblings
import MailMerge.Proofs.Rendering.Undisturbed

/-!
# What loops leave

A loop renders a copy of its body for each item, beside the document, and puts all of them in the
place of its block. A block between two fields that have been found stands where its anchors do
(`Block.stands_between`). Main statement: what is put in the place of a block comes between its
siblings, and of a loop these are the rendered bodies in the order of the items
(`Block.replace_siblings`).
-/

namespace MailMerge

open Xml

variable {w w' : Workspace} {c d e : Document} {b : Block} {q : NodeId}
  {nodes before between after : List NodeId}

namespace Xml.Document

theorem Spares.isElement_eq (hd : d.Distinct) (h : d.Spares d.allRows e) {x : NodeId}
    (hx : x ∈ d.ids) : e.isElement x = d.isElement x := by
  rw [isElement, isElement, (h.undisturbed hd).node x hx]

theorem Spares.followingElements_eq (hd : d.Distinct) (h : d.Spares d.allRows e) {x : NodeId}
    (hx : x ∈ d.ids) : e.followingElements x = d.followingElements x := by
  rw [followingElements, followingElements, h.apart.following_eq hd.apart hx]

end Xml.Document

theorem Merge.length_of_mapM_ok {α β : Type} {step : α → Merge β} {xs : List α} {ys : List β}
    (h : xs.mapM step w = .ok ys w') : ys.length = xs.length := by
  induction xs generalizing w ys with
  | nil =>
    cases h
    rfl
  | cons x xs ih =>
    rw [List.mapM_cons] at h
    obtain ⟨y, w₁, -, h⟩ := exists_of_bind_ok h
    obtain ⟨rest, w₂, hrest, h⟩ := exists_of_bind_ok h
    cases h
    rw [List.length_cons, ih hrest, List.length_cons]

/-! ## Where blocks stand -/

theorem Field.isElement_start {field : Field} {x : NodeId} (hd : d.Proper)
    (hfield : field ∈ discover d x) : d.isElement field.start = true := by
  obtain ⟨⟨m, node⟩, hm, hfound⟩ := List.mem_filterMap.1 hfield
  have hbegins : field.BeginsAt d m :=
    ⟨node, (hd.shows_tree x).node? hm, (Option.filter_eq_some_iff.1 hfound).1⟩
  rcases hbegins.cases hd.toDistinct with ⟨hnodes, n, hn, helement⟩ | ⟨first, hruns⟩
  · rw [start_eq_of_nodes hnodes, Document.isElement, hn]
    exact helement
  · rw [start_eq_of_nodes hruns.nodes]
    obtain ⟨s, hs, hchild⟩ := Document.mem_children_iff.1 hruns.child
    rw [Document.isElement, Document.node?_eq_site?, hs]
    by_contra hno
    rw [hd.leaves first s hs (by simpa using hno)] at hchild
    cases hchild

namespace Block

/-- A block between two fields stands where its anchors do, if these are children of one node. -/
theorem stands_between {start stop : Field} {x : NodeId} {inner : List NodeId} (hd : d.Proper)
    (hstop : stop ∈ Field.discover d x)
    (hchildren : d.children q = before ++ (Block.between d start stop).first ::
      (inner ++ (Block.between d start stop).last :: after))
    (hfields : classify d start stop = .inline → start.nodes ++ stop.nodes ⊆ d.children q) :
    (Block.between d start stop).Stands d q before inner after := by
  refine ⟨hchildren, ?_, hfields, rfl⟩
  have helement := Field.isElement_start hd hstop
  have hancestor : ∀ name, d.isElement ((stop.ancestor? d name).getD stop.start) = true := by
    intro name
    cases hfound : stop.ancestor? d name with
    | none => exact helement
    | some y =>
      obtain ⟨⟨n, hn, hnamed⟩, -⟩ := hd.toDistinct.of_ancestor? hfound
      rw [Option.getD_some, Document.isElement, hn]
      exact Field.isElement_of_isNamed hnamed
  change d.isElement (anchor d (classify d start stop) stop stop.start) = true
  cases classify d start stop with
  | row => exact hancestor "w:tr"
  | paragraph => exact hancestor "w:p"
  | inline => exact helement

section Settled

variable (h : b.Stands d q before between after) (hd : d.Distinct)
  (hspares : d.Spares d.allRows c)

include h hd hspares

/-- A block stands where it is while nodes are made elsewhere. -/
theorem Stands.later : (b.settle d).Stands c q before between after := by
  obtain ⟨hq, hlast⟩ : q ∈ d.ids ∧ b.last ∈ d.ids :=
    Document.mem_ids_of_mem_children (by simp [h.children])
  have hchildren : c.children q = d.children q := hspares.children hd hq
  refine ⟨hchildren.trans h.children, (hspares.isElement_eq hd hlast).trans h.last, ?_, ?_⟩
  · intro hkind
    rw [hchildren]
    exact h.fields hkind
  · have hspan : (b.settle d).span c = b.span d := by
      rw [span, span]
      change (c.followingElements b.first).takeWhile _ = _
      rw [hspares.followingElements_eq hd h.first_mem]
      rfl
    rw [hspan]
    exact h.settled

/-- What has been made elsewhere is no part of the rest of the document. -/
theorem Replaced.earlier (hreplaced : (b.settle d).Replaced c q before between after nodes e) :
    b.Replaced d q before between after nodes e := by
  refine ⟨?_, fun p hp hne => ?_⟩
  · have hsame : (between.filter fun x => !c.isElement x) =
        between.filter fun x => !d.isElement x := by
      refine List.filter_congr fun x hx => ?_
      have hchild : x ∈ d.children q := by simp [h.children, hx]
      rw [hspares.isElement_eq hd (Document.mem_ids_of_mem_children hchild).2]
    rw [← hsame]
    exact hreplaced.siblings
  · rw [← hspares.children hd hp]
    exact hreplaced.others p (hspares.ids hp) hne

end Settled

/-! ## Rendered bodies -/

section Rendered

variable {context : Context} {renderBelow : Renderer} {body : List NodeId} {items : List Value}
  {rows : List (List NodeId)}

/-- What a copy has become are the children of one node. -/
theorem nodup_render (hrenders : RendersApart renderBelow) (hpassive : context.Passive)
    (hd : w.document.Distinct) (hbody : ∀ x ∈ b.body w.document, x ∈ w.document.ids)
    (hrun : b.render renderBelow context w = .ok nodes w') : nodes.Nodup := by
  obtain ⟨hspares, -⟩ := (render_spares hrenders hpassive hd.apart hbody).of_ok hrun
  unfold render at hrun
  rw [Merge.document_bind] at hrun
  obtain ⟨x, w₁, -, hrun⟩ := Merge.exists_of_bind_ok hrun
  obtain ⟨⟨⟩, w₂, -, hrun⟩ := Merge.exists_of_bind_ok hrun
  cases hrun
  exact (hspares.apart.distinct.nodup_below x).sublist (Forest.topIds_sublist _)

/-- Copies that are rendered one after the other have no nodes in common. -/
theorem nodup_renderEach (hrenders : RendersApart renderBelow) (hpassive : context.Passive)
    (hd : w.document.Distinct) (hsettled : b.settled? = some body)
    (hbody : ∀ x ∈ body, x ∈ w.document.ids) (name : String)
    (hitems : ∀ item ∈ items, item.Passive)
    (hrun : (items.mapM fun item => b.render renderBelow (context.bind name item)) w =
      .ok rows w') : rows.flatten.Nodup := by
  induction items generalizing w rows with
  | nil =>
    cases hrun
    exact List.nodup_nil
  | cons item items ih =>
    rw [List.mapM_cons] at hrun
    obtain ⟨row, w₁, hfirst, hrun⟩ := Merge.exists_of_bind_ok hrun
    obtain ⟨more, w₂, hlater, hrun⟩ := Merge.exists_of_bind_ok hrun
    cases hrun
    have hitem := hpassive.bind name (hitems item List.mem_cons_self)
    have hmore : ∀ item ∈ items, item.Passive :=
      fun item hin => hitems item (List.mem_cons_of_mem _ hin)
    have hb : ∀ x ∈ b.body w.document, x ∈ w.document.ids := by rwa [Block.body, hsettled]
    obtain ⟨hspares, hfree⟩ := (render_spares hrenders hitem hd.apart hb).of_ok hfirst
    have hd₁ := hspares.apart.distinct
    have hbody₁ : ∀ x ∈ body, x ∈ w₁.document.ids := fun x hx => hspares.ids (hbody x hx)
    obtain ⟨-, hnew⟩ := (renderEach_spares hrenders hpassive hd₁.apart hsettled hbody₁ name
      hmore).of_ok hlater
    rw [List.flatten_cons, List.nodup_append]
    refine ⟨nodup_render hrenders hitem hd hb hfirst, ih hd₁ hbody₁ hmore hlater, ?_⟩
    rintro x hx y hy rfl
    exact (hnew x hy).out (hfree x hx).mem

/-- A loop puts the bodies that it has rendered in the place of its block. -/
theorem evaluateBlock_each {host : Host} {path name : String}
    (hlist : (Expression.parse path).evaluate? context = .ok (some (.list items)))
    (hrun : (items.mapM fun item => (b.settle w.document).render renderBelow
      (context.bind name item)) w = .ok rows w') :
    Statement.evaluateBlock host renderBelow context (.each path name) b w =
      (b.settle w.document).replace rows.flatten w' := by
  have hloop : Statement.evaluateLoop renderBelow context path name (b.settle w.document) = (do
      let rows ← items.mapM fun item =>
        (b.settle w.document).render renderBelow (context.bind name item)
      (b.settle w.document).replace rows.flatten) := by
    unfold Statement.evaluateLoop
    dsimp only
    rw [hlist, Merge.ofExcept_ok_bind]
  unfold Statement.evaluateBlock
  rw [Merge.document_bind]
  exact (congrFun hloop w).trans (Merge.bind_ok hrun)

end Rendered

/-! ## Main statement -/

/-- Nodes that are not taken out with a block, and in which it does not stand, can be put in its
place: they come between the siblings before and after it and the texts that it leaves, and nothing
else changes. A loop puts the bodies there that it has rendered, one for each item, in their order;
unless callables have been at work, these can always be put there. A picture that opens or closes a
block among the runs stays. -/
theorem replace_siblings (hd : w.document.Distinct)
    (h : b.Stands w.document q before between after) :
    (∀ nodes : List NodeId, nodes.Nodup →
      (∀ x ∈ nodes, x ∈ w.document.ids ∧ x ∉ b.taken w.document ∧
        b.first ∉ w.document.descendants x) →
      ∃ w', b.replace nodes w = .ok () w' ∧
        b.Replaced w.document q before between after nodes w'.document) ∧
    ∀ (host : Host) (depth : Nat) (context : Context) (path name : String) (items : List Value)
      (rows : List (List NodeId)) (w₁ : Workspace),
      (Expression.parse path).evaluate? context = .ok (some (.list items)) →
      (items.mapM fun item => (b.settle w.document).render (Rendering.renderBelow host depth)
        (context.bind name item)) w = .ok rows w₁ →
      rows.length = items.length ∧
        Statement.evaluateBlock host (Rendering.renderBelow host depth) context (.each path name) b w =
          (b.settle w.document).replace rows.flatten w₁ ∧
        (context.Passive → ∃ w', (b.settle w.document).replace rows.flatten w₁ = .ok () w' ∧
          b.Replaced w.document q before between after rows.flatten w'.document) := by
  refine ⟨fun nodes hnodup hnodes => replace_replaced hd h hnodup hnodes, ?_⟩
  intro host depth context path name items rows w₁ hlist hrun
  refine ⟨Merge.length_of_mapM_ok hrun, evaluateBlock_each hlist hrun, fun hpassive => ?_⟩
  have hrenders := Rendering.renderBelow_spares host depth
  have hitems := (Expression.passive_of_evaluate? hpassive hlist).items
  have hbody : ∀ x ∈ b.body w.document, x ∈ w.document.ids := fun x hx =>
    (Document.mem_ids_of_mem_children (h.taken_subset hd (List.mem_append_left _ hx))).2
  obtain ⟨hspares, hfree⟩ := (renderEach_spares hrenders hpassive hd.apart
    (b := b.settle w.document) rfl hbody name hitems).of_ok hrun
  -- Rendering the bodies has moved nothing that the block stands among.
  have hlater := h.later hd hspares
  have hnodes : ∀ x ∈ rows.flatten, x ∈ w₁.document.ids ∧
      x ∉ (b.settle w.document).taken w₁.document ∧ b.first ∉ w₁.document.descendants x := by
    intro x hx
    refine ⟨(hfree x hx).mem, fun htaken => ?_, fun hin => ?_⟩
    · have hchildren : w₁.document.children q = w.document.children q :=
        hlater.children.trans h.children.symm
      have hchild := hlater.taken_subset hspares.apart.distinct htaken
      rw [hchildren] at hchild
      exact (hfree x hx).out (Document.mem_ids_of_mem_children hchild).2
    · exact (hspares.apart.free_of_mem_descendants (hfree x hx) hin).out h.first_mem
  obtain ⟨w', hreplace, hreplaced⟩ := replace_replaced hspares.apart.distinct hlater
    (nodup_renderEach hrenders hpassive hd rfl hbody name hitems hrun) hnodes
  exact ⟨w', hreplace, hreplaced.earlier h hd hspares⟩

/-- A loop around one paragraph with texts before and after it, and another paragraph behind. -/
def listedPart : Document where
  rows := [.ofElement 0 "w:body" (.ofElement 1 "w:p" (.ofDirective 2 "xs:each(x)") ++
    .single 3 (.text "a") .nil ++ .ofElement 4 "w:p" (.ofElement 5 "w:r" .nil) ++
    .single 6 (.text "b") .nil ++ .ofElement 7 "w:p" (.ofDirective 8 "xs:endEach") ++
    .ofElement 9 "w:p" .nil)]
  aside := []
  root := 0
  next := 10
  declaration := none

/-- The block of the loop. -/
def listedBlock : Block where
  kind := .paragraph
  start := ⟨.simple 2, " MERGEFIELD xs:each(x) \\* MERGEFORMAT ", "xs:each(x)"⟩
  stop := ⟨.simple 8, " MERGEFIELD xs:endEach \\* MERGEFORMAT ", "xs:endEach"⟩
  first := 1
  last := 7

/-- The values of the loop. -/
def listedContext : Context := ⟨[("xs", .list [.null, .bool true])]⟩

/-- The paragraph behind the block and the run of its body can be put in its place, and so can what
a loop over two items makes of the body. -/
theorem listedBlock_siblings :
    (∃ w', listedBlock.replace [9, 5] ⟨listedPart, {}, {}⟩ = .ok () w' ∧
      w'.document.children 0 = [9, 5, 3, 6]) ∧
    ∃ w', Statement.evaluateBlock {} (Rendering.renderBelow {} 1) listedContext (.each "xs" "x")
        listedBlock ⟨listedPart, {}, {}⟩ = .ok () w' ∧
      w'.document.children 0 = [11, 14, 3, 6, 9] := by
  have hd : listedPart.Distinct := ⟨by decide, by decide⟩
  have h : listedBlock.Stands listedPart 0 [] [3, 4, 6] [9] :=
    ⟨by decide, by decide, nofun, rfl⟩
  obtain ⟨hnodes, hloop⟩ := replace_siblings (w := ⟨listedPart, {}, {}⟩) hd h
  constructor
  · obtain ⟨w', hrun, hreplaced⟩ := hnodes [9, 5] (by decide) (by decide)
    exact ⟨w', hrun, hreplaced.siblings.trans (by decide)⟩
  · have hpassive : listedContext.Passive := by
      refine List.forall_mem_singleton.2 (.list ?_)
      simp [Value.Passive.null, Value.Passive.bool]
    let rendered : Merge (List (List NodeId)) := ([.null, .bool true] : List Value).mapM fun item =>
      (listedBlock.settle listedPart).render (Rendering.renderBelow {} 1)
        (listedContext.bind "x" item)
    have hrows : rendered.run' ⟨listedPart, {}, {}⟩ = some [[11], [14]] := by decide +kernel
    delta EStateM.run' EStateM.run at hrows
    cases hrun : rendered ⟨listedPart, {}, {}⟩ with
    | error error w₁ =>
      rw [hrun] at hrows
      cases hrows
    | ok rows w₁ =>
      rw [hrun] at hrows
      cases hrows
      obtain ⟨-, hevaluate, hplaced⟩ := hloop {} 1 listedContext "xs" "x" _ _ w₁ rfl hrun
      obtain ⟨w', hreplace, hreplaced⟩ := hplaced hpassive
      exact ⟨w', hevaluate.trans hreplace, hreplaced.siblings.trans (by decide)⟩

/-- A picture placeholder, a text and a field in one run. -/
def picturePart : Document where
  rows := [.ofElement 0 "w:p" (.ofElement 1 "w:r"
    (.ofElement 2 "w:drawing" (.single 3 (.element ⟨"pic:cNvPr", [⟨"name", "=x"⟩]⟩) .nil) ++
      .ofElement 4 "w:t" (.single 5 (.text "body") .nil) ++ .ofDirective 6 "=y"))]
  aside := []
  root := 0
  next := 7
  declaration := none

/-- The placeholder. -/
def placeholderField : Field := ⟨.image 2, "=x", "=x"⟩

/-- The field behind the text. -/
def closingField : Field := ⟨.simple 6, " MERGEFIELD =y \\* MERGEFORMAT ", "=y"⟩

/-- Not all nodes of the two fields go with a block among the runs: the placeholder stays. -/
theorem picture_stays : ¬∀ (w w' : Workspace) (x q : NodeId) (start stop : Field)
    (before inner after nodes : List NodeId), w.document.Proper →
    start ∈ Field.discover w.document x → stop ∈ Field.discover w.document x →
    (Block.between w.document start stop).kind = .inline →
    (Block.between w.document start stop).Stands w.document q before inner after →
    nodes.Nodup →
    (∀ y ∈ nodes, y ∈ w.document.ids ∧ y ∉ (Block.between w.document start stop).body w.document ∧
      y ∉ start.nodes ++ stop.nodes ∧
      (Block.between w.document start stop).first ∉ w.document.descendants y) →
    (Block.between w.document start stop).replace nodes w = .ok () w' →
    w'.document.children q = before.filter (· ∉ start.nodes ++ stop.nodes) ++ nodes ++
      (inner.filter fun y => !w.document.isElement y) ++
      after.filter (· ∉ start.nodes ++ stop.nodes) := by
  intro hplaced
  have hd : picturePart.Proper := Document.proper_single (by decide) (by decide) (by decide)
  have hstart : placeholderField ∈ Field.discover picturePart 0 := by decide +kernel
  have hstop : closingField ∈ Field.discover picturePart 0 := by decide +kernel
  have hinline : classify picturePart placeholderField closingField = .inline := by decide +kernel
  have hstands : (Block.between picturePart placeholderField closingField).Stands picturePart 1
      [] [4] [] :=
    stands_between hd hstop (by decide +kernel) fun _ => by decide
  have hgone := hplaced ⟨picturePart, {}, {}⟩ _ 0 1 placeholderField closingField [] [4] [] [] hd
    hstart hstop hinline hstands List.nodup_nil nofun (replace_nil _ _)
  exact absurd hgone (by decide +kernel)

end Block

end MailMerge
