import MailMerge.Proofs.Block.Call
import MailMerge.Proofs.Rendering.Apart
import MailMerge.Proofs.Xml.Place

/-!
# Bodies rendered beside the document

Copies of a body are rendered in rows of their own, and they are put into the document only after all
of them have been rendered. So rendering a body leaves every node of the document as it was, whether
or not it fails (`Block.render_undisturbed`), and a block that cannot be evaluated leaves the written
document as it was. The second half rests on the first: putting rendered copies in the place of a
block never fails, so that whatever fails has failed while copies were rendered.
-/

namespace MailMerge

open Xml

variable {rest : List Forest} {w w' : Workspace} {d e : Document} {x y : NodeId}

namespace Xml.Document

/-- All nodes of a document hold what they held, and have the parents and the children that they had,
in a later one. -/
structure Undisturbed (d e : Document) : Prop where
  node : ∀ y ∈ d.ids, e.node? y = d.node? y
  parent : ∀ y ∈ d.ids, e.parent? y = d.parent? y
  children : ∀ y ∈ d.ids, e.children y = d.children y

theorem Spares.undisturbed (hd : d.Distinct) (h : d.Spares d.allRows e) : d.Undisturbed e := by
  have hsite : ∀ y ∈ d.ids, e.site? y = d.site? y := fun y hy => h.apart.site?_eq hd.apart hy
  refine ⟨?_, ?_, ?_⟩
  · intro y hy
    rw [node?_eq_site?, node?_eq_site?, hsite y hy]
  · intro y hy
    rw [parent?, parent?, ancestors, ancestors, h.apart.enclosing_eq hd.apart hy]
  · intro y hy
    rw [children_eq_site?, children_eq_site?, hsite y hy]

/-- What is written of a document stands in the rows that it had. -/
theorem Spares.markup_eq (hd : d.WellFormed) (h : d.Spares d.allRows e) : e.markup = d.markup := by
  have htree : e.tree d.root = d.tree d.root := by
    rw [h.apart.tree_eq hd.apart hd.rooted]
  rw [markup, markup, nodeMarkup, nodeMarkup, h.grows.root, h.grows.declaration, htree]

end Xml.Document

/-! ## What is put in the place of a block -/

namespace Block

variable {b : Block} {nodes : List NodeId}

/-- Nodes outside the rows of the first anchor can always be put in the place of a block. -/
theorem exists_replace_ok (h : w.document.Apart rest) (hfirst : b.first ∈ rest.flatMap Forest.ids)
    (hnodes : ∀ x ∈ nodes, w.document.Free rest x) : ∃ w', b.replace nodes w = .ok () w' := by
  have hanchor : b.first ∈ w.document.ids := h.mem_ids_of_mem_rest hfirst
  have houtside : ∀ x ∈ nodes, x ∈ w.document.ids ∧ b.first ∉ w.document.descendants x := by
    intro x hx
    refine ⟨(hnodes x hx).mem, fun hin => ?_⟩
    exact (h.free_of_mem_descendants (hnodes x hx) hin).out hfirst
  obtain ⟨w₁, hinsert, -⟩ := Merge.exists_insertAllAfter_ok h.distinct hanchor houtside
  refine ⟨{ w₁ with document := b.removeFrame (w₁.document.detachAll (b.body w.document)) }, ?_⟩
  unfold replace
  rw [Merge.document_bind, Merge.bind_ok hinsert, Merge.edit_apply]

end Block

/-! ## Blocks that cannot be evaluated -/

namespace Merge

variable {α β : Type}

/-- A step that fails leaves some given rows as they were. -/
def FailsApart (m : Merge α) (rest : List Forest) (w : Workspace) : Prop :=
  ∀ error w', m w = .error error w' → w.document.Spares rest w'.document

theorem failsApart_ok {m : Merge α} {a : α} (h : m w = .ok a w') : m.FailsApart rest w := by
  intro error w'' hrun
  rw [h] at hrun
  cases hrun

theorem failsApart_throw (h : w.document.Apart rest) (error : MergeError) :
    (throw error : Merge α).FailsApart rest w := by
  intro error' w' hrun
  cases hrun
  exact .refl h

/-- A step that always succeeds after another one leaves all failures to that one. -/
theorem Spares.failsApart {m : Merge α} {next : α → Merge β} {answers : α → Document → Prop}
    (h : m.Spares rest w answers)
    (hnext : ∀ a w', w.document.Spares rest w'.document → answers a w'.document →
      ∃ b w'', next a w' = .ok b w'') : (m >>= next).FailsApart rest w := by
  unfold Merge.Spares Merge.Leaves at h
  cases hm : m w with
  | error e w₁ =>
    rw [hm] at h
    intro error w' hrun
    rw [bind_error hm] at hrun
    cases hrun
    exact h
  | ok a w₁ =>
    rw [hm] at h
    obtain ⟨b, w₂, hok⟩ := hnext a w₁ h.1 h.2
    exact failsApart_ok ((bind_ok hm).trans hok)

end Merge

open Merge

/-- A block that cannot be evaluated leaves all rows of the document as they were. -/
theorem Statement.evaluateBlock_failsApart {b : Block} {renderBelow : Renderer} {context : Context}
    (host : Host) (hrenders : Block.RendersApart renderBelow) (hpassive : context.Passive)
    (hd : w.document.Distinct) (hfirst : b.first ∈ w.document.ids)
    (hbody : b.body w.document ⊆ w.document.ids) (opening : Opening) :
    (evaluateBlock host renderBelow context opening b).FailsApart w.document.allRows w := by
  have hapart := hd.apart
  -- Nodes apart from all rows can always be put in the place of the block.
  have hreplace : ∀ (nodes : List NodeId) (w₁ : Workspace),
      w.document.Spares w.document.allRows w₁.document →
      (∀ y ∈ nodes, w₁.document.Free w.document.allRows y) →
      ∃ u w₂, (b.settle w.document).replace nodes w₁ = .ok u w₂ := by
    intro nodes w₁ hspares hfree
    obtain ⟨w₂, hok⟩ := Block.exists_replace_ok (b := b.settle w.document) hspares.apart hfirst hfree
    exact ⟨(), w₂, hok⟩
  have hnone : ((b.settle w.document).replace []).FailsApart w.document.allRows w := by
    obtain ⟨u, w₂, hok⟩ := hreplace [] w (.refl hapart) (by simp)
    exact failsApart_ok hok
  obtain ⟨course, hcourse, hrun⟩ := exists_course hpassive opening
  rw [hrun]
  change (course renderBelow (b.settle w.document)).FailsApart w.document.allRows w
  cases hcourse with
  | fail => exact failsApart_throw hapart _
  | drop => exact hnone
  | keep =>
    have hcopy := Block.render_spares hrenders hpassive hapart (b := b.settle w.document) hbody
    exact hcopy.failsApart hreplace
  | @loop path name items hlist =>
    have hitems := (Expression.passive_of_evaluate? hpassive hlist).items
    have hrows := Block.renderEach_spares hrenders hpassive hapart (b := b.settle w.document) rfl
      hbody name hitems
    exact hrows.failsApart fun rows w₁ => hreplace rows.flatten w₁

/-! ## Main statement -/

namespace Block

variable {start stop : Field}

/-- The first anchor of a block between two fields stands in the document. -/
theorem first_mem_ids (hd : d.Distinct) (hstart : start ∈ Field.discover d x)
    (hstop : stop ∈ Field.discover d x) (hx : x ∈ d.ids) : (between d start stop).first ∈ d.ids := by
  have hapart : d.Apart [] := ⟨hd, d.allRows, by simp⟩
  have hfree : ∀ field ∈ Field.discover d x, ∀ y ∈ field.handles, d.Free [] y :=
    fun field hfield y hy => Field.free_of_mem_discover hapart ⟨hx, by simp⟩ hfield hy
  exact (free_between hapart (hfree start hstart) (hfree stop hstop)).first.mem

/-- Let two fields be found in a document, now or before other nodes came to it, and let there be no
callable in the context. Rendering a copy of the body between them, which may have been settled
earlier, leaves every node as it was, whether or not it fails and however deep blocks are nested; the
nodes that it answers are new. Where the block cannot be evaluated, the written document is what it
was before. -/
theorem render_undisturbed (host : Host) (depth : Nat) {context : Context}
    (hpassive : context.Passive) (hd : d.Distinct) (hstart : start ∈ Field.discover d x)
    (hstop : stop ∈ Field.discover d x) (hw : w.document.WellFormed)
    (hlater : d.ids ⊆ w.document.ids) :
    (∀ settled? : Option (List NodeId), (∀ nodes ∈ settled?, nodes ⊆ w.document.ids) →
      ({ between d start stop with settled? }.render (Rendering.renderBelow host depth)
        context).Leaves w Document.Undisturbed fun nodes e =>
          ∀ y ∈ nodes, y ∈ e.ids ∧ y ∉ w.document.ids) ∧
    ∀ opening error left,
      Statement.evaluate host (Rendering.renderBelow host depth) context
        (.block opening (between d start stop)) w = .error error left →
      left.document.markup = w.document.markup := by
  have hx : x ∈ d.ids := by
    obtain ⟨⟨y, node⟩, hy, -⟩ := List.mem_filterMap.1 hstart
    exact Document.mem_ids_of_descendants (List.mem_map_of_mem hy)
  have hrenders := Rendering.renderBelow_spares host depth
  have hspan : (between d start stop).span w.document ⊆ w.document.ids := span_subset_ids _ _
  refine ⟨fun settled? hsettled => ?_, fun opening error left hrun => ?_⟩
  · have hbody : ({ between d start stop with settled? } : Block).body w.document ⊆
        w.document.ids := by
      cases settled? with
      | none => exact hspan
      | some nodes => exact hsettled nodes rfl
    refine (render_spares hrenders hpassive hw.toDistinct.apart hbody).weaken ?_ ?_
    · exact fun e hspares => hspares.undisturbed hw.toDistinct
    · exact fun nodes e hfree y hy => ⟨(hfree y hy).mem, (hfree y hy).out⟩
  · have hfirst := hlater (first_mem_ids hd hstart hstop hx)
    have hapart := Statement.evaluateBlock_failsApart host hrenders hpassive hw.toDistinct
      hfirst hspan opening error left hrun
    exact hapart.markup_eq hw

/-! ## A loop whose second turn fails -/

/-- A loop around a paragraph with a field. -/
def loopedField : Document where
  rows := [.ofElement 0 "w:body" (.ofElement 1 "w:p" (.ofDirective 2 "a:each(x)") ++
    .ofElement 3 "w:p" (.ofDirective 4 "=x") ++ .ofElement 5 "w:p" (.ofDirective 6 "a:endEach"))]
  aside := []
  root := 0
  next := 7
  declaration := none

/-- The field that begins the loop. -/
def loopStart : Field := ⟨.simple 2, " MERGEFIELD a:each(x) \\* MERGEFORMAT ", "a:each(x)"⟩

/-- The field that ends the loop. -/
def loopStop : Field := ⟨.simple 6, " MERGEFIELD a:endEach \\* MERGEFORMAT ", "a:endEach"⟩

/-- The second item of the list has no text. -/
def unevenItems : Context := ⟨[("a", .list [.string "one", .list []])]⟩

theorem unevenItems_passive : unevenItems.Passive := by
  intro entry hentry
  cases List.mem_singleton.1 hentry
  refine .list fun item hitem => ?_
  rcases List.mem_pair.1 hitem with rfl | rfl
  · exact .string "one"
  · exact .list fun _ h => nomatch h

theorem loopedField_undisturbed : ∃ error left,
    Statement.evaluate {} (Rendering.renderBelow {} 1) unevenItems
      (.block (.each "a" "x") (between loopedField loopStart loopStop)) ⟨loopedField, [], {}⟩ =
        .error error left ∧
    left.document.markup = loopedField.markup := by
  have hd : loopedField.WellFormed :=
    ⟨⟨by decide +kernel, by decide +kernel⟩, by decide +kernel⟩
  have hstart : loopStart ∈ Field.discover loopedField 0 := by decide +kernel
  have hstop : loopStop ∈ Field.discover loopedField 0 := by decide +kernel
  obtain ⟨-, hmarkup⟩ := render_undisturbed (x := 0) {} 1 unevenItems_passive hd.toDistinct
    hstart hstop
    (w := ⟨loopedField, [], {}⟩) hd (List.Subset.refl _)
  have hfails : (match Statement.evaluate {} (Rendering.renderBelow {} 1) unevenItems
      (.block (.each "a" "x") (between loopedField loopStart loopStop)) ⟨loopedField, [], {}⟩ with
    | .ok _ _ => false
    | .error _ _ => true) = true := by decide +kernel
  cases hrun : Statement.evaluate {} (Rendering.renderBelow {} 1) unevenItems
      (.block (.each "a" "x") (between loopedField loopStart loopStop)) ⟨loopedField, [], {}⟩ with
  | ok u left =>
    rw [hrun] at hfails
    cases hfails
  | error error left => exact ⟨error, left, rfl, hmarkup _ error left hrun⟩

end Block

end MailMerge
