import Mathlib.Data.List.Find
import MailMerge.Proofs.Field.Apart
import MailMerge.Proofs.Xml.Rename

/-!
# Fields of renamed nodes

The fields at and below a node are found by what the nodes hold and by how they stand to one
another, and never by their numbers. Main statement: `discover_rename`.
-/

namespace MailMerge

open Xml Xml.Forest Xml.Document

theorem takeWhile_congr {α : Type} {p q : α → Bool} {xs : List α} (h : ∀ x ∈ xs, p x = q x) :
    xs.takeWhile p = xs.takeWhile q := by
  induction xs with
  | nil => rfl
  | cons x xs ih =>
    rw [List.forall_mem_cons] at h
    rw [List.takeWhile_cons, List.takeWhile_cons, h.1, ih h.2]

/-- The shape with its nodes renamed. -/
def FieldShape.rename (ρ : NodeId → NodeId) : FieldShape → FieldShape
  | simple x => simple (ρ x)
  | complex first others display? => complex (ρ first) (others.map ρ) (display?.map ρ)
  | image x => image (ρ x)

namespace Field

variable {ρ : NodeId → NodeId} {d e : Document} {x y first : NodeId} {nodes others : List NodeId}
variable {rest : List Forest}

/-- The field with its nodes renamed. -/
def rename (ρ : NodeId → NodeId) (field : Field) : Field :=
  { field with shape := field.shape.rename ρ }

@[simp] theorem expression_rename (ρ : NodeId → NodeId) (field : Field) :
    (field.rename ρ).expression = field.expression := rfl

@[simp] theorem isValid_rename (ρ : NodeId → NodeId) (field : Field) :
    (field.rename ρ).isValid = field.isValid := rfl

theorem nodes_rename (ρ : NodeId → NodeId) (field : Field) :
    (field.rename ρ).nodes = field.nodes.map ρ := by
  obtain ⟨shape, instruction, expression⟩ := field
  cases shape <;> rfl

theorem start_rename (ρ : NodeId → NodeId) (field : Field) :
    (field.rename ρ).start = ρ field.start := by
  obtain ⟨shape, instruction, expression⟩ := field
  cases shape <;> rfl

theorem stop_rename (ρ : NodeId → NodeId) (field : Field) :
    (field.rename ρ).stop = ρ field.stop := by
  rw [stop, stop, nodes_rename, start_rename, List.getLastD_eq_getLast?, List.getLastD_eq_getLast?,
    List.getLast?_map]
  cases field.nodes.getLast? <;> rfl

/-! ## What nodes hold -/

section Renamed

variable (h : Renamed ρ d x e)

include h

theorem holdsMarker_rename (kind : String) (hy : y ∈ d.descendants x) :
    holdsMarker e kind (ρ y) = holdsMarker d kind y := by
  rw [holdsMarker, holdsMarker, h.tree hy, Forest.nodes_rename, List.any_map]
  rfl

theorem display?_rename (hy : y ∈ d.descendants x) :
    display? e (ρ y) = (display? d y).map ρ := by
  rw [display?, display?, h.find? hy, h.find? hy, Option.map_or]

theorem mem_of_find? {name : String} (hy : y ∈ d.descendants x) {z : NodeId}
    (hz : d.find? y name = some z) : z ∈ d.descendants x := by
  obtain ⟨rest, ha⟩ := h.alone
  exact ha.free_iff.1 (ha.apart.free_of_find? (ha.free_iff.2 hy) hz)

theorem mem_of_mem_findAll {name : String} (hy : y ∈ d.descendants x) {z : NodeId}
    (hz : z ∈ d.findAll y name) : z ∈ d.descendants x := by
  obtain ⟨rest, ha⟩ := h.alone
  obtain ⟨entry, hentry, rfl⟩ := List.mem_map.1 hz
  have hbelow : entry.1 ∈ (d.below y).ids := List.mem_map_of_mem (List.mem_of_mem_filter hentry)
  exact ha.free_iff.1 (ha.apart.free_of_mem_below (ha.free_iff.2 hy) hbelow)

theorem mem_of_mem_followingElements (hy : y ∈ d.descendants x) {z : NodeId}
    (hz : z ∈ d.followingElements y) : z ∈ d.descendants x := by
  obtain ⟨rest, ha⟩ := h.alone
  exact ha.free_iff.1 (ha.apart.free_of_mem_followingElements (ha.free_iff.2 hy) hz)

theorem pictureName?_rename (hy : y ∈ d.descendants x) :
    pictureName? e (ρ y) = pictureName? d y := by
  rw [pictureName?, pictureName?, h.find? hy]
  cases hz : d.find? y "pic:cNvPr" with
  | none => rfl
  | some z => exact h.attribute? (mem_of_find? h hy hz) "name"

theorem joinedInstruction_rename (hnodes : ∀ y ∈ nodes, y ∈ d.descendants x) :
    joinedInstruction e (nodes.map ρ) = joinedInstruction d nodes := by
  rw [joinedInstruction, joinedInstruction, List.flatMap_map, List.map_flatMap, List.map_flatMap]
  congr 1
  refine List.flatMap_congr fun y hy => ?_
  rw [h.findAll (hnodes y hy), List.map_map]
  exact List.map_congr_left fun z hz => h.text (mem_of_mem_findAll h (hnodes y hy) hz)

theorem afterSeparator?_rename (hnodes : ∀ y ∈ nodes, y ∈ d.descendants x) :
    afterSeparator? e (nodes.map ρ) = (afterSeparator? d nodes).map ρ := by
  have hsame : nodes.find? (holdsMarker e "separate" ∘ ρ) =
      nodes.find? (holdsMarker d "separate") :=
    List.find?_congr fun y hy => holdsMarker_rename h "separate" (hnodes y hy)
  rw [afterSeparator?, afterSeparator?, List.find?_map, hsame]
  cases hy : nodes.find? (holdsMarker d "separate") with
  | none => rfl
  | some y => exact h.nextElement? (hnodes y (List.mem_of_find?_eq_some hy))

theorem mem_of_afterSeparator? (hnodes : ∀ y ∈ nodes, y ∈ d.descendants x)
    (hy : afterSeparator? d nodes = some y) : y ∈ d.descendants x := by
  obtain ⟨z, hz, hnext⟩ := Option.bind_eq_some_iff.1 hy
  exact mem_of_mem_followingElements h (hnodes z (List.mem_of_find?_eq_some hz))
    (List.mem_of_head? hnext)

/-! ## Fields from nodes -/

theorem ofRuns_rename (hnodes : ∀ y ∈ first :: others, y ∈ d.descendants x) :
    ofRuns e (ρ first) (others.map ρ) = (ofRuns d first others).rename ρ := by
  have hdisplay : ((afterSeparator? e ((first :: others).map ρ)).bind (display? e)).isSome =
      ((afterSeparator? d (first :: others)).bind (display? d)).isSome := by
    rw [afterSeparator?_rename h hnodes]
    cases hy : afterSeparator? d (first :: others) with
    | none => rfl
    | some y =>
      have hmem := mem_of_afterSeparator? h hnodes hy
      rw [Option.map_some, Option.bind_some, Option.bind_some, display?_rename h hmem,
        Option.isSome_map]
  have hinstruction := joinedInstruction_rename h hnodes
  have hafter := afterSeparator?_rename h hnodes
  rw [List.map_cons] at hdisplay hinstruction hafter
  rw [ofRuns, ofRuns, rename]
  dsimp only
  rw [hdisplay, hinstruction, hafter]
  rfl

theorem runsAfter_rename (hy : y ∈ d.descendants x) :
    runsAfter e (ρ y) = (runsAfter d y).map ρ := by
  have hsame : (d.followingElements y).takeWhile
        ((fun z => !holdsMarker e "end" z) ∘ ρ) =
      (d.followingElements y).takeWhile fun z => !holdsMarker d "end" z :=
    takeWhile_congr fun z hz => by
      rw [Function.comp_apply, holdsMarker_rename h "end" (mem_of_mem_followingElements h hy hz)]
  rw [runsAfter, runsAfter, holdsMarker_rename h "end" hy, h.followingElements hy]
  split
  next => rfl
  next =>
    dsimp only
    rw [List.takeWhile_map, hsame, List.length_map, List.map_append, List.map_take, List.map_drop]

theorem ofDrawing_rename (hy : y ∈ d.descendants x) :
    ofDrawing e (ρ y) = (ofDrawing d y).rename ρ := by
  simp only [ofDrawing, rename, FieldShape.rename, pictureName?_rename h hy]

/-- The complex field that begins at a marker. -/
theorem ofMarker_rename (hy : y ∈ d.descendants x) :
    (e.parent? (ρ y)).map (fun first => ofRuns e first (runsAfter e first)) =
      ((d.parent? y).map fun first => ofRuns d first (runsAfter d first)).map (rename ρ) := by
  rw [h.parent? hy]
  cases hfirst : d.parent? y with
  | none => rfl
  | some first =>
    obtain ⟨rest, ha⟩ := h.alone
    have hmem : first ∈ d.descendants x :=
      ha.free_iff.1 (ha.apart.free_of_parent? (ha.free_iff.2 hy) hfirst)
    have hnodes : ∀ z ∈ first :: runsAfter d first, z ∈ d.descendants x := by
      refine List.forall_mem_cons.2 ⟨hmem, fun z hz => ?_⟩
      exact mem_of_mem_followingElements h hmem (runsAfter_subset d first hz)
    simp only [Option.map_some, runsAfter_rename h hmem, ofRuns_rename h hnodes]

theorem ofNode?_rename (hy : y ∈ d.descendants x) (node : Node) :
    ofNode? e (ρ y) node = (ofNode? d y node).map (rename ρ) := by
  have hsimple : ofSimple e (ρ y) = (ofSimple d y).rename ρ := by
    rw [ofSimple, ofSimple, h.attribute? hy]
    rfl
  unfold ofNode?
  rw [hsimple, ofMarker_rename h hy, pictureName?_rename h hy, ofDrawing_rename h hy]
  by_cases hfield : node.isNamed "w:fldSimple" = true
  · rw [if_pos hfield, if_pos hfield, Option.map_some]
  rw [if_neg hfield, if_neg hfield]
  by_cases hmarker : isMarker "begin" node = true
  · rw [if_pos hmarker, if_pos hmarker]
  rw [if_neg hmarker, if_neg hmarker, apply_ite (Option.map (rename ρ)), Option.map_some,
    Option.map_none]

/-- The fields below renamed nodes are the fields with their nodes renamed. -/
theorem discover_rename : discover e (ρ x) = (discover d x).map (rename ρ) := by
  rw [discover, discover, h.tree_eq, Forest.nodes_rename, List.filterMap_map, List.map_filterMap]
  refine List.filterMap_congr fun entry hentry => ?_
  obtain ⟨y, node⟩ := entry
  change (ofNode? e (ρ y) node).filter isValid = ((ofNode? d y node).filter isValid).map (rename ρ)
  rw [ofNode?_rename h (List.mem_map_of_mem (f := Prod.fst) hentry), Option.filter_map]
  rfl

end Renamed

end Field

end MailMerge
