import Mathlib.Algebra.GroupWithZero.Nat
import MailMerge.Proofs.Field.Growth
import MailMerge.Proofs.Rendering.Markers

/-!
# Markers in documents with unfolded fields

A complex field has one marker that begins it, as a simple field has. So blocks can be nested as deep in a
document as in the one that it is unfolded to (`Unfolds.depth_eq`).
-/

namespace MailMerge

open Xml Xml.Forest

variable {item run f g before after inner : Forest} {kind instruction : String} {node : Node}
variable {x : NodeId} {v : Unfolding} {d e : Document} {lot : Lot}

namespace Field

theorem markers_single (x : NodeId) (node : Node) (f : Forest) :
    (single x node f).markers = f.markers + (canBegin node).toNat := by
  rw [markers, single, Forest.nodes, Forest.nodes, List.append_nil, List.map_cons, List.countP_cons]
  change _ + (if canBegin node = true then 1 else 0) = _
  cases canBegin node <;> rfl

theorem canBegin_of_isNamed {name : String} (h : node.isNamed name = true) (hsimple : name ≠ "w:fldSimple")
    (hmarker : name ≠ "w:fldChar") : canBegin node = false := by
  rw [canBegin, isMarker, isNamed_of_ne h hsimple, isNamed_of_ne h hmarker]
  rfl

theorem canBegin_of_isMarker (h : isMarker kind node = true) : canBegin node = (kind == "begin") := by
  rw [canBegin, isNamed_of_ne (isNamed_of_isMarker h) (by decide), Bool.false_or]
  rw [isMarker, Bool.and_eq_true, beq_iff_eq] at h
  rw [isMarker, h.1, h.2, Bool.true_and]
  rfl

theorem markers_of_idle (h : idle f = true) : f.markers = 0 := by
  rw [markers, List.countP_map]
  refine List.countP_eq_zero.2 fun entry hentry => ?_
  rw [Function.comp_apply, isMarker, isNamed_of_idle h hentry (by decide),
    isNamed_of_idle h hentry (by decide)]
  exact Bool.false_ne_true

theorem Run.markers (h : Run item run) : run.markers = item.markers := by
  cases h with
  | mk name hbefore hafter =>
    rw [markers_single, markers_append, markers_append, markers_of_idle hbefore,
      markers_of_idle hafter, canBegin_of_isNamed (isNamed_run name) (by decide) (by decide)]
    simp

theorem MarkerRun.markers (h : MarkerRun kind run) :
    run.markers = (kind == "begin").toNat := by
  cases h with
  | mk marker hinner holds =>
    rw [holds.markers, markers_single, markers_of_idle hinner, canBegin_of_isMarker marker,
      Nat.zero_add]

theorem InstructionRuns.markers (h : InstructionRuns instruction f) : f.markers = 0 := by
  have hpiece : ∀ {m : NodeId} {node : Node} {inner run : Forest},
      node.isNamed "w:instrText" = true → idle inner = true → Run (single m node inner) run →
        run.markers = 0 := fun hname hinner holds => by
    rw [holds.markers, markers_single, markers_of_idle hinner,
      canBegin_of_isNamed hname (by decide) (by decide)]
    rfl
  induction h with
  | last hname hinner holds => exact hpiece hname hinner holds
  | cons hname hinner holds _ ih => rw [markers_append, hpiece hname hinner holds, ih]

/-- A complex field begins once. -/
theorem Fits.markers (h : Fits node before after) : before.markers + after.markers = 1 := by
  obtain ⟨instruction, -, hframe⟩ := h.frame
  cases hframe with
  | mk first pieces separator last =>
    rw [markers_append, markers_append, first.markers, pieces.markers, separator.markers,
      last.markers]
    decide

end Field

namespace Xml

theorem Forest.markers_unfold (h : v.FitsIn f) :
    (f.unfold v).markers = f.markers := by
  induction f with
  | nil => rfl
  | cons x node children rest ihc ihr =>
    have hcons : cons x node children rest = single x node children ++ rest := by simp [single]
    obtain ⟨hc, hr⟩ := h.of_cons
    rw [unfold_cons, hcons, markers_append, markers_append, ihr hr, Field.markers_single]
    cases hframe : v.frame? x with
    | none => rw [Unfolding.slot_of_none hframe, Field.markers_single, ihc hc]
    | some frame =>
      obtain ⟨before, after⟩ := frame
      have hfits := h (x, node) List.mem_cons_self before after hframe
      have hbegins : Field.canBegin node = true := by
        rw [Field.canBegin, hfits.name, Bool.true_or]
      have hone := hfits.markers
      rw [Unfolding.slot_of_some hframe, markers_append, markers_append, ihc hc, hbegins,
        Bool.toNat_true]
      omega

theorem Forest.sum_markers_solid (f : Forest) : (f.solid.map markers).sum = f.markers := by
  cases f with
  | nil => rfl
  | cons => simp [solid]

theorem Forest.sum_markers_trees (f : Forest) : (f.trees.map markers).sum = f.markers := by
  induction f with
  | nil => rfl
  | cons x node children rest _ ih =>
    have hcons : cons x node children rest = single x node children ++ rest := by simp [single]
    rw [trees, List.map_cons, List.sum_cons, ih, hcons, markers_append]

/-- As many fields begin in the unfolded rows of a lot as in its plain ones. -/
theorem Lot.sum_markers_unfolded (hsound : lot.Sound v)
    (hfits : ∀ entry ∈ lot.plain.flatMap Forest.nodes, ∀ before after,
      v.frame? entry.1 = some (before, after) → Field.Fits entry.2 before after) :
    ((lot.unfolded v).map Forest.markers).sum = (lot.plain.map Forest.markers).sum := by
  obtain ⟨husk?, f⟩ := lot
  cases husk? with
  | none =>
    rw [plain, nodes_solid] at hfits
    rw [unfolded, scraps, Option.bind_none, List.append_nil, plain, sum_markers_solid, sum_markers_solid]
    exact Forest.markers_unfold hfits
  | some entry =>
    obtain ⟨x, node⟩ := entry
    obtain ⟨⟨before, after⟩, hframe⟩ := Option.ne_none_iff_exists'.1 (hsound.husk (x, node) rfl)
    rw [plain, List.flatMap_singleton] at hfits
    have hfit := hfits (x, node) List.mem_cons_self before after hframe
    have hinner : v.FitsIn f := fun entry hentry =>
      hfits entry (List.mem_cons_of_mem _ (List.mem_append_left _ hentry))
    have hone := hfit.markers
    have hbegins : Field.canBegin node = true := by rw [Field.canBegin, hfit.name, Bool.true_or]
    have hplain : plain ⟨some (x, node), f⟩ = [single x node f] := rfl
    rw [unfolded_of_some hframe, List.map_append, List.map_append, List.sum_append, List.sum_append,
      sum_markers_solid, sum_markers_trees, sum_markers_trees, Forest.markers_unfold hinner, hplain,
      List.map_singleton, List.sum_singleton, Field.markers_single, hbegins, Bool.toNat_true]
    omega

theorem Document.markers_eq_sum (d : Document) :
    Rendering.markers d = (d.allRows.map Forest.markers).sum := by
  rw [Rendering.markers, List.countP_flatMap]
  congr 1
  refine List.map_congr_left fun row _ => ?_
  rw [Function.comp_apply, Forest.markers, List.countP_map]
  rfl

namespace Document.Unfolds

theorem markers_eq (h : d.Unfolds v e) : Rendering.markers e = Rendering.markers d := by
  obtain ⟨lots, hlots⟩ := h.lots
  have hfits := h.fits
  simp only [Document.nodes, (hlots.plain.flatMap_right Forest.nodes).mem_iff] at hfits
  rw [markers_eq_sum, markers_eq_sum, (hlots.plain.map Forest.markers).sum_nat,
    (hlots.unfolded.map Forest.markers).sum_nat]
  have hsound := hlots.sound
  clear hlots
  induction lots with
  | nil => rfl
  | cons lot lots ih =>
    simp only [List.flatMap_cons, List.flatMap_append, List.forall_mem_append] at hfits
    rw [List.forall_mem_cons] at hsound
    simp only [List.flatMap_cons, List.map_append, List.sum_append]
    rw [Lot.sum_markers_unfolded hsound.1 hfits.1, ih hfits.2 hsound.2]

theorem depth_eq (h : d.Unfolds v e) : Rendering.depth e = Rendering.depth d := by
  rw [Rendering.depth, Rendering.depth, h.markers_eq]

end Document.Unfolds

end Xml
end MailMerge
