import MailMerge.Proofs.Rendering.Session
import MailMerge.Proofs.Xml.Added

/-!
# Cells that are filled

The cells of a document are collected first and filled one after the other. Each cell without a
paragraph gets one, and nothing else changes (`Cleanup.fillCells_filled`); afterwards no cell is left
to be filled (`Cleanup.fillCells_fillCells`).
-/

namespace MailMerge

open Xml Xml.Forest Xml.Document

variable {c d e : Document} {x y : NodeId} {xs : List NodeId} {name : String}

namespace Cleanup

/-! ## Filling -/

/-- A table cell below the root. -/
def IsCell (d : Document) (x : NodeId) : Prop :=
  x ∈ (d.below d.root).ids ∧ d.isNamed x "w:tc" = true

/-- A table cell below the root that has no paragraph. -/
def IsEmptyCell (d : Document) (x : NodeId) : Prop := IsCell d x ∧ ¬d.HasChild x "w:p"

/-- Some nodes have each got one more child, an empty paragraph at the end, and nothing else has
changed. -/
structure Filled (gaps : NodeId → Prop) (d e : Document) : Prop where
  wellFormed : e.WellFormed
  root : e.root = d.root
  declaration : e.declaration = d.declaration
  tops : e.allRows.map topIds = d.allRows.map topIds
  ids : d.ids ⊆ e.ids
  kept : ∀ x ∈ d.ids, e.node? x = d.node? x
  filled : ∀ x ∈ d.ids, gaps x → ∃ y, y ∉ d.ids ∧ e.children x = d.children x ++ [y] ∧
    e.node? y = some (.element ⟨"w:p", []⟩) ∧ e.children y = []
  others : ∀ x ∈ d.ids, ¬gaps x → e.children x = d.children x
  new : ∀ y ∈ e.ids, y ∉ d.ids → ∃ x ∈ d.ids, gaps x ∧ y ∈ e.children x

namespace Filled

variable {gaps more : NodeId → Prop}

theorem refl (hd : d.WellFormed) (hgaps : ∀ x ∈ d.ids, ¬gaps x) : Filled gaps d d :=
  ⟨hd, rfl, rfl, rfl, fun _ hx => hx, fun _ _ => rfl, fun x hx h => absurd h (hgaps x hx),
    fun _ _ _ => rfl, fun _ hy hout => absurd hy hout⟩

theorem congr (h : Filled gaps d e) (hgaps : ∀ x ∈ d.ids, gaps x ↔ more x) : Filled more d e :=
  { h with
    filled := fun x hx hmore => h.filled x hx ((hgaps x hx).2 hmore)
    others := fun x hx hmore => h.others x hx (mt (hgaps x hx).1 hmore)
    new := fun y hy hout => by
      obtain ⟨x, hx, hgap, hchild⟩ := h.new y hy hout
      exact ⟨x, hx, (hgaps x hx).1 hgap, hchild⟩ }

theorem trans (h : Filled gaps c d) (h' : Filled more d e)
    (hmore : ∀ x, more x → x ∈ c.ids ∧ ¬gaps x) : Filled (fun x => gaps x ∨ more x) c e := by
  refine ⟨h'.wellFormed, h'.root.trans h.root, h'.declaration.trans h.declaration,
    h'.tops.trans h.tops, List.Subset.trans h.ids h'.ids, ?_, ?_, ?_, ?_⟩
  · exact fun x hx => (h'.kept x (h.ids hx)).trans (h.kept x hx)
  · rintro x hx (hgap | hgap)
    · obtain ⟨y, hout, hchildren, hnode, hempty⟩ := h.filled x hx hgap
      have hy : y ∈ d.ids := by
        refine (mem_ids_of_mem_children (x := x) ?_).2
        rw [hchildren]
        exact List.mem_append_right _ List.mem_cons_self
      refine ⟨y, hout, ?_, (h'.kept y hy).trans hnode, ?_⟩
      · rw [h'.others x (h.ids hx) fun hlater => (hmore x hlater).2 hgap, hchildren]
      · rw [h'.others y hy fun hlater => hout (hmore y hlater).1, hempty]
    · obtain ⟨y, hout, hchildren, hnode, hempty⟩ := h'.filled x (h.ids hx) hgap
      refine ⟨y, fun hy => hout (h.ids hy), ?_, hnode, hempty⟩
      rw [hchildren, h.others x hx (hmore x hgap).2]
  · intro x hx hnone
    rw [not_or] at hnone
    rw [h'.others x (h.ids hx) hnone.2, h.others x hx hnone.1]
  · intro y hy hout
    by_cases hin : y ∈ d.ids
    · obtain ⟨x, hx, hgap, hchild⟩ := h.new y hin hout
      refine ⟨x, hx, .inl hgap, ?_⟩
      rwa [h'.others x (h.ids hx) fun hlater => (hmore x hlater).2 hgap]
    · obtain ⟨x, -, hgap, hchild⟩ := h'.new y hy hin
      exact ⟨x, (hmore x hgap).1, .inr hgap, hchild⟩

theorem isNamed (h : Filled gaps d e) (hx : x ∈ d.ids) (name : String) :
    e.isNamed x name = d.isNamed x name := by
  rw [Document.isNamed, Document.isNamed, name?, name?, h.kept x hx]

/-- A node that has got nothing has the same elements among its children. -/
theorem hasChild_iff (h : Filled gaps d e) (hx : x ∈ d.ids) (hgap : ¬gaps x) :
    e.HasChild x name ↔ d.HasChild x name := by
  rw [HasChild, HasChild, h.others x hx hgap]
  refine exists_congr fun y => and_congr_right fun hy => ?_
  rw [h.isNamed (mem_ids_of_mem_children hy).2]

/-- A new node is a paragraph. -/
theorem node?_of_new (h : Filled gaps d e) (hy : y ∈ e.ids) (hout : y ∉ d.ids) :
    e.node? y = some (.element ⟨"w:p", []⟩) := by
  obtain ⟨x, hx, hgap, hchild⟩ := h.new y hy hout
  obtain ⟨z, -, hchildren, hnode, -⟩ := h.filled x hx hgap
  rw [hchildren, List.mem_append, List.mem_singleton] at hchild
  rcases hchild with hold | rfl
  · exact absurd (mem_ids_of_mem_children hold).2 hout
  · exact hnode

end Filled

/-! ## One cell after the other -/

theorem addChild_added (hd : d.WellFormed) (hx : x ∈ d.ids) (name : String) :
    ∃ e, addChild d x name = (d.next, e) ∧ d.Added name x (d.children x ++ [d.next]) e := by
  obtain ⟨e, hmove, hadded⟩ := hd.exists_added_last hx name
  exact ⟨e, Prod.ext rfl (congrArg (Option.getD · _) hmove), hadded⟩

/-- A cell that is filled. -/
theorem fillCell_filled (hd : d.WellFormed) (hx : x ∈ d.ids) :
    Filled (fun y => y = x ∧ ¬d.HasChild x "w:p") d (fillCell d x) := by
  unfold fillCell
  cases hfound : d.childNamed? x "w:p" with
  | some p =>
    refine .refl hd fun y _ hgap => ?_
    rw [hd.childNamed?_eq_none_iff.2 hgap.2] at hfound
    cases hfound
  | none =>
    have hnone := hd.childNamed?_eq_none_iff.1 hfound
    obtain ⟨e, heq, hadded⟩ := addChild_added hd hx "w:p"
    have hfresh := hd.next_notMem
    have hchildren : e.children x = d.children x ++ [d.next] := by rw [hadded.children, if_pos rfl]
    rw [heq]
    dsimp only
    refine ⟨hadded.wellFormed, hadded.root, hadded.declaration, hadded.tops, hadded.subset,
      fun y hy => hadded.node?_of_mem hd.toDistinct hy, ?_, ?_, ?_⟩
    · rintro y - ⟨rfl, -⟩
      refine ⟨d.next, hfresh, hchildren, ?_, hadded.children_next hd.toDistinct hx⟩
      rw [hadded.node, if_pos rfl]
    · intro y _ hgap
      rw [hadded.children, if_neg fun heq => hgap ⟨heq, hnone⟩]
    · intro y hy hout
      have hnext : y = d.next := ((hadded.ids y).1 hy).resolve_right hout
      refine ⟨x, hx, ⟨rfl, hnone⟩, ?_⟩
      rw [hnext, hchildren]
      exact List.mem_append_right _ List.mem_cons_self

/-- Cells that are filled one after the other. -/
theorem foldl_fillCell_filled (hd : d.WellFormed) (hnodup : xs.Nodup) (hxs : xs ⊆ d.ids) :
    Filled (fun y => y ∈ xs ∧ ¬d.HasChild y "w:p") d (xs.foldl fillCell d) := by
  induction xs generalizing d with
  | nil => exact .refl hd fun y _ hgap => List.not_mem_nil hgap.1
  | cons x xs ih =>
    obtain ⟨hx, hnodup⟩ := List.nodup_cons.1 hnodup
    rw [List.cons_subset] at hxs
    have hfirst := fillCell_filled hd hxs.1
    have hlater := ih hfirst.wellFormed hnodup fun y hy => hfirst.ids (hxs.2 hy)
    -- The later cells are others than the first one, so that they are as empty as before.
    have hne : ∀ y ∈ xs, ¬(y = x ∧ ¬d.HasChild x "w:p") := fun y hy heq => hx (heq.1 ▸ hy)
    refine (hfirst.trans hlater fun y hy => ⟨hxs.2 hy.1, hne y hy.1⟩).congr fun y hy => ?_
    rw [List.mem_cons]
    by_cases hin : y ∈ xs
    · rw [hfirst.hasChild_iff hy (hne y hin)]
      have hother : y ≠ x := fun heq => hx (heq ▸ hin)
      simp [hin, hother]
    · simp only [hin, or_false, false_and]
      exact and_congr_right fun heq => by rw [heq]

/-- All cells without a paragraph get one, and nothing else changes. -/
theorem fillCells_filled (hd : d.WellFormed) : Filled (IsEmptyCell d) d (fillCells d) := by
  have hcells : d.findAll d.root "w:tc" ⊆ d.ids := fun x hx =>
    mem_ids_of_mem_descendants (mem_descendants_of_mem_below (hd.mem_findAll_iff.1 hx).1)
  refine (foldl_fillCell_filled hd (hd.nodup_findAll _ _) hcells).congr fun x _ => ?_
  rw [hd.mem_findAll_iff]
  rfl

/-- No cell is left without a paragraph. -/
theorem hasChild_of_isCell_fillCells (hd : d.WellFormed) (hx : IsCell (fillCells d) x) :
    (fillCells d).HasChild x "w:p" := by
  have hfilled := fillCells_filled hd
  have hextends := fillCells_extends hd.toDistinct
  obtain ⟨hbelow, hname⟩ := hx
  have hin := mem_descendants_of_mem_below hbelow
  -- New nodes are paragraphs, so that the cell was one before.
  have hold : x ∈ d.ids := by
    by_contra hout
    rw [isNamed, name?, hfilled.node?_of_new (mem_ids_of_mem_descendants hin) hout] at hname
    exact absurd hname (by decide)
  rw [hfilled.root, hextends.within d.root hd.rooted x hold,
    mem_descendants_iff_below hd.rooted] at hin
  have hne : x ≠ d.root := by
    rintro rfl
    rw [hfilled.root] at hbelow
    exact hfilled.wellFormed.notMem_below_self _ hbelow
  have hcell : IsCell d x := ⟨hin.resolve_left hne, (hfilled.isNamed hold _).symm.trans hname⟩
  by_cases hchild : d.HasChild x "w:p"
  · exact (hfilled.hasChild_iff hold fun hgap => hgap.2 hchild).2 hchild
  · obtain ⟨y, -, hchildren, hnode, -⟩ := hfilled.filled x hold ⟨hcell, hchild⟩
    refine ⟨y, by rw [hchildren]; simp, ?_⟩
    rw [isNamed, name?, hnode]
    rfl

theorem fillCell_eq_self (hd : d.Distinct) (hx : d.HasChild x "w:p") : fillCell d x = d := by
  unfold fillCell
  cases hfound : d.childNamed? x "w:p" with
  | some p => rfl
  | none => exact absurd hx (hd.childNamed?_eq_none_iff.1 hfound)

/-- Cells are filled once. -/
theorem fillCells_fillCells (hd : d.WellFormed) : fillCells (fillCells d) = fillCells d := by
  have hformed := (fillCells_filled hd).wellFormed
  have hcells : ∀ x ∈ (fillCells d).findAll (fillCells d).root "w:tc",
      (fillCells d).HasChild x "w:p" := fun x hx =>
    hasChild_of_isCell_fillCells hd (hformed.mem_findAll_iff.1 hx)
  rw [fillCells]
  generalize (fillCells d).findAll (fillCells d).root "w:tc" = cells at hcells
  induction cells with
  | nil => rfl
  | cons x cells ih =>
    rw [List.forall_mem_cons] at hcells
    rw [List.foldl_cons, fillCell_eq_self hformed.toDistinct hcells.1]
    exact ih hcells.2

end Cleanup

end MailMerge
