import MailMerge.Proofs.Template.Insertion

/-!
# Copies of bodies

The body of a block is copied into elements of their own, and what these contain afterwards is put in
the place of the block. Main statements: a copy of the body stands in its own container
(`copyAll_apply`), and the rows of all containers replace the block (`replaceBlock_apply`).
-/

namespace MailMerge

open Xml

namespace Template

open Xml.Forest Xml.Document

variable {around f g inside k : Forest} {r c x y : NodeId} {node : Node} {others : List Forest}
variable {w : Workspace} {a b : Element}

/-! ## Copying -/

/-- Copies of siblings follow one another in the container. -/
theorem copyInto_apply {copied : Forest}
    (h : w.document.Holds around r (g ++ (inside ++ k)) (single c node copied :: others)) :
    ∃ more w',
      (inside.topIds.forM fun x => do
        let new ← Merge.create (·.copy x)
        Merge.move (·.appendChild c new)) w = .ok () w' ∧
      w.document.Grows w'.document ∧ more.bare = inside.bare ∧
      w'.document.Holds around r (g ++ (inside ++ k))
        (single c node (copied ++ more) :: others) := by
  induction inside generalizing g copied w with
  | nil => exact ⟨.nil, w, rfl, .refl _, rfl, by simpa using h⟩
  | cons x n children rest _ ih =>
    have hcopy := ((Holds.copyChild (f := g) (g := rest ++ k) h).perm (.swap _ _ _)).turn
    obtain ⟨d, hmove, hframe, hmoved⟩ := (hcopy.perm (.swap _ _ _)).appendTree
    have hback : d.Holds around r ((g ++ single x n children) ++ (rest ++ k))
        (single c node (copied ++ single w.document.next n
          (children.relabel (w.document.next + 1))) :: others) := by
      simpa [append_assoc, single] using hmoved.turnBack h.mem
    obtain ⟨more, w', hlater, hgrows, hmore, hholds⟩ :=
      ih (w := { w with document := d }) hback
    refine ⟨single w.document.next n (children.relabel (w.document.next + 1)) ++ more, w',
      ?_, ((copy_grows _ _).trans hframe.grows).trans hgrows, ?_, ?_⟩
    · exact (Merge.bind_ok ((Merge.create_bind _ _ _).trans (Merge.move_ok hmove))).trans hlater
    · simp [single, hmore]
    · simpa [append_assoc, single] using hholds

/-- A copy of siblings stands in a container of its own. -/
theorem copyAll_apply (h : w.document.Holds around r (g ++ (inside ++ k)) others) :
    ∃ c copied w', Block.copyAll inside.topIds w = .ok c w' ∧ w.document.Grows w'.document ∧
      copied.bare = inside.bare ∧
      w'.document.Holds around r (g ++ (inside ++ k))
        (single c (.element ⟨Block.containerName, []⟩) copied :: others) := by
  have hcreated := h.create (.element ⟨Block.containerName, []⟩)
  obtain ⟨copied, w', hcopies, hgrows, hbare, hholds⟩ :=
    copyInto_apply (w := { w with
      document := (w.document.create (.element ⟨Block.containerName, []⟩)).2 }) hcreated
  refine ⟨w.document.next, copied, w', ?_, (create_grows _ _).trans hgrows, hbare, hholds⟩
  unfold Block.copyAll
  exact Merge.bind_ok hcopies

/-! ## Putting copies next to one another -/

variable {n n' : Node} {children children' : Forest}

/-- The last children of a tree of its own are put right after a child, in their order. -/
theorem insertRow_apply (left row : Forest)
    (h : w.document.Holds around r (g ++ cons x n children f)
      (single c node (left ++ row) :: others)) :
    ∃ w', (row.topIds.reverse.forM fun y => Merge.move (·.insertAfter x y)) w = .ok () w' ∧
      w.document.Grows w'.document ∧
      w'.document.Holds around r (g ++ cons x n children (row ++ f))
        (single c node left :: others) := by
  induction row generalizing left f w with
  | nil => exact ⟨w, rfl, .refl _, by simpa using h⟩
  | cons y m inside rest _ ih =>
    have hnext : w.document.Holds around r (g ++ cons x n children f)
        (single c node ((left ++ cons y m inside .nil) ++ rest) :: others) := by
      simpa [append_assoc] using h
    obtain ⟨w₁, hlater, hgrows, hholds⟩ := ih _ hnext
    have hsource : w₁.document.Holds (single c node .nil) c (left ++ cons y m inside .nil)
        (around.refill r (g ++ cons x n children (rest ++ f)) :: others) := hholds.turn
    have hsite := hsource.row_site?
    have hwithout := hsource.row_rewrite Site.rest
    rw [refill_single] at hsite hwithout
    obtain ⟨d, hmove, hframe, hmoved⟩ := hholds.insertAfter hsite
    rw [without, hwithout, refill_single, append_nil] at hmoved
    refine ⟨{ w₁ with document := d }, ?_, hgrows.trans hframe.grows, hmoved⟩
    rw [topIds_cons, List.reverse_cons, List.forM_eq_forM, List.forM_append]
    refine (Merge.bind_ok hlater).trans ?_
    rw [List.forM_cons]
    exact Merge.bind_ok (Merge.move_ok hmove)

/-- A container with a row. -/
def container (copy : NodeId × Forest) : Forest :=
  single copy.1 (.element ⟨Block.containerName, []⟩) copy.2

/-- The rows of containers are put right after a child, in their order. -/
theorem insertCopies_apply {copies : List (NodeId × Forest)}
    (h : w.document.Holds around r (g ++ cons x n children f) (copies.map container ++ others)) :
    ∃ more w', Merge.insertAllAfter x (copies.flatMap (·.2.topIds)) w = .ok () w' ∧
      w.document.Grows w'.document ∧
      w'.document.Holds around r (g ++ cons x n children (join (copies.map Prod.snd) ++ f))
        (more ++ others) := by
  unfold Merge.insertAllAfter
  induction copies generalizing others w with
  | nil => exact ⟨[], w, rfl, .refl _, h⟩
  | cons copy copies ih =>
    obtain ⟨more, w₁, hlater, hgrows, hholds⟩ := ih (h.perm List.perm_middle.symm)
    have hfirst := hholds.perm List.perm_middle
    obtain ⟨w', hrow, hgrows', hholds'⟩ :=
      insertRow_apply .nil copy.2 hfirst
    refine ⟨container (copy.1, .nil) :: more, w', ?_, hgrows.trans hgrows', ?_⟩
    · rw [List.flatMap_cons, List.reverse_append, List.forM_eq_forM, List.forM_append]
      exact (Merge.bind_ok hlater).trans hrow
    · rw [List.map_cons, join, append_assoc]
      exact hholds'

/-! ## The place of the block -/

/-- The block between two siblings, with the body that stands between them. -/
def settled (field field' : Field) (x y : NodeId) (inside : Forest) : Block :=
  ⟨.paragraph, field, field', x, y, some inside.topIds⟩

variable {field field' : Field}

/-- The body of the block between two siblings is what stands between them. -/
theorem settle_eq {d : Document}
    (h : d.Holds around r (g ++ cons x n children (inside ++ cons y n' children' k)) others)
    (helements : inside.tops.all (·.2.isElement) = true) (helement : n'.isElement = true) :
    Block.settle d ⟨.paragraph, field, field', x, y, none⟩ = settled field field' x y inside := by
  have hnodup := h.shows.right.later.nodup
  have hsiblings : d.followingElements x =
      inside.topIds ++ y :: (k.tops.filter (·.2.isElement)).map Prod.fst := by
    rw [followingElements, h.following, tops_append, List.filter_append, List.map_append,
      map_filter_tops helements, tops, List.filter_cons, if_pos helement, List.map_cons]
  have hspan : (d.followingElements x).takeWhile (· ≠ y) = inside.topIds := by
    rw [hsiblings, List.takeWhile_append_of_pos, List.takeWhile_cons]
    · simp
    · intro z hz
      have hne : z ≠ y := by
        rintro rfl
        rw [ids_append, List.nodup_append] at hnodup
        exact hnodup.2.2 z (mem_ids_of_mem_topIds hz) z (by simp) rfl
      simpa using hne
  rw [Block.settle, Block.body, Block.span, Option.getD_none, hspan]
  rfl

/-- Copies take the place of the block. -/
theorem replaceBlock_apply {copies : List (NodeId × Forest)}
    (h : w.document.Holds around r (g ++ cons x n children (inside ++ cons y n' children' k))
      (copies.map container ++ others)) :
    ∃ more w',
      (settled field field' x y inside).replace (copies.flatMap (·.2.topIds)) w = .ok () w' ∧
      w.document.Grows w'.document ∧
      w'.document.Holds around r (g ++ (join (copies.map Prod.snd) ++ k)) (more ++ others) := by
  obtain ⟨more, w', hinsert, hgrows, hholds⟩ := insertCopies_apply h
  have hbody : w'.document.Holds around r
      ((g ++ cons x n children (join (copies.map Prod.snd))) ++
        (inside ++ cons y n' children' k)) (more ++ others) := by
    simpa [append_assoc] using hholds
  have hcleared := hbody.detachAll
  have hfirst : (w'.document.detachAll inside.topIds).Holds around r
      (g ++ cons x n children (join (copies.map Prod.snd) ++ cons y n' children' k))
      (inside.trees ++ (more ++ others)) := by
    simpa [append_assoc] using hcleared
  have hlast : ((w'.document.detachAll inside.topIds).detach x).Holds around r
      ((g ++ join (copies.map Prod.snd)) ++ cons y n' children' k)
      (single x n children :: (inside.trees ++ (more ++ others))) := by
    simpa [append_assoc] using hfirst.detach
  refine ⟨single y n' children' :: single x n children :: (inside.trees ++ more),
    { w' with
      document := ((w'.document.detachAll inside.topIds).detach x).detach y }, ?_, ?_, ?_⟩
  · unfold Block.replace
    exact Merge.bind_ok hinsert
  · exact hgrows.trans (((detachAll_sameFrame _ _).trans (detach_sameFrame _ _)).trans
      (detach_sameFrame _ _)).grows
  · simpa [append_assoc] using hlast.detach

end Template

end MailMerge
