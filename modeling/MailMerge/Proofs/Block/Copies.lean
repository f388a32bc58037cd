import MailMerge.Proofs.Merge
import MailMerge.Proofs.Xml.Bare
import MailMerge.Proofs.Xml.Place
import MailMerge.Block

/-!
# Copies of bodies in containers

A body is copied into a container without a parent. The container holds the trees of the body one
after the other, and all rows that were there before stay as they were (`Block.copyAll_apply`).
-/

namespace MailMerge

open Xml Xml.Forest Xml.Document

namespace Xml.Document

variable {d : Document} {f : Forest} {x : NodeId} {rest : List Forest} {node : Node}

/-- A node that holds a row and stands alone. -/
theorem Holds.apex (h : d.Holds (single x node .nil) x f rest) : d.Apex x rest := by
  refine ⟨h.distinct, node, f, ?_⟩
  have hrows := h.rows
  rwa [refill_single] at hrows

theorem Holds.tree_self (h : d.Holds (single x node .nil) x f rest) :
    d.tree x = single x node f :=
  h.tree_eq (s := ⟨node, .nil, .nil⟩) (by rw [single, Forest.site?, if_pos rfl])

end Xml.Document

namespace Block

variable {w : Workspace} {c : NodeId} {node : Node} {copied : Forest} {rest : List Forest}

theorem copyInto_apply {nodes : List NodeId}
    (h : w.document.Holds (single c node .nil) c copied rest)
    (hnodes : ∀ x ∈ nodes, x ∈ rest.flatMap Forest.ids) :
    ∃ more e,
      (nodes.forM fun x => do
        let new ← Merge.create (·.copy x)
        Merge.move (·.appendChild c new)) w = .ok () { w with document := e } ∧
      more.bare = (join (nodes.map w.document.tree)).bare ∧
      e.Holds (single c node .nil) c (copied ++ more) rest := by
  induction nodes generalizing copied w with
  | nil => exact ⟨.nil, w.document, rfl, rfl, by simpa using h⟩
  | cons x nodes ih =>
    obtain ⟨s, hs⟩ := exists_site? (h.apart.mem_ids_of_mem_rest (hnodes x List.mem_cons_self))
    have htree := tree_of_site? hs
    have hcopy := h.copy x
    rw [htree] at hcopy
    obtain ⟨d, hmove, -, hholds⟩ := hcopy.appendTree
    obtain ⟨more, e, hlater, hmore, hmoved⟩ := ih (w := { w with document := d }) hholds
      fun y hy => hnodes y (List.mem_cons_of_mem _ hy)
    -- The later nodes have the trees that they had before the first one was copied.
    have hsame : nodes.map d.tree = nodes.map w.document.tree :=
      hholds.apart.map_tree_eq h.apart fun y hy => hnodes y (List.mem_cons_of_mem _ hy)
    rw [append_assoc] at hmoved
    refine ⟨_, e, ?_, ?_, hmoved⟩
    · exact (Merge.bind_ok ((Merge.create_bind _ _ _).trans (Merge.move_ok hmove))).trans hlater
    · rw [List.map_cons, join, htree, bare_append, bare_append, hmore, hsame]
      simp [single]

/-- Copies of nodes stand in a container of their own, beside all other rows. -/
theorem copyAll_apply {nodes : List NodeId} (hd : w.document.Distinct)
    (hnodes : ∀ x ∈ nodes, x ∈ w.document.ids) :
    ∃ c copied e, copyAll nodes w = .ok c { w with document := e } ∧
      copied.bare = (join (nodes.map w.document.tree)).bare ∧
      e.Holds (single c (.element ⟨containerName, []⟩) .nil) c copied
        w.document.allRows := by
  have hcreated : (w.document.create (.element ⟨containerName, []⟩)).2.Holds
      (single w.document.next (.element ⟨containerName, []⟩) .nil) w.document.next .nil
      w.document.allRows := by
    refine ⟨hd.create _, by simp [single], ?_⟩
    rw [refill_single]
    exact .refl _
  obtain ⟨copied, e, hcopies, hbare, hholds⟩ := copyInto_apply (w := { w with
    document := (w.document.create (.element ⟨containerName, []⟩)).2 }) hcreated hnodes
  have hsame := hcreated.apart.map_tree_eq hd.apart hnodes
  rw [hsame] at hbare
  refine ⟨w.document.next, copied, e, ?_, hbare, hholds⟩
  unfold copyAll
  exact Merge.bind_ok hcopies

end Block

end MailMerge
