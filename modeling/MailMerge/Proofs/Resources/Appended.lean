import MailMerge.Proofs.Xml.Holds
import MailMerge.Proofs.Xml.Place
import MailMerge.Resources.Relationships

/-!
# Elements added to the root

New elements come one after the other at the end of the children of the root, and nothing else in the
document changes. Main statement: `Resources.appended_foldl`.
-/

namespace MailMerge

open Xml Xml.Document

namespace Xml

namespace Forest

/-- A row of childless elements with identities from `next` on. -/
def leaves (next : NodeId) : List Element → Forest
  | [] => nil
  | tag :: tags => cons next (.element tag) nil (leaves (next + 1) tags)

variable {next : NodeId} {tags : List Element}

theorem tops_leaves (next : NodeId) (tags : List Element) :
    (leaves next tags).tops = (leaves next tags).nodes := by
  induction tags generalizing next with
  | nil => rfl
  | cons tag tags ih => simp [leaves, Forest.tops, Forest.nodes, ih]

theorem payloads_leaves (next : NodeId) (tags : List Element) :
    (leaves next tags).nodes.map Prod.snd = tags.map .element := by
  induction tags generalizing next with
  | nil => rfl
  | cons tag tags ih => simp [leaves, Forest.nodes, ih]

end Forest

namespace Document

/-- Elements have been added at the end of the children of the root. The other nodes are what and
where they were. -/
structure Appended (d : Document) (tags : List Element) (e : Document) : Prop where
  distinct : e.Distinct
  root : e.root = d.root
  declaration : e.declaration = d.declaration
  tree : ∃ node, d.tree d.root = .single d.root node (d.below d.root) ∧
    e.tree e.root = .single d.root node (d.below d.root ++ .leaves d.next tags)

namespace Appended

variable {d e : Document} {tags : List Element}

theorem below (h : d.Appended tags e) :
    e.below e.root = d.below d.root ++ .leaves d.next tags := by
  obtain ⟨node, -, htree⟩ := h.tree
  rw [Document.below, htree]
  rfl

theorem wellFormed (h : d.Appended tags e) : e.WellFormed := by
  refine ⟨h.distinct, mem_ids_of_mem_descendants (x := e.root) ?_⟩
  obtain ⟨node, -, htree⟩ := h.tree
  rw [descendants, htree, h.root]
  simp [Forest.single]

/-- What the nodes below the root hold: the old nodes come first. -/
theorem payloads_below (h : d.Appended tags e) :
    (e.below e.root).nodes.map Prod.snd =
      (d.below d.root).nodes.map Prod.snd ++ tags.map .element := by
  rw [h.below, Forest.nodes_append, List.map_append, Forest.payloads_leaves]

/-- What the children of the root hold. -/
theorem payloads_children (h : d.Appended tags e) :
    (e.below e.root).tops.map Prod.snd =
      (d.below d.root).tops.map Prod.snd ++ tags.map .element := by
  rw [h.below, Forest.tops_append, List.map_append, Forest.tops_leaves, Forest.payloads_leaves]

end Appended

variable {d : Document}

/-- The row below the root of a document, with all that surrounds it. -/
theorem WellFormed.exists_holds_root (hd : d.WellFormed) :
    ∃ around rest, d.Holds around d.root (d.below d.root) rest := by
  obtain ⟨row, hrow, hroot⟩ := exists_row hd.rooted
  obtain ⟨s, hs⟩ := Forest.exists_site? hroot
  have hbelow : d.below d.root = s.children := by
    rw [below_eq_site?, hd.site?_of_row hrow hroot, hs]
    rfl
  obtain ⟨before, after, hrows⟩ := List.append_of_mem hrow
  refine ⟨row, before ++ after, hd.toDistinct, hroot, ?_⟩
  rw [hbelow, Forest.refill_self hs (hd.nodup_row hrow), hrows]
  exact List.perm_middle

end Document

end Xml

namespace Resources

variable {d : Document} {around f : Forest} {rest : List Forest}

/-- Adds an element that is known with its attributes. -/
def addElement (d : Document) (tag : Element) : Document := addToRoot d tag.name tag.attributes

/-- What a document holds when an element has been added. -/
theorem addElement_holds (h : d.Holds around d.root f rest) (tag : Element) :
    (addElement d tag).Holds around d.root (f ++ .single d.next (.element tag) .nil) rest ∧
      (addElement d tag).root = d.root ∧ (addElement d tag).declaration = d.declaration ∧
      (addElement d tag).next = d.next + 1 := by
  obtain ⟨e, happend, hframe, hholds⟩ := (h.create (.element tag)).appendTree
  have hadd : addElement d tag = e := by
    change ((d.create (.element tag)).2.appendChild d.root d.next).getD d = e
    rw [happend, Option.getD_some]
  rw [hadd]
  exact ⟨hholds, hframe.root, hframe.declaration, hframe.next⟩

theorem foldl_addElement_holds (h : d.Holds around d.root f rest) (tags : List Element) :
    (tags.foldl addElement d).Holds around d.root (f ++ .leaves d.next tags) rest ∧
      (tags.foldl addElement d).root = d.root ∧
      (tags.foldl addElement d).declaration = d.declaration := by
  induction tags generalizing d f with
  | nil => exact ⟨by simpa [Forest.leaves] using h, rfl, rfl⟩
  | cons tag tags ih =>
    obtain ⟨hholds, hroot, hdeclaration, hnext⟩ := addElement_holds h tag
    have hlater := ih (hroot ▸ hholds)
    rw [hroot, hdeclaration, hnext, Forest.append_assoc] at hlater
    exact hlater

/-- Elements that are added one after the other stand at the end of the children of the root. -/
theorem appended_foldl (hd : d.WellFormed) (tags : List Element) :
    d.Appended tags (tags.foldl addElement d) := by
  obtain ⟨around, rest, hholds⟩ := hd.exists_holds_root
  obtain ⟨hadded, hroot, hdeclaration⟩ := foldl_addElement_holds hholds tags
  obtain ⟨s, hs⟩ := Forest.exists_site? hholds.mem
  exact ⟨hadded.distinct, hroot, hdeclaration, s.node, hholds.tree_eq hs,
    hroot.symm ▸ hadded.tree_eq hs⟩

theorem appended_addElement (hd : d.WellFormed) (tag : Element) :
    d.Appended [tag] (addElement d tag) := appended_foldl hd [tag]

end Resources

end MailMerge
