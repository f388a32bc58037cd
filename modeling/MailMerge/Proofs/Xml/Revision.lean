import Mathlib.Logic.Relation
import MailMerge.Proofs.Xml.Apart
import MailMerge.Proofs.Xml.ChildLists
import MailMerge.Proofs.Xml.Parse

/-!
# Documents under revision

A document that is read is an ordered forest, and stays one under any sequence of edits: the lists of
children, the parents and the enumerations of its nodes agree. Each edit is an operation on these
lists, and only a move into the moved node itself is refused.
-/

namespace MailMerge.Xml

namespace Document

open Forest

variable {d e f : Document} {p q x y : NodeId}

/-! ## Ordered forests -/

/-- The links between nodes and the lists of children tell the same. -/
structure Ordered (d : Document) : Prop where
  listed : ∀ p x, x ∈ d.children p ↔ d.parent? x = some p
  once : ∀ p, (d.children p).Nodup
  acyclic : ∀ x, x ∉ d.ancestors x
  attached : ∀ x, d.isAttached x = true ↔ x ∈ d.descendants d.root
  enumerated : (d.descendants d.root).Nodup
  /-- A node is enumerated before its children, which come in order. -/
  preorder : ∀ x ∈ d.ids, d.descendants x = x :: (d.children x).flatMap d.descendants

theorem Shows.ids_eq_flatMap {row : Forest} (h : d.Shows row) :
    row.ids = row.topIds.flatMap d.descendants := by
  induction row with
  | nil => rfl
  | cons id node children rest _ ih =>
    rw [topIds_cons, List.flatMap_cons, ← ih h.later, descendants, h.tree_eq]
    simp [single]

theorem Distinct.descendants_eq (hd : d.Distinct) (hx : x ∈ d.ids) :
    d.descendants x = x :: (d.children x).flatMap d.descendants := by
  obtain ⟨s, hs⟩ := exists_site? hx
  have hbelow : d.Shows s.children := ⟨hd.has_children hs, hd.nodup_childrenIds hs⟩
  rw [children_of_site? hs, ← hbelow.ids_eq_flatMap, descendants_eq_site?, hs]
  rfl

theorem WellFormed.ordered (hd : d.WellFormed) : d.Ordered where
  listed _ _ := hd.mem_children_iff_parent?
  once p := (topIds_sublist _).nodup (hd.nodup_below p)
  acyclic x hx := by
    obtain ⟨s, hs, hin⟩ := hd.mem_ancestors_iff.1 hx
    exact Forest.notMem_children_self hd.nodup_forest (hd.forest_site? hs) hin
  attached _ := hd.isAttached_iff
  enumerated := hd.nodup_descendants d.root
  preorder _ hx := hd.descendants_eq hx

/-! ## Edits -/

/-- An edit of a document; the nodes that it makes are the next ones. -/
inductive Revision where
  | createElement (name : String)
  | createText (content : String)
  | parseFragment (text : String)
  | copy (x : NodeId)
  | appendChild (parent x : NodeId)
  | insertAfter (anchor x : NodeId)
  | insertBefore (anchor x : NodeId)
  | detach (x : NodeId)
  | unwrap (x : NodeId)
  | clearChildren (x : NodeId)
  | setText (x : NodeId) (content : String)

namespace Revision

/-- The nodes that an edit is about. -/
def nodes : Revision → List NodeId
  | createElement _ | createText _ | parseFragment _ => []
  | copy x | detach x | unwrap x | clearChildren x | setText x _ => [x]
  | appendChild target x | insertAfter target x | insertBefore target x => [target, x]

/-- The document after an edit, if it is not refused. A fragment that cannot be read adds nothing. -/
def result? (d : Document) : Revision → Option Document
  | createElement name => some (d.createElement name).2
  | createText content => some (d.createText content).2
  | parseFragment text =>
    match d.parseFragment text with
    | .ok (_, e) => some e
    | .error _ => some d
  | copy x => some (d.copy x).2
  | appendChild parent x => d.appendChild parent x
  | insertAfter anchor x => d.insertAfter anchor x
  | insertBefore anchor x => d.insertBefore anchor x
  | detach x => some (d.detach x)
  | unwrap x => some (d.unwrap x)
  | clearChildren x => some (d.clearChildren x)
  | setText x content => some (d.setText x content)

/-- Where a move goes, and what it moves. -/
def move? : Revision → Option (NodeId × NodeId)
  | appendChild target x | insertAfter target x | insertBefore target x => some (target, x)
  | _ => none

/-- The children that a node has after an edit. -/
def children (d : Document) (q : NodeId) : Revision → List NodeId
  | createElement _ | createText _ | parseFragment _ | copy _ => d.children q
  | appendChild parent x =>
    if q = parent then (d.children q).filter (· ≠ x) ++ [x] else (d.children q).filter (· ≠ x)
  | insertAfter anchor x => putAfter anchor x ((d.children q).filter (· ≠ x))
  | insertBefore anchor x => putBefore anchor x ((d.children q).filter (· ≠ x))
  | detach x => (d.children q).filter (· ≠ x)
  | unwrap x =>
    if (d.parent? x).isNone then d.children q
    else if q = x then []
    else putFor x (d.children x) (d.children q)
  | clearChildren x => if q = x then [] else d.children q
  | setText x _ => if q = x then [d.next] else d.children q

/-- The single node that an edit makes, with what it holds. -/
def made? (d : Document) : Revision → Option (NodeId × Node)
  | createElement name => some (d.next, .element ⟨name, []⟩)
  | createText content | setText _ content => some (d.next, .text content)
  | _ => none

end Revision

/-- What an edit does: it gives nodes new children, and leaves what they hold. -/
structure Enacts (r : Revision) (d e : Document) : Prop where
  children : ∀ q ∈ d.ids, e.children q = r.children d q
  kept : ∀ q ∈ d.ids, e.node? q = d.node? q
  made : ∀ x node, r.made? d = some (x, node) →
    x ∉ d.ids ∧ e.node? x = some node ∧ e.children x = []

/-- Edits of nodes that are there, one after the other, none of them refused. -/
abbrev Revised : Document → Document → Prop :=
  Relation.ReflTransGen fun d e => ∃ r : Revision, r.nodes ⊆ d.ids ∧ r.result? d = some e

variable {r : Revision}

/-- An edit that only adds rows of new nodes. -/
theorem Spares.enacts (hd : d.Distinct) (h : d.Spares d.allRows e)
    (hchildren : ∀ q, r.children d q = d.children q) (hmade : r.made? d = none) :
    Enacts r d e where
  children q hq := (h.children hd hq).trans (hchildren q).symm
  kept q hq := by rw [node?_eq_site?, node?_eq_site?, h.apart.site?_eq hd.apart hq]
  made x node hx := by rw [hmade] at hx; cases hx

theorem Spares.wellFormed (hd : d.WellFormed) (h : d.Spares d.allRows e) : e.WellFormed :=
  ⟨h.apart.distinct, h.grows.root ▸ h.ids hd.rooted⟩

/-- An edit that keeps the nodes up to order. -/
theorem WellFormed.enacts_of_perm (hd : d.WellFormed) (hperm : e.nodes.Perm d.nodes)
    (hframe : d.SameFrame e) (hchildren : ∀ q, e.children q = r.children d q)
    (hmade : r.made? d = none) : e.WellFormed ∧ Enacts r d e := by
  refine ⟨hd.of_perm hperm hframe, fun q _ => hchildren q, fun q _ => hd.node?_of_perm hperm q, ?_⟩
  intro x node hx
  rw [hmade] at hx
  cases hx

theorem WellFormed.enacts_create (hd : d.WellFormed) {node : Node}
    (hchildren : ∀ q, r.children d q = d.children q) (hmade : r.made? d = some (d.next, node)) :
    (d.create node).2.WellFormed ∧ Enacts r d (d.create node).2 := by
  have hspares := hd.apart.create node
  refine ⟨hspares.wellFormed hd, fun q hq => ?_, fun q hq => ?_, fun x n hx => ?_⟩
  · exact (hspares.children hd.toDistinct hq).trans (hchildren q).symm
  · rw [node?_eq_site?, node?_eq_site?, hspares.apart.site?_eq hd.apart hq]
  · rw [hmade] at hx
    cases hx
    refine ⟨hd.next_notMem, ?_, ?_⟩
    · rw [node?_eq_site?, site?_create, if_pos rfl]
      rfl
    · exact children_of_site? ((d.site?_create node d.next).trans (if_pos rfl))

theorem WellFormed.enacts_setText (hd : d.WellFormed) (hx : x ∈ d.ids) (content : String) :
    (d.setText x content).WellFormed ∧ Enacts (.setText x content) d (d.setText x content) := by
  have hmoved := hd.relocates_setText hx content
  have hcleared : (d.clearChildren x).WellFormed := hd.detachAll _
  have hnext : (d.clearChildren x).next = d.next := (detachAll_sameFrame d _).next
  obtain ⟨hcreated, hmade⟩ := hcleared.enacts_create (r := .createText content) (fun _ => rfl) rfl
  have hfresh := hd.next_notMem
  refine ⟨hcreated.of_perm hmoved.perm hmoved.frame, fun q hq => hd.children_setText hx content hq,
    fun q hq => ?_, fun y node hy => ?_⟩
  · rw [hcreated.node?_of_perm hmoved.perm, hmade.kept q (mem_ids_clearChildren.2 hq)]
    exact hd.node?_of_perm (detachAll_perm d _) q
  · cases hy
    obtain ⟨-, hnode, hchildren⟩ := hmade.made d.next (.text content) (hnext ▸ rfl)
    refine ⟨hfresh, (hcreated.node?_of_perm hmoved.perm _).trans hnode, ?_⟩
    rw [hmoved.children_appendChild hcreated.toDistinct, if_neg fun heq : d.next = x => hfresh (heq ▸ hx)]
    exact (congrArg _ hchildren).trans List.filter_nil

/-- A move is refused when its target stands within the moved node, and only then. -/
theorem WellFormed.enacts_move {target : NodeId} {place : Forest → Forest → Option Forest}
    {graft : Forest → Forest → Forest} (hd : d.WellFormed)
    (hmove : (target ∈ d.descendants x ∧ d.move place target x = none) ∨
      ∃ e, d.move place target x = some e ∧ d.Relocates graft target x e)
    (hresult : r.result? d = d.move place target x) (hto : r.move? = some (target, x))
    (hmade : r.made? d = none)
    (hchildren : ∀ e, d.Relocates graft target x e → ∀ q, e.children q = r.children d q) :
    (r.result? d = none ↔ ∃ target x, r.move? = some (target, x) ∧ target ∈ d.descendants x) ∧
      ∀ e, r.result? d = some e → e.WellFormed ∧ Enacts r d e := by
  rcases hmove with ⟨hin, hnone⟩ | ⟨e, he, hmoved⟩
  · rw [hresult, hnone]
    exact ⟨iff_of_true rfl ⟨target, x, hto, hin⟩, fun _ h => nomatch h⟩
  · rw [hresult, he]
    refine ⟨iff_of_false (by simp) ?_, fun _ heq => ?_⟩
    · rintro ⟨_, _, hto', hin⟩
      rw [hto] at hto'
      cases hto'
      exact hmoved.outside hin
    · cases heq
      exact hd.enacts_of_perm hmoved.perm hmoved.frame (hchildren e hmoved) hmade

/-- What one edit does. -/
theorem WellFormed.enacts (hd : d.WellFormed) (hr : r.nodes ⊆ d.ids) :
    (r.result? d = none ↔ ∃ target x, r.move? = some (target, x) ∧ target ∈ d.descendants x) ∧
      ∀ e, r.result? d = some e → e.WellFormed ∧ Enacts r d e := by
  -- Only a move can be refused, so that an edit without a move is told by its result.
  have hdone : ∀ e, r.result? d = some e → r.move? = none → e.WellFormed ∧ Enacts r d e →
      (r.result? d = none ↔ ∃ target x, r.move? = some (target, x) ∧ target ∈ d.descendants x) ∧
        ∀ e, r.result? d = some e → e.WellFormed ∧ Enacts r d e := by
    intro e hresult hnone henacts
    rw [hresult, hnone]
    exact ⟨iff_of_false (by simp) (by simp), fun _ heq => by cases heq; exact henacts⟩
  cases r with
  | createElement name =>
    exact hdone _ rfl rfl (hd.enacts_create (fun _ => rfl) rfl)
  | createText content =>
    exact hdone _ rfl rfl (hd.enacts_create (fun _ => rfl) rfl)
  | parseFragment text =>
    cases hparse : d.parseFragment text with
    | error _ =>
      exact hdone d (by simp only [Revision.result?, hparse]) rfl
        ⟨hd, (Spares.refl hd.apart).enacts hd.toDistinct (fun _ => rfl) rfl⟩
    | ok parsed =>
      have hspares := (hd.apart.parseFragment hparse).1
      exact hdone parsed.2 (by simp only [Revision.result?, hparse]) rfl
        ⟨hspares.wellFormed hd, hspares.enacts hd.toDistinct (fun _ => rfl) rfl⟩
  | copy x =>
    have hspares := hd.apart.copy x
    exact hdone _ rfl rfl ⟨hspares.wellFormed hd, hspares.enacts hd.toDistinct (fun _ => rfl) rfl⟩
  | appendChild parent x =>
    exact hd.enacts_move (hd.relocates_appendChild (hr (by simp [Revision.nodes]))
      (hr (by simp [Revision.nodes]))) rfl rfl rfl fun e h => h.children_appendChild hd.toDistinct
  | insertAfter anchor x =>
    exact hd.enacts_move (hd.relocates_insertAfter (hr (by simp [Revision.nodes]))
      (hr (by simp [Revision.nodes]))) rfl rfl rfl fun e h => h.children_insertAfter hd.toDistinct
  | insertBefore anchor x =>
    exact hd.enacts_move (hd.relocates_insertBefore (hr (by simp [Revision.nodes]))
      (hr (by simp [Revision.nodes]))) rfl rfl rfl fun e h => h.children_insertBefore hd.toDistinct
  | detach x =>
    exact hdone _ rfl rfl (hd.enacts_of_perm (detach_perm d x) (detach_sameFrame d x)
      (fun _ => hd.children_detach) rfl)
  | unwrap x =>
    refine hdone _ rfl rfl (hd.enacts_of_perm (unwrap_perm d x) (unwrap_sameFrame d x)
      (fun q => ?_) rfl)
    rw [Revision.children]
    cases hparent : d.parent? x with
    | none =>
      rw [Document.unwrap, hparent]
      exact hd.children_detach_of_root hparent q
    | some p => exact hd.children_unwrap (by rw [hparent]; rfl) q
  | clearChildren x =>
    exact hdone _ rfl rfl (hd.enacts_of_perm (detachAll_perm d _) (detachAll_sameFrame d _)
      (hd.children_clearChildren x) rfl)
  | setText x content =>
    exact hdone _ rfl rfl (hd.enacts_setText (hr (by simp [Revision.nodes])) content)

theorem Revised.wellFormed (h : Revised d e) (hd : d.WellFormed) : e.WellFormed := by
  induction h with
  | refl => exact hd
  | tail _ hstep ih =>
    obtain ⟨r, hr, hresult⟩ := hstep
    exact ((ih.enacts hr).2 _ hresult).1

/-- A document that is read stays an ordered forest under edits of its nodes. Each edit does to the
lists of children what it says, and is refused only as a move of a node into itself. -/
theorem revised_ordered {text : String} (hparse : parse text = .ok d) (h : Revised d e) :
    e.Ordered ∧ ∀ r : Revision, r.nodes ⊆ e.ids →
      (r.result? e = none ↔ ∃ target x, r.move? = some (target, x) ∧ target ∈ e.descendants x) ∧
        ∀ f, r.result? e = some f → Enacts r e f := by
  have he := h.wellFormed (proper_of_parse hparse).toWellFormed
  exact ⟨he.ordered, fun r hr => ⟨(he.enacts hr).1, fun f hf => ((he.enacts hr).2 f hf).2⟩⟩

/-- A root with two children. -/
def couple : Document where
  rows := [single 0 (.element ⟨"a", []⟩)
    (cons 1 (.element ⟨"b", []⟩) .nil (single 2 (.element ⟨"c", []⟩) .nil))]
  aside := []
  root := 0
  next := 3
  declaration := none

/-- The first of two siblings is moved behind the second, and given a text. -/
theorem revised_ordered_couple :
    parse "<a><b/><c/></a>" = .ok couple ∧
      ∃ d e, couple.insertAfter 2 1 = some d ∧ d.setText 1 "x" = e ∧ Revised couple e ∧
        e.children 0 = [2, 1] ∧ e.children 1 = [3] ∧ e.Ordered ∧
        ∀ r : Revision, r.nodes ⊆ e.ids →
          (r.result? e = none ↔
            ∃ target x, r.move? = some (target, x) ∧ target ∈ e.descendants x) ∧
          ∀ f, r.result? e = some f → Enacts r e f := by
  have hparse : parse "<a><b/><c/></a>" = .ok couple := rfl
  have hrevised : Revised couple (((couple.insertAfter 2 1).getD couple).setText 1 "x") :=
    .tail (.single ⟨.insertAfter 2 1, by decide, rfl⟩) ⟨.setText 1 "x", by decide, rfl⟩
  exact ⟨hparse, _, _, rfl, rfl, hrevised, rfl, rfl, revised_ordered hparse hrevised⟩

end Document

end MailMerge.Xml
