import MailMerge.Proofs.Field.Cleaning
import MailMerge.Proofs.Xml.Revision

/-!
# New elements among the children of a node

A new element is put at the end of the children of a node, or before one of them. It is among the
children of that node then, and nothing else in the document changes (`Document.Added`). Where an
element of some name is looked for and not found, it may be made so (`Document.Provided`); the same
search finds it from then on.
-/

namespace MailMerge.Xml

theorem putBefore_append_cons {a x : NodeId} {before after : List NodeId} (h : a ∉ before) :
    putBefore a x (before ++ a :: after) = before ++ x :: a :: after := by
  induction before with
  | nil => rw [List.nil_append, putBefore, if_pos rfl, List.nil_append]
  | cons y ys ih =>
    rw [List.mem_cons, not_or] at h
    rw [List.cons_append, putBefore, if_neg (Ne.symm h.1), ih h.2, List.cons_append]

namespace Document

open Forest

variable {d e : Document} {name : String} {a p q x y target : NodeId}
variable {change : Forest → Site → Forest} {graft : Forest → Forest → Forest}
variable {row before after : List NodeId} {names : List String} {found? : Option NodeId}

/-- A new element without attributes and children stands among the children of a node, which are the
given ones now. All else is as it was, also the rows that nodes without a parent stand in. -/
structure Added (d : Document) (name : String) (p : NodeId) (row : List NodeId) (e : Document) :
    Prop where
  wellFormed : e.WellFormed
  root : e.root = d.root
  declaration : e.declaration = d.declaration
  tops : e.allRows.map topIds = d.allRows.map topIds
  ids : ∀ q, q ∈ e.ids ↔ q = d.next ∨ q ∈ d.ids
  node : ∀ q, e.node? q = if q = d.next then some (.element ⟨name, []⟩) else d.node? q
  children : ∀ q, e.children q = if q = p then row else d.children q

/-! ## Moves of new nodes -/

/-- A new node is put into the row of another one, and the other rows are left as they are. -/
theorem Distinct.move_create_rows (hd : d.Distinct) (htarget : target ∈ d.ids) (node : Node)
    (place : Forest → Forest → Option Forest)
    (hplace : ∀ tree row : Forest, row.ids.Nodup →
      place tree row = (row.site? target).map fun _ => row.rewrite target (change tree)) :
    ∃ e, (d.create node).2.move place target d.next = some e ∧
      e.allRows = d.allRows.map (·.rewrite target (change (single d.next node .nil))) := by
  obtain ⟨s, hs⟩ := exists_site? htarget
  rw [site?_eq_findSome?] at hs
  have hrows := change_allRows d (place (single d.next node .nil))
  rw [changeRow_eq hd.nodup (hplace _), hs, Option.map_some, Option.map_eq_some_iff] at hrows
  obtain ⟨e, he, hrows⟩ := hrows
  refine ⟨{ e with next := d.next + 1 }, ?_, hrows⟩
  rw [hd.move_create htarget, he, Option.map_some]

theorem Distinct.children_create_filter (hd : d.Distinct) (node : Node) (q : NodeId) :
    ((d.create node).2.children q).filter (· ≠ d.next) = d.children q := by
  have hsite := d.site?_create node q
  by_cases hq : q = d.next
  · have hout := hd.next_notMem
    rw [hq, if_pos rfl] at hsite
    rw [hq, children_of_site? hsite, children_of_notMem hout]
    rfl
  · rw [if_neg hq] at hsite
    rw [children_eq_site?, hsite, ← children_eq_site?,
      filter_ne_of_notMem (hd.next_notMem_children q)]

theorem WellFormed.added (hd : d.WellFormed)
    (hmoved : (d.createElement name).2.Relocates graft target d.next e)
    (htops : e.allRows.map topIds = d.allRows.map topIds)
    (hchildren : ∀ q, e.children q = if q = p then row else d.children q) :
    d.Added name p row e := by
  have hcreated : (d.createElement name).2.WellFormed :=
    ⟨hd.create _, List.mem_cons_of_mem _ hd.rooted⟩
  refine ⟨hcreated.of_perm hmoved.perm hmoved.frame, hmoved.frame.root, hmoved.frame.declaration,
    htops, fun q => ?_, fun q => ?_, hchildren⟩
  · rw [ids_eq_map_nodes, (hmoved.perm.map Prod.fst).mem_iff, ← ids_eq_map_nodes]
    exact List.mem_cons
  · have hsite := d.site?_create (.element ⟨name, []⟩) q
    rw [hcreated.node?_of_perm hmoved.perm, node?_eq_site?, createElement, hsite, node?_eq_site?]
    split <;> rfl

/-! ## New children -/

/-- A new element at the end of the children of a node. -/
theorem WellFormed.exists_added_last (hd : d.WellFormed) (hp : p ∈ d.ids) (name : String) :
    ∃ e, (d.createElement name).2.appendChild p d.next = some e ∧
      d.Added name p (d.children p ++ [d.next]) e := by
  obtain ⟨e, he, hrows⟩ := hd.move_create_rows hp (.element ⟨name, []⟩) (appendChild? p)
    fun _ _ hrow => appendChild?_eq_site? hrow
  obtain ⟨-, hnone⟩ | ⟨_, hsome, hmoved⟩ := (hd.create (.element ⟨name, []⟩)).relocates_appendChild
    (x := d.next) List.mem_cons_self (List.mem_cons_of_mem _ hp)
  · cases he.symm.trans hnone
  cases he.symm.trans hsome
  refine ⟨e, he, hd.added hmoved ?_ fun q => ?_⟩
  · rw [hrows, List.map_map]
    exact List.map_congr_left fun f _ => topIds_graftBelow
  · rw [hmoved.children_appendChild (hd.create _), hd.children_create_filter]
    split
    next heq => rw [heq]
    next => rfl

/-- A child of a node stands at the top of no row. -/
theorem Distinct.notMem_topIds_of_mem_children (hd : d.Distinct) (ha : a ∈ d.children p)
    {f : Forest} (hf : f ∈ d.allRows) : a ∉ f.topIds := by
  intro htop
  obtain ⟨s, hs, hbelow⟩ := mem_children_iff.1 ha
  obtain ⟨g, hg, hsite⟩ := exists_row_of_site? hs
  have hin := mem_ids_of_mem_topIds hbelow
  cases hd.row_unique hf hg (mem_ids_of_mem_topIds htop) (Forest.mem_of_mem_children hsite hin)
  exact notMem_of_mem_topIds (hd.nodup_row hf) htop hsite hin

/-- A new element before a child of a node. -/
theorem WellFormed.exists_added_before (hd : d.WellFormed) (ha : a ∈ d.children p)
    (name : String) : ∃ e, (d.createElement name).2.insertBefore a d.next = some e ∧
      d.Added name p (putBefore a d.next (d.children p)) e := by
  have hmem : a ∈ d.ids := (mem_ids_of_mem_children ha).2
  obtain ⟨e, he, hrows⟩ := hd.move_create_rows hmem (.element ⟨name, []⟩) (insertBefore? a)
    fun _ _ hrow => insertBefore?_eq_site? hrow
  obtain ⟨-, hnone⟩ | ⟨_, hsome, hmoved⟩ := (hd.create (.element ⟨name, []⟩)).relocates_insertBefore
    (x := d.next) List.mem_cons_self (List.mem_cons_of_mem _ hmem)
  · cases he.symm.trans hnone
  cases he.symm.trans hsome
  refine ⟨e, he, hd.added hmoved ?_ fun q => ?_⟩
  · rw [hrows, List.map_map]
    refine List.map_congr_left fun f hf => topIds_graftBefore_single.trans ?_
    exact putBefore_of_notMem (hd.notMem_topIds_of_mem_children ha hf)
  · rw [hmoved.children_insertBefore (hd.create _), hd.children_create_filter]
    split
    next heq => rw [heq]
    next hne => exact putBefore_of_notMem fun hin => hne (hd.children_unique hin ha)

/-! ## What is looked up afterwards -/

namespace Added

variable (h : d.Added name p row e)
include h

theorem subset : d.ids ⊆ e.ids := fun q hq => (h.ids q).2 (.inr hq)

theorem isNamed_next (other : String) : e.isNamed d.next other = (name == other) := by
  rw [isNamed, name?, h.node, if_pos rfl]
  simp [Node.name?, Node.element?]

section Old

variable (hd : d.Distinct)
include hd

theorem node?_of_mem (hq : q ∈ d.ids) : e.node? q = d.node? q := by
  rw [h.node, if_neg (Nat.ne_of_lt (hd.numbered q hq))]

theorem isNamed_of_mem (hq : q ∈ d.ids) (other : String) : e.isNamed q other = d.isNamed q other := by
  rw [isNamed, isNamed, name?, name?, h.node?_of_mem hd hq]

theorem children_next (hp : p ∈ d.ids) : e.children d.next = [] := by
  have hout := hd.next_notMem
  rw [h.children, if_neg fun heq : d.next = p => hout (heq ▸ hp), children_of_notMem hout]

end Old

end Added

/-! ## Elements of a name -/

/-- An element of the given name is among the children of a node. -/
def HasChild (d : Document) (x : NodeId) (name : String) : Prop :=
  ∃ y ∈ d.children x, d.isNamed y name = true

/-- The node is an element of one of the given names. -/
def isOneOf (d : Document) (x : NodeId) (names : List String) : Bool := names.any (d.isNamed x ·)

/-- The last child of a node that is an element of the given name. -/
def lastNamed? (d : Document) (x : NodeId) (name : String) : Option NodeId :=
  (d.childrenNamed x [name]).getLast?

@[simp] theorem isOneOf_singleton (d : Document) (x : NodeId) (name : String) :
    d.isOneOf x [name] = d.isNamed x name := by
  simp [isOneOf]

theorem isOneOf_eq_false (h : d.isNamed y name = true) (hname : name ∉ names) :
    d.isOneOf y names = false :=
  List.any_eq_false.2 fun other hother => by
    rw [isNamed_of_ne h fun heq => hname (heq ▸ hother)]
    exact Bool.false_ne_true

namespace Distinct

variable (hd : d.Distinct)
include hd

theorem childrenNamed_eq (x : NodeId) (names : List String) :
    d.childrenNamed x names = (d.children x).filter (d.isOneOf · names) := by
  rw [childrenNamed, Document.children, List.filter_map]
  refine congrArg _ (List.filter_congr fun entry hentry => ?_)
  have hnode := (hd.shows_below x).node? ((tops_sublist _).subset hentry)
  simp only [Function.comp_apply, isOneOf, isNamed, name?, hnode]
  rfl

theorem mem_childrenNamed :
    y ∈ d.childrenNamed x [name] ↔ y ∈ d.children x ∧ d.isNamed y name = true := by
  rw [hd.childrenNamed_eq, List.mem_filter]
  simp

theorem childrenNamed_congr (he : e.Distinct) (hchildren : e.children q = d.children q)
    (hnamed : ∀ y ∈ d.children q, ∀ name, e.isNamed y name = d.isNamed y name) :
    e.childrenNamed q names = d.childrenNamed q names := by
  rw [hd.childrenNamed_eq, he.childrenNamed_eq, hchildren]
  exact List.filter_congr fun y hy => by simp only [isOneOf, hnamed y hy]

theorem childNamed?_eq_none_iff : d.childNamed? x name = none ↔ ¬d.HasChild x name := by
  rw [childNamed?_eq_head?, List.head?_eq_none_iff, hd.childrenNamed_eq, List.filter_eq_nil_iff,
    HasChild]
  simp

theorem mem_of_childNamed? (h : d.childNamed? x name = some y) :
    y ∈ d.children x ∧ d.isNamed y name = true := by
  rw [childNamed?_eq_head?] at h
  exact hd.mem_childrenNamed.1 (List.mem_of_head? h)

theorem mem_findAll_iff : y ∈ d.findAll x name ↔ y ∈ (d.below x).ids ∧ d.isNamed y name = true := by
  have hnode : ∀ entry ∈ (d.below x).nodes, d.isNamed entry.1 name = entry.2.isNamed name := by
    intro entry hentry
    rw [isNamed, name?, (hd.shows_below x).node? hentry]
    rfl
  rw [findAll, List.mem_map]
  constructor
  · rintro ⟨entry, hentry, rfl⟩
    obtain ⟨hmem, hnamed⟩ := List.mem_filter.1 hentry
    exact ⟨List.mem_map_of_mem hmem, (hnode entry hmem).trans hnamed⟩
  · rintro ⟨hmem, hnamed⟩
    obtain ⟨entry, hentry, rfl⟩ := List.mem_map.1 hmem
    exact ⟨entry, List.mem_filter.2 ⟨hentry, (hnode entry hentry).symm.trans hnamed⟩, rfl⟩

theorem nodup_findAll (x : NodeId) (name : String) : (d.findAll x name).Nodup :=
  (hd.nodup_below x).sublist (List.filter_sublist.map Prod.fst)

end Distinct

/-! ## Elements that are found or made -/

/-- A new element is one of the children of its name, between those that were there. -/
theorem Added.childrenNamed_parent (hd : d.Distinct) (split : d.children p = before ++ after)
    (h : d.Added name p (before ++ d.next :: after) e) :
    e.childrenNamed p [name] =
      before.filter (d.isNamed · name) ++ d.next :: after.filter (d.isNamed · name) := by
  have hold : ∀ y ∈ before ++ after, e.isNamed y name = d.isNamed y name := fun y hy =>
    h.isNamed_of_mem hd (mem_ids_of_mem_children (split ▸ hy)).2 name
  have hnew : e.isNamed d.next name = true := by simp [h.isNamed_next]
  rw [h.wellFormed.childrenNamed_eq, h.children, if_pos rfl]
  simp only [isOneOf_singleton]
  rw [List.filter_append, List.filter_cons, if_pos hnew,
    List.filter_congr fun y hy => hold y (List.mem_append_left _ hy),
    List.filter_congr fun y hy => hold y (List.mem_append_right _ hy)]

/-- An element of a given name among the children of a node: one that is there already, or a new one
between the given children. -/
inductive Provided (d : Document) (p : NodeId) (name : String) (before after : List NodeId) :
    Option NodeId → NodeId → Document → Prop where
  | found {x : NodeId} (mem : x ∈ d.childrenNamed p [name]) :
      Provided d p name before after (some x) x d
  | made {e : Document} (split : d.children p = before ++ after)
      (added : d.Added name p (before ++ d.next :: after) e) :
      Provided d p name before after none d.next e

namespace Provided

variable (h : d.Provided p name before after found? x e) (hd : d.WellFormed)
include h

theorem root : e.root = d.root := by
  cases h with
  | found => rfl
  | made _ added => exact added.root

theorem declaration : e.declaration = d.declaration := by
  cases h with
  | found => rfl
  | made _ added => exact added.declaration

theorem tops : e.allRows.map topIds = d.allRows.map topIds := by
  cases h with
  | found => rfl
  | made _ added => exact added.tops

theorem children_eq (hq : q ≠ p) : e.children q = d.children q := by
  cases h with
  | found => rfl
  | made _ added => rw [added.children, if_neg hq]

include hd

theorem wellFormed : e.WellFormed := by
  cases h with
  | found => exact hd
  | made _ added => exact added.wellFormed

theorem mem_ids_iff : q ∈ e.ids ↔ q ∈ d.ids ∨ q = x := by
  cases h with
  | found mem =>
    have hx := (mem_ids_of_mem_children (hd.mem_childrenNamed.1 mem).1).2
    exact ⟨.inl, fun hq => hq.elim id fun heq => heq ▸ hx⟩
  | made _ added => exact (added.ids q).trans or_comm

theorem node?_eq (hq : q ∈ d.ids) : e.node? q = d.node? q := by
  cases h with
  | found => rfl
  | made _ added => exact added.node?_of_mem hd.toDistinct hq

theorem isNamed_eq (hq : q ∈ d.ids) (other : String) : e.isNamed q other = d.isNamed q other := by
  rw [isNamed, isNamed, name?, name?, h.node?_eq hd hq]

theorem mem_children : x ∈ e.children p := by
  cases h with
  | found mem => exact (hd.mem_childrenNamed.1 mem).1
  | made _ added =>
    rw [added.children, if_pos rfl]
    exact List.mem_append_right _ List.mem_cons_self

/-- Other nodes have the same children of each name. -/
theorem childrenNamed_eq (hq : q ≠ p) : e.childrenNamed q names = d.childrenNamed q names := by
  refine hd.childrenNamed_congr (h.wellFormed hd).toDistinct (h.children_eq hq) fun y hy => ?_
  exact h.isNamed_eq hd (mem_ids_of_mem_children hy).2

omit h

/-- The last element of the name is the one that was found or made. -/
theorem lastNamed?_eq (h : d.Provided p name before [] (d.lastNamed? p name) x e) :
    e.lastNamed? p name = some x := by
  generalize hlast : d.lastNamed? p name = last? at h
  cases h with
  | found => exact hlast
  | made split added =>
    rw [lastNamed?, added.childrenNamed_parent hd.toDistinct split]
    simp

/-- The first element of the name is the one that was found or made. -/
theorem childNamed?_eq (h : d.Provided p name before after (d.childNamed? p name) x e) :
    e.childNamed? p name = some x := by
  generalize hfirst : d.childNamed? p name = first? at h
  cases h with
  | found => exact hfirst
  | made split added =>
    have hnone : before.filter (d.isNamed · name) = [] := by
      rw [childNamed?_eq_head?, List.head?_eq_none_iff, hd.childrenNamed_eq, split] at hfirst
      simpa using (List.append_eq_nil_iff.1 ((List.filter_append ..).symm.trans hfirst)).1
    rw [childNamed?_eq_head?, added.childrenNamed_parent hd.toDistinct split, hnone]
    rfl

end Provided

end Document

end MailMerge.Xml
