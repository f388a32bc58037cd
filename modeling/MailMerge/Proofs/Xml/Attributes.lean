import Mathlib.Logic.Relation
import MailMerge.Proofs.Xml.ChildLists
import MailMerge.Proofs.Xml.Still

/-!
# Attributes that are written

Writing an attribute changes neither the name of an element nor where it stands. So a document in which
attributes have been written is the earlier one but for these attributes (`Writes.rewritten`), and it
stays so when the same new element is put after the same node of both (`Rewritten.addedAfter`).
-/

namespace MailMerge.Xml

/-! ## Elements -/

namespace Element

variable {tag : Element} {name wanted : String}

/-- No two attributes of an element have the same name. -/
def Unambiguous (tag : Element) : Prop := (tag.attributes.map Attribute.name).Nodup

theorem filter_assign (keep : String → Bool) (hname : keep name = false) (value : String) (attributes : List Attribute) :
    (assign name value attributes).filter (keep ·.name) = attributes.filter (keep ·.name) := by
  induction attributes with
  | nil => simp [assign, hname]
  | cons a rest ih =>
    rw [assign]
    split
    next heq => simp [heq, hname]
    next => rw [List.filter_cons, List.filter_cons, ih]

theorem filter_eraseP (keep : String → Bool) (hname : keep name = false)
    (attributes : List Attribute) :
    (attributes.eraseP (·.name = name)).filter (keep ·.name) = attributes.filter (keep ·.name) := by
  induction attributes with
  | nil => rfl
  | cons a rest ih =>
    by_cases heq : a.name = name
    · rw [List.eraseP_cons_of_pos (by simpa using heq), List.filter_cons_of_neg (by simp [heq, hname])]
    · rw [List.eraseP_cons_of_neg (by simpa using heq), List.filter_cons, List.filter_cons, ih]

theorem names_assign (name value : String) (attributes : List Attribute) :
    (assign name value attributes).map Attribute.name =
      if name ∈ attributes.map Attribute.name then attributes.map Attribute.name
      else attributes.map Attribute.name ++ [name] := by
  induction attributes with
  | nil => rfl
  | cons a rest ih =>
    rw [assign]
    by_cases heq : a.name = name
    · simp [heq]
    · rw [if_neg heq, List.map_cons, ih, List.map_cons]
      by_cases hmem : name ∈ rest.map Attribute.name
      · rw [if_pos hmem, if_pos (List.mem_cons_of_mem _ hmem)]
      · rw [if_neg hmem, if_neg (List.not_mem_cons_of_ne_of_not_mem (Ne.symm heq) hmem)]
        rfl

/-- The last value that is assigned remains. -/
theorem assign_assign (name value other : String) (attributes : List Attribute) :
    assign name other (assign name value attributes) = assign name other attributes := by
  induction attributes with
  | nil => simp [assign]
  | cons a rest ih =>
    rw [assign]
    split
    next heq => simp [assign, heq]
    next hne => rw [assign, if_neg hne, ih, assign, if_neg hne]

theorem Unambiguous.setAttribute (h : tag.Unambiguous) (name value : String) :
    (tag.setAttribute name value).Unambiguous := by
  rw [Unambiguous, Element.setAttribute, names_assign]
  split
  next => exact h
  next hnew =>
    rw [← List.concat_eq_append]
    exact List.Nodup.concat hnew h

theorem Unambiguous.removeAttribute (h : tag.Unambiguous) (name : String) :
    (tag.removeAttribute name).Unambiguous :=
  h.sublist (List.eraseP_sublist.map _)

/-- An attribute that is removed is gone, as there is no second one of its name. -/
theorem Unambiguous.attribute?_removeAttribute (h : tag.Unambiguous) (name : String) :
    (tag.removeAttribute name).attribute? name = none := by
  obtain ⟨_, attributes⟩ := tag
  rw [attribute?, Option.map_eq_none_iff, List.find?_eq_none, Element.removeAttribute]
  dsimp only
  induction attributes with
  | nil => exact fun _ hb => absurd hb List.not_mem_nil
  | cons a rest ih =>
    rw [Unambiguous, List.map_cons, List.nodup_cons] at h
    by_cases heq : a.name = name
    · rw [List.eraseP_cons_of_pos (by simpa using heq)]
      intro b hb hsame
      exact h.1 (List.mem_map.2 ⟨b, hb, (of_decide_eq_true hsame).trans heq.symm⟩)
    · rw [List.eraseP_cons_of_neg (by simpa using heq), List.forall_mem_cons]
      exact ⟨by simpa using heq, ih h.2⟩

/-- A change of an element that is about attributes of the given names only. -/
structure Writing (names : List String) (change : Element → Element) : Prop where
  name : ∀ tag, (change tag).name = tag.name
  rest : ∀ tag, (change tag).attributes.filter (·.name ∉ names) =
    tag.attributes.filter (·.name ∉ names)
  unambiguous : ∀ tag, tag.Unambiguous → (change tag).Unambiguous

variable {names : List String} {change : Element → Element}

theorem writing_setAttribute (h : name ∈ names) (value : String) :
    Writing names (·.setAttribute name value) where
  name _ := rfl
  rest tag := filter_assign (· ∉ names) (by simpa using h) value tag.attributes
  unambiguous _ htag := htag.setAttribute name value

theorem writing_removeAttribute (h : name ∈ names) : Writing names (·.removeAttribute name) where
  name _ := rfl
  rest tag := filter_eraseP (· ∉ names) (by simpa using h) tag.attributes
  unambiguous _ htag := htag.removeAttribute name

theorem Writing.mono {names' : List String} (h : Writing names change) (hsub : names ⊆ names') :
    Writing names' change where
  name := h.name
  unambiguous := h.unambiguous
  rest tag := by
    have hfilter : ∀ attributes : List Attribute, attributes.filter (·.name ∉ names') =
        (attributes.filter (·.name ∉ names)).filter (·.name ∉ names') := by
      intro attributes
      rw [List.filter_filter]
      refine List.filter_congr fun a _ => ?_
      by_cases hin : a.name ∈ names
      · simp [hin, hsub hin]
      · simp [hin]
    rw [hfilter, h.rest, ← hfilter]

/-- The attributes that are left out do not hide one of another name. -/
theorem find?_filter_notMem (hout : wanted ∉ names) (attributes : List Attribute) :
    (attributes.filter (·.name ∉ names)).find? (·.name = wanted) =
      attributes.find? (·.name = wanted) := by
  rw [List.find?_filter]
  congr 1
  funext a
  by_cases heq : a.name = wanted
  · simp [heq, hout]
  · simp [heq]

/-- Attributes of other names keep their values. -/
theorem Writing.attribute? (h : Writing names change) (hout : wanted ∉ names) (tag : Element) :
    (change tag).attribute? wanted = tag.attribute? wanted := by
  rw [Element.attribute?, Element.attribute?, ← find?_filter_notMem hout, h.rest,
    find?_filter_notMem hout]

end Element

namespace Node

variable {names : List String} {wanted : String}

/-- A node but for some attributes. -/
def without (names : List String) : Node → Node :=
  mapElement fun tag => { tag with attributes := tag.attributes.filter (·.name ∉ names) }

theorem without_mapElement {change : Element → Element} (h : Element.Writing names change)
    (n : Node) : (n.mapElement change).without names = n.without names := by
  cases n with
  | element tag => simp only [without, mapElement, h.name, h.rest]
  | text | cdata => rfl

theorem attribute?_without (hout : wanted ∉ names) (n : Node) :
    (n.without names).attribute? wanted = n.attribute? wanted := by
  cases n with
  | element tag => exact congrArg (·.map Attribute.value) (Element.find?_filter_notMem hout tag.attributes)
  | text content => rfl
  | cdata content => rfl

theorem isNamed_mapElement {change : Element → Element} (h : ∀ tag, (change tag).name = tag.name)
    (n : Node) (name : String) : (n.mapElement change).isNamed name = n.isNamed name := by
  cases n with
  | element tag => simp [mapElement, isNamed, name?, element?, h]
  | text content => rfl
  | cdata content => rfl

theorem isElement_mapElement (change : Element → Element) (n : Node) :
    (n.mapElement change).isElement = n.isElement := by
  cases n <;> rfl

end Node

/-! ## Documents -/

theorem Forest.update_update (x : NodeId) (change change' : Node → Node) (row : Forest) :
    (row.update x change).update x change' = row.update x (change' ∘ change) := by
  induction row with
  | nil => rfl
  | cons id node children rest ihc ihr =>
    rw [update, update, update, ihc, ihr]
    split <;> rfl

namespace Document

open Forest

variable {c d e d' e' : Document} {x y a : NodeId} {name wanted value : String}
variable {change : Node → Node}

theorem node?_update (d : Document) (x : NodeId) (change : Node → Node) (y : NodeId) :
    (d.update x change).node? y = (d.node? y).map fun n => if y = x then change n else n := by
  rw [node?_eq_site?, node?_eq_site?, site?_update]
  cases d.site? y <;> rfl

theorem isNamed_update (hchange : ∀ n name, (change n).isNamed name = n.isNamed name)
    (y : NodeId) (name : String) : (d.update x change).isNamed y name = d.isNamed y name := by
  rw [isNamed, isNamed, name?, name?, node?_update]
  cases hnode : d.node? y with
  | none => rfl
  | some n =>
    rw [Option.map_some, Option.bind_some, Option.bind_some]
    split
    next => exact hchange n name
    next => rfl

theorem find?_update (hchange : ∀ n name, (change n).isNamed name = n.isNamed name)
    (y : NodeId) (name : String) : (d.update x change).find? y name = d.find? y name := by
  rw [find?, find?, below_update, nodes_update, List.find?_map, Option.map_map]
  congr 1
  congr 1
  funext entry
  simp only [Function.comp_apply]
  split
  next => exact hchange _ name
  next => rfl

theorem nextElement?_update (hchange : ∀ n, (change n).isElement = n.isElement) (y : NodeId) :
    (d.update x change).nextElement? y = d.nextElement? y := by
  have hfollowing : (d.update x change).following y = (d.following y).update x change := by
    rw [following_eq_site?, following_eq_site?, site?_update]
    cases d.site? y <;> rfl
  rw [nextElement?, nextElement?, followingElements, followingElements, hfollowing]
  congr 1
  generalize d.following y = row
  induction row with
  | nil => rfl
  | cons z n children rest _ ih =>
    have helement : (if z = x then change n else n).isElement = n.isElement := by
      split
      next => exact hchange n
      next => rfl
    rw [Forest.update, tops, tops, List.filter_cons, List.filter_cons, helement]
    cases n.isElement with
    | true => exact congrArg (z :: ·) ih
    | false => exact ih

theorem isNamed_setAttribute (d : Document) (x : NodeId) (name value : String) (y : NodeId)
    (other : String) : (d.setAttribute x name value).isNamed y other = d.isNamed y other :=
  have hwriting := Element.writing_setAttribute (List.mem_singleton_self name) value
  isNamed_update (Node.isNamed_mapElement hwriting.name) y other

/-- The last value that is written to an attribute remains. -/
theorem setAttribute_setAttribute (d : Document) (x : NodeId) (name value other : String) :
    (d.setAttribute x name value).setAttribute x name other = d.setAttribute x name other := by
  have hwrite : Node.mapElement (·.setAttribute name other) ∘
      Node.mapElement (·.setAttribute name value) = Node.mapElement (·.setAttribute name other) := by
    funext node
    cases node with
    | element tag => simp [Node.mapElement, Element.setAttribute, Element.assign_assign]
    | text | cdata => rfl
  simp only [setAttribute, update, List.map_map, Function.comp_def, Forest.update_update]
  simp only [← Function.comp_def, hwrite]

theorem attribute?_setAttribute {tag : Element} (h : d.node? x = some (.element tag))
    (name value : String) : (d.setAttribute x name value).attribute? x name = some value := by
  rw [attribute?, setAttribute, node?_update, h, Option.map_some, if_pos rfl]
  exact (Element.attribute?_setAttribute tag name name value).trans (if_pos rfl)

/-- A value that an attribute has already may be written again anywhere. -/
theorem attribute?_setAttribute_same (h : d.attribute? y name = some value) :
    (d.setAttribute x name value).attribute? y name = some value := by
  obtain ⟨n, hnode, hvalue⟩ := Option.bind_eq_some_iff.1 h
  by_cases heq : y = x
  · subst heq
    cases n with
    | element tag => exact attribute?_setAttribute hnode name value
    | text | cdata => cases hvalue
  · rw [attribute?, setAttribute, node?_update, hnode, Option.map_some, if_neg heq]
    exact hvalue

theorem attribute?_removeAttribute {tag : Element} (h : d.node? x = some (.element tag))
    (htag : tag.Unambiguous) (name : String) : (d.removeAttribute x name).attribute? x name = none := by
  rw [attribute?, removeAttribute, node?_update, h, Option.map_some, if_pos rfl]
  exact htag.attribute?_removeAttribute name

theorem exists_element_of_isNamed (h : d.isNamed x name = true) :
    ∃ tag, d.node? x = some (.element tag) := by
  rw [isNamed, name?] at h
  cases hnode : d.node? x with
  | none => simp [hnode] at h
  | some n =>
    cases n with
    | element tag => exact ⟨tag, rfl⟩
    | text | cdata => simp [hnode, Node.name?, Node.element?] at h

theorem mem_ids_of_isNamed (h : d.isNamed x name = true) : x ∈ d.ids := by
  obtain ⟨tag, htag⟩ := exists_element_of_isNamed h
  rw [← isSome_node?_iff, htag]
  rfl

theorem mem_ids_of_attribute? {value : String} (h : d.attribute? x name = some value) :
    x ∈ d.ids := by
  obtain ⟨n, hn, -⟩ := Option.bind_eq_some_iff.1 h
  rw [← isSome_node?_iff, hn]
  rfl

theorem attribute?_setAttribute_of_ne (hne : name ≠ wanted) (y : NodeId) :
    (d.setAttribute x name value).attribute? y wanted = d.attribute? y wanted := by
  rw [attribute?, setAttribute, node?_update, attribute?]
  cases d.node? y with
  | none => rfl
  | some n =>
    rw [Option.map_some, Option.bind_some, Option.bind_some]
    split
    next =>
      cases n with
      | element tag => exact (Element.attribute?_setAttribute tag _ _ _).trans (if_neg hne)
      | text | cdata => rfl
    next => rfl

/-! ## What writing leaves -/

/-- A later document is the earlier one but for some attributes of its nodes. -/
structure Rewritten (names : NodeId → List String) (d e : Document) : Prop where
  root : e.root = d.root
  declaration : e.declaration = d.declaration
  children : ∀ q, e.children q = d.children q
  node : ∀ q, (e.node? q).map (Node.without (names q)) = (d.node? q).map (Node.without (names q))

namespace Rewritten

variable {names : NodeId → List String}

theorem refl (names : NodeId → List String) (d : Document) : Rewritten names d d :=
  ⟨rfl, rfl, fun _ => rfl, fun _ => rfl⟩

theorem trans (h : Rewritten names c d) (h' : Rewritten names d e) : Rewritten names c e where
  root := h'.root.trans h.root
  declaration := h'.declaration.trans h.declaration
  children q := (h'.children q).trans (h.children q)
  node q := (h'.node q).trans (h.node q)

/-- Attributes that are not rewritten keep their values. -/
theorem attribute?_eq (h : Rewritten names d e) (hout : wanted ∉ names x) :
    e.attribute? x wanted = d.attribute? x wanted := by
  have hnode := congrArg (·.bind (·.attribute? wanted)) (h.node x)
  simpa only [attribute?, Option.bind_map, Function.comp_def, Node.attribute?_without hout] using hnode

theorem isSome_node?_eq (h : Rewritten names d e) (x : NodeId) :
    (e.node? x).isSome = (d.node? x).isSome := by
  simpa only [Option.isSome_map] using congrArg Option.isSome (h.node x)

theorem of_update {change : Element → Element} (hchange : Element.Writing (names x) change) :
    Rewritten names d (d.update x (·.mapElement change)) where
  root := rfl
  declaration := rfl
  children := children_update d x _
  node q := by
    rw [node?_update]
    cases d.node? q with
    | none => rfl
    | some n =>
      rw [Option.map_some, Option.map_some, Option.map_some]
      split
      next heq => rw [heq, Node.without_mapElement hchange]
      next => rfl

end Rewritten

/-- An element of a document does not name an attribute twice. -/
def UnambiguousAt (d : Document) (x : NodeId) : Prop :=
  ∀ tag, d.node? x = some (.element tag) → tag.Unambiguous

/-- Some attributes of some nodes are written, one after the other. -/
abbrev Writes (names : NodeId → List String) : Document → Document → Prop :=
  Relation.ReflTransGen fun d e => ∃ x change,
    Element.Writing (names x) change ∧ e = d.update x (·.mapElement change)

namespace Writes

variable {names names' : NodeId → List String}

theorem setAttribute (h : Writes names d e) (hname : name ∈ names x) (value : String) :
    Writes names d (e.setAttribute x name value) :=
  h.tail ⟨x, _, Element.writing_setAttribute hname value, rfl⟩

theorem removeAttribute (h : Writes names d e) (hname : name ∈ names x) :
    Writes names d (e.removeAttribute x name) :=
  h.tail ⟨x, _, Element.writing_removeAttribute hname, rfl⟩

theorem mono (h : Writes names d e) (hsub : ∀ x, names x ⊆ names' x) : Writes names' d e := by
  refine Relation.ReflTransGen.mono ?_ d e h
  rintro d e ⟨x, change, hchange, heq⟩
  exact ⟨x, change, hchange.mono (hsub x), heq⟩

theorem rewritten (h : Writes names d e) : Rewritten names d e := by
  induction h with
  | refl => exact .refl names d
  | tail _ hstep ih =>
    obtain ⟨x, change, hchange, rfl⟩ := hstep
    exact ih.trans (.of_update hchange)

theorem distinct (h : Writes names d e) (hd : d.Distinct) : e.Distinct := by
  induction h with
  | refl => exact hd
  | tail _ hstep ih =>
    obtain ⟨x, change, -, rfl⟩ := hstep
    exact ih.update x _

/-- What no single writing changes is the same after all of them. -/
theorem keeps {β : Type} (h : Writes names d e) (read : Document → β)
    (hread : ∀ c x change, Element.Writing (names x) change →
      read (c.update x (·.mapElement change)) = read c) : read e = read d := by
  induction h with
  | refl => rfl
  | tail _ hstep ih =>
    obtain ⟨x, change, hchange, rfl⟩ := hstep
    exact (hread _ x change hchange).trans ih

theorem ids (h : Writes names d e) : e.ids = d.ids :=
  h.keeps Document.ids fun c x _ _ => update_ids c x _

theorem next (h : Writes names d e) : e.next = d.next :=
  h.keeps Document.next fun _ _ _ _ => rfl

theorem isNamed (h : Writes names d e) (y : NodeId) (name : String) :
    e.isNamed y name = d.isNamed y name :=
  h.keeps (·.isNamed y name) fun _ _ _ hchange =>
    isNamed_update (Node.isNamed_mapElement hchange.name) y name

theorem find? (h : Writes names d e) (y : NodeId) (name : String) :
    e.find? y name = d.find? y name :=
  h.keeps (·.find? y name) fun _ _ _ hchange =>
    find?_update (Node.isNamed_mapElement hchange.name) y name

theorem nextElement? (h : Writes names d e) (y : NodeId) :
    e.nextElement? y = d.nextElement? y :=
  h.keeps (·.nextElement? y) fun _ _ change _ =>
    nextElement?_update (Node.isElement_mapElement change) y

/-- Attributes that are not written keep their values. -/
theorem attribute? (h : Writes names d e) (hout : wanted ∉ names y) :
    e.attribute? y wanted = d.attribute? y wanted := by
  refine h.keeps (·.attribute? y wanted) fun c x change hchange => ?_
  rw [Document.attribute?, Document.attribute?, node?_update]
  cases c.node? y with
  | none => rfl
  | some n =>
    rw [Option.map_some, Option.bind_some, Option.bind_some]
    split
    next heq =>
      subst heq
      cases n with
      | element tag => exact hchange.attribute? hout tag
      | text | cdata => rfl
    next => rfl

theorem unambiguousAt (h : Writes names d e) (hx : d.UnambiguousAt x) : e.UnambiguousAt x := by
  induction h with
  | refl => exact hx
  | tail _ hstep ih =>
    obtain ⟨y, change, hchange, rfl⟩ := hstep
    intro tag htag
    rw [node?_update, Option.map_eq_some_iff] at htag
    obtain ⟨n, hnode, hn⟩ := htag
    split at hn
    next =>
      cases n with
      | element old =>
        cases hn
        exact hchange.unambiguous old (ih old hnode)
      | text | cdata => cases hn
    next =>
      subst hn
      exact ih tag hnode

end Writes

/-! ## New elements -/

/-- A new element without attributes and children stands right after a node. -/
structure AddedAfter (d : Document) (a x : NodeId) (name : String) (e : Document) : Prop where
  fresh : x ∉ d.ids
  root : e.root = d.root
  declaration : e.declaration = d.declaration
  node : ∀ q, e.node? q = if q = x then some (.element ⟨name, []⟩) else d.node? q
  children : ∀ q, e.children q = if q = x then [] else putAfter a x (d.children q)
  following : e.following a = cons x (.element ⟨name, []⟩) .nil (d.following a)

theorem AddedAfter.nextElement? (h : d.AddedAfter a x name e) : e.nextElement? a = some x := by
  rw [Document.nextElement?, followingElements, h.following]
  rfl

theorem Rewritten.addedAfter {names : NodeId → List String} (h : Rewritten names d e)
    (hd : d.AddedAfter a x name d') (he : e.AddedAfter a x name e') : Rewritten names d' e' where
  root := by rw [he.root, hd.root, h.root]
  declaration := by rw [he.declaration, hd.declaration, h.declaration]
  children q := by rw [he.children, hd.children, h.children]
  node q := by
    rw [he.node, hd.node]
    split
    next => rfl
    next => exact h.node q

/-- A new element can be put after any node. -/
theorem Distinct.exists_addedAfter (hd : d.Distinct) (ha : a ∈ d.ids) (name : String) :
    ∃ e, (d.createElement name).2.insertAfter a d.next = some e ∧ e.Distinct ∧
      d.AddedAfter a d.next name e := by
  have hsite := d.site?_create (.element ⟨name, []⟩)
  have hcreated : (d.createElement name).2.Distinct := hd.create _
  have hfresh := hd.next_notMem
  have hne : a ≠ d.next := fun heq => hfresh (heq ▸ ha)
  change ∀ y, (d.createElement name).2.site? y = _ at hsite
  have hframe : (d.createElement name).2.root = d.root ∧
      (d.createElement name).2.declaration = d.declaration := ⟨rfl, rfl⟩
  generalize (d.createElement name).2 = c at *
  have hnew : c.site? d.next = some ⟨.element ⟨name, []⟩, .nil, .nil⟩ := by rw [hsite, if_pos rfl]
  have hold : c.site? a = d.site? a := by rw [hsite, if_neg hne]
  have hmem : a ∈ c.ids := by rwa [← isSome_site?_iff, hold, isSome_site?_iff]
  have hapart : a ∉ c.descendants d.next := by
    rw [descendants, tree_of_site? hnew]
    simpa [single] using hne
  -- The new element encloses nothing, so that putting it behind the node is not refused.
  obtain ⟨hin, -⟩ | ⟨e, hinsert, hmoved⟩ :=
    hcreated.relocates_insertAfter (mem_ids_of_site? hnew) hmem
  · exact absurd hin hapart
  obtain ⟨s, t, hplace⟩ := hcreated.movedAfter hinsert
  refine ⟨e, hinsert, hplace.distinct hcreated, hfresh, ?_, ?_, fun q => ?_, fun q => ?_, ?_⟩
  · exact hmoved.frame.root.trans hframe.1
  · exact hmoved.frame.declaration.trans hframe.2
  · rw [hcreated.node?_of_perm hmoved.perm, node?_eq_site?, hsite, node?_eq_site?]
    split <;> rfl
  · rw [hmoved.children_insertAfter hcreated]
    by_cases hq : q = d.next
    · rw [hq, if_pos rfl, children_of_site? hnew]
      rfl
    · have hsame : c.children q = d.children q := by
        rw [children_eq_site?, children_eq_site?, hsite, if_neg hq]
      have hout : d.next ∉ d.children q := fun hin => hfresh (mem_ids_of_mem_children hin).2
      rw [if_neg hq, hsame, filter_ne_of_notMem hout]
  · have hx : d.next ∉ (d.following a).ids := fun hin => hfresh (mem_ids_of_mem_following hin)
    have hbefore : (c.detach d.next).following a = d.following a := by
      have hsame : c.following a = d.following a := by
        rw [following_eq_site?, following_eq_site?, hold]
      rw [hcreated.following_detach hne (hsame ▸ hx), hsame]
    have htarget : t.rest = d.following a := by
      rw [← hbefore, following_eq_site?, hplace.target]
      rfl
    have hmade : s = ⟨.element ⟨name, []⟩, .nil, .nil⟩ := by
      have hsome := hplace.moved
      rw [hnew] at hsome
      exact (Option.some.inj hsome).symm
    rw [following_eq_site?, hplace.before, hmade, htarget]
    rfl

end Document

end MailMerge.Xml
