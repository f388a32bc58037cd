import MailMerge.Proofs.Field.Containers
import MailMerge.Proofs.Field.Discovery
import MailMerge.Proofs.Xml.Attributes
import MailMerge.Proofs.Xml.Steady

/-!
# What lasts while fields are evaluated

While the fields of a part are evaluated, nodes are put into it and taken out of it. What later
fields rely on lasts if each edit is made elsewhere (`Lasts`): a node stands within no others than
before, a simple field goes on displaying the same run, and nothing comes after an anchor that could
begin a field.
-/

namespace MailMerge

open Xml Xml.Forest

variable {c d d' d₁ e : Document} {f' : Forest} {a f x y z : NodeId} {q p : NodeId → Prop} {row : Forest}
variable {trees rest : List Forest} {s : Site}

namespace Xml.Document

/-- A node stands alone in its row. -/
def Alone (d : Document) (x : NodeId) : Prop := ∃ node f, single x node f ∈ d.allRows

theorem isNamed_of_name? {name : String} (h : e.name? x = d.name? x) :
    e.isNamed x name = d.isNamed x name := by rw [isNamed, isNamed, h]

theorem isNamed_of_ne {name other : String} (h : d.isNamed x name = true) (hne : name ≠ other) :
    d.isNamed x other = false := by
  rw [isNamed, beq_iff_eq] at h
  rw [isNamed, h]
  simpa using hne

theorem Alone.mem_ids (h : d.Alone x) : x ∈ d.ids := by
  obtain ⟨node, f, hrow⟩ := h
  exact mem_ids_of_row hrow List.mem_cons_self

theorem Alone.site? (hd : d.Distinct) (h : d.Alone x) :
    ∃ s, d.site? x = some s ∧ s.rest = .nil ∧ s.tree x ∈ d.allRows := by
  obtain ⟨node, f, hrow⟩ := h
  refine ⟨⟨node, f, .nil⟩, ?_, rfl, hrow⟩
  rw [hd.site?_of_row hrow List.mem_cons_self, single, Forest.site?, if_pos rfl]

theorem Alone.following (hd : d.Distinct) (h : d.Alone x) : d.following x = .nil := by
  obtain ⟨s, hs, hrest, -⟩ := h.site? hd
  rw [following_eq_site?, hs]
  exact hrest

theorem Alone.parent? (hd : d.Distinct) (h : d.Alone x) : d.parent? x = none := by
  obtain ⟨node, f, hrow⟩ := h
  rw [Document.parent?, ancestors, hd.enclosing_of_row hrow List.mem_cons_self, single, ancestors?,
    if_pos rfl]
  rfl

/-- What is not among the children of anything has no parent. -/
theorem parent?_eq_none_of_children (hd : d.Distinct) (h : ∀ p, x ∉ d.children p) :
    d.parent? x = none :=
  Option.eq_none_iff_forall_not_mem.2 fun p hp => h p (hd.mem_children_iff_parent?.2 hp)

namespace Distinct

variable (hd : d.Distinct)
include hd

theorem parent?_detach (hne : y ≠ a) : (d.detach a).parent? y = d.parent? y :=
  parent?_eq_of_children hd (hd.detach a) fun p => by
    rw [hd.children_detach, List.mem_filter]
    simp [hne]

theorem parent?_detach_self : (d.detach a).parent? a = none :=
  parent?_eq_none_of_children (hd.detach a) fun p hin => by
    rw [hd.children_detach, List.mem_filter] at hin
    simp at hin

theorem below_detach (hout : a ∉ (d.below y).ids) : (d.detach a).below y = d.below y := by
  rw [below_eq_site?, below_eq_site?, hd.site?_detach]
  cases hs : d.site? y with
  | none => rfl
  | some s =>
    have hchildren : s.children = d.below y := by rw [below_eq_site?, hs]; rfl
    rw [← hchildren] at hout
    simp only [Option.map_some, Option.getD_some]
    split
    · rfl
    · exact rewrite_of_notMem hout

theorem following_detach_subset (ha : y ∈ d.ids) :
    ((d.detach a).following y).ids ⊆ (d.following y).ids := by
  have hbounds : Bounds d.ids (fun _ _ => False) d (d.detach a) := hd.detach_bounds a
  exact fun _ hz => (hbounds.following y ha).mem_ids hz nofun

theorem alone_detach_self (ha : a ∈ d.ids) : (d.detach a).Alone a := by
  obtain ⟨row, hrow, hmem⟩ := exists_row ha
  obtain ⟨before, after, hrows⟩ := List.append_of_mem hrow
  obtain ⟨s, hs⟩ := Forest.exists_site? hmem
  have hperm := hd.detach_rows (hrows ▸ List.perm_middle) hs
  exact ⟨s.node, s.children, hperm.mem_iff.2 List.mem_cons_self⟩

theorem alone_detach (h : d.Alone y) (hne : y ≠ a) : (d.detach a).Alone y := by
  by_cases ha : a ∈ d.ids
  · obtain ⟨node, f, hrow⟩ := h
    obtain ⟨row, hmem, hin⟩ := exists_row ha
    obtain ⟨before, after, hrows⟩ := List.append_of_mem hmem
    obtain ⟨s, hs⟩ := Forest.exists_site? hin
    have hperm := hd.detach_rows (hrows ▸ List.perm_middle) hs
    rw [hrows, List.perm_middle.mem_iff, List.mem_cons] at hrow
    rcases hrow with rfl | hrow
    · refine ⟨node, f.without a, hperm.mem_iff.2 (List.mem_cons_of_mem _ (List.mem_append_left _ ?_))⟩
      rw [without, single, rewrite, if_neg hne]
      exact List.mem_singleton_self _
    · exact ⟨node, f, hperm.mem_iff.2 (List.mem_cons_of_mem _ (List.mem_append_right _ hrow))⟩
  · rwa [detach_of_notMem hd ha]

theorem parent?_unwrap (hparent : (d.parent? x).isSome) (hne : y ≠ x) (hout : y ∉ d.children x) :
    (d.unwrap x).parent? y = d.parent? y :=
  parent?_eq_of_children hd (hd.unwrap x) fun p => by
    rw [hd.children_unwrap hparent]
    split
    next heq => simp [heq, hout]
    next =>
      rw [putFor, List.mem_flatMap]
      refine ⟨fun hput => ?_, fun hy => ⟨y, hy, by simp [hne]⟩⟩
      obtain ⟨z, hz, hy⟩ := hput
      split at hy
      · exact absurd hy hout
      · rwa [List.mem_singleton.1 hy]

theorem site?_unwrap_of_notMem (hparent : (d.parent? x).isSome) (hne : y ≠ x)
    (hout : y ∉ d.children x) :
    (d.unwrap x).site? y = (d.site? y).map (Site.map (dissolve x)) := by
  obtain ⟨s, hs⟩ := exists_site?_of_parent? hparent
  rw [hd.site?_unwrap hparent hs hne, ← children_of_site? hs]
  simp [hout]

theorem alone_unwrap (hparent : (d.parent? x).isSome) (h : d.Alone y) (hne : y ≠ x) :
    (d.unwrap x).Alone y := by
  obtain ⟨t, ht⟩ := exists_site?_of_parent? hparent
  obtain ⟨node, f, hrow⟩ := h
  obtain ⟨row, hmem, hs⟩ := exists_row_of_site? ht
  obtain ⟨before, after, hrows⟩ := List.append_of_mem hmem
  have hperm := hd.unwrap_rows (hrows ▸ List.perm_middle) hs hparent
  rw [hrows, List.perm_middle.mem_iff, List.mem_cons] at hrow
  rcases hrow with rfl | hrow
  · refine ⟨node, f.dissolve x,
      hperm.mem_iff.2 (List.mem_cons_of_mem _ (List.mem_append_left _ ?_))⟩
    rw [dissolve, single, rewrite, if_neg hne]
    exact List.mem_singleton_self _
  · exact ⟨node, f, hperm.mem_iff.2 (List.mem_cons_of_mem _ (List.mem_append_right _ hrow))⟩

theorem node?_detach (x y : NodeId) : (d.detach x).node? y = d.node? y :=
  hd.node?_of_perm (detach_perm d x) y

end Distinct

end Xml.Document

namespace Xml.Forest

/-- What encloses a node stays when a row is put after another one. -/
theorem ancestors?_graftAfter (hy : y ∉ row.ids) (g : Forest) :
    (graftAfter a row g).ancestors? y = g.ancestors? y := by
  induction g with
  | nil => rfl
  | cons x node children rest ihc ihr =>
    simp only [graftAfter, rewrite] at ihc ihr ⊢
    split
    next heq => rw [heq, ancestors?, ancestors?, ancestors?_append_right _ hy]
    next => rw [ancestors?, ancestors?, ihc, ihr]

end Xml.Forest

namespace Xml.Document.Planted

variable (h : d.Planted trees a row d') (hd : d.Distinct)
include h hd

/-- Nodes that were not in the trees that have been put after a node keep their sites, and what comes
after that node has come into them. What encloses them stays. -/
theorem site? (hs : d.site? y = some s) (hout : y ∉ trees.flatMap Forest.ids) :
    (∃ r, d'.site? y = some ⟨s.node, graftAfter a row s.children, r⟩ ∧
      (y ≠ a → r = graftAfter a row s.rest)) ∧ d'.enclosing y = d.enclosing y ∧
      (d.Alone y → y ≠ a → d'.Alone y) := by
  obtain ⟨g, rest, left, ha, hrows, hrows'⟩ := h.rows
  have hd' := hd.moved h.moved
  have hg : g ∈ d.allRows := hrows.mem_iff.2 (List.mem_append_right _ List.mem_cons_self)
  have hg' : graftAfter a row g ∈ d'.allRows := hrows'.mem_iff.2 List.mem_cons_self
  have hnodup := hd.nodup_row hg
  obtain ⟨t, ht⟩ := Forest.exists_site? ha
  have hnodes : (graftAfter a row g).nodes.Perm (row.nodes ++ g.nodes) :=
    nodes_perm_graftAfter hnodup ht
  have hmade := (hnodes.map Prod.fst).nodup_iff.1 (hd'.nodup_row hg')
  rw [List.map_append] at hmade
  obtain ⟨hrow, -, hdisj⟩ := List.nodup_append.1 hmade
  have hy := mem_ids_of_site? hs
  rw [Document.ids, (hrows.flatMap_right Forest.ids).mem_iff, List.flatMap_append,
    List.mem_append, List.flatMap_cons, List.mem_append] at hy
  -- The node stands in the row that has grown, or in one that has been left alone.
  rcases hy.resolve_left hout with hy | hy
  · have hyrow : y ∉ row.ids := fun hin => hdisj y hin y hy rfl
    have hmem : y ∈ (graftAfter a row g).ids := (mem_ids_graftAfter hnodup).2 (.inl hy)
    rw [hd.site?_of_row hg hy] at hs
    rw [hd'.site?_of_row hg' hmem, hd'.enclosing_of_row hg' hmem, hd.enclosing_of_row hg hy,
      ancestors?_graftAfter hyrow]
    refine ⟨?_, rfl, fun hparted hne => ?_⟩
    · by_cases hya : y = a
      · subst hya
        rw [site?_graftAfter_self hnodup hs]
        refine ⟨row ++ s.rest, ?_, fun hne => absurd rfl hne⟩
        rw [graftAfter, rewrite_of_notMem (notMem_children_self hnodup hs)]
      · rw [site?_graftAfter hnodup hrow ht hya hyrow, hs]
        exact ⟨_, rfl, fun _ => rfl⟩
    · obtain ⟨node, f, halone⟩ := hparted
      cases hd.row_unique halone hg List.mem_cons_self hy
      refine ⟨node, graftAfter a row f, ?_⟩
      rwa [graftAfter, single, rewrite, if_neg hne] at hg'
  · obtain ⟨other, hother, hy⟩ := List.mem_flatMap.1 hy
    have hmem : other ∈ d.allRows :=
      hrows.mem_iff.2 (List.mem_append_right _ (List.mem_cons_of_mem _ hother))
    have hmem' : other ∈ d'.allRows :=
      hrows'.mem_iff.2 (List.mem_cons_of_mem _ (List.mem_append_right _ hother))
    rw [hd.site?_of_row hmem hy] at hs
    have hids := (hrows.flatMap_right Forest.ids).nodup_iff.1 hd.nodup
    rw [List.flatMap_append, List.flatMap_cons] at hids
    have haout : a ∉ other.ids := fun hin => (List.nodup_append.1
      (List.nodup_append.1 hids).2.1).2.2 a ha a (List.mem_flatMap.2 ⟨other, hother, hin⟩) rfl
    have hsame : ∀ f : Forest, f.ids ⊆ other.ids → graftAfter a row f = f := fun f hf =>
      rewrite_of_notMem fun hin => haout (hf hin)
    rw [hd'.site?_of_row hmem' hy, hd'.enclosing_of_row hmem' hy, hd.enclosing_of_row hmem hy]
    refine ⟨⟨s.rest, ?_, fun _ => ?_⟩, rfl, fun hparted _ => ?_⟩
    · rw [hs, hsame s.children fun z hz => Forest.mem_of_mem_children hs hz]
    · rw [hsame s.rest fun z hz => Forest.mem_of_mem_rest hs hz]
    · obtain ⟨node, f, halone⟩ := hparted
      cases hd.row_unique halone hmem List.mem_cons_self hy
      exact ⟨node, f, hmem'⟩

/-- The row comes out of the trees that stood alone. -/
theorem row_subset : row.ids ⊆ trees.flatMap Forest.ids := by
  intro z hz
  obtain ⟨g, rest, left, ha, hrows, hrows'⟩ := h.rows
  have hnodup := hd.nodup_row (hrows.mem_iff.2 (List.mem_append_right _ List.mem_cons_self))
  have hid := (hrows'.flatMap_right Forest.ids).nodup_iff.1 (hd.moved h.moved).nodup
  obtain ⟨t, ht⟩ := Forest.exists_site? ha
  have hnodes : (graftAfter a row g).nodes.Perm (row.nodes ++ g.nodes) :=
    nodes_perm_graftAfter hnodup ht
  have hmade := hnodes.map Prod.fst
  rw [List.map_append] at hmade
  have hin : z ∈ (graftAfter a row g).ids := hmade.mem_iff.2 (List.mem_append_left _ hz)
  have hz' : z ∈ d.ids := by
    rw [ids_eq_map_nodes, ← (h.moved.perm.map Prod.fst).mem_iff, ← ids_eq_map_nodes]
    exact (hrows'.flatMap_right Forest.ids).mem_iff.2 (List.mem_append_left _ hin)
  rw [Document.ids, (hrows.flatMap_right Forest.ids).mem_iff, List.flatMap_append,
    List.mem_append, List.flatMap_cons, List.mem_append] at hz'
  rw [List.flatMap_cons, List.flatMap_append] at hid
  obtain ⟨hgraft, -, hout⟩ := List.nodup_append.1 hid
  refine hz'.resolve_right (Not.elim ?_)
  rintro (hg | hrest)
  · exact (List.nodup_append.1 (hmade.nodup_iff.1 hgraft)).2.2 z hz z hg rfl
  · exact hout z hin z (List.mem_append_right _ hrest) rfl

variable (hy : y ∈ d.ids) (hout : y ∉ trees.flatMap Forest.ids)
include hy hout

theorem below : d'.below y = graftAfter a row (d.below y) := by
  obtain ⟨s, hs⟩ := exists_site? hy
  obtain ⟨⟨r, hs', -⟩, -⟩ := h.site? hd hs hout
  rw [below_eq_site?, below_eq_site?, hs, hs']
  rfl

theorem following (hne : y ≠ a) : d'.following y = graftAfter a row (d.following y) := by
  obtain ⟨s, hs⟩ := exists_site? hy
  obtain ⟨⟨r, hs', hr⟩, -⟩ := h.site? hd hs hout
  rw [following_eq_site?, following_eq_site?, hs, hs']
  exact hr hne

theorem parent? : d'.parent? y = d.parent? y := by
  obtain ⟨s, hs⟩ := exists_site? hy
  rw [Document.parent?, ancestors, (h.site? hd hs hout).2.1]
  rfl

theorem alone (halone : d.Alone y) (hne : y ≠ a) : d'.Alone y := by
  obtain ⟨s, hs⟩ := exists_site? hy
  exact (h.site? hd hs hout).2.2 halone hne

theorem mem_descendants (hin : y ∈ d'.descendants x) : y ∈ d.descendants x := by
  obtain ⟨s, hs⟩ := exists_site? hy
  obtain ⟨t, ht, rfl | hin⟩ := mem_descendants_iff.1 hin
  · exact mem_descendants_self hy
  · have habove := (hd.moved h.moved).mem_ancestors_iff.2 ⟨t, ht, hin⟩
    rw [ancestors, (h.site? hd hs hout).2.1, ← ancestors] at habove
    obtain ⟨t, ht, hin⟩ := hd.mem_ancestors_iff.1 habove
    exact mem_descendants_iff.2 ⟨t, ht, .inr hin⟩

end Xml.Document.Planted

theorem Xml.name?_eq_of_isNamed {m n : Node} (h : ∀ name, m.isNamed name = n.isNamed name) :
    m.name? = n.name? :=
  Option.ext fun name => by
    have heq := h name
    rw [Node.isNamed, Node.isNamed, Bool.eq_iff_iff, beq_iff_eq, beq_iff_eq] at heq
    exact heq

namespace Field

open Document

/-- A run with one text and without field markup, told by its nodes. -/
theorem display_single {n : Node} {inner : Forest} (hname : n.isNamed "w:r" = true)
    (text : (inner.nodes.countP fun entry => entry.2.isNamed "w:t") = 1)
    (pure : ∀ entry ∈ inner.nodes, isMarkup entry.2 = false) : Display (single y n inner) := by
  cases n with
  | element tag =>
    refine .mk ?_ text pure
    simpa [Node.isNamed, Node.name?, Node.element?] using hname
  | text content => simp [Node.isNamed, Node.name?, Node.element?] at hname
  | cdata content => simp [Node.isNamed, Node.name?, Node.element?] at hname

/-- What a simple field displays stays a run with one text when attributes change. -/
theorem Display.update (h : Display row) {change : Node → Node}
    (hchange : ∀ n name, (change n).isNamed name = n.isNamed name) :
    Display (row.update x change) := by
  obtain ⟨y, n, inner, rfl, h⟩ := h.exists_single
  obtain ⟨tag, rfl, hname, htext, hpure⟩ := h.elim
  have hsame : ∀ (entry : NodeId × Node) name,
      (if entry.1 = x then change entry.2 else entry.2).isNamed name = entry.2.isNamed name :=
    fun entry name => by
      split
      · exact hchange _ _
      · rfl
  refine display_single ((hsame (y, .element tag) _).trans hname) ?_ fun entry hentry => ?_
  · rw [nodes_update, List.countP_map]
    simpa only [Function.comp_def, hsame] using htext
  · rw [nodes_update] at hentry
    obtain ⟨entry, hmem, rfl⟩ := List.mem_map.1 hentry
    have hpure := hpure entry hmem
    simpa only [isMarkup, hsame] using hpure

/-- What a simple field displays stays a run with one text when nodes without markup and texts are put
into it. -/
theorem Display.graftAfter (h : Display f') (hf : f'.ids.Nodup) (ha : a ∉ f'.topIds)
    (hrow : ∀ entry ∈ row.nodes, isMarkup entry.2 = false ∧ entry.2.isNamed "w:t" = false) :
    Display (graftAfter a row f') ∧ (Forest.graftAfter a row f').topIds = f'.topIds := by
  obtain ⟨y, n, inner, rfl, h⟩ := h.exists_single
  obtain ⟨tag, rfl, hname, htext, hpure⟩ := h.elim
  have hne : y ≠ a := fun heq => ha (heq ▸ List.mem_cons_self)
  rw [Forest.graftAfter, single, rewrite, if_neg hne]
  refine ⟨?_, rfl⟩
  by_cases hin : a ∈ inner.ids
  · obtain ⟨s, hs⟩ := Forest.exists_site? hin
    have hperm : (Forest.graftAfter a row inner).nodes.Perm (row.nodes ++ inner.nodes) :=
      nodes_perm_graftAfter (nodup_cons_iff.1 hf).2.2.1 hs
    refine display_single hname ?_ fun entry hentry => ?_
    · refine (hperm.countP_eq _).trans ?_
      rw [List.countP_append, htext, List.countP_eq_zero.2]
      exact fun entry hentry => by simp [(hrow entry hentry).2]
    · rcases List.mem_append.1 (hperm.mem_iff.1 hentry) with hentry | hentry
      · exact (hrow entry hentry).1
      · exact hpure entry hentry
  · rw [rewrite_of_notMem hin]
    exact h

/-- The names of the elements in which it is written how an image is placed. -/
def placed : List String := ["wp:extent", "a:ext", "a:blip", "a:srcRect"]

/-- What later statements rely on lasts from one document to a later one. Nodes stand within no others
than before, and the simple fields of the first kind go on displaying the same run. After the nodes of
the second kind nothing comes that could begin a field, and they stand alone if they are taken
out. -/
structure Lasts (q p : NodeId → Prop) (d d' : Document) : Prop where
  distinct : d'.Distinct
  ids : d.ids ⊆ d'.ids
  name : ∀ z ∈ d.ids, d'.name? z = d.name? z
  node : ∀ z ∈ d.ids, (∀ name ∈ placed, d.isNamed z name = false) → d'.node? z = d.node? z
  below : ∀ z ∈ d.ids, ∀ y, z ∈ d'.descendants y → z ∈ d.descendants y
  display : ∀ y, q y → d.isNamed y "w:fldSimple" = true → Display (d.below y) →
    Display (d'.below y) ∧ d'.children y = d.children y
  following : ∀ f, p f → ∀ z ∈ (d'.following f).ids, z ∈ (d.following f).ids ∨
    (z ∉ d.ids ∧ d'.isNamed z "w:fldSimple" = false ∧ d'.isNamed z "w:fldChar" = false)
  alone : ∀ f, p f → d.Alone f → d'.Alone f
  parted : ∀ f, p f → d'.parent? f = none → d'.Alone f ∨ d.parent? f = none

namespace Lasts

variable {q' p' : NodeId → Prop}

theorem isNamed (h : Lasts q p d d') (hz : z ∈ d.ids) (name : String) :
    d'.isNamed z name = d.isNamed z name := isNamed_of_name? (h.name z hz)

theorem refl (hd : d.Distinct) (q p : NodeId → Prop) : Lasts q p d d where
  distinct := hd
  ids := List.Subset.refl _
  name _ _ := rfl
  node _ _ _ := rfl
  below _ _ _ hz := hz
  display _ _ _ hdisplay := ⟨hdisplay, rfl⟩
  following _ _ _ hz := .inl hz
  alone _ _ h := h
  parted _ _ h := .inr h

theorem imp (h : Lasts q p d d') (hq : ∀ y, q' y → q y) (hp : ∀ f, p' f → p f) :
    Lasts q' p' d d' where
  distinct := h.distinct
  ids := h.ids
  name := h.name
  node := h.node
  below := h.below
  display y hy := h.display y (hq y hy)
  following f hf := h.following f (hp f hf)
  alone f hf := h.alone f (hp f hf)
  parted f hf := h.parted f (hp f hf)

theorem trans (h : Lasts q p c d) (h' : Lasts q p d e) : Lasts q p c e where
  distinct := h'.distinct
  ids := List.Subset.trans h.ids h'.ids
  name z hz := (h'.name z (h.ids hz)).trans (h.name z hz)
  node z hz hname := (h'.node z (h.ids hz) fun name hmem => by
    rw [h.isNamed hz, hname name hmem]).trans (h.node z hz hname)
  below z hz y hin := h.below z hz y (h'.below z (h.ids hz) y hin)
  display y hy hsimple hdisplay := by
    have hy' := mem_ids_of_isNamed hsimple
    obtain ⟨hshown, hsame⟩ := h.display y hy hsimple hdisplay
    obtain ⟨hshown', hsame'⟩ := h'.display y hy ((h.isNamed hy' _).trans hsimple) hshown
    exact ⟨hshown', hsame'.trans hsame⟩
  following f hf z hz := by
    rcases h'.following f hf z hz with hz | ⟨hz, hnames⟩
    · rcases h.following f hf z hz with hin | ⟨hnew, hsimple, hmarker⟩
      · exact .inl hin
      · have hz' : z ∈ d.ids := mem_ids_of_mem_following hz
        exact .inr ⟨hnew, (h'.isNamed hz' _).trans hsimple, (h'.isNamed hz' _).trans hmarker⟩
    · exact .inr ⟨fun hin => hz (h.ids hin), hnames⟩
  alone f hf halone := h'.alone f hf (h.alone f hf halone)
  parted f hf hnone := by
    rcases h'.parted f hf hnone with halone | hnone
    · exact .inl halone
    · rcases h.parted f hf hnone with halone | hnone
      · exact .inl (h'.alone f hf halone)
      · exact .inr hnone

/-- Nodes come below no others than before. -/
theorem inner (h : Lasts q p d d') (hz : z ∈ d.ids) (hin : z ∈ (d'.below y).ids) :
    z ∈ (d.below y).ids := by
  have hbelow := h.below z hz y (mem_descendants_of_mem_below hin)
  obtain ⟨s, hs, rfl | hmem⟩ := mem_descendants_iff.1 hbelow
  · exact absurd hin (h.distinct.notMem_below_self z)
  · rw [below_eq_site?, hs]
    exact hmem

end Lasts

/-- An edit at a node is made elsewhere than in simple fields of the first kind and after nodes of the
second kind. -/
structure Remote (q p : NodeId → Prop) (d : Document) (a : NodeId) : Prop where
  inner : ∀ y, q y → d.isNamed y "w:fldSimple" = true → a ∉ (d.below y).ids
  ne : ∀ f, p f → f ≠ a
  after : ∀ f, p f → a ∉ (d.following f).ids

namespace Remote

theorem imp {q' p' : NodeId → Prop} (h : Remote q p d a) (hq : ∀ y, q' y → q y)
    (hp : ∀ f, p' f → p f) : Remote q' p' d a where
  inner y hy := h.inner y (hq y hy)
  ne f hf := h.ne f (hp f hf)
  after f hf := h.after f (hp f hf)

theorem later (h : Remote q p d a) (ha : a ∈ d.ids) (hq : ∀ y, q y → y ∈ d.ids)
    (hl : Lasts q p d d') : Remote q p d' a where
  inner y hy hsimple hin :=
    h.inner y hy ((hl.isNamed (hq y hy) _).symm.trans hsimple) (hl.inner ha hin)
  ne := h.ne
  after f hf hin := by
    rcases hl.following f hf a hin with hin | ⟨hnew, -⟩
    · exact h.after f hf hin
    · exact hnew ha

end Remote

namespace Lasts

/-- Rows that are added leave all nodes as they were. -/
theorem of_spares (hd : d.Distinct) (h : d.Spares d.allRows d') (hq : ∀ y, q y → y ∈ d.ids)
    (hp : ∀ f, p f → f ∈ d.ids) : Lasts q p d d' := by
  have hsite : ∀ y ∈ d.ids, d'.site? y = d.site? y := fun y hy =>
    (hd.apart.site?_eq h.apart hy).symm
  have hnode : ∀ z ∈ d.ids, d'.node? z = d.node? z := fun z hz => by
    rw [node?_eq_site?, node?_eq_site?, hsite z hz]
  have hbelow : ∀ y ∈ d.ids, d'.below y = d.below y := fun y hy => by
    rw [below_eq_site?, below_eq_site?, hsite y hy]
  obtain ⟨own, hrows⟩ := h.apart.rows
  exact {
    distinct := h.apart.distinct
    ids := h.ids
    name := fun z hz => by rw [Document.name?, Document.name?, hnode z hz]
    node := fun z hz _ => hnode z hz
    below := ((Steady.refl (p := fun _ => False) hd).spares (fun _ h => h.elim) h).below
    display := fun y hy _ hdisplay => by
      rw [hbelow y (hq y hy), Document.children, hbelow y (hq y hy)]
      exact ⟨hdisplay, rfl⟩
    following := fun f hf z hz => by
      rw [following_eq_site?, hsite f (hp f hf), ← following_eq_site?] at hz
      exact .inl hz
    alone := fun f _ halone => by
      obtain ⟨node, g, hrow⟩ := halone
      exact ⟨node, g, hrows.mem_iff.2 (List.mem_append_right _ hrow)⟩
    parted := fun f hf hnone => .inr ((hd.apart.parent?_eq h.apart (hp f hf)).trans hnone) }

/-- A node is taken out, after which nodes may have been put for the time being. -/
theorem detach (h : Lasts q (fun f => p f ∧ f ≠ a) d d') (hq : ∀ y, q y → y ∈ d.ids)
    (hp : ∀ f, p f → f ∈ d.ids) (ha : a ∈ d'.ids)
    (hout : ∀ y, q y → d'.isNamed y "w:fldSimple" = true → a ∉ (d'.below y).ids) :
    Lasts q p d (d'.detach a) := by
  have hd := h.distinct
  have hnode := hd.node?_detach a
  have hname : ∀ z, (d'.detach a).name? z = d'.name? z := fun z => by
    rw [Document.name?, Document.name?, hnode]
  have hbelow : ∀ y, q y → d.isNamed y "w:fldSimple" = true →
      (d'.detach a).below y = d'.below y := fun y hy hsimple =>
    hd.below_detach (hout y hy ((h.isNamed (hq y hy) _).trans hsimple))
  exact {
    distinct := hd.detach a
    ids := fun z hz => by
      rw [ids_eq_map_nodes, ((detach_perm d' a).map Prod.fst).mem_iff, ← ids_eq_map_nodes]
      exact h.ids hz
    name := fun z hz => (hname z).trans (h.name z hz)
    node := fun z hz hz' => (hnode z).trans (h.node z hz hz')
    below := fun z hz y hin => h.below z hz y (hd.mem_descendants_detach.1 hin).1
    display := fun y hy hsimple hdisplay => by
      rw [Document.children, hbelow y hy hsimple]
      exact h.display y hy hsimple hdisplay
    following := fun f hf z hz => by
      by_cases hfa : f = a
      · rw [hfa, hd.following_detach_self] at hz
        cases hz
      · rw [isNamed_of_name? (hname z), isNamed_of_name? (hname z)]
        exact h.following f ⟨hf, hfa⟩ z (hd.following_detach_subset (h.ids (hp f hf)) hz)
    alone := fun f hf halone => by
      by_cases hfa : f = a
      · rw [hfa]
        exact hd.alone_detach_self ha
      · exact hd.alone_detach (h.alone f ⟨hf, hfa⟩ halone) hfa
    parted := fun f hf hnone => by
      by_cases hfa : f = a
      · rw [hfa]
        exact .inl (hd.alone_detach_self ha)
      · rw [hd.parent?_detach hfa] at hnone
        exact (h.parted f ⟨hf, hfa⟩ hnone).imp_left fun halone => hd.alone_detach halone hfa }

/-- Trees of new nodes are put after a node. Where this is done in a simple field or after an anchor,
they must be harmless there. -/
theorem plant_of (h : Lasts q p d d₁) (hplanted : d₁.Planted trees a row d')
    (hnew : ∀ z ∈ trees.flatMap Forest.ids, z ∉ d.ids) (hq : ∀ y, q y → y ∈ d.ids)
    (hp : ∀ f, p f → f ∈ d.ids) (hne : ∀ f, p f → f ≠ a)
    (hdisplay : ∀ y, q y → d₁.isNamed y "w:fldSimple" = true → a ∈ (d₁.below y).ids →
      Display (d₁.below y) → Display (graftAfter a row (d₁.below y)) ∧
        (graftAfter a row (d₁.below y)).topIds = (d₁.below y).topIds)
    (hafter : ∀ f, p f → a ∈ (d₁.following f).ids → ∀ z ∈ row.ids,
      d₁.isNamed z "w:fldSimple" = false ∧ d₁.isNamed z "w:fldChar" = false) :
    Lasts q p d d' := by
  have hd := h.distinct
  have hnode : ∀ z, d'.node? z = d₁.node? z := hd.node?_of_perm hplanted.moved.perm
  have hname : ∀ z, d'.name? z = d₁.name? z := fun z => by
    rw [Document.name?, Document.name?, hnode]
  have hold : ∀ y ∈ d.ids, y ∈ d₁.ids ∧ y ∉ trees.flatMap Forest.ids := fun y hy =>
    ⟨h.ids hy, fun hin => hnew y hin hy⟩
  have hrow := hplanted.row_subset hd
  exact {
    distinct := hd.moved hplanted.moved
    ids := fun z hz => by
      rw [ids_eq_map_nodes, (hplanted.moved.perm.map Prod.fst).mem_iff, ← ids_eq_map_nodes]
      exact h.ids hz
    name := fun z hz => (hname z).trans (h.name z hz)
    node := fun z hz hz' => (hnode z).trans (h.node z hz hz')
    below := fun z hz y hin => by
      obtain ⟨hz', hout⟩ := hold z hz
      exact h.below z hz y (hplanted.mem_descendants hd hz' hout hin)
    display := fun y hy hsimple hshown => by
      obtain ⟨hy', hout⟩ := hold y (hq y hy)
      obtain ⟨hshown, hsame⟩ := h.display y hy hsimple hshown
      rw [Document.children, hplanted.below hd hy' hout, ← hsame]
      -- Only a field around the anchor gets new nodes below it.
      by_cases ha : a ∈ (d₁.below y).ids
      · exact hdisplay y hy ((h.isNamed (hq y hy) _).trans hsimple) ha hshown
      · rw [graftAfter, rewrite_of_notMem ha]
        exact ⟨hshown, rfl⟩
    following := fun f hf z hz => by
      obtain ⟨hf', hout⟩ := hold f (hp f hf)
      rw [hplanted.following hd hf' hout (hne f hf)] at hz
      rw [isNamed_of_name? (hname z), isNamed_of_name? (hname z)]
      rcases (mem_ids_graftAfter (hd.nodup_following f)).1 hz with hz | ⟨ha, hz⟩
      · exact h.following f hf z hz
      · exact .inr ⟨hnew z (hrow hz), hafter f hf ha z hz⟩
    alone := fun f hf halone => by
      obtain ⟨hf', hout⟩ := hold f (hp f hf)
      exact hplanted.alone hd hf' hout (h.alone f hf halone) (hne f hf)
    parted := fun f hf hnone => by
      obtain ⟨hf', hout⟩ := hold f (hp f hf)
      rw [hplanted.parent? hd hf' hout] at hnone
      exact (h.parted f hf hnone).imp_left fun halone =>
        hplanted.alone hd hf' hout halone (hne f hf) }

/-- Trees of new nodes are put after a node elsewhere. -/
theorem plant (h : Lasts q p d d₁) (hplanted : d₁.Planted trees a row d')
    (hnew : ∀ z ∈ trees.flatMap Forest.ids, z ∉ d.ids) (hq : ∀ y, q y → y ∈ d.ids)
    (hp : ∀ f, p f → f ∈ d.ids) (hat : Remote q p d₁ a) : Lasts q p d d' :=
  h.plant_of hplanted hnew hq hp hat.ne
    (fun y hy hsimple ha => absurd ha (hat.inner y hy hsimple))
    fun f hf ha => absurd ha (hat.after f hf)

/-- A simple field is unwrapped. It is none of those that go on displaying what they did. -/
theorem unwrap (h : Lasts q p d d₁) (hat : Remote q p d₁ x) (hq : ∀ y, q y → y ∈ d.ids ∧ y ≠ x)
    (hp : ∀ f, p f → f ∈ d.ids) (hx : x ∈ d₁.ids)
    (hchildren : ∀ y, q y ∨ p y → y ∉ d₁.children x) : Lasts q p d (d₁.unwrap x) := by
  cases hparent : d₁.parent? x with
  | none =>
    rw [Document.unwrap, hparent]
    exact Lasts.detach (h.imp (fun _ hy => hy) fun _ hf => hf.1) (fun y hy => (hq y hy).1) hp hx
      hat.inner
  | some parent =>
    have hd := h.distinct
    have hsome : (d₁.parent? x).isSome := by rw [hparent]; rfl
    have hnode : ∀ z, (d₁.unwrap x).node? z = d₁.node? z := hd.node?_of_perm (unwrap_perm d₁ x)
    have hname : ∀ z, (d₁.unwrap x).name? z = d₁.name? z := fun z => by
      rw [Document.name?, Document.name?, hnode]
    -- What a lasting field shows stands apart from the field that goes, and so does what follows
    -- it.
    have hbelow : ∀ y, q y → d.isNamed y "w:fldSimple" = true →
        (d₁.unwrap x).below y = d₁.below y := fun y hy hsimple => by
      have hout := hat.inner y hy ((h.isNamed (hq y hy).1 _).trans hsimple)
      rw [below_eq_site?, below_eq_site?, hd.site?_unwrap_of_notMem hsome (hq y hy).2
        (hchildren y (.inl hy))]
      cases hs : d₁.site? y with
      | none => rfl
      | some s =>
        rw [below_eq_site?, hs] at hout
        exact rewrite_of_notMem hout
    have hfollowing : ∀ f, p f → (d₁.unwrap x).following f = d₁.following f := fun f hf => by
      have hout := hat.after f hf
      rw [following_eq_site?, following_eq_site?, hd.site?_unwrap_of_notMem hsome (hat.ne f hf)
        (hchildren f (.inr hf))]
      cases hs : d₁.site? f with
      | none => rfl
      | some s =>
        rw [following_eq_site?, hs] at hout
        exact rewrite_of_notMem hout
    exact {
      distinct := hd.unwrap x
      ids := fun z hz => by
        rw [ids_eq_map_nodes, ((unwrap_perm d₁ x).map Prod.fst).mem_iff, ← ids_eq_map_nodes]
        exact h.ids hz
      name := fun z hz => (hname z).trans (h.name z hz)
      node := fun z hz hz' => (hnode z).trans (h.node z hz hz')
      below := fun z hz y hin =>
        h.below z hz y ((hd.unwrap_melts hsome).mem_descendants hin)
      display := fun y hy hsimple hdisplay => by
        rw [Document.children, hbelow y hy hsimple]
        exact h.display y hy hsimple hdisplay
      following := fun f hf z hz => by
        rw [hfollowing f hf] at hz
        rw [isNamed_of_name? (hname z), isNamed_of_name? (hname z)]
        exact h.following f hf z hz
      alone := fun f hf halone => hd.alone_unwrap hsome (h.alone f hf halone) (hat.ne f hf)
      parted := fun f hf hnone => by
        rw [hd.parent?_unwrap hsome (hat.ne f hf) (hchildren f (.inr hf))] at hnone
        exact (h.parted f hf hnone).imp_left fun halone =>
          hd.alone_unwrap hsome halone (hat.ne f hf) }

/-- An element in which it is written how an image is placed is given another payload. -/
theorem update (h : Lasts q p d d₁) {change : Node → Node}
    (hchange : ∀ n name, (change n).isNamed name = n.isNamed name)
    (hx : ∃ name ∈ placed, d₁.isNamed x name = true) : Lasts q p d (d₁.update x change) := by
  have hd := h.distinct
  have hsite := d₁.site?_update x change
  have hnode : ∀ z, (d₁.update x change).node? z =
      (d₁.node? z).map fun n => if z = x then change n else n := fun z => by
    rw [node?_eq_site?, node?_eq_site?, hsite]
    cases d₁.site? z <;> rfl
  have hname : ∀ z, (d₁.update x change).name? z = d₁.name? z := fun z => by
    rw [Document.name?, Document.name?, hnode]
    cases d₁.node? z with
    | none => rfl
    | some n =>
      by_cases hzx : z = x
      · simp only [Option.map_some, if_pos hzx, Option.bind_some]
        exact name?_eq_of_isNamed (hchange n)
      · simp only [Option.map_some, if_neg hzx]
  have halone : ∀ f, d₁.Alone f → (d₁.update x change).Alone f := fun f halone => by
    obtain ⟨node, g, hrow⟩ := halone
    refine ⟨if f = x then change node else node, g.update x change, ?_⟩
    rw [update_allRows]
    exact List.mem_map_of_mem (f := Forest.update x change) hrow
  exact {
    distinct := hd.update x change
    ids := fun z hz => by
      rw [update_ids]
      exact h.ids hz
    name := fun z hz => (hname z).trans (h.name z hz)
    node := fun z hz hz' => by
      -- A node that tells how an image is placed is not among those that must keep their payload.
      have hzx : z ≠ x := by
        rintro rfl
        obtain ⟨name, hmem, hnamed⟩ := hx
        rw [h.isNamed hz, hz' name hmem] at hnamed
        cases hnamed
      rw [hnode, ← h.node z hz hz']
      cases d₁.node? z <;> simp [hzx]
    below := fun z hz y hin => by
      refine h.below z hz y ?_
      obtain ⟨s, hs, hin⟩ := mem_descendants_iff.1 hin
      rw [hsite] at hs
      obtain ⟨t, ht, rfl⟩ := Option.map_eq_some_iff.1 hs
      exact mem_descendants_iff.2 ⟨t, ht, hin.imp_right fun hin => by rwa [ids_update] at hin⟩
    display := fun y hy hsimple hdisplay => by
      obtain ⟨hshown, hsame⟩ := h.display y hy hsimple hdisplay
      rw [below_update, children_update]
      exact ⟨hshown.update hchange, hsame⟩
    following := fun f hf z hz => by
      rw [following_eq_site?, hsite, Option.map_map] at hz
      have hz : z ∈ (d₁.following f).ids := by
        rw [following_eq_site?]
        cases hs : d₁.site? f with
        | none => simp [hs] at hz
        | some s => simpa [hs, ids_update] using hz
      rw [isNamed_of_name? (hname z), isNamed_of_name? (hname z)]
      exact h.following f hf z hz
    alone := fun f hf hf' => halone f (h.alone f hf hf')
    parted := fun f hf hnone => by
      rw [hd.parent?_update] at hnone
      exact (h.parted f hf hnone).imp_left (halone f) }

end Lasts

end Field

end MailMerge
