import Mathlib.Data.List.Find
import MailMerge.Proofs.Field.Shape
import MailMerge.Proofs.Xml.ChildLists
import MailMerge.Proofs.Xml.Unfolding

/-!
# Documents with unfolded fields

A document with simple fields and one in which some of them are written as complex fields have the
same rows, up to the unfolding of these fields (`Document.Unfolds`). A simple field that has been taken
out is a row of its own; the runs of a complex field that has been taken out are rows of their own
each (`Lot`). What is looked up in the one document is found in the other.
-/

namespace MailMerge.Xml

open Forest

/-- A row of a document, as it stands in the document with unfolded fields: below a field that has
been taken out, or on its own. -/
structure Lot where
  husk? : Option (NodeId × Node)
  inner : Forest

namespace Lot

/-- The rows with simple fields. -/
def plain (lot : Lot) : List Forest :=
  match lot.husk? with
  | none => lot.inner.solid
  | some (x, node) => [single x node lot.inner]

/-- What is left of the frame of a field that has been taken out. -/
def scraps (u : Unfolding) (lot : Lot) : List Forest :=
  match lot.husk?.bind fun entry => u.frame? entry.1 with
  | none => []
  | some (before, after) => before.trees ++ after.trees

/-- The rows with unfolded fields. -/
def unfolded (u : Unfolding) (lot : Lot) : List Forest :=
  (lot.inner.unfold u).solid ++ lot.scraps u

/-- Only a field that is unfolded leaves a husk, and none stands without a parent otherwise. -/
structure Sound (u : Unfolding) (lot : Lot) : Prop where
  husk : ∀ entry ∈ lot.husk?, u.frame? entry.1 ≠ none
  tops : ∀ t ∈ lot.inner.topIds, u.frame? t = none

end Lot

/-- Rows and those with unfolded fields, lot by lot. -/
structure Lots (u : Unfolding) (rows rows' : List Forest) (lots : List Lot) : Prop where
  plain : rows.Perm (lots.flatMap Lot.plain)
  unfolded : rows'.Perm (lots.flatMap (Lot.unfolded u))
  sound : ∀ lot ∈ lots, lot.Sound u

namespace Document

/-- A document is another one in which some simple fields are written as complex fields. -/
structure Unfolds (u : Unfolding) (d e : Document) : Prop where
  distinct : d.Distinct
  distinct' : e.Distinct
  rooted : d.root ∈ d.ids
  root : u.frame? d.root = none
  root_eq : e.root = u.name d.root
  declaration_eq : e.declaration = d.declaration
  fits : ∀ entry ∈ d.nodes, ∀ before after, u.frame? entry.1 = some (before, after) →
    Field.Fits entry.2 before after
  lots : ∃ lots, Lots u d.allRows e.allRows lots

end Document

variable {u v : Unfolding} {rows rows' : List Forest} {lot : Lot} {lots others : List Lot}
variable {f g : Forest} {x y : NodeId} {s : Site} {node : Node} {husk? : Option (NodeId × Node)}

namespace Forest

theorem solid_of_ne_nil (h : f ≠ nil) : f.solid = [f] := by
  cases f with
  | nil => exact absurd rfl h
  | cons => rfl

theorem ne_nil_of_mem_ids (h : x ∈ f.ids) : f ≠ nil := by
  rintro rfl
  cases h

theorem unfold_ne_nil (hframe : ∀ x ∈ f.ids, ∀ before after, u.frame? x = some (before, after) →
    before ≠ nil) (hf : f ≠ nil) : f.unfold u ≠ nil := by
  cases f with
  | nil => exact absurd rfl hf
  | cons x node children rest =>
    rw [unfold_cons]
    cases h : u.frame? x with
    | none =>
      rw [Unfolding.slot_of_none h]
      exact fun heq => nomatch heq
    | some frame =>
      obtain ⟨before, after⟩ := frame
      rw [Unfolding.slot_of_some h]
      have hne := hframe x (by simp) before after h
      cases before with
      | nil => exact absurd rfl hne
      | cons => exact fun heq => nomatch heq

theorem ids_solid (f : Forest) : f.solid.flatMap ids = f.ids := by
  cases f <;> simp [solid]

theorem nodes_solid (f : Forest) : f.solid.flatMap nodes = f.nodes := by
  cases f <;> simp [solid, nodes]

end Forest

namespace Lot

/-- The row in which the inner row of a lot stands. -/
def row (lot : Lot) : Forest :=
  match lot.husk? with
  | none => lot.inner
  | some (x, node) => single x node lot.inner

theorem plain_of_mem (h : x ∈ lot.inner.ids) : lot.plain = [lot.row] := by
  obtain ⟨husk?, f⟩ := lot
  cases husk? with
  | none => exact solid_of_ne_nil (ne_nil_of_mem_ids h)
  | some => rfl

/-- In the row of a lot nodes stand as in the inner row. -/
theorem site?_row (lot : Lot) (hnodup : lot.row.ids.Nodup) (hs : lot.inner.site? x = some s) :
    lot.row.site? x = some s := by
  obtain ⟨husk?, f⟩ := lot
  cases husk? with
  | none => exact hs
  | some entry =>
    obtain ⟨y, node⟩ := entry
    have hy : y ≠ x := by
      rintro rfl
      exact (nodup_cons_iff.1 hnodup).1 (mem_ids_of_site? hs)
    dsimp only [row]
    rw [single, site?, if_neg hy, hs, Option.some_or]

theorem solid_rewrite_row (lot : Lot) {change : Site → Forest} (hnodup : lot.row.ids.Nodup)
    (hx : x ∈ lot.inner.ids) :
    (lot.row.rewrite x change).solid = plain ⟨lot.husk?, lot.inner.rewrite x change⟩ := by
  obtain ⟨husk?, f⟩ := lot
  cases husk? with
  | none => rfl
  | some entry =>
    obtain ⟨y, node⟩ := entry
    have hy : y ≠ x := by
      rintro rfl
      exact (nodup_cons_iff.1 hnodup).1 hx
    dsimp only [row]
    rw [single, rewrite, if_neg hy]
    rfl

theorem ancestors?_row (lot : Lot) (hnodup : lot.row.ids.Nodup) (hx : x ∈ lot.inner.ids) :
    lot.row.ancestors? x = (lot.inner.ancestors? x).map (· ++ lot.husk?.toList) := by
  obtain ⟨husk?, f⟩ := lot
  cases husk? with
  | none => simp [row]
  | some entry =>
    obtain ⟨y, node⟩ := entry
    have hy : y ≠ x := by
      rintro rfl
      exact (nodup_cons_iff.1 hnodup).1 hx
    dsimp only [row]
    rw [single, ancestors?, if_neg hy, ancestors?, Option.or_none]
    rfl

end Lot

namespace Lots

theorem perm (h : Lots u rows rows' lots) (hperm : lots.Perm others) : Lots u rows rows' others where
  plain := h.plain.trans (hperm.flatMap_right _)
  unfolded := h.unfolded.trans (hperm.flatMap_right _)
  sound lot hlot := h.sound lot (hperm.mem_iff.2 hlot)

/-- A lot can be looked at first. -/
theorem exists_cons (h : Lots u rows rows' lots) (hlot : lot ∈ lots) :
    ∃ others, Lots u rows rows' (lot :: others) := by
  obtain ⟨before, after, rfl⟩ := List.append_of_mem hlot
  exact ⟨before ++ after, h.perm List.perm_middle⟩

theorem exists_lot_of_mem (h : Lots u rows rows' lots) (hx : x ∈ rows.flatMap Forest.ids) :
    ∃ lot ∈ lots, x ∈ lot.inner.ids ∨ ∃ node, lot.husk? = some (x, node) := by
  rw [(h.plain.flatMap_right Forest.ids).mem_iff, List.mem_flatMap] at hx
  obtain ⟨row, hrow, hin⟩ := hx
  obtain ⟨⟨husk?, f⟩, hlot, hrow⟩ := List.mem_flatMap.1 hrow
  refine ⟨⟨husk?, f⟩, hlot, ?_⟩
  cases husk? with
  | none =>
    refine .inl ?_
    rw [← ids_solid]
    exact List.mem_flatMap.2 ⟨row, hrow, hin⟩
  | some entry =>
    obtain ⟨y, node⟩ := entry
    cases List.mem_singleton.1 hrow
    rw [single, ids_cons, ids_nil, List.append_nil, List.mem_cons] at hin
    rcases hin with rfl | hin
    · exact .inr ⟨node, rfl⟩
    · exact .inl hin

theorem exists_of_mem (h : Lots u rows rows' lots) (hx : x ∈ rows.flatMap Forest.ids) :
    ∃ husk? f others, Lots u rows rows' (⟨husk?, f⟩ :: others) ∧
      (x ∈ f.ids ∨ ∃ node, husk? = some (x, node)) := by
  obtain ⟨⟨husk?, f⟩, hlot, hmem⟩ := h.exists_lot_of_mem hx
  obtain ⟨others, hothers⟩ := h.exists_cons hlot
  exact ⟨husk?, f, others, hothers, hmem⟩

end Lots

/-! ## The first and the last node of what is made of another one -/

namespace Unfolding

/-- The first node of what becomes of a node. -/
def start (u : Unfolding) (x : NodeId) : NodeId :=
  match u.frame? x with
  | none => u.name x
  | some (before, _) => before.topIds.head?.getD (u.name x)

/-- The last node of what becomes of a node. -/
def stop (u : Unfolding) (x : NodeId) : NodeId :=
  match u.frame? x with
  | none => u.name x
  | some (_, after) => after.topIds.getLast?.getD (u.name x)

theorem exists_slot_start (hframe : ∀ before after, u.frame? x = some (before, after) →
    before ≠ nil) (node : Node) (inner : Forest) :
    ∃ n c l, u.slot x node inner = nil ++ cons (u.start x) n c l := by
  cases h : u.frame? x with
  | none =>
    rw [slot_of_none h]
    exact ⟨node, inner, nil, by simp [start, h, single]⟩
  | some frame =>
    obtain ⟨before, after⟩ := frame
    rw [slot_of_some h]
    have hne := hframe before after h
    cases before with
    | nil => exact absurd rfl hne
    | cons y n c rest => exact ⟨n, c, rest ++ (inner ++ after), by simp [start, h]⟩

end Unfolding

theorem Forest.exists_eq_append_single (h : f ≠ nil) :
    ∃ g y n c, f = g ++ cons y n c nil ∧ f.topIds.getLast? = some y := by
  induction f with
  | nil => exact absurd rfl h
  | cons y n c rest _ ih =>
    by_cases hrest : rest = nil
    · subst hrest
      exact ⟨nil, y, n, c, rfl, rfl⟩
    · obtain ⟨g, z, m, k, heq, hlast⟩ := ih hrest
      refine ⟨cons y n c g, z, m, k, by rw [cons_append, ← heq], ?_⟩
      rw [topIds_cons, List.getLast?_cons, hlast]
      rfl

theorem Unfolding.exists_slot_stop (hframe : ∀ before after, u.frame? x = some (before, after) →
    after ≠ nil) (node : Node) (inner : Forest) :
    ∃ k n c, u.slot x node inner = k ++ cons (u.stop x) n c nil := by
  cases h : u.frame? x with
  | none =>
    rw [slot_of_none h]
    exact ⟨nil, node, inner, by simp [stop, h, single]⟩
  | some frame =>
    obtain ⟨before, after⟩ := frame
    rw [slot_of_some h]
    obtain ⟨g, y, n, c, heq, hlast⟩ := Forest.exists_eq_append_single (hframe before after h)
    refine ⟨before ++ (inner ++ g), n, c, ?_⟩
    have hstop : u.stop x = y := by simp [stop, h, hlast]
    rw [hstop, heq, append_assoc, append_assoc]

/-! ## Looking up -/

namespace Document.Unfolds

variable {d e : Document} {k l children : Forest} {p : NodeId}

theorem exists_lot (h : d.Unfolds u e) (hx : x ∈ d.ids) :
    ∃ husk? f others, Lots u d.allRows e.allRows (⟨husk?, f⟩ :: others) ∧
      (x ∈ f.ids ∨ ∃ node, husk? = some (x, node)) := by
  obtain ⟨lots, hlots⟩ := h.lots
  exact hlots.exists_of_mem hx

/-- A node that is not unfolded stands in the inner row of a lot. -/
theorem exists_lot_of_none (h : d.Unfolds u e) (hx : x ∈ d.ids) (hframe : u.frame? x = none) :
    ∃ husk? f others, Lots u d.allRows e.allRows (⟨husk?, f⟩ :: others) ∧ x ∈ f.ids := by
  obtain ⟨husk?, f, others, hlots, hmem | ⟨node, rfl⟩⟩ := h.exists_lot hx
  · exact ⟨husk?, f, others, hlots, hmem⟩
  · exact absurd hframe ((hlots.sound _ List.mem_cons_self).husk _ rfl)

theorem fits_of_mem (h : d.Unfolds u e) (hx : x ∈ d.ids) {before after : Forest}
    (hframe : u.frame? x = some (before, after)) : ∃ node, Field.Fits node before after := by
  rw [ids_eq_map_nodes] at hx
  obtain ⟨⟨_, node⟩, hnode, rfl⟩ := List.mem_map.1 hx
  exact ⟨node, h.fits _ hnode before after hframe⟩

theorem before_ne_nil (h : d.Unfolds u e) (hx : x ∈ d.ids) {before after : Forest}
    (hframe : u.frame? x = some (before, after)) : before ≠ nil := by
  obtain ⟨node, hfits⟩ := h.fits_of_mem hx hframe
  exact hfits.before_ne_nil

theorem after_ne_nil (h : d.Unfolds u e) (hx : x ∈ d.ids) {before after : Forest}
    (hframe : u.frame? x = some (before, after)) : after ≠ nil := by
  obtain ⟨node, hfits⟩ := h.fits_of_mem hx hframe
  exact hfits.after_ne_nil

section Row

variable (h : d.Unfolds u e) (hlots : Lots u d.allRows e.allRows (⟨husk?, f⟩ :: others))
  (hx : x ∈ f.ids)

include hlots hx

theorem row_perm : d.allRows.Perm (Lot.row ⟨husk?, f⟩ :: others.flatMap Lot.plain) := by
  have hplain := hlots.plain
  rw [List.flatMap_cons, Lot.plain_of_mem hx] at hplain
  exact hplain

theorem row_mem : Lot.row ⟨husk?, f⟩ ∈ d.allRows :=
  (row_perm hlots hx).mem_iff.2 List.mem_cons_self

include h

theorem nodup_row : (Lot.row ⟨husk?, f⟩).ids.Nodup := h.distinct.nodup_row (row_mem hlots hx)

theorem nodup_inner : f.ids.Nodup := by
  have hnodup := h.nodup_row hlots hx
  cases husk? with
  | none => exact hnodup
  | some entry => exact (nodup_cons_iff.1 hnodup).2.2.1

theorem site?_eq : d.site? x = f.site? x := by
  obtain ⟨s, hs⟩ := Forest.exists_site? hx
  have hrow := Lot.site?_row ⟨husk?, f⟩ (h.nodup_row hlots hx) hs
  rw [h.distinct.site?_of_row (row_mem hlots hx) (Forest.mem_ids_of_site? hrow), hrow, hs]

theorem mem_ids_of_inner : x ∈ d.ids := by
  obtain ⟨s, hs⟩ := Forest.exists_site? hx
  exact mem_ids_of_site? ((h.site?_eq hlots hx).trans hs)

theorem enclosing_eq : ∃ above, f.ancestors? x = some above ∧
    d.enclosing x = above ++ husk?.toList := by
  obtain ⟨above, habove⟩ := exists_ancestors? hx
  have hrow := Lot.ancestors?_row ⟨husk?, f⟩ (h.nodup_row hlots hx) hx
  rw [habove] at hrow
  refine ⟨above, habove, ?_⟩
  have hin : x ∈ (Lot.row ⟨husk?, f⟩).ids := by
    by_contra hout
    rw [ancestors?_eq_none_iff.2 hout] at hrow
    cases hrow
  rw [h.distinct.enclosing_of_row (row_mem hlots hx) hin, hrow]
  rfl

theorem unfold_ne_nil : f.unfold u ≠ nil :=
  Forest.unfold_ne_nil (fun _ hy _ _ hframe => h.before_ne_nil (h.mem_ids_of_inner hlots hy) hframe)
    (ne_nil_of_mem_ids hx)

theorem unfolded_perm : e.allRows.Perm
    (f.unfold u :: (Lot.scraps u ⟨husk?, f⟩ ++ others.flatMap (Lot.unfolded u))) := by
  have hrows := hlots.unfolded
  rw [List.flatMap_cons, Lot.unfolded, solid_of_ne_nil (h.unfold_ne_nil hlots hx)] at hrows
  exact hrows

theorem unfold_mem : f.unfold u ∈ e.allRows :=
  (h.unfolded_perm hlots hx).mem_iff.2 List.mem_cons_self

theorem nodup_unfold : (f.unfold u).ids.Nodup := h.distinct'.nodup_row (h.unfold_mem hlots hx)

/-- What encloses a node is clear of fields that are unfolded, as far as it is right above. -/
theorem clear (hclear : ∀ z, d.parent? x = some z → u.frame? z = none) : Clear u x f := by
  obtain ⟨above, habove, henclosing⟩ := h.enclosing_eq hlots hx
  intro above' habove' entry hentry
  rw [habove] at habove'
  cases habove'
  refine hclear _ ?_
  rw [parent?, ancestors, henclosing, List.map_append, List.head?_append, List.head?_map, hentry]
  rfl

/-- The site and the surroundings of a node of what has been made of another one. -/
theorem exists_site?_of_slot (hs : f.site? x = some s)
    (hslot : u.slot x s.node (s.children.unfold u) = k ++ cons p node children l) :
    (∃ r, e.site? p = some ⟨node, children, r⟩ ∧
      ((∀ z, d.parent? x = some z → u.frame? z = none) → r = l ++ s.rest.unfold u)) ∧
    e.enclosing p = u.path (d.enclosing x) := by
  have hnodup := h.nodup_inner hlots hx
  have hrow := unfold_eq_fill (u := u) hnodup hs
  rw [hslot] at hrow
  have hmade := h.nodup_unfold hlots hx
  rw [hrow] at hmade
  have hmem := h.unfold_mem hlots hx
  rw [hrow] at hmem
  obtain ⟨r, hr, hrest⟩ := exists_site?_fill hnodup hs hmade
  have hp := Forest.mem_ids_of_site? hr
  refine ⟨⟨r, ?_, fun hclear => hrest (h.clear hlots hx hclear)⟩, ?_⟩
  · rw [h.distinct'.site?_of_row hmem hp, hr]
  · obtain ⟨above, habove, henclosing⟩ := h.enclosing_eq hlots hx
    rw [h.distinct'.enclosing_of_row hmem hp, ancestors?_fill hnodup hx hmade, habove, henclosing,
      Unfolding.path_append]
    have hsound := hlots.sound _ List.mem_cons_self
    cases husk? with
    | none => simp [Unfolding.path]
    | some entry =>
      have hframe := hsound.husk _ rfl
      cases hk : u.frame? entry.1 with
      | none => exact absurd hk hframe
      | some _ => simp [Unfolding.path, hk]

end Row

/-- A node that is not unfolded has the site that it had, with what is unfolded there. -/
theorem exists_site? (h : d.Unfolds u e) (hs : d.site? x = some s) (hframe : u.frame? x = none) :
    ∃ r, e.site? (u.name x) = some ⟨s.node, s.children.unfold u, r⟩ ∧
      ((∀ z, d.parent? x = some z → u.frame? z = none) → r = s.rest.unfold u) := by
  obtain ⟨husk?, f, others, hlots, hx⟩ := h.exists_lot_of_none (mem_ids_of_site? hs) hframe
  rw [h.site?_eq hlots hx] at hs
  exact (h.exists_site?_of_slot hlots hx (k := nil) (l := nil) hs (Unfolding.slot_of_none hframe ..)).1

theorem enclosing (h : d.Unfolds u e) (hx : x ∈ d.ids) (hframe : u.frame? x = none) :
    e.enclosing (u.name x) = u.path (d.enclosing x) := by
  obtain ⟨husk?, f, others, hlots, hx⟩ := h.exists_lot_of_none hx hframe
  obtain ⟨s, hs⟩ := Forest.exists_site? hx
  exact (h.exists_site?_of_slot hlots hx (k := nil) (l := nil) hs (Unfolding.slot_of_none hframe ..)).2

theorem tree_eq (h : d.Unfolds u e) (hx : x ∈ d.ids) (hframe : u.frame? x = none) :
    e.tree (u.name x) = (d.tree x).unfold u := by
  obtain ⟨s, hs⟩ := Document.exists_site? hx
  obtain ⟨r, hr, -⟩ := h.exists_site? hs hframe
  rw [tree_of_site? hr, tree_of_site? hs, unfold_single, Unfolding.slot_of_none hframe]

theorem below_eq (h : d.Unfolds u e) (hx : x ∈ d.ids) (hframe : u.frame? x = none) :
    e.below (u.name x) = (d.below x).unfold u := by
  obtain ⟨s, hs⟩ := Document.exists_site? hx
  obtain ⟨r, hr, -⟩ := h.exists_site? hs hframe
  rw [below_eq_site?, below_eq_site?, hr, hs]
  rfl

theorem node?_eq (h : d.Unfolds u e) (hx : x ∈ d.ids) (hframe : u.frame? x = none) :
    e.node? (u.name x) = d.node? x := by
  obtain ⟨s, hs⟩ := Document.exists_site? hx
  obtain ⟨r, hr, -⟩ := h.exists_site? hs hframe
  rw [node?_eq_site?, node?_eq_site?, hr, hs]
  rfl

theorem attribute?_eq (h : d.Unfolds u e) (hx : x ∈ d.ids) (hframe : u.frame? x = none)
    (name : String) : e.attribute? (u.name x) name = d.attribute? x name := by
  rw [Document.attribute?, Document.attribute?, h.node?_eq hx hframe]

theorem names_sublist (lots : List Lot) (hsound : ∀ lot ∈ lots, lot.Sound u) :
    ((((lots.flatMap Lot.plain).flatMap Forest.ids).filter
      fun y => (u.frame? y).isNone).map u.name).Sublist
      ((lots.flatMap (Lot.unfolded u)).flatMap Forest.ids) := by
  induction lots with
  | nil => exact .slnil
  | cons lot lots ih =>
    obtain ⟨husk?, f⟩ := lot
    rw [List.forall_mem_cons] at hsound
    simp only [List.flatMap_cons, List.flatMap_append, List.filter_append, List.map_append]
    refine .append ?_ (ih hsound.2)
    have hinner : ((f.ids.filter fun y => (u.frame? y).isNone).map u.name).Sublist
        ((Lot.unfolded u ⟨husk?, f⟩).flatMap Forest.ids) := by
      rw [Lot.unfolded, List.flatMap_append, ids_solid]
      exact (map_name_sublist u f).trans (List.sublist_append_left _ _)
    cases husk? with
    | none =>
      rw [Lot.plain, ids_solid]
      exact hinner
    | some entry =>
      obtain ⟨x, node⟩ := entry
      cases hframe : u.frame? x with
      | none => exact absurd hframe (hsound.1.husk _ rfl)
      | some _ => simpa [Lot.plain, single, hframe] using hinner

/-- No two nodes that are not unfolded become the same. -/
theorem inj (h : d.Unfolds u e) (hx : x ∈ d.ids) (hy : y ∈ d.ids) (hframe : u.frame? x = none)
    (hframe' : u.frame? y = none) (heq : u.name x = u.name y) : x = y := by
  obtain ⟨lots, hlots⟩ := h.lots
  have hnodup := (hlots.unfolded.flatMap_right Forest.ids).nodup_iff.1 h.distinct'.nodup
  have hnames := (names_sublist lots hlots.sound).nodup hnodup
  have hids := hlots.plain.flatMap_right Forest.ids
  refine List.inj_on_of_nodup_map hnames ?_ ?_ heq
  · exact List.mem_filter.2 ⟨hids.mem_iff.1 hx, by simp [hframe]⟩
  · exact List.mem_filter.2 ⟨hids.mem_iff.1 hy, by simp [hframe']⟩

/-- A field that is unfolded is a simple field. -/
theorem isNamed_of_frame (h : d.Unfolds u e) {entry : NodeId × Node} (hentry : entry ∈ d.nodes)
    (hframe : u.frame? entry.1 ≠ none) : entry.2.isNamed "w:fldSimple" = true := by
  obtain ⟨⟨before, after⟩, hframe⟩ := Option.ne_none_iff_exists'.1 hframe
  exact (h.fits entry hentry before after hframe).name

theorem frame?_of_node (h : d.Unfolds u e) (hnode : d.node? x = some node)
    (hname : node.isNamed "w:fldSimple" = false) : u.frame? x = none := by
  by_contra hframe
  have hnamed := h.isNamed_of_frame (mem_nodes_of_node? hnode) hframe
  rw [hname] at hnamed
  cases hnamed

/-- The nearest node of a name around another one. -/
theorem find?_path (h : d.Unfolds u e) {name : String} (hname : name ≠ "w:fldSimple") :
    ((u.path (d.enclosing x)).find? (·.2.isNamed name)).map Prod.fst =
      (d.ancestor? x name).map u.name := by
  have hsame : ((d.enclosing x).filter fun entry => (u.frame? entry.1).isNone).find?
      (·.2.isNamed name) = (d.enclosing x).find? (·.2.isNamed name) := by
    rw [List.find?_filter]
    refine List.find?_congr fun entry hentry => ?_
    cases hnamed : entry.2.isNamed name with
    | false => simp
    | true =>
      have hnode := h.distinct.node?_of_mem_enclosing (a := entry.1) (n := entry.2) hentry
      simp [h.frame?_of_node hnode (Field.isNamed_of_ne hnamed hname)]
  rw [Unfolding.path, List.find?_map, Document.ancestor?, Option.map_map, Option.map_map]
  exact congrArg _ hsame

theorem ancestor?_eq (h : d.Unfolds u e) (hx : x ∈ d.ids) (hframe : u.frame? x = none)
    {name : String} (hname : name ≠ "w:fldSimple") :
    e.ancestor? (u.name x) name = (d.ancestor? x name).map u.name := by
  rw [Document.ancestor?, h.enclosing hx hframe, h.find?_path hname]

theorem parent?_eq (h : d.Unfolds u e) (hx : x ∈ d.ids) (hframe : u.frame? x = none)
    (hclear : ∀ z, d.parent? x = some z → u.frame? z = none) :
    e.parent? (u.name x) = (d.parent? x).map u.name := by
  rw [parent?, parent?, ancestors, ancestors, h.enclosing hx hframe]
  rw [parent?, ancestors] at hclear
  cases habove : d.enclosing x with
  | nil => rfl
  | cons entry above =>
    rw [habove] at hclear
    simp [Unfolding.path, hclear entry.1 rfl]

/-! ## Looking for nodes of a name -/

theorem filter_nodes (h : d.Unfolds u e) {name : String} (hname : name ∈ Field.landmarks)
    (hframes : name ∉ Field.frameNames) (hsimple : name ≠ "w:fldSimple")
    (hf : ∀ entry ∈ f.nodes, entry ∈ d.nodes) :
    (f.unfold u).nodes.filter (fun entry => entry.2.isNamed name) =
      (f.nodes.filter fun entry => entry.2.isNamed name).map (Prod.map u.name id) := by
  refine filter_nodes_unfold fun entry hentry before after hframe => ?_
  have hfits := h.fits entry (hf entry hentry) before after hframe
  exact ⟨Field.isNamed_of_ne hfits.name hsimple.symm,
    fun entry hentry => hfits.discreet.1 entry hentry name hname hframes,
    fun entry hentry => hfits.discreet.2 entry hentry name hname hframes⟩

theorem mem_nodes_of_mem_below (hd : d.Distinct) {entry : NodeId × Node}
    (hentry : entry ∈ (d.below x).nodes) : entry ∈ d.nodes :=
  mem_nodes_of_node? ((hd.shows_below x).node? hentry)

theorem findAll_eq (h : d.Unfolds u e) (hx : x ∈ d.ids) (hframe : u.frame? x = none)
    {name : String} (hname : name ∈ Field.landmarks) (hframes : name ∉ Field.frameNames)
    (hsimple : name ≠ "w:fldSimple") :
    e.findAll (u.name x) name = (d.findAll x name).map u.name := by
  rw [findAll, findAll, h.below_eq hx hframe, h.filter_nodes hname hframes hsimple
    fun entry hentry => mem_nodes_of_mem_below h.distinct hentry, List.map_map, List.map_map]
  rfl

theorem find?_eq_head? (d : Document) (x : NodeId) (name : String) :
    d.find? x name = (d.findAll x name).head? := by
  rw [find?, findAll, List.head?_map, List.head?_filter]

theorem find?_eq (h : d.Unfolds u e) (hx : x ∈ d.ids) (hframe : u.frame? x = none)
    {name : String} (hname : name ∈ Field.landmarks) (hframes : name ∉ Field.frameNames)
    (hsimple : name ≠ "w:fldSimple") :
    e.find? (u.name x) name = (d.find? x name).map u.name := by
  rw [find?_eq_head?, find?_eq_head?, h.findAll_eq hx hframe hname hframes hsimple, List.head?_map]

/-- What is found by a name other than that of simple fields is not unfolded. -/
theorem of_mem_findAll (h : d.Unfolds u e) {name : String} (hsimple : name ≠ "w:fldSimple")
    (hy : y ∈ d.findAll x name) : y ∈ d.ids ∧ u.frame? y = none := by
  obtain ⟨⟨_, n⟩, hentry, rfl⟩ := List.mem_map.1 hy
  obtain ⟨hentry, hnamed⟩ := List.mem_filter.1 hentry
  have hnode := (h.distinct.shows_below x).node? hentry
  exact ⟨isSome_node?_iff.1 (by rw [hnode]; rfl),
    h.frame?_of_node hnode (Field.isNamed_of_ne hnamed hsimple)⟩

theorem of_find? (h : d.Unfolds u e) {name : String} (hsimple : name ≠ "w:fldSimple")
    (hy : d.find? x name = some y) : y ∈ d.ids ∧ u.frame? y = none := by
  rw [find?_eq_head?] at hy
  exact h.of_mem_findAll hsimple (List.mem_of_head? hy)

theorem of_ancestor? (h : d.Unfolds u e) {name : String} (hsimple : name ≠ "w:fldSimple")
    (hy : d.ancestor? x name = some y) : y ∈ d.ids ∧ u.frame? y = none := by
  obtain ⟨⟨n, hnode, hnamed⟩, -⟩ := h.distinct.of_ancestor? hy
  exact ⟨isSome_node?_iff.1 (by rw [hnode]; rfl),
    h.frame?_of_node hnode (Field.isNamed_of_ne hnamed hsimple)⟩

end Document.Unfolds

end MailMerge.Xml
