import MailMerge.Proofs.Field.Insertion
import MailMerge.Proofs.Xml.Enclosing

/-!
# Fields of two shapes in turn

When its turn has come, a field is replaced or removed in both of two documents that are unfoldings of
one another. Where it is unfolded, its display is looked up in the run after the separator, and the
other runs are taken out instead of the element around the display. The documents stay unfoldings of
one another, and all other fields display what they did (`replace_abreast`).
-/

namespace MailMerge

open Xml Xml.Forest Xml.Document

variable {d e : Document} {v : Unfolding} {p : NodeId → Prop} {w w' : Workspace}
variable {a f t x x' y z : NodeId} {row : Forest}

/-- What stands below a node stands below those around it. -/
theorem Xml.Document.Distinct.mem_below_trans (hd : d.Distinct) (hz : z ∈ (d.below t).ids)
    (ht : t ∈ d.descendants x) : z ∈ (d.below x).ids := by
  have hin := hd.mem_descendants_trans (mem_descendants_of_mem_below hz) ht
  refine ((mem_descendants_iff_below (mem_ids_of_descendants ht)).1 hin).resolve_left ?_
  rintro rfl
  have hsame := hd.mem_descendants_antisymm (mem_descendants_of_mem_below hz) ht
  exact hd.notMem_below_self t (hsame ▸ hz)

/-- What stands below a node has a parent. -/
theorem Xml.Document.Distinct.isSome_parent?_of_mem_below (hd : d.Distinct)
    (hx : x ∈ (d.below z).ids) : (d.parent? x).isSome := by
  obtain ⟨s, hs⟩ := Document.exists_site? (mem_ids_of_descendants (mem_descendants_of_mem_below hx))
  rw [below_eq_site?, hs] at hx
  have habove : z ∈ d.ancestors x := hd.mem_ancestors_iff.2 ⟨s, hs, hx⟩
  rw [parent?, List.isSome_head?]
  exact List.ne_nil_of_mem habove

/-- What is unfolded is a simple field. -/
theorem Xml.Document.Unfolds.isNamed_of_unfolded (h : d.Unfolds v e) (hx : x ∈ d.ids)
    (hframe : v.frame? x ≠ none) : d.isNamed x "w:fldSimple" = true := by
  obtain ⟨s, hs⟩ := Document.exists_site? hx
  have hnode : d.node? x = some s.node := by rw [node?_eq_site?, hs, Option.map_some]
  have hname := h.isNamed_of_frame (mem_nodes_of_node? hnode) hframe
  rw [isNamed, name?, hnode]
  exact hname

namespace Field

/-- What is unfolded, and has a parent, displays a run. -/
def Shown (v : Unfolding) (d : Document) : Prop :=
  ∀ z ∈ d.ids, v.frame? z ≠ none → (d.parent? z).isSome → Display (d.below z)

/-- What is unfolded goes on displaying a run, if each field does that has a parent. -/
theorem Continues.shown {c : Document} {u : Unfolding} {q : NodeId → Prop}
    (h : Continues c u q p v d e) (hc : c.Distinct) (hshown : Shown u c)
    (hq : ∀ z, c.isNamed z "w:fldSimple" = true → q z ∨ d.parent? z = none)
    (hnew : ∀ z ∈ d.ids, z ∉ c.ids → v.frame? z ≠ none → (d.parent? z).isSome →
      Display (d.below z)) : Shown v d := by
  intro z hz hframe hparent
  by_cases hmem : z ∈ c.ids
  · have hname := h.unfolds.isNamed_of_unfolded hz hframe
    rw [h.lasts.isNamed hmem] at hname
    have hlasts : q z := by
      refine (hq z hname).resolve_right fun hnone => ?_
      rw [hnone] at hparent
      cases hparent
    obtain ⟨y, hy⟩ := Option.isSome_iff_exists.1 hparent
    have hbelow := Forest.mem_ids_of_mem_topIds (h.lasts.distinct.mem_children_iff_parent?.2 hy)
    have hbefore := hc.isSome_parent?_of_mem_below (h.lasts.inner hmem hbelow)
    have hdisplay := hshown z hmem (by rwa [← h.agrees.frame z hmem]) hbefore
    exact (h.lasts.display z hlasts hname hdisplay).1
  · exact hnew z hz hmem hframe hparent

theorem Since.shown {c : Document} {u : Unfolding} {q : NodeId → Prop}
    (h : Since c u q p v d e) (hc : c.Distinct) (hshown : Shown u c)
    (hq : ∀ z, c.isNamed z "w:fldSimple" = true → q z ∨ d.parent? z = none) : Shown v d :=
  h.toContinues.shown hc hshown hq fun z hz hout hframe => absurd (h.plain z hz hout) hframe

/-- A field that displays a run has no other children. -/
theorem Display.notMem_children (hd : d.Distinct) (h : Display (d.below x))
    (hname : d.isNamed z "w:r" = false) : z ∉ d.children x := by
  intro hin
  obtain ⟨r, m, inner, hrow, hrun⟩ := h.exists_single
  obtain ⟨tag, rfl, hnamed, -⟩ := hrun.elim
  rw [Document.children, hrow] at hin
  obtain rfl := List.mem_singleton.1 hin
  have hfound := (hd.shows_below x).node? (show (z, .element tag) ∈ (d.below x).nodes by
    rw [hrow]; exact List.mem_cons_self)
  rw [isNamed, name?, hfound] at hname
  exact absurd hnamed (Bool.eq_false_iff.1 hname)

/-- No field is right around a node below one that is not unfolded, unless the node is a run. -/
theorem Shown.clear (hshown : Shown v d) (hd : d.Distinct) (hframe : v.frame? x = none)
    (hz : z ∈ (d.below x).ids) (hname : d.isNamed z "w:r" = false) :
    ∀ y, d.parent? z = some y → v.frame? y = none := by
  intro y hy
  by_contra hsome
  obtain ⟨n, hnode, henclosing⟩ := hd.enclosing_of_parent? hy
  have habove : x ∈ d.ancestors z := (mem_ancestors_iff_below hd).2 hz
  rw [ancestors, henclosing, List.map_cons, List.mem_cons] at habove
  rcases habove with rfl | habove
  · exact hsome hframe
  · have hbelow := (mem_ancestors_iff_below hd).1 habove
    have hmem := mem_ids_of_mem_descendants (mem_descendants_of_mem_below hbelow)
    have hdisplay := hshown y hmem hsome (hd.isSome_parent?_of_mem_below hbelow)
    exact hdisplay.notMem_children hd hname (hd.mem_children_iff_parent?.2 hy)

/-- The simple fields but for one node. -/
def OtherThan (d : Document) (x y : NodeId) : Prop := d.isNamed y "w:fldSimple" = true ∧ y ≠ x

/-- The turn of a simple field has come. It displays a run, is not inside another field, and stands
before none of the anchors that later blocks rely on. -/
structure AtTurn (d : Document) (p : NodeId → Prop) (x : NodeId) : Prop where
  name : d.isNamed x "w:fldSimple" = true
  display : Display (d.below x)
  clear : ∀ y, d.isNamed y "w:fldSimple" = true → x ∉ (d.below y).ids
  mem : ∀ f, p f → f ∈ d.ids
  after : ∀ f, p f → x ∉ (d.following f).ids
  out : ∀ f, p f → f ∈ d.descendants x → f = x ∧ d.parent? x = none

theorem Display.isNamed_simple (h : Display row) {entry : NodeId × Node} (hentry : entry ∈ row.nodes) :
    entry.2.isNamed "w:fldSimple" = false := by
  cases h with
  | mk name text pure =>
    rw [single, Forest.nodes, Forest.nodes, List.append_nil, List.mem_cons] at hentry
    rcases hentry with rfl | hentry
    · exact isNamed_of_ne (isNamed_run name) (by decide)
    · have hmarkup := pure entry hentry
      simp only [isMarkup, Bool.or_eq_false_iff] at hmarkup
      exact hmarkup.1.1

theorem Display.notMem (hd : d.Distinct) (h : Display (d.below x))
    (hname : d.isNamed y "w:fldSimple" = true) : y ∉ (d.below x).ids := by
  intro hin
  obtain ⟨⟨_, n⟩, hentry, rfl⟩ := List.mem_map.1 hin
  have hnode := (hd.shows_below x).node? hentry
  have hnamed := h.isNamed_simple hentry
  rw [isNamed, name?, hnode] at hname
  exact absurd hname (Bool.eq_false_iff.1 hnamed)

/-- The run that a field displays, and the first text in it. -/
theorem exists_shown (hd : d.Distinct) (hname : d.isNamed x "w:fldSimple" = true)
    (h : Display (d.below x)) :
    ∃ y n inner t, d.below x = single y n inner ∧ d.below y = inner ∧ t ∈ inner.ids ∧
      d.find? x "w:t" = some t ∧ d.find? y "w:t" = some t ∧
      d.ancestor? y "w:p" = d.ancestor? x "w:p" := by
  obtain ⟨y, n, inner, hbelow, hdisplay⟩ := h.exists_single
  obtain ⟨tag, rfl, hrun, htext, -⟩ := hdisplay.elim
  have hshows := hd.shows_below x
  rw [hbelow] at hshows
  have hinner : d.below y = inner := hshows.below_eq
  obtain ⟨⟨t, m⟩, hfound⟩ : ∃ entry, inner.nodes.find? (·.2.isNamed "w:t") = some entry := by
    rw [← Option.isSome_iff_exists, List.find?_isSome]
    exact List.countP_pos_iff.1 (by omega)
  have hfind : d.find? y "w:t" = some t := by rw [find?, hinner, hfound, Option.map_some]
  have hfind' : d.find? x "w:t" = some t := by
    have hskip : (Node.element tag).isNamed "w:t" = false := isNamed_of_ne hrun (by decide)
    rw [find?, hbelow, single, Forest.nodes, Forest.nodes, List.append_nil, List.find?_cons, hskip,
      hfound, Option.map_some]
  have hparent : d.parent? y = some x := by
    rw [← hd.mem_children_iff_parent?, children, hbelow]
    exact List.mem_singleton_self y
  obtain ⟨node, hnode, henclosing⟩ := hd.enclosing_of_parent? hparent
  have hfield : node.isNamed "w:p" = false := by
    rw [isNamed, name?, hnode] at hname
    exact isNamed_of_ne hname (by decide)
  refine ⟨y, .element tag, inner, t, hbelow, hinner,
    List.mem_map_of_mem (List.mem_of_find?_eq_some hfound), hfind', hfind, ?_⟩
  rw [Document.ancestor?, Document.ancestor?, henclosing, List.find?_cons, hfield]

namespace AtTurn

variable (h : AtTurn d p x) (hd : d.Distinct)
include h

theorem mem_ids : x ∈ d.ids := mem_ids_of_isNamed h.name

include hd

theorem notMem_below (ha : a ∈ d.descendants x) (hy : OtherThan d x y) : a ∉ (d.below y).ids := by
  intro hin
  rcases hd.mem_descendants_total ha (mem_descendants_of_mem_below hin) with hx | hy'
  · rcases (mem_descendants_iff_below (mem_ids_of_isNamed hy.1)).1 hx with heq | hx
    · exact hy.2 heq.symm
    · exact h.clear y hy.1 hx
  · rcases (mem_descendants_iff_below h.mem_ids).1 hy' with heq | hy'
    · exact hy.2 heq
    · exact h.display.notMem hd hy.1 hy'

/-- An edit below a field is made elsewhere than in other fields and after anchors. -/
theorem remote_below (ha : a ∈ (d.below x).ids) : Remote (OtherThan d x) p d a where
  inner y hy _ := h.notMem_below hd (mem_descendants_of_mem_below ha) hy
  ne f hf heq := by
    have hin := heq ▸ ha
    have hself := (h.out f hf (mem_descendants_of_mem_below hin)).1
    exact hd.notMem_below_self x (hself ▸ hin)
  after f hf hin := by
    by_cases hout : f ∈ d.descendants x
    · obtain ⟨rfl, -⟩ := h.out f hf hout
      obtain ⟨s, hs, hin⟩ := mem_following_iff.1 hin
      rw [below_eq_site?, hs] at ha
      exact notMem_rest_of_mem_children hd.nodup_forest (hd.forest_site? hs) ha hin
    · exact hd.notMem_following_of_below (mem_descendants_of_mem_below ha) hout (h.after f hf) hin

/-- An edit at a node around a field is made elsewhere than in other fields, and after anchors only
if it is at one. -/
theorem remote_above (ha : x ∈ d.descendants a) :
    Remote (OtherThan d x) (fun f => p f ∧ f ≠ a) d a where
  inner y hy _ hin := by
    have hx := hd.mem_descendants_trans ha (mem_descendants_of_mem_below hin)
    rcases (mem_descendants_iff_below (mem_ids_of_isNamed hy.1)).1 hx with heq | hx
    · exact hy.2 heq.symm
    · exact h.clear y hy.1 hx
  ne f hf := hf.2
  after f hf hin := h.after f hf.1 (hd.mem_following_of_below ha hin)

theorem remote_around (ht : t ∈ d.descendants x) (ha : t ∈ d.descendants a) :
    Remote (OtherThan d x) (fun f => p f ∧ f ≠ a) d a := by
  rcases hd.mem_descendants_total ht ha with hx | ha
  · exact h.remote_above hd hx
  · rcases (mem_descendants_iff_below h.mem_ids).1 ha with rfl | ha
    · exact h.remote_above hd (mem_descendants_self h.mem_ids)
    · exact (h.remote_below hd ha).imp (fun _ hy => hy) fun _ hf => hf.1

end AtTurn

/-! ## Runs -/

/-- The runs of a field that is unfolded are different nodes. -/
theorem nodup_runs (h : d.Unfolds v e) (hx : x ∈ d.ids) {before after inner : Forest} {n : Node}
    (hframe : v.frame? x = some (before, after)) (hbelow : d.below x = single y n inner)
    (hy : v.frame? y = none) : (before.topIds ++ v.name y :: after.topIds).Nodup := by
  obtain ⟨s, hs⟩ := Document.exists_site? hx
  rw [below_eq_site?, hs, Option.map_some, Option.getD_some] at hbelow
  have hslot : (v.slot x s.node (s.children.unfold v)).ids.Nodup := by
    obtain ⟨husk?, g, others, hlots, hmem | ⟨node, rfl⟩⟩ := h.exists_lot hx
    · have hsub := slot_sublist_unfold (u := v) ((h.site?_eq hlots hmem).symm.trans hs)
      exact (h.nodup_unfold hlots hmem).sublist (hsub.map Prod.fst)
    · have hrow : single x node g ∈ d.allRows := by
        have hplain : d.allRows.Perm (single x node g :: others.flatMap Lot.plain) := hlots.plain
        exact hplain.mem_iff.2 List.mem_cons_self
      have hsite := h.distinct.site?_of_row hrow (List.mem_cons_self : x ∈ (single x node g).ids)
      rw [hs, single, Forest.site?, if_pos rfl, Option.some.injEq] at hsite
      subst hsite
      subst hbelow
      have htrees := (Lot.unfolded_husk hframe hy node n inner).flatMap_right Forest.ids
      have hids := (hlots.unfolded.flatMap_right Forest.ids).nodup_iff.1 h.distinct'.nodup
      rw [List.flatMap_cons, List.flatMap_append] at hids
      rw [← flatMap_ids_trees]
      exact htrees.nodup_iff.2 (List.nodup_append.1 hids).1
  have htops := hslot.sublist (topIds_sublist _)
  rw [hbelow, Unfolding.slot_of_some hframe, unfold_single, Unfolding.slot_of_none hy, topIds_append,
    topIds_append] at htops
  exact htops

/-- The runs of a complex field without the one that displays its text. -/
theorem runs_filter {before after : List NodeId} (h : (before ++ y :: after).Nodup) :
    (before ++ y :: after).filter (fun z => some z ≠ some y) = before ++ after := by
  have hout := List.nodup_middle.1 h
  have hne : ∀ z ∈ before ++ after, decide (some z ≠ some y) = true := fun z hz => by
    have hzy : z ≠ y := fun heq => (List.nodup_cons.1 hout).1 (heq ▸ hz)
    simpa using hzy
  rw [List.filter_append, List.filter_cons_of_neg (by simp), ← List.filter_append,
    List.filter_eq_self.2 hne]

/-- The shape of a field that is unfolded. -/
theorem field_of_some (h : d.Unfolds v e) (hx : x ∈ d.ids) {before after inner : Forest} {n : Node}
    (hframe : v.frame? x = some (before, after)) (hbelow : d.below x = single y n inner)
    (hy : v.frame? y = none) (instruction expression : String) :
    ∃ first others, before.topIds ++ v.name y :: after.topIds = first :: others ∧
      v.field d ⟨.simple x, instruction, expression⟩ =
        ⟨.complex first others (some (v.name y)), instruction, expression⟩ := by
  have hruns := Unfolding.runs_eq hx hframe hbelow hy
  have hhead : (d.children x).head? = some y := by
    rw [Document.children, hbelow]
    rfl
  cases before with
  | nil => exact absurd rfl (h.before_ne_nil hx hframe)
  | cons first node c more =>
    refine ⟨first, more.topIds ++ v.name y :: after.topIds, rfl, ?_⟩
    simp [Unfolding.field, Unfolding.shape, hframe, hhead, hruns]

/-! ## Replacing -/

section Replace

variable (h : w.document.Unfolds v w'.document) (hsame : Merge.SameRegistries w w')
  (hturn : AtTurn w.document p x)
include h hsame hturn

/-- The displayed text is replaced in both documents, where it is looked up at corresponding
nodes. -/
theorem replaceDisplay_abreast (convert? : Option Converter) (content : Content)
    (hdisplay : display? w.document x = some t) (hplain : ∀ z ∈ (w.document.below x).ids, v.frame? z = none)
    (hdisplay' : display? w'.document x' = some (v.name t))
    (hparagraph : w'.document.ancestor? x' "w:p" = (w.document.ancestor? x "w:p").map v.name) :
    Abreast w.document v (OtherThan w.document x) p (replaceDisplay convert? x content)
      (replaceDisplay convert? x' content) w w' fun _ _ _ _ => True := by
  have hd := h.distinct
  have ht := mem_below_of_display? hdisplay
  have hin := mem_descendants_of_mem_below ht
  have hmem := mem_ids_of_mem_descendants hin
  have hq : ∀ y, OtherThan w.document x y → y ∈ w.document.ids := fun y hy => mem_ids_of_isNamed hy.1
  have hat := hturn.remote_below hd ht
  have hbelow : ∀ z ∈ (w.document.below t).ids, v.frame? z = none := fun z hz =>
    hplain z (hd.mem_below_trans hz hin)
  unfold replaceDisplay
  refine Merge.lockstep_document ?_
  rw [hdisplay, hdisplay', hparagraph]
  have hinsert : Abreast w.document v (OtherThan w.document x) p
      (content.insert convert? (w.document.ancestor? x "w:p") t)
      (content.insert convert? ((w.document.ancestor? x "w:p").map v.name) (v.name t)) w w'
      fun _ _ _ _ => True := by
    apply Content.insert_abreast hq hturn.mem hmem (hplain t ht) hbelow h hsame rfl hat
    · intro a ha
      obtain ⟨ha', hframe⟩ := h.of_ancestor? (by decide) ha
      exact ⟨ha', hframe, hturn.remote_above hd (hd.of_ancestor? ha).2⟩
    · intro a ha
      exact hturn.remote_around hd hin (hd.of_ancestor? ha).2
  refine hinsert.bind ?_
  rintro _ w₁ _ w₁' - hsame₁ ⟨v₁, h₁, -⟩
  exact Merge.lockstep_edit hsame₁ ⟨v₁, (h₁.imp (fun _ hy => hy) fun _ hf => hf.1).detach hq
    hturn.mem hmem (hplain t ht) hat.inner, trivial⟩

end Replace

section Unwrap

variable {d₁ e₁ : Document} {v₁ : Unfolding} (hturn : AtTurn d p x)
include hturn

theorem AtTurn.notMem_later (h : Lasts (OtherThan d x) p d d₁)
    (hy : d.isNamed y "w:fldSimple" = true) : x ∉ (d₁.below y).ids :=
  fun hin => hturn.clear y hy (h.inner hturn.mem_ids hin)

variable (hd : d.Distinct)
include hd

/-- When the element around a display is unwrapped, what other fields rely on lasts. -/
theorem lasts_unwrap (h : Lasts (OtherThan d x) p d d₁) : Lasts (OtherThan d x) p d (d₁.unwrap x) := by
  have hq : ∀ y, OtherThan d x y → y ∈ d.ids := fun y hy => mem_ids_of_isNamed hy.1
  have hx := h.ids hturn.mem_ids
  cases hparent : d₁.parent? x with
  | none =>
    rw [Document.unwrap, hparent]
    exact Lasts.detach (h.imp (fun _ hy => hy) fun _ hf => hf.1) hq hturn.mem hx fun y hy _ =>
      hturn.notMem_later h hy.1
  | some z =>
    -- The field had a parent from the beginning, so that it is no anchor.
    have hbefore : (d.parent? x).isSome := by
      have hz := h.distinct.mem_children_iff_parent?.2 hparent
      exact hd.isSome_parent?_of_mem_below
        (h.inner hturn.mem_ids (Forest.mem_ids_of_mem_topIds hz))
    apply h.unwrap
    · constructor
      · intro y hy _
        exact hturn.notMem_later h hy.1
      · rintro f hf rfl
        rw [(hturn.out f hf (mem_descendants_self hturn.mem_ids)).2] at hbefore
        cases hbefore
      · intro f hf hin
        rcases h.following f hf x hin with hin | ⟨hnew, -⟩
        · exact hturn.after f hf hin
        · exact hnew hturn.mem_ids
    · exact fun y hy => ⟨hq y hy, hy.2⟩
    · exact hturn.mem
    · exact hx
    · intro y hy hin
      have hin := Forest.mem_ids_of_mem_topIds hin
      rcases hy with hy | hy
      · exact hturn.display.notMem hd hy.1 (h.inner (hq y hy) hin)
      · have hbelow := h.inner (hturn.mem y hy) hin
        have hself := (hturn.out y hy (mem_descendants_of_mem_below hbelow)).1
        exact hd.notMem_below_self x (hself ▸ hbelow)

/-- The element around a display is unwrapped in both documents. -/
theorem unwrap_since (h : Since d v (OtherThan d x) p v₁ d₁ e₁) (hframe : v.frame? x = none) :
    Since d v (OtherThan d x) p v₁ (d₁.unwrap x) (e₁.unwrap (v.name x)) where
  agrees := h.agrees
  unfolds := by
    rw [← h.agrees.name x hturn.mem_ids]
    refine h.unfolds.unwrap_of_none (h.lasts.ids hturn.mem_ids) (h.frame? hturn.mem_ids hframe) ?_
    intro z hz
    have hin := h.lasts.distinct.mem_children_iff_parent?.2 hz
    have hbelow := h.lasts.inner hturn.mem_ids (Forest.mem_ids_of_mem_topIds hin)
    have hmem := mem_ids_of_descendants (mem_descendants_of_mem_below hbelow)
    by_contra hsome
    have hname := h.unfolds.isNamed_of_unfolded (h.lasts.ids hmem) hsome
    rw [h.lasts.isNamed hmem] at hname
    exact hturn.clear z hname hbelow
  lasts := lasts_unwrap hturn hd h.lasts
  plain := by
    intro z hz hout
    rw [ids_eq_map_nodes, ((unwrap_perm d₁ x).map Prod.fst).mem_iff, ← ids_eq_map_nodes] at hz
    exact h.plain z hz hout

/-- The element around a display is unwrapped in one document, and the runs around it are taken out of
the other one. -/
theorem unwrap_since_of_some (h : Since d v (OtherThan d x) p v₁ d₁ e₁) {before after : Forest}
    (hframe : v.frame? x = some (before, after)) :
    Since d v (OtherThan d x) p v₁ (d₁.unwrap x)
      (e₁.detachAll (before.topIds ++ after.topIds)) where
  agrees := h.agrees
  unfolds := h.unfolds.unwrap_of_some (h.lasts.ids hturn.mem_ids)
    ((h.agrees.frame x hturn.mem_ids).trans hframe)
  lasts := lasts_unwrap hturn hd h.lasts
  plain := by
    intro z hz hout
    rw [ids_eq_map_nodes, ((unwrap_perm d₁ x).map Prod.fst).mem_iff, ← ids_eq_map_nodes] at hz
    exact h.plain z hz hout

end Unwrap

/-- A field that displays something is replaced without a run of its own. -/
theorem replace_simple_apply (hdisplay : display? w.document x = some t) (convert? : Option Converter)
    (content : Content) (instruction expression : String) :
    (⟨.simple x, instruction, expression⟩ : Field).replace convert? content w =
      (do replaceDisplay convert? x content; Merge.edit (·.unwrap x)) w := by
  have hensured : ensureDisplay x w = .ok () w := by
    unfold ensureDisplay
    rw [Merge.document_bind, hdisplay]
    rfl
  exact Merge.bind_ok hensured

theorem display?_of_find? (h : d.find? x "w:t" = some t) : display? d x = some t := by
  rw [display?, h, Option.some_or]

theorem parent?_unwrap_self (hd : d.Distinct) (x : NodeId) : (d.unwrap x).parent? x = none := by
  cases hparent : d.parent? x with
  | none =>
    rw [Document.unwrap, hparent]
    exact hd.parent?_detach_self
  | some z =>
    refine parent?_eq_none_of_children (hd.unwrap x) fun y hin => ?_
    rw [hd.children_unwrap (Option.isSome_of_eq_some hparent)] at hin
    split at hin
    next => cases hin
    next =>
      obtain ⟨t, -, ht⟩ := List.mem_flatMap.1 hin
      split at ht
      next => exact hd.notMem_below_self x (Forest.mem_ids_of_mem_topIds ht)
      next hne => exact hne (List.mem_singleton.1 ht).symm

/-- When its turn has come, a simple field is replaced in both documents. -/
theorem replace_abreast (h : w.document.Unfolds v w'.document) (hsame : Merge.SameRegistries w w')
    (hturn : AtTurn w.document p x) (convert? : Option Converter) (content : Content)
    (instruction expression : String) :
    Abreast w.document v (OtherThan w.document x) p
      ((⟨.simple x, instruction, expression⟩ : Field).replace convert? content)
      ((v.field w.document ⟨.simple x, instruction, expression⟩).replace convert? content) w w'
      fun _ _ _ d => d.parent? x = none := by
  have hd := h.distinct
  have hx := hturn.mem_ids
  obtain ⟨y, n, inner, t, hbelow, hinner, ht, hfound, hfound', hparagraph⟩ :=
    exists_shown hd hturn.name hturn.display
  have hdisplay := display?_of_find? hfound
  have hplain := h.frame?_of_display (hd.shows_below x) hturn.display
  have hyx : y ∈ (w.document.below x).ids := by simp [hbelow, single]
  have hy := hplain y hyx
  have hlook : ∀ a, a ∈ w.document.ids → v.frame? a = none → w.document.find? a "w:t" = some t →
      display? w'.document (v.name a) = some (v.name t) := fun a ha hframe hfound =>
    display?_of_find? (by rw [h.find?_eq ha hframe (by decide) (by decide) (by decide), hfound]; rfl)
  -- The field of the other document is simple too, or it is a complex field of the runs in its
  -- frame.
  cases hframe : v.frame? x with
  | none =>
    have hfield : v.field w.document ⟨.simple x, instruction, expression⟩ =
        ⟨.simple (v.name x), instruction, expression⟩ := by simp [Unfolding.field, Unfolding.shape, hframe]
    rw [hfield]
    have hdisplay' := hlook x hx hframe hfound
    refine Merge.Lockstep.of_eq ?_ (replace_simple_apply hdisplay convert? content _ _)
      (replace_simple_apply hdisplay' convert? content _ _)
    refine (replaceDisplay_abreast h hsame hturn convert? content hdisplay hplain hdisplay'
      (h.ancestor?_eq hx hframe (by decide))).bind ?_
    rintro _ w₁ _ w₁' - hsame₁ ⟨v₁, h₁, -⟩
    exact Merge.lockstep_edit hsame₁ ⟨v₁, unwrap_since hturn hd h₁ hframe,
      parent?_unwrap_self h₁.unfolds.distinct x⟩
  | some frame =>
    obtain ⟨before, after⟩ := frame
    obtain ⟨first, others, hruns, hfield⟩ :=
      field_of_some h hx hframe hbelow hy instruction expression
    rw [hfield]
    refine Merge.Lockstep.of_eq ?_ (replace_simple_apply hdisplay convert? content _ _) rfl
    have hymem := mem_ids_of_mem_descendants (mem_descendants_of_mem_below hyx)
    have hparagraph' := h.ancestor?_eq hymem hy (show "w:p" ≠ "w:fldSimple" by decide)
    rw [hparagraph] at hparagraph'
    refine (replaceDisplay_abreast h hsame hturn convert? content hdisplay hplain
      (hlook y hymem hy hfound') hparagraph').bind ?_
    rintro _ w₁ _ w₁' - hsame₁ ⟨v₁, h₁, -⟩
    refine Merge.lockstep_edit hsame₁ ⟨v₁, ?_, parent?_unwrap_self h₁.unfolds.distinct x⟩
    rw [← hruns, runs_filter (nodup_runs h hx hframe hbelow hy)]
    exact unwrap_since_of_some hturn hd h₁ hframe

/-! ## Taking out -/

theorem runs_of_none (hx : x ∈ d.ids) (hframe : v.frame? x = none) : v.runs d x = [v.name x] := by
  obtain ⟨s, hs⟩ := Document.exists_site? hx
  rw [Unfolding.runs, tree_of_site? hs, unfold_single, Unfolding.slot_of_none hframe]
  rfl

/-- A node is taken out of one document, and what has been made of it out of the other one. -/
theorem detach_runs (h : d.Unfolds v e) (hx : x ∈ d.ids)
    (hdisplay : v.frame? x ≠ none → Display (d.below x)) :
    (d.detach x).Unfolds v (e.detachAll (v.runs d x)) := by
  cases hframe : v.frame? x with
  | none =>
    rw [runs_of_none hx hframe]
    exact h.detach_of_none hx hframe
  | some frame =>
    have hframe : v.frame? x ≠ none := by simp [hframe]
    have hdisplay := hdisplay hframe
    obtain ⟨y, n, inner, hbelow, -⟩ := hdisplay.exists_single
    have hy := h.frame?_of_display (h.distinct.shows_below x) hdisplay y (by simp [hbelow, single])
    exact h.detach_of_some hx hframe hbelow hy

/-- The nodes that are taken out with a field are those that are made of it. -/
theorem removed_field (h : d.Unfolds v e) (hx : x ∈ d.ids) (hdisplay : Display (d.below x))
    (instruction expression : String) :
    (v.field d ⟨.simple x, instruction, expression⟩).removed = v.runs d x := by
  cases hframe : v.frame? x with
  | none =>
    rw [runs_of_none hx hframe]
    simp [Unfolding.field, Unfolding.shape, hframe, removed, nodes]
  | some frame =>
    obtain ⟨y, n, inner, hbelow, -⟩ := hdisplay.exists_single
    have hy := h.frame?_of_display (h.distinct.shows_below x) hdisplay y (by simp [hbelow, single])
    obtain ⟨first, others, hruns, hfield⟩ :=
      field_of_some h hx hframe hbelow hy instruction expression
    rw [hfield, Unfolding.runs_eq hx hframe hbelow hy, hruns]
    rfl

theorem remove_field (h : d.Unfolds v e) (hx : x ∈ d.ids) (hdisplay : Display (d.below x))
    (instruction expression : String) :
    (v.field d ⟨.simple x, instruction, expression⟩).remove e = e.detachAll (v.runs d x) := by
  rw [remove_eq, removed_field h hx hdisplay]

/-- When its turn has come, a simple field is removed from both documents. -/
theorem remove_since (h : d.Unfolds v e) (hturn : AtTurn d p x) (instruction expression : String) :
    Since d v (OtherThan d x) p v
      ((⟨.simple x, instruction, expression⟩ : Field).remove d)
      ((v.field d ⟨.simple x, instruction, expression⟩).remove e) where
  agrees := .refl _ _
  unfolds := by
    rw [remove_field h hturn.mem_ids hturn.display]
    exact detach_runs h hturn.mem_ids fun _ => hturn.display
  lasts := Lasts.detach (.refl h.distinct _ _) (fun y hy => mem_ids_of_isNamed hy.1) hturn.mem
    hturn.mem_ids fun y hy _ => hturn.clear y hy.1
  plain z hz hout := by
    rw [Field.remove, ids_eq_map_nodes, ((detach_perm d x).map Prod.fst).mem_iff,
      ← ids_eq_map_nodes] at hz
    exact absurd hz hout

end Field

end MailMerge
