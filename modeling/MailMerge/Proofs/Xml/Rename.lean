import MailMerge.Proofs.Xml.Bare
import MailMerge.Proofs.Xml.Place

/-!
# Renamed nodes

A row that is the same markup as another one is that other row with its nodes renamed
(`exists_rename_of_bare`). What can be looked up at and below a node that stands alone in its row is
renamed with the nodes (`Document.Renamed`), so that nothing depends on the numbers that nodes have.
-/

namespace MailMerge.Xml

namespace Forest

variable {ρ σ : NodeId → NodeId} {f g : Forest} {x : NodeId}

/-- The row with its nodes renamed. -/
def rename (ρ : NodeId → NodeId) : Forest → Forest
  | nil => nil
  | cons id node children rest => cons (ρ id) node (children.rename ρ) (rest.rename ρ)

@[simp] theorem rename_nil (ρ : NodeId → NodeId) : nil.rename ρ = nil := rfl

@[simp] theorem rename_cons (ρ : NodeId → NodeId) (id : NodeId) (node : Node)
    (children rest : Forest) :
    (cons id node children rest).rename ρ =
      cons (ρ id) node (children.rename ρ) (rest.rename ρ) := rfl

@[simp] theorem rename_single (ρ : NodeId → NodeId) (id : NodeId) (node : Node)
    (children : Forest) :
    (single id node children).rename ρ = single (ρ id) node (children.rename ρ) := rfl

theorem nodes_rename (ρ : NodeId → NodeId) (f : Forest) :
    (f.rename ρ).nodes = f.nodes.map (Prod.map ρ id) := by
  induction f with
  | nil => rfl
  | cons id node children rest ihc ihr => simp [nodes, ihc, ihr]

theorem ids_rename (ρ : NodeId → NodeId) (f : Forest) : (f.rename ρ).ids = f.ids.map ρ := by
  rw [ids, nodes_rename, ids, List.map_map, List.map_map]
  rfl

theorem tops_rename (ρ : NodeId → NodeId) (f : Forest) :
    (f.rename ρ).tops = f.tops.map (Prod.map ρ id) := by
  induction f with
  | nil => rfl
  | cons id node children rest _ ih => simp [tops, ih]

@[simp] theorem bare_rename (ρ : NodeId → NodeId) (f : Forest) : (f.rename ρ).bare = f.bare := by
  induction f with
  | nil => rfl
  | cons id node children rest ihc ihr => simp [ihc, ihr]

@[simp] theorem text_rename (ρ : NodeId → NodeId) (f : Forest) : (f.rename ρ).text = f.text := by
  rw [← text_bare, bare_rename, text_bare]

theorem rename_append (f g : Forest) : (f ++ g).rename ρ = f.rename ρ ++ g.rename ρ := by
  induction f with
  | nil => rfl
  | cons id node children rest _ ih => rw [cons_append, rename_cons, ih, rename_cons, cons_append]

theorem rename_join (rows : List Forest) : (join rows).rename ρ = join (rows.map (rename ρ)) := by
  induction rows with
  | nil => rfl
  | cons row rows ih => rw [join, rename_append, ih, List.map_cons, join]

theorem size_rename (f : Forest) : (f.rename ρ).size = f.size := by
  rw [← length_ids, ids_rename, List.length_map, length_ids]

theorem relabel_rename (next : NodeId) (f : Forest) :
    (f.rename ρ).relabel next = f.relabel next := by
  induction f generalizing next with
  | nil => rfl
  | cons id node children rest ihc ihr =>
    rw [rename_cons, relabel, relabel, ihc, ihr, size_rename]

theorem rename_congr (h : ∀ y ∈ f.ids, ρ y = σ y) : f.rename ρ = f.rename σ := by
  induction f with
  | nil => rfl
  | cons id node children rest ihc ihr =>
    simp only [ids_cons, List.mem_cons, List.mem_append] at h
    rw [rename_cons, rename_cons, h id (.inl rfl), ihc fun y hy => h y (.inr (.inl hy)),
      ihr fun y hy => h y (.inr (.inr hy))]

/-- A row that is the same markup as another one is that one with its nodes renamed. -/
theorem exists_rename_of_bare (hf : f.ids.Nodup) (h : f.bare = g.bare) :
    ∃ ρ, g = f.rename ρ := by
  induction f generalizing g with
  | nil => exact ⟨id, eq_nil_of_bare h.symm⟩
  | cons x node children rest ihc ihr =>
    obtain ⟨hxc, hxr, hchildren, hrest, hdisj⟩ := nodup_cons_iff.1 hf
    obtain ⟨y, c, r, rfl, hc, hr⟩ := exists_cons_of_bare h.symm
    obtain ⟨ρ, rfl⟩ := ihc hchildren hc.symm
    obtain ⟨σ, rfl⟩ := ihr hrest hr.symm
    refine ⟨fun z => if z = x then y else if z ∈ children.ids then ρ z else σ z, ?_⟩
    rw [rename_cons, if_pos rfl]
    congr 1
    · refine rename_congr fun z hz => ?_
      have hne : z ≠ x := fun heq => hxc (heq ▸ hz)
      rw [if_neg hne, if_pos hz]
    · refine rename_congr fun z hz => ?_
      have hne : z ≠ x := fun heq => hxr (heq ▸ hz)
      rw [if_neg hne, if_neg fun hin => hdisj z hin hz]

/-! ## Looking up -/

theorem site?_rename (h : ∀ y ∈ f.ids, ρ y = ρ x → y = x) :
    (f.rename ρ).site? (ρ x) = (f.site? x).map (Site.map (rename ρ)) := by
  induction f with
  | nil => rfl
  | cons id node children rest ihc ihr =>
    simp only [ids_cons, List.mem_cons, List.mem_append] at h
    rw [rename_cons, site?, site?]
    by_cases hx : id = x
    · rw [if_pos hx, if_pos (congrArg ρ hx)]
      rfl
    · rw [if_neg hx, if_neg fun heq => hx (h id (.inl rfl) heq), Option.map_or,
        ihc fun y hy => h y (.inr (.inl hy)), ihr fun y hy => h y (.inr (.inr hy))]

theorem ancestors?_rename (h : ∀ y ∈ f.ids, ρ y = ρ x → y = x) :
    (f.rename ρ).ancestors? (ρ x) = (f.ancestors? x).map (List.map (Prod.map ρ id)) := by
  induction f with
  | nil => rfl
  | cons y node children rest ihc ihr =>
    simp only [ids_cons, List.mem_cons, List.mem_append] at h
    rw [rename_cons, ancestors?, ancestors?]
    by_cases hx : y = x
    · rw [if_pos hx, if_pos (congrArg ρ hx)]
      rfl
    · rw [if_neg hx, if_neg fun heq => hx (h y (.inl rfl) heq), Option.map_or,
        ihc fun z hz => h z (.inr (.inl hz)), ihr fun z hz => h z (.inr (.inr hz)), Option.map_map,
        Option.map_map]
      congr 2
      funext above
      simp

end Forest

namespace Document

open Forest

variable {ρ : NodeId → NodeId} {d e : Document} {x y z : NodeId} {rest rest' : List Forest}

/-! ## Looking up in a tree that stands alone -/

namespace Apex

theorem site?_eq (h : d.Apex x rest) (hy : y ∈ d.descendants x) :
    d.site? y = (d.tree x).site? y := h.distinct.site?_of_row h.tree_mem hy

theorem enclosing_eq (h : d.Apex x rest) (hy : y ∈ d.descendants x) :
    d.enclosing y = ((d.tree x).ancestors? y).getD [] :=
  h.distinct.enclosing_of_row h.tree_mem hy

end Apex

/-- The tree of a node that stands alone is, with its nodes renamed, one that stands alone in
another document. -/
structure Renamed (ρ : NodeId → NodeId) (d : Document) (x : NodeId) (e : Document) : Prop where
  alone : ∃ rest, d.Apex x rest
  alone' : ∃ rest, e.Apex (ρ x) rest
  tree_eq : e.tree (ρ x) = (d.tree x).rename ρ

/-- Two trees with the same markup that stand alone are renamed ones. -/
theorem Apex.exists_renamed (h : d.Apex x rest) (h' : e.Apex y rest')
    (heq : (d.tree x).bare = (e.tree y).bare) : ∃ ρ, ρ x = y ∧ Renamed ρ d x e := by
  obtain ⟨ρ, hρ⟩ := exists_rename_of_bare (h.distinct.nodup_descendants x) heq
  have hxy : ρ x = y := by
    obtain ⟨node, children, -, hs⟩ := h.site?
    obtain ⟨node', children', -, hs'⟩ := h'.site?
    rw [tree_eq_site?, tree_eq_site?, hs, hs'] at hρ
    cases hρ
    rfl
  subst hxy
  exact ⟨ρ, rfl, ⟨rest, h⟩, ⟨rest', h'⟩, hρ⟩

namespace Renamed

theorem mem (h : Renamed ρ d x e) (hy : y ∈ d.descendants x) : ρ y ∈ e.descendants (ρ x) := by
  rw [descendants, h.tree_eq, ids_rename]
  exact List.mem_map_of_mem hy

theorem inj (h : Renamed ρ d x e) (hy : y ∈ d.descendants x) (hz : z ∈ d.descendants x)
    (heq : ρ y = ρ z) : y = z := by
  obtain ⟨rest, halone⟩ := h.alone'
  have hnodup := halone.distinct.nodup_descendants (ρ x)
  rw [descendants, h.tree_eq, ids_rename] at hnodup
  exact List.inj_on_of_nodup_map hnodup hy hz heq

theorem site? (h : Renamed ρ d x e) (hy : y ∈ d.descendants x) :
    e.site? (ρ y) = (d.site? y).map (Site.map (rename ρ)) := by
  obtain ⟨rest, halone⟩ := h.alone
  obtain ⟨rest', halone'⟩ := h.alone'
  rw [halone'.site?_eq (h.mem hy), h.tree_eq, halone.site?_eq hy,
    site?_rename fun z hz heq => h.inj hz hy heq]

theorem enclosing (h : Renamed ρ d x e) (hy : y ∈ d.descendants x) :
    e.enclosing (ρ y) = (d.enclosing y).map (Prod.map ρ id) := by
  obtain ⟨rest, halone⟩ := h.alone
  obtain ⟨rest', halone'⟩ := h.alone'
  rw [halone'.enclosing_eq (h.mem hy), h.tree_eq, halone.enclosing_eq hy,
    ancestors?_rename fun z hz heq => h.inj hz hy heq]
  cases (d.tree x).ancestors? y <;> rfl

/-! ## What is renamed with the nodes -/

theorem tree (h : Renamed ρ d x e) (hy : y ∈ d.descendants x) :
    e.tree (ρ y) = (d.tree y).rename ρ := by
  rw [tree_eq_site?, tree_eq_site?, h.site? hy]
  cases d.site? y <;> rfl

theorem below (h : Renamed ρ d x e) (hy : y ∈ d.descendants x) :
    e.below (ρ y) = (d.below y).rename ρ := by
  rw [below_eq_site?, below_eq_site?, h.site? hy]
  cases d.site? y <;> rfl

theorem following (h : Renamed ρ d x e) (hy : y ∈ d.descendants x) :
    e.following (ρ y) = (d.following y).rename ρ := by
  rw [following_eq_site?, following_eq_site?, h.site? hy]
  cases d.site? y <;> rfl

theorem node? (h : Renamed ρ d x e) (hy : y ∈ d.descendants x) : e.node? (ρ y) = d.node? y := by
  rw [node?_eq_site?, node?_eq_site?, h.site? hy]
  cases d.site? y <;> rfl

theorem attribute? (h : Renamed ρ d x e) (hy : y ∈ d.descendants x) (name : String) :
    e.attribute? (ρ y) name = d.attribute? y name := by
  rw [Document.attribute?, Document.attribute?, h.node? hy]

theorem text (h : Renamed ρ d x e) (hy : y ∈ d.descendants x) : e.text (ρ y) = d.text y := by
  rw [Document.text, Document.text, h.tree hy, text_rename]

theorem parent? (h : Renamed ρ d x e) (hy : y ∈ d.descendants x) :
    e.parent? (ρ y) = (d.parent? y).map ρ := by
  rw [Document.parent?, Document.parent?, ancestors, ancestors, h.enclosing hy]
  cases d.enclosing y <;> rfl

theorem ancestor? (h : Renamed ρ d x e) (hy : y ∈ d.descendants x) (name : String) :
    e.ancestor? (ρ y) name = (d.ancestor? y name).map ρ := by
  rw [Document.ancestor?, Document.ancestor?, h.enclosing hy, List.find?_map, Option.map_map,
    Option.map_map]
  rfl

theorem followingElements (h : Renamed ρ d x e) (hy : y ∈ d.descendants x) :
    e.followingElements (ρ y) = (d.followingElements y).map ρ := by
  rw [Document.followingElements, Document.followingElements, h.following hy, tops_rename,
    List.filter_map, List.map_map, List.map_map]
  rfl

theorem nextElement? (h : Renamed ρ d x e) (hy : y ∈ d.descendants x) :
    e.nextElement? (ρ y) = (d.nextElement? y).map ρ := by
  rw [Document.nextElement?, Document.nextElement?, h.followingElements hy, List.head?_map]

theorem findAll (h : Renamed ρ d x e) (hy : y ∈ d.descendants x) (name : String) :
    e.findAll (ρ y) name = (d.findAll y name).map ρ := by
  rw [Document.findAll, Document.findAll, h.below hy, nodes_rename, List.filter_map, List.map_map,
    List.map_map]
  rfl

theorem find? (h : Renamed ρ d x e) (hy : y ∈ d.descendants x) (name : String) :
    e.find? (ρ y) name = (d.find? y name).map ρ := by
  rw [Document.find?, Document.find?, h.below hy, nodes_rename, List.find?_map, Option.map_map,
    Option.map_map]
  rfl

theorem mem_descendants_iff (h : Renamed ρ d x e) (hy : y ∈ d.descendants x)
    (hz : z ∈ d.descendants x) : ρ z ∈ e.descendants (ρ y) ↔ z ∈ d.descendants y := by
  obtain ⟨rest, halone⟩ := h.alone
  rw [descendants, h.tree hy, ids_rename, List.mem_map]
  constructor
  · rintro ⟨a, ha, heq⟩
    have hin := halone.distinct.mem_descendants_trans ha hy
    exact h.inj hin hz heq ▸ ha
  · exact fun hin => ⟨z, hin, rfl⟩

end Renamed

end Document

end MailMerge.Xml
