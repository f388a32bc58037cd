import MailMerge.Proofs.Field.Planting

/-!
# Rows with fields in the other shape

Two rows that are the same but for the shapes of fields are made of one row of simple fields, some of
which are unfolded in each of them (`Reshaped.exists_plain`). Rows that are made in this way are the same but
for the shapes of fields (`Unfolds.reshaped`).
-/

namespace MailMerge

open Xml Xml.Forest Xml.Document Field

variable {plain : Node → Prop} {node : Node} {f g display row row' rest before after : Forest}
variable {u v v' : Unfolding} {d e e' : Document} {x y : NodeId} {children : Forest}

namespace Field

/-! ## Rows of simple fields -/

/-- Whatever its identities are, a row is made of another one by unfolding simple fields. -/
def Spells (f row : Forest) : Prop :=
  ∀ g : Forest, g.bare = f.bare → g.ids.Nodup → ∃ v : Unfolding, g.unfold v = row ∧ v.FitsIn g

theorem Spells.keep (hc : Spells children f) (hr : Spells rest g) (x y : NodeId) (node : Node) :
    Spells (cons x node children rest) (cons y node f g) := by
  intro k hbare hk
  obtain ⟨z, c, r, rfl, hcbare, hrbare⟩ := exists_cons_of_bare hbare
  obtain ⟨-, -, hcNodup, hrNodup, -⟩ := nodup_cons_iff.1 hk
  obtain ⟨vc, rfl, hvc⟩ := hc c hcbare hcNodup
  obtain ⟨vr, rfl, hvr⟩ := hr r hrbare hrNodup
  obtain ⟨v, hunfold, hframe, hframec, hframer⟩ := exists_unfolding_cons hk y none vc vr
  exact ⟨v, hunfold, hvc.cons hvr (fun _ _ hsome => nomatch hframe.symm.trans hsome) hframec hframer⟩

theorem Spells.refl (f : Forest) : Spells f f := by
  induction f with
  | nil =>
    intro g hbare _
    cases eq_nil_of_bare hbare
    exact ⟨⟨id, fun _ => none⟩, rfl, nofun⟩
  | cons x node children rest ihc ihr => exact .keep ihc ihr x x node

theorem Spells.of_bare (h : Spells f row) (hbare : g.bare = f.bare) : Spells g row := fun k hk =>
  h k (hk.trans hbare)

theorem Spells.complex (hfits : Fits node before after) (hc : Spells children f) (hr : Spells rest g)
    (x : NodeId) : Spells (cons x node children rest) ((before ++ (f ++ after)) ++ g) := by
  intro k hbare hk
  obtain ⟨z, c, r, rfl, hcbare, hrbare⟩ := exists_cons_of_bare hbare
  obtain ⟨-, -, hcNodup, hrNodup, -⟩ := nodup_cons_iff.1 hk
  obtain ⟨vc, rfl, hvc⟩ := hc c hcbare hcNodup
  obtain ⟨vr, rfl, hvr⟩ := hr r hrbare hrNodup
  obtain ⟨v, hunfold, hframe, hframec, hframer⟩ :=
    exists_unfolding_cons hk 0 (some (before, after)) vc vr
  refine ⟨v, hunfold, hvc.cons hvr (fun _ _ hsome => ?_) hframec hframer⟩
  cases hframe.symm.trans hsome
  exact hfits

/-- A field in any shape is made of the simple field. -/
theorem Spelled.spells (h : Spelled node display row) (hr : Spells rest g) (x : NodeId) :
    Spells (cons x node display rest) (row ++ g) := by
  cases h with
  | simple name => exact .keep (.refl display) hr x _ node
  | complex fits => exact .complex fits (.refl display) hr x

theorem Spelled.isNamed_simple (h : Spelled node display row) : node.isNamed "w:fldSimple" = true := by
  cases h with
  | simple name => exact name
  | complex fits => exact fits.name

theorem Spelled.of_bare (h : Spelled node display row) (hbare : f.bare = display.bare)
    (hr : Spells rest g) (x : NodeId) : Spells (cons x node f rest) (row ++ g) :=
  (h.spells hr x).of_bare (by rw [bare_cons, bare_cons, hbare])

theorem tidy_of_unmarked (h : ∀ entry ∈ f.nodes, Unmarked entry.2) : Tidy f := by
  induction f with
  | nil => trivial
  | cons x node children rest ihc ihr =>
    simp only [Forest.nodes, List.forall_mem_cons, List.forall_mem_append] at h
    refine ⟨h.1.2, fun hname => ?_, ihc h.2.1, ihr h.2.2⟩
    rw [h.1.1] at hname
    cases hname

theorem Display.tidy (h : Display f) : Tidy f := by
  refine tidy_of_unmarked fun entry hentry => ⟨h.isNamed_simple hentry, ?_⟩
  cases h with
  | mk name text pure =>
    rw [single, Forest.nodes, Forest.nodes, List.append_nil, List.mem_cons] at hentry
    rcases hentry with rfl | hentry
    · exact isNamed_of_ne (isNamed_run name) (by decide)
    · have hmarkup := pure entry hentry
      simp only [isMarkup, Bool.or_eq_false_iff] at hmarkup
      exact hmarkup.1.2

/-- Two rows that are the same but for the shapes of fields are made of one row of simple fields. -/
theorem Reshaped.exists_plain (h : Reshaped Unmarked row row') :
    ∃ f, Tidy f ∧ Spells f row ∧ Spells f row' := by
  induction h with
  | nil => exact ⟨.nil, trivial, .refl _, .refl _⟩
  | @node x y node _ _ _ _ outside _ _ ihc ihr =>
    obtain ⟨c, hc, hleft, hright⟩ := ihc
    obtain ⟨r, hr, hleft', hright'⟩ := ihr
    refine ⟨cons 0 node c r, ⟨outside.2, fun hname => ?_, hc, hr⟩, hleft.keep hleft' 0 x node,
      hright.keep hright' 0 y node⟩
    rw [outside.1] at hname
    cases hname
  | @field node display display' _ _ _ _ displays same spelled spelled' _ ih =>
    obtain ⟨r, hr, hleft, hright⟩ := ih
    refine ⟨cons 0 node display r, ⟨?_, fun _ => displays, displays.tidy, hr⟩, spelled.spells hleft 0,
      spelled'.of_bare same.symm hright 0⟩
    exact isNamed_of_ne spelled.isNamed_simple (by decide)

end Field

namespace Xml.Document

/-! ## Documents that are unfolded in two ways -/

theorem Unfolds.spelled (h : d.Unfolds v e) (hf : d.Shows (cons x node children rest))
    (hname : node.isNamed "w:fldSimple" = true) (inner : Forest) :
    Spelled node inner (v.slot x node inner) := by
  cases hframe : v.frame? x with
  | none =>
    rw [Unfolding.slot_of_none hframe]
    exact .simple hname
  | some frame =>
    obtain ⟨before, after⟩ := frame
    rw [Unfolding.slot_of_some hframe]
    have hnode := hf.node? (show (x, node) ∈ _ from List.mem_cons_self)
    exact .complex (h.fits _ (mem_nodes_of_node? hnode) before after hframe)

/-- Rows that are unfolded from one row in two ways are the same but for the shapes of fields. -/
theorem Unfolds.reshaped (h : d.Unfolds v e) (h' : d.Unfolds v' e') (hf : d.Shows f)
    (hdisplay : ∀ y ∈ f.ids, v.frame? y ≠ none ∨ v'.frame? y ≠ none → Display (d.below y)) :
    Reshaped (fun _ => True) (f.unfold v) (f.unfold v') := by
  induction f with
  | nil => exact .nil
  | cons x node children rest ihc ihr =>
    simp only [ids_cons, List.forall_mem_cons, List.forall_mem_append] at hdisplay
    have hlater := ihr hf.later hdisplay.2.2
    rw [unfold_cons, unfold_cons]
    by_cases hframes : v.frame? x ≠ none ∨ v'.frame? x ≠ none
    · have hdisplays := hdisplay.1 hframes
      rw [hf.below_eq] at hdisplays
      have hunfold := unfold_eq_rename (h.frame?_of_display hf.below hdisplays)
      have hunfold' := unfold_eq_rename (h'.frame?_of_display hf.below hdisplays)
      have hnode := hf.node? (show (x, node) ∈ _ from List.mem_cons_self)
      have hname : node.isNamed "w:fldSimple" = true := hframes.elim
        (h.isNamed_of_frame (mem_nodes_of_node? hnode)) (h'.isNamed_of_frame (mem_nodes_of_node? hnode))
      have hdisplays' : Display (children.unfold v) :=
        hdisplays.of_bare (by rw [hunfold, bare_rename])
      have hsame : (children.unfold v').bare = (children.unfold v).bare := by
        rw [hunfold, hunfold', bare_rename, bare_rename]
      exact .field hdisplays' hsame (h.spelled hf hname _) (h'.spelled hf hname _) hlater
    · rw [not_or, not_not, not_not] at hframes
      rw [Unfolding.slot_of_none hframes.1, Unfolding.slot_of_none hframes.2]
      exact .node trivial (ihc hf.below hdisplay.2.1) hlater

/-! ## The document with simple fields -/

/-- A tree as a document of its own, with new identities. -/
def ofTree (f : Forest) (declaration : Option String) : Document where
  rows := [f.relabel 0]
  aside := []
  root := 0
  next := f.size
  declaration

theorem ids_ofTree (f : Forest) (declaration : Option String) :
    (ofTree f declaration).ids = List.range' 0 f.size := by
  simp [Document.ids, allRows, ofTree, ids_relabel]

theorem ofTree_distinct (f : Forest) (declaration : Option String) : (ofTree f declaration).Distinct := by
  refine ⟨?_, fun x hx => ?_⟩
  · rw [ids_ofTree]
    exact List.nodup_range'
  · rw [ids_ofTree, List.mem_range'_1] at hx
    simpa [ofTree] using hx.2

/-- A row that becomes a single tree is a single tree, and its first node is not unfolded. -/
theorem eq_single_of_unfold {k : Forest} (hfits : v.FitsIn f) (h : f.unfold v = single x node k) :
    ∃ y c, f = single y node c ∧ v.frame? y = none ∧ v.name y = x ∧ c.unfold v = k := by
  cases f with
  | nil => cases h
  | cons y n c r =>
    rw [unfold_cons] at h
    cases hframe : v.frame? y with
    | some frame =>
      obtain ⟨before, after⟩ := frame
      have hfit := hfits (y, n) List.mem_cons_self before after hframe
      have hbefore := hfit.before_ne_nil
      have hafter := hfit.after_ne_nil
      have hlength := congrArg (·.topIds.length) h
      rw [Unfolding.slot_of_some hframe] at hlength
      simp only [topIds_append, List.length_append, single, topIds_cons, List.length_cons] at hlength
      cases before with
      | nil => exact absurd rfl hbefore
      | cons =>
        cases after with
        | nil => exact absurd rfl hafter
        | cons =>
          simp only [topIds_cons, List.length_cons] at hlength
          change _ = 0 + 1 at hlength
          omega
    | none =>
      rw [Unfolding.slot_of_none hframe] at h
      obtain ⟨hname, rfl, hchildren, hrest⟩ := cons.inj h
      cases r with
      | nil => exact ⟨y, c, rfl, hframe, hname, hchildren⟩
      | cons z m k l =>
        change (cons z m k l).unfold v = nil at hrest
        refine absurd hrest (unfold_ne_nil (fun w hw before after hsome => ?_) Forest.noConfusion)
        obtain ⟨n, hn⟩ := exists_node_of_mem_ids hw
        exact (hfits.of_cons.2 _ hn before after hsome).before_ne_nil

/-- A document with a single tree that is made of a tidy row is unfolded from the document of that row,
where all fields display something. -/
theorem exists_unfolds (hd : d.Apex d.root []) (htidy : Tidy f) (hf : Spells f (d.tree d.root)) :
    ∃ v, (ofTree f d.declaration).Unfolds v d ∧ Shown v (ofTree f d.declaration) ∧
      (ofTree f d.declaration).Alone 0 ∧ Tidy ((ofTree f d.declaration).tree 0) := by
  obtain ⟨node, children, hrows, hs⟩ := hd.site?
  have hc := ofTree_distinct f d.declaration
  have hnodup : (f.relabel 0).ids.Nodup := by simpa [Document.ids, allRows, ofTree] using hc.nodup
  obtain ⟨v, hunfold, hfits⟩ := hf (f.relabel 0) (bare_relabel 0 f) hnodup
  rw [tree_of_site? hs] at hunfold
  obtain ⟨y, k, htree, hframe, hname, hinner⟩ := eq_single_of_unfold hfits hunfold
  -- Numbering begins with the root.
  have hzero : y = 0 := by
    cases f with
    | nil => cases htree
    | cons => exact (cons.inj htree).1.symm
  subst hzero
  have hrow : (ofTree f d.declaration).allRows = [single 0 node k] := by simp [allRows, ofTree, htree]
  have hself : single 0 node k ∈ (ofTree f d.declaration).allRows := hrow ▸ List.mem_singleton_self _
  have hids : (ofTree f d.declaration).ids = (single 0 node k).ids := by
    rw [Document.ids, hrow, List.flatMap_singleton]
  have hmade : (ofTree f d.declaration).tree 0 = single 0 node k := by
    have hsite := hc.site?_of_row hself List.mem_cons_self
    rw [single, Forest.site?, if_pos rfl] at hsite
    exact tree_of_site? hsite
  have htidy' : Tidy ((ofTree f d.declaration).tree 0) := by
    rw [hmade, ← htree]
    exact htidy.of_bare (bare_relabel 0 f)
  have hunfolds : (ofTree f d.declaration).Unfolds v d := by
    refine ⟨hc, hd.distinct, hids ▸ List.mem_cons_self, hframe, hname.symm, rfl, ?_,
      [⟨none, single 0 node k⟩], ?_, ?_, ?_⟩
    · intro entry hentry
      rw [Document.nodes, hrow, List.flatMap_singleton, ← htree] at hentry
      exact hfits entry hentry
    · rw [hrow]
      exact .refl _
    · rw [List.flatMap_singleton, Lot.unfolded_tree hframe, hname, hinner]
      exact hrows
    · exact List.forall_mem_singleton.2 (Lot.sound_tree hframe node k)
  refine ⟨v, hunfolds, fun z hz hsome _ => ?_, ⟨node, k, hself⟩, htidy'⟩
  have hshows := hc.shows_tree (d := ofTree f d.declaration) 0
  refine ((hshows.tidy_iff.1 htidy') z ?_).2 (hunfolds.isNamed_of_unfolded hz hsome)
  rwa [hmade, ← hids]

/-- Two documents that are the same but for the shapes of fields are unfolded from one document of
simple fields. -/
theorem exists_common (hd : d.Apex d.root []) (he : e.Apex e.root [])
    (hdeclaration : e.declaration = d.declaration)
    (h : Reshaped Unmarked (d.tree d.root) (e.tree e.root)) :
    ∃ (c : Document) (v v' : Unfolding), c.Unfolds v d ∧ c.Unfolds v' e ∧ Shown v c ∧ Shown v' c ∧
      c.Alone c.root ∧ Tidy (c.tree c.root) := by
  obtain ⟨f, htidy, hleft, hright⟩ := h.exists_plain
  obtain ⟨v, hunfolds, hshown, halone, htree⟩ := exists_unfolds hd htidy hleft
  obtain ⟨v', hunfolds', hshown', -⟩ := exists_unfolds he htidy hright
  rw [hdeclaration] at hunfolds' hshown'
  exact ⟨_, v, v', hunfolds, hunfolds', hshown, hshown', halone, htree⟩

/-- Two documents that are unfolded from one document are the same but for the shapes of fields. -/
theorem Unfolds.reshaped_tree {c : Document} (h : c.Unfolds v d) (h' : c.Unfolds v' e) (hshown : Shown v c)
    (hshown' : Shown v' c) : Reshaped (fun _ => True) (d.tree d.root) (e.tree e.root) := by
  have hd := h.distinct
  obtain ⟨s, hs⟩ := Document.exists_site? h.rooted
  have hbelow : c.below c.root = s.children := by rw [below_eq_site?, hs]; rfl
  rw [h.root_eq, h'.root_eq, h.tree_eq h.rooted h.root, h'.tree_eq h.rooted h'.root, tree_of_site? hs,
    unfold_single, unfold_single, Unfolding.slot_of_none h.root, Unfolding.slot_of_none h'.root]
  refine .node trivial (h.reshaped h' (hbelow ▸ hd.shows_below c.root) fun y hy hframes => ?_) .nil
  rw [← hbelow] at hy
  have hmem := mem_ids_of_mem_descendants (mem_descendants_of_mem_below hy)
  have hparent := hd.isSome_parent?_of_mem_below hy
  exact hframes.elim (hshown y hmem · hparent) (hshown' y hmem · hparent)

end Xml.Document
end MailMerge
