import MailMerge.Part
import MailMerge.Proofs.Field.Planting
import MailMerge.Proofs.Xml.Gains

/-!
# Clean-up of documents with unfolded fields

Cells and sections are not unfolded, so that they get the same new elements in both of two documents
that are unfoldings of one another. What fields display is left as it is, but for elements that
are put into it. Main statement: `Session.cleanUp_adds`.
-/

namespace MailMerge

open Xml Xml.Forest Xml.Document Field

variable {d d' e e' : Document} {v v' : Unfolding} {a p x y z : NodeId} {f g : Forest}
variable {names : List String} {name : String} {node : Node} {old : List NodeId}

/-! ## What displays a text -/

theorem Xml.Forest.Gains.countP {new : NodeId → Node → Prop} {q : Node → Bool} (h : Forest.Gains new f g)
    (hq : ∀ y n, new y n → q n = false) :
    (g.nodes.countP fun entry => q entry.2) = f.nodes.countP fun entry => q entry.2 := by
  induction h with
  | nil => rfl
  | keep _ _ ihc ihr => simp only [Forest.nodes, List.countP_cons, List.countP_append, ihc, ihr]
  | @add id node children rest rest' hnew _ ih =>
    have hnone : ((single id node children).nodes.countP fun entry => q entry.2) = 0 :=
      List.countP_eq_zero.2 fun entry hentry => by simp [hq _ _ (hnew entry.1 entry.2 hentry)]
    have hnodes : (cons id node children rest').nodes = (single id node children).nodes ++ rest'.nodes := by
      simp [single, Forest.nodes]
    rw [hnodes, List.countP_append, hnone, ih, Nat.zero_add]

namespace Field

/-- A node that is neither markup of a field nor a text. -/
def Silent (node : Node) : Prop := isMarkup node = false ∧ node.isNamed "w:t" = false

instance : DecidablePred Silent := fun _ => inferInstanceAs (Decidable (_ ∧ _))

/-- What displays a text goes on doing so when other nodes are put into it. -/
theorem Display.gains {new : NodeId → Node → Prop} (h : Display f) (hg : Forest.Gains new f g)
    (hnew : ∀ y n, new y n → Silent n) (htops : g.topIds = f.topIds) : Display g := by
  obtain ⟨y, n, inner, rfl, h⟩ := h.exists_single
  obtain ⟨tag, rfl, hname, htext, hpure⟩ := h.elim
  cases hg with
  | @keep _ _ _ inner' _ rest' hinner _ =>
    obtain rfl : rest' = .nil := by
      cases rest' with
      | nil => rfl
      | cons => cases (List.cons.inj htops).2
    refine display_single hname ?_ fun entry hentry => ?_
    · rw [hinner.countP fun y n hn => (hnew y n hn).2]
      exact htext
    · exact (hinner.mem_nodes hentry).elim (hpure entry) fun hn => (hnew _ _ hn).1
  | @add id node children _ rest' _ hlater =>
    have hrest : rest'.topIds = [] := (List.cons.inj htops).2
    have hself := (hlater.tops_sublist.map Prod.fst).subset (List.mem_cons_self : y ∈ [y])
    change y ∈ rest'.topIds at hself
    rw [hrest] at hself
    cases hself

/-- What is unfolded goes on displaying a text when other nodes are put next to it. -/
theorem Shown.gains {new : NodeId → Node → Prop} (h : Shown v d) (hd : d.Distinct)
    (hgains : Document.Gains old new d d') (hold : old ⊆ d.ids) (hframed : ∀ z ∈ d'.ids, v.frame? z ≠ none → z ∈ old)
    (hnew : ∀ y n, new y n → y ∉ old ∧ Silent n)
    (hchildren : ∀ z ∈ old, v.frame? z ≠ none → (d.parent? z).isSome → d'.children z = d.children z) :
    Shown v d' := by
  have hd' := hgains.distinct
  intro z hz hframe hparent
  have hmem := hframed z hz hframe
  obtain ⟨y, hy⟩ := Option.isSome_iff_exists.1 hparent
  have hchild := hd'.mem_children_iff_parent?.2 hy
  have hbefore : (d.parent? z).isSome := by
    refine hd.isSome_parent?_of_mem_below (z := y) ?_
    by_cases hyold : y ∈ old
    · obtain ⟨s, hs⟩ := Document.exists_site? (hold hyold)
      obtain ⟨t, ht, -, hinner, -⟩ := hgains.site y hyold s hs
      rw [children_of_site? ht] at hchild
      rw [below_eq_site?, hs]
      exact (hinner.mem_ids fun n hn => (hnew z n hn).1 hmem).1 (mem_ids_of_mem_topIds hchild)
    · have hin := hgains.closed y hyold z hmem (mem_descendants_of_mem_children hchild)
      refine ((mem_descendants_iff_below (mem_ids_of_descendants hin)).1 hin).resolve_left ?_
      rintro rfl
      exact hyold hmem
  obtain ⟨s, hs⟩ := Document.exists_site? (hold hmem)
  obtain ⟨t, ht, -, hinner, -⟩ := hgains.site z hmem s hs
  have hdisplay := h z (hold hmem) hframe hbefore
  have hsame := hchildren z hmem hframe hbefore
  rw [children_of_site? ht, children_of_site? hs] at hsame
  rw [below_eq_site?, hs] at hdisplay
  rw [below_eq_site?, ht]
  exact hdisplay.gains hinner (fun y n hn => (hnew y n hn).2) hsame

/-! ## New elements -/

end Field

namespace Xml.Document

/-- A document and the one that it is unfolded to go on together: what was there is unfolded as it
was, and fields display what they did. -/
structure Unfolds.Adds (d : Document) (v v' : Unfolding) (d' e' : Document) : Prop where
  unfolds : d'.Unfolds v' e'
  agrees : Unfolding.Extends d.ids v v'
  ids : d.ids ⊆ d'.ids
  shown : Shown v' d'

theorem Unfolds.Adds.refl (h : d.Unfolds v e) (hshown : Shown v d) : Unfolds.Adds d v v d e :=
  ⟨h, .refl _ _, fun _ hx => hx, hshown⟩

theorem Unfolds.Adds.trans {v'' : Unfolding} {d'' e'' : Document} (h : Unfolds.Adds d v v' d' e')
    (h' : Unfolds.Adds d' v' v'' d'' e'') : Unfolds.Adds d v v'' d'' e'' :=
  ⟨h'.unfolds, h.agrees.trans h'.agrees h.ids, fun _ hx => h'.ids (h.ids hx), h'.shown⟩

/-! ## Children of a name -/

/-- The children of a node that are elements of one of several names. -/
def childrenNamed (d : Document) (x : NodeId) (names : List String) : List NodeId :=
  ((d.below x).tops.filter fun entry => names.any entry.2.isNamed).map Prod.fst

theorem childNamed?_eq_head? (d : Document) (x : NodeId) (name : String) :
    d.childNamed? x name = (d.childrenNamed x [name]).head? := by
  rw [childNamed?, childrenNamed, List.head?_map, List.head?_filter]
  simp

theorem Distinct.filter_elementChildren (hd : d.Distinct) (x : NodeId) (names : List String) :
    (d.elementChildren x).filter (fun y => names.any (d.isNamed y ·)) = d.childrenNamed x names := by
  rw [elementChildren, List.filter_map, List.filter_filter]
  refine congrArg _ (List.filter_congr fun entry hentry => ?_)
  have hnode := (hd.shows_below x).node? ((tops_sublist _).subset hentry)
  have hsame : names.any (d.isNamed entry.1 ·) = names.any entry.2.isNamed := by
    simp only [isNamed, name?, hnode]
    rfl
  rw [Function.comp_apply, hsame, Bool.and_eq_left_iff_imp]
  intro hany
  obtain ⟨name, -, hnamed⟩ := List.any_eq_true.1 hany
  exact isElement_of_isNamed hnamed

namespace Unfolds

/-- The children of some names are the same in both documents, as runs and simple fields are none of
them. -/
theorem childrenNamed_eq (h : d.Unfolds v e) (hshown : Shown v d) (hx : x ∈ d.ids)
    (hframe : v.frame? x = none) (names : List String) (hnames : ∀ name ∈ names, name ≠ "w:r" ∧ name ≠ "w:fldSimple") :
    e.childrenNamed (v.name x) names = (d.childrenNamed x names).map v.name := by
  have hd := h.distinct
  have hshows := hd.shows_below x
  have hnone : ∀ (node : Node) (other : String), node.isNamed other = true →
      (∀ name ∈ names, name ≠ other) → names.any node.isNamed = false := by
    intro node other hnamed hne
    refine List.any_eq_false.2 fun name hname => ?_
    rw [Field.isNamed_of_ne hnamed (hne name hname).symm]
    exact Bool.false_ne_true
  rw [childrenNamed, childrenNamed, h.below_eq hx hframe,
    filter_tops_unfold (q := fun node => names.any node.isNamed) hshows.nodup]
  · rw [List.map_map, List.map_map]
    rfl
  · intro y s hy hs before after hsome
    obtain ⟨t, ht, hnode, hchildren⟩ := hshows.has y s hs
    have hfield : d.node? y = some s.node := by rw [node?_eq_site?, ht, ← hnode]; rfl
    have hbelow : d.below y = s.children := by rw [below_eq_site?, ht, ← hchildren]; rfl
    have hdisplay := hshown y (mem_ids_of_site? ht) (by simp [hsome])
      (hd.isSome_parent?_of_mem_below (mem_ids_of_mem_topIds hy))
    have hfits := h.fits _ (mem_nodes_of_node? hfield) before after hsome
    refine ⟨hnone _ _ hfits.name fun name hname => (hnames name hname).2, fun entry hentry => ?_⟩
    refine hnone _ _ ?_ fun name hname => (hnames name hname).1
    rw [← hbelow] at hentry
    exact h.isNamed_run_of_slot (hd.shows_below y) hfits hdisplay hentry

/-- What has been found among the children of a node by some names is not unfolded. -/
theorem of_childrenNamed (h : d.Unfolds v e) (hnames : ∀ name ∈ names, name ≠ "w:fldSimple")
    (hy : y ∈ d.childrenNamed x names) :
    y ∈ d.ids ∧ v.frame? y = none ∧ ∃ name ∈ names, d.isNamed y name = true := by
  obtain ⟨⟨_, n⟩, hentry, rfl⟩ := List.mem_map.1 hy
  obtain ⟨htop, hany⟩ := List.mem_filter.1 hentry
  obtain ⟨name, hname, hnamed⟩ := List.any_eq_true.1 hany
  have hnode := (h.distinct.shows_below x).node? ((tops_sublist _).subset htop)
  refine ⟨isSome_node?_iff.1 (by rw [hnode]; rfl),
    h.frame?_of_node hnode (Field.isNamed_of_ne hnamed (hnames name hname)), name, hname, ?_⟩
  rw [isNamed, name?, hnode]
  exact hnamed

theorem childNamed?_eq (h : d.Unfolds v e) (hshown : Shown v d) (hx : x ∈ d.ids)
    (hframe : v.frame? x = none) (hname : name ≠ "w:r" ∧ name ≠ "w:fldSimple") :
    e.childNamed? (v.name x) name = (d.childNamed? x name).map v.name := by
  rw [childNamed?_eq_head?, childNamed?_eq_head?,
    h.childrenNamed_eq hshown hx hframe [name] (by simpa using hname), List.head?_map]

theorem of_childNamed? (h : d.Unfolds v e) (hname : name ≠ "w:fldSimple")
    (hy : d.childNamed? x name = some y) : y ∈ d.ids ∧ v.frame? y = none := by
  rw [childNamed?_eq_head?] at hy
  obtain ⟨hmem, hframe, -⟩ := h.of_childrenNamed (by simpa using hname) (List.mem_of_mem_head? hy)
  exact ⟨hmem, hframe⟩

end Unfolds

end Xml.Document

namespace Cleanup

section Create

variable (h : d.Unfolds v e) (hshown : Shown v d)
include h hshown

/-- A new element is made in both documents. -/
theorem create_adds (node : Node) :
    ∃ v', Unfolds.Adds d v v' (d.create node).2 (e.create node).2 ∧ v'.name d.next = e.next ∧
      v'.frame? d.next = none := by
  have hrows : ∀ c : Document, (c.create node).2.allRows.Perm
      ((single c.next node .nil).trees ++ c.allRows) := fun _ => .refl _
  obtain ⟨v', hext, hunfold, hnew, h'⟩ := h.grow_same (h.distinct.create node)
    (h.distinct'.create node) (create_grows d node) (create_grows e node) (hrows d) (hrows e) rfl
  have hframe : v'.frame? d.next = none := hnew _ List.mem_cons_self
  rw [unfold_single, Unfolding.slot_of_none hframe] at hunfold
  refine ⟨v', ⟨h', hext, List.subset_cons_self _ _, ?_⟩, (cons.inj hunfold).1, hframe⟩
  refine hshown.spares h.distinct (h.distinct.apart.create node) hext h' fun z hz hout hsome => ?_
  rw [(List.mem_cons.1 hz).resolve_right hout] at hsome
  exact absurd hframe hsome

omit hshown in
/-- A new element has been put next to or below a node of both documents, where no field displays
it. -/
theorem place_adds (hadds : Unfolds.Adds d v v' (d.create node).2 (e.create node).2)
    (hframe : v'.frame? d.next = none) (h' : d'.Unfolds v' e')
    (hgains : Document.Gains d.ids (fun y n => y ∉ d.ids ∧ Silent n) (d.create node).2 d')
    (hperm : d'.nodes.Perm (d.create node).2.nodes)
    (hchildren : ∀ z ∈ d.ids, v.frame? z ≠ none → (d.parent? z).isSome →
      d'.children z = d.children z) : Unfolds.Adds d v v' d' e' ∧ d.next ∈ d'.ids := by
  have hspares := h.distinct.apart.create node
  have hids : ∀ z, z ∈ d'.ids ↔ z ∈ (d.create node).2.ids := fun z => by
    rw [ids_eq_map_nodes, (hperm.map Prod.fst).mem_iff, ← ids_eq_map_nodes]
  refine ⟨⟨h', hadds.agrees, fun z hz => (hids z).2 (hadds.ids hz), ?_⟩, (hids _).2 List.mem_cons_self⟩
  refine hadds.shown.gains hadds.unfolds.distinct hgains (List.subset_cons_self _ _) (fun z hz hsome => ?_)
    (fun _ _ hn => hn) fun z hz hsome hparent => ?_
  · refine (List.mem_cons.1 ((hids z).1 hz)).resolve_left ?_
    rintro rfl
    exact hsome hframe
  · rw [hspares.children h.distinct hz]
    rw [← h.distinct.apart.parent?_eq hspares.apart hz] at hparent
    exact hchildren z hz (by rwa [← hadds.agrees.frame z hz]) hparent

omit hshown h in
theorem new_silent (hd : d.Distinct) (hsilent : Silent node) :
    ∀ y n, (y, n) ∈ ((d.create node).2.tree d.next).nodes → y ∉ d.ids ∧ Silent n := by
  have hrow : single d.next node .nil ∈ (d.create node).2.allRows := List.mem_cons_self
  have hsite := (hd.create node).site?_of_row hrow (List.mem_cons_self : d.next ∈ _)
  rw [single, Forest.site?, if_pos rfl] at hsite
  rw [tree_of_site? hsite]
  intro y n hn
  cases List.mem_singleton.1 hn
  exact ⟨hd.next_notMem, hsilent⟩

/-- A new element is put below the same node of both documents, which is not unfolded. -/
theorem addChild_adds (hp : p ∈ d.ids) (hframe : v.frame? p = none) (name : String)
    (hsilent : Silent (.element ⟨name, []⟩)) :
    ∃ v', Unfolds.Adds d v v' (addChild d p name).2 (addChild e (v.name p) name).2 ∧
      (addChild e (v.name p) name).1 = v'.name (addChild d p name).1 ∧
      v'.frame? (addChild d p name).1 = none ∧
      (addChild d p name).1 ∈ (addChild d p name).2.ids := by
  obtain ⟨v', hadds, hname, hnew⟩ := create_adds h hshown (.element ⟨name, []⟩)
  have hd := hadds.unfolds.distinct
  have hne : p ≠ d.next := Nat.ne_of_lt (h.distinct.numbered p hp)
  obtain ⟨d', e', hd', he', h'⟩ := hadds.unfolds.appendChild (x := d.next) (c := .nil) List.mem_cons_self
    hnew (hadds.ids hp) (by simpa [single] using hne) ((hadds.agrees.frame p hp).trans hframe)
  rw [hadds.agrees.name p hp, hname] at he'
  obtain ⟨-, hnone⟩ | ⟨_, hsome, hmoved⟩ := hd.relocates_appendChild (p := p) (x := d.next)
    List.mem_cons_self (hadds.ids hp)
  · rw [hd'] at hnone
    cases hnone
  obtain rfl := Option.some.inj (hd'.symm.trans hsome)
  have hspares := h.distinct.apart.create (.element ⟨name, []⟩)
  obtain ⟨hmade, hmem⟩ := place_adds h hadds hnew h'
    (hspares.apart.appendChild_gains (h.distinct.apart.create_free _) (List.Subset.refl _)
      (fun y hy n hn => hn.1 hy) (new_silent h.distinct hsilent) hd') hmoved.perm
    fun z hz hframed _ => by
      have hne : z ≠ p := fun heq => hframed (heq.symm ▸ hframe)
      rw [hmoved.children_appendChild hd, if_neg hne, hspares.children h.distinct hz,
        filter_ne_of_notMem (h.distinct.next_notMem_children z)]
  have hadd : addChild d p name = (d.next, d') := Prod.ext rfl (congrArg (Option.getD · _) hd')
  have hadd' : addChild e (v.name p) name = (e.next, e') :=
    Prod.ext rfl (congrArg (Option.getD · _) he')
  rw [hadd, hadd']
  exact ⟨v', hmade, hname.symm, hnew, hmem⟩

/-- A new element is put before the same node of both documents, which no field displays. -/
theorem insertBefore_adds (ha : a ∈ d.ids) (hframe : v.frame? a = none) (hname : d.isNamed a "w:r" = false)
    (node : Node) (hsilent : Silent node) :
    ∃ v' d' e', (d.create node).2.insertBefore a d.next = some d' ∧
      (e.create node).2.insertBefore (v.name a) e.next = some e' ∧
      Unfolds.Adds d v v' d' e' ∧ e.next = v'.name d.next ∧ v'.frame? d.next = none ∧ d.next ∈ d'.ids := by
  obtain ⟨v', hadds, hnext, hnew⟩ := create_adds h hshown node
  have hd := hadds.unfolds.distinct
  have hne : a ≠ d.next := Nat.ne_of_lt (h.distinct.numbered a ha)
  obtain ⟨d', e', hd', he', h'⟩ := hadds.unfolds.insertBefore (x := d.next) (c := .nil) List.mem_cons_self
    hnew (hadds.ids ha) (by simpa [single] using hne) ((hadds.agrees.frame a ha).trans hframe)
  rw [hadds.agrees.name a ha, hnext] at he'
  obtain ⟨-, hnone⟩ | ⟨_, hsome, hmoved⟩ := hd.relocates_insertBefore (x := d.next)
    List.mem_cons_self (hadds.ids ha)
  · rw [hd'] at hnone
    cases hnone
  obtain rfl := Option.some.inj (hd'.symm.trans hsome)
  have hspares := h.distinct.apart.create node
  obtain ⟨hmade, hmem⟩ := place_adds h hadds hnew h'
    (hspares.apart.insertBefore_gains (h.distinct.apart.create_free _) (List.Subset.refl _)
      (fun y hy n hn => hn.1 hy) (new_silent h.distinct hsilent) hd') hmoved.perm
    fun z hz hsome hparent => by
      rw [hmoved.children_insertBefore hd, hspares.children h.distinct hz,
        filter_ne_of_notMem (h.distinct.next_notMem_children z),
        putBefore_of_notMem ((hshown z hz hsome hparent).notMem_children h.distinct hname)]
  exact ⟨v', d', e', hd', he', hmade, hnext.symm, hnew, hmem⟩

end Create

variable (h : d.Unfolds v e) (hshown : Shown v d)
include h hshown

/-! ## Cells -/

theorem fillCell_adds (hx : x ∈ d.ids) (hframe : v.frame? x = none) :
    ∃ v', Unfolds.Adds d v v' (fillCell d x) (fillCell e (v.name x)) := by
  unfold fillCell
  rw [h.childNamed?_eq hshown hx hframe (by decide)]
  cases d.childNamed? x "w:p" with
  | some y => exact ⟨v, .refl h hshown⟩
  | none =>
    obtain ⟨v', hadds, -⟩ := addChild_adds h hshown hx hframe "w:p" (by decide)
    exact ⟨v', hadds⟩

theorem foldl_fillCell_adds {xs : List NodeId} (hxs : ∀ x ∈ xs, x ∈ d.ids ∧ v.frame? x = none) :
    ∃ v', Unfolds.Adds d v v' (xs.foldl fillCell d) ((xs.map v.name).foldl fillCell e) := by
  induction xs generalizing d e v with
  | nil => exact ⟨v, .refl h hshown⟩
  | cons x xs ih =>
    rw [List.forall_mem_cons] at hxs
    obtain ⟨v₁, hfirst⟩ := fillCell_adds h hshown hxs.1.1 hxs.1.2
    obtain ⟨v₂, hlater⟩ := ih hfirst.unfolds hfirst.shown fun y hy =>
      ⟨hfirst.ids (hxs.2 y hy).1, (hfirst.agrees.frame y (hxs.2 y hy).1).trans (hxs.2 y hy).2⟩
    have hnames : xs.map v.name = xs.map v₁.name :=
      List.map_congr_left fun y hy => (hfirst.agrees.name y (hxs.2 y hy).1).symm
    rw [List.map_cons, List.foldl_cons, List.foldl_cons, hnames]
    exact ⟨v₂, hfirst.trans hlater⟩

theorem fillCells_adds : ∃ v', Unfolds.Adds d v v' (fillCells d) (fillCells e) := by
  rw [fillCells, fillCells, h.root_eq, h.findAll_eq h.rooted h.root (by decide) (by decide) (by decide)]
  exact foldl_fillCell_adds h hshown fun x hx => h.of_mem_findAll (by decide) hx

/-! ## The first page number -/

theorem lastSection_adds (hx : x ∈ d.ids) (hframe : v.frame? x = none) :
    ∃ v', Unfolds.Adds d v v' (lastSection d x).2 (lastSection e (v.name x)).2 ∧
      (lastSection e (v.name x)).1 = v'.name (lastSection d x).1 ∧
      v'.frame? (lastSection d x).1 = none ∧ (lastSection d x).1 ∈ (lastSection d x).2.ids := by
  have hfilter : ∀ c : Document, c.Distinct → ∀ y,
      (c.elementChildren y).filter (c.isNamed · "w:sectPr") = c.childrenNamed y ["w:sectPr"] := by
    intro c hc y
    rw [← hc.filter_elementChildren]
    simp
  have hsections := h.childrenNamed_eq hshown hx hframe ["w:sectPr"] (by decide)
  unfold lastSection
  rw [hfilter d h.distinct, hfilter e h.distinct', hsections, List.getLast?_map]
  cases hlast : (d.childrenNamed x ["w:sectPr"]).getLast? with
  | some y =>
    obtain ⟨hmem, hnone, -⟩ := h.of_childrenNamed (by decide) (List.mem_of_getLast? hlast)
    exact ⟨v, .refl h hshown, rfl, hnone, hmem⟩
  | none => exact addChild_adds h hshown hx hframe "w:sectPr" (by decide)

theorem pageNumber_adds (hx : x ∈ d.ids) (hframe : v.frame? x = none) :
    ∃ v', Unfolds.Adds d v v' (pageNumber d x).2 (pageNumber e (v.name x)).2 ∧
      (pageNumber e (v.name x)).1 = v'.name (pageNumber d x).1 ∧
      v'.frame? (pageNumber d x).1 = none ∧ (pageNumber d x).1 ∈ (pageNumber d x).2.ids := by
  have hfind : ∀ c : Document, c.Distinct → ∀ y,
      laterProperty? c y = (c.childrenNamed y laterProperties).head? := by
    intro c hc y
    rw [laterProperty?, ← hc.filter_elementChildren, List.head?_filter]
  have hlaters := h.childrenNamed_eq hshown hx hframe laterProperties (by decide)
  unfold pageNumber
  rw [h.childNamed?_eq hshown hx hframe (by decide), hfind d h.distinct, hfind e h.distinct', hlaters,
    List.head?_map]
  cases hnumber : d.childNamed? x "w:pgNumType" with
  | some y =>
    obtain ⟨hmem, hnone⟩ := h.of_childNamed? (by decide) hnumber
    exact ⟨v, .refl h hshown, rfl, hnone, hmem⟩
  | none =>
    cases hlater : (d.childrenNamed x laterProperties).head? with
    | none => exact addChild_adds h hshown hx hframe "w:pgNumType" (by decide)
    | some a =>
      obtain ⟨hmem, hnone, name, hname, hnamed⟩ :=
        h.of_childrenNamed (by decide) (List.mem_of_mem_head? hlater)
      have hrun : d.isNamed a "w:r" = false :=
        Document.isNamed_of_ne hnamed fun heq => absurd (heq ▸ hname) (by decide)
      obtain ⟨v', d', e', hd', he', hadds, hnew⟩ := insertBefore_adds h hshown hmem hnone hrun
        (.element ⟨"w:pgNumType", []⟩) (by decide)
      simp only [createElement, Option.map_none, Option.map_some]
      have hfst : ∀ c : Document, (c.create (.element ⟨"w:pgNumType", []⟩)).1 = c.next := fun _ => rfl
      rw [hfst, hfst, hd', he']
      exact ⟨v', hadds, hnew⟩

theorem update_adds (hx : x ∈ d.ids) (hframe : v.frame? x = none) (change : Node → Node)
    (hchange : ∀ n name, (change n).isNamed name = n.isNamed name) :
    Unfolds.Adds d v v (d.update x change) (e.update (v.name x) change) := by
  refine ⟨h.update hx hframe change, .refl _ _, fun y hy => (update_ids d x change).symm ▸ hy, ?_⟩
  intro y hy hsome hparent
  rw [update_ids] at hy
  rw [h.distinct.parent?_update] at hparent
  rw [below_update]
  exact (hshown y hy hsome hparent).update hchange

theorem setStartPage_adds (n : Nat) :
    ∃ v', Unfolds.Adds d v v' (setStartPage n d) (setStartPage n e) := by
  unfold setStartPage
  rw [h.root_eq, h.childNamed?_eq hshown h.rooted h.root (by decide)]
  cases hbody : d.childNamed? d.root "w:body" with
  | none => exact ⟨v, .refl h hshown⟩
  | some body =>
    obtain ⟨hmem, hframe⟩ := h.of_childNamed? (by decide) hbody
    obtain ⟨v₁, hsection, hname₁, hframe₁, hmem₁⟩ := lastSection_adds h hshown hmem hframe
    obtain ⟨v₂, hnumber, hname₂, hframe₂, hmem₂⟩ :=
      pageNumber_adds hsection.unfolds hsection.shown hmem₁ hframe₁
    have hset := update_adds hnumber.unfolds hnumber.shown hmem₂ hframe₂
      (Node.mapElement (·.setAttribute "w:start" (toString n))) (Node.isNamed_mapElement fun _ => rfl)
    rw [← hname₁] at hnumber hname₂ hset
    rw [← hname₂] at hset
    exact ⟨v₂, hsection.trans (hnumber.trans hset)⟩

end Cleanup

/-- A document and the one that it is unfolded to are cleaned up in the same way. -/
theorem Session.cleanUp_adds (h : d.Unfolds v e) (hshown : Shown v d) (kind : PartKind)
    (startPage? : Option Nat) :
    ∃ v', Unfolds.Adds d v v' (cleanUp kind startPage? d) (cleanUp kind startPage? e) := by
  cases kind with
  | headerFooter => exact ⟨v, .refl h hshown⟩
  | document =>
    obtain ⟨v₁, hcells⟩ := Cleanup.fillCells_adds h hshown
    cases startPage? with
    | none => exact ⟨v₁, hcells⟩
    | some n =>
      obtain ⟨v₂, hpage⟩ := Cleanup.setStartPage_adds hcells.unfolds hcells.shown n
      exact ⟨v₂, hcells.trans hpage⟩

end MailMerge
