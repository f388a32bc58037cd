import MailMerge.Proofs.Field.Edits

/-!
# New rows in documents with unfolded fields

Copies of the same nodes can be made in both of two documents that are unfoldings of one another, and
rows read from the same markup can be added to both. The new rows then are unfoldings of one another
as well, under an unfolding that goes on from the one before (`Unfolds.grow`).
-/

namespace MailMerge

open Xml Xml.Forest

/-! ## Frames without identities -/

namespace Field

variable {item item' run f before after : Forest} {kind instruction : String} {node : Node}

theorem idle_of_bare {g : Forest} (h : g.bare = f.bare) (hf : idle f = true) : idle g = true := by
  have hall : ∀ k : Forest, idle k =
      (k.nodes.map Prod.snd).all fun n => landmarks.all fun name => !n.isNamed name := fun k => by
    rw [idle, List.all_map]
    rfl
  rwa [hall, payloads_eq_of_bare h, ← hall]

theorem Run.of_bare {run' : Forest} (hrun : Run item run) (h : run'.bare = run.bare) :
    ∃ item', item'.bare = item.bare ∧ Run item' run' := by
  cases hrun with
  | mk name hbefore hafter =>
    obtain ⟨x, c, r, rfl, hc, hr⟩ := exists_cons_of_bare h
    cases eq_nil_of_bare hr
    obtain ⟨f, g, rfl, hf, hg⟩ := exists_append_of_bare hc
    obtain ⟨item', k, rfl, hitem, hk⟩ := exists_append_of_bare hg
    exact ⟨item', hitem, .mk name (idle_of_bare hf hbefore) (idle_of_bare hk hafter)⟩

theorem MarkerRun.of_bare {run' : Forest} (hrun : MarkerRun kind run) (h : run'.bare = run.bare) :
    MarkerRun kind run' := by
  cases hrun with
  | mk marker hidle holds =>
    obtain ⟨item, hitem, hholds⟩ := holds.of_bare h
    obtain ⟨m, c, r, rfl, hc, hr⟩ := exists_cons_of_bare hitem
    cases eq_nil_of_bare hr
    exact .mk marker (idle_of_bare hc hidle) hholds

theorem InstructionRuns.of_bare (hruns : InstructionRuns instruction f) {g : Forest}
    (h : g.bare = f.bare) : InstructionRuns instruction g := by
  induction hruns generalizing g with
  | last name hidle holds =>
    obtain ⟨item, hitem, hholds⟩ := holds.of_bare h
    obtain ⟨m, c, r, rfl, hc, hr⟩ := exists_cons_of_bare hitem
    cases eq_nil_of_bare hr
    rw [← text_bare, ← hc, text_bare]
    exact .last name (idle_of_bare hc hidle) hholds
  | cons name hidle holds _ ih =>
    obtain ⟨run, runs, rfl, hrun, hruns⟩ := exists_append_of_bare h
    obtain ⟨item, hitem, hholds⟩ := holds.of_bare hrun
    obtain ⟨m, c, r, rfl, hc, hr⟩ := exists_cons_of_bare hitem
    cases eq_nil_of_bare hr
    rw [← text_bare, ← hc, text_bare]
    exact .cons name (idle_of_bare hc hidle) hholds (ih hruns)

theorem Fits.of_bare (hfits : Fits node before after) {f g : Forest} (hf : f.bare = before.bare)
    (hg : g.bare = after.bare) : Fits node f g := by
  obtain ⟨instruction, hinstruction, hframe⟩ := hfits.frame
  refine ⟨hfits.name, instruction, hinstruction, ?_⟩
  cases hframe with
  | mk begins instructs separates ends =>
    obtain ⟨first, more, rfl, hfirst, hmore⟩ := exists_append_of_bare hf
    obtain ⟨pieces, separator, rfl, hpieces, hseparator⟩ := exists_append_of_bare hmore
    exact .mk (begins.of_bare hfirst) (instructs.of_bare hpieces) (separates.of_bare hseparator)
      (ends.of_bare hg)

end Field

namespace Xml

variable {u v w : Unfolding} {f g row : Forest} {x y : NodeId} {d e d' e' : Document}

namespace Unfolding

/-- All nodes of a row that are unfolded are simple fields that say the same as their frames. -/
def FitsIn (u : Unfolding) (f : Forest) : Prop :=
  ∀ entry ∈ f.nodes, ∀ before after, u.frame? entry.1 = some (before, after) →
    Field.Fits entry.2 before after

/-- What becomes of some nodes is decided by one unfolding, and of the others by another one. -/
def choose (xs : List NodeId) (u v : Unfolding) : Unfolding where
  name x := if x ∈ xs then u.name x else v.name x
  frame? x := if x ∈ xs then u.frame? x else v.frame? x

/-- A later unfolding does the same with some nodes. -/
structure Extends (xs : List NodeId) (u v : Unfolding) : Prop where
  name : ∀ x ∈ xs, v.name x = u.name x
  frame : ∀ x ∈ xs, v.frame? x = u.frame? x

namespace Extends

variable {xs ys : List NodeId}

theorem refl (xs : List NodeId) (u : Unfolding) : Extends xs u u := ⟨fun _ _ => rfl, fun _ _ => rfl⟩

theorem trans (h : Extends xs u v) (h' : Extends ys v w) (hsub : xs ⊆ ys) : Extends xs u w where
  name x hx := (h'.name x (hsub hx)).trans (h.name x hx)
  frame x hx := (h'.frame x (hsub hx)).trans (h.frame x hx)

theorem unfold (h : Extends xs u v) (hf : f.ids ⊆ xs) : f.unfold v = f.unfold u :=
  unfold_congr (fun y hy => h.name y (hf hy)) fun y hy => h.frame y (hf hy)

end Extends

theorem extends_choose (xs : List NodeId) (u v : Unfolding) : Extends xs u (choose xs u v) :=
  ⟨fun _ hx => if_pos hx, fun _ hx => if_pos hx⟩

theorem unfold_choose_right {xs : List NodeId} (hf : ∀ y ∈ f.ids, y ∉ xs) :
    f.unfold (choose xs u v) = f.unfold v :=
  unfold_congr (fun y hy => if_neg (hf y hy)) fun y hy => if_neg (hf y hy)

end Unfolding

/-! ## Rows that are the same but for identities -/

theorem Unfolding.FitsIn.congr (h : u.FitsIn f) (hframe : ∀ x ∈ f.ids, v.frame? x = u.frame? x) :
    v.FitsIn f := fun entry hentry before after hsome =>
  h entry hentry before after ((hframe _ (List.mem_map_of_mem hentry)).symm.trans hsome)

theorem Unfolding.FitsIn.of_cons {node : Node} {children : Forest}
    (h : u.FitsIn (cons x node children f)) : u.FitsIn children ∧ u.FitsIn f :=
  ⟨fun entry hentry => h entry (List.mem_cons_of_mem _ (List.mem_append_left _ hentry)),
    fun entry hentry => h entry (List.mem_cons_of_mem _ (List.mem_append_right _ hentry))⟩

/-- What becomes of the first node of a row, of its children and of the rest can be told apart. -/
theorem Forest.exists_unfolding_cons {node : Node} {c r : Forest} (hf : (cons y node c r).ids.Nodup) (name : NodeId)
    (frame? : Option (Forest × Forest)) (u v : Unfolding) :
    ∃ w : Unfolding, (cons y node c r).unfold w =
        Unfolding.slot ⟨fun _ => name, fun _ => frame?⟩ y node (c.unfold u) ++ r.unfold v ∧
      w.frame? y = frame? ∧ (∀ z ∈ c.ids, w.frame? z = u.frame? z) ∧
      ∀ z ∈ r.ids, w.frame? z = v.frame? z := by
  obtain ⟨hyc, hyr, -, -, hdisj⟩ := nodup_cons_iff.1 hf
  let w := Unfolding.choose [y] ⟨fun _ => name, fun _ => frame?⟩ (.choose c.ids u v)
  have hframe : w.frame? y = frame? := if_pos (List.mem_singleton_self y)
  have hname : w.name y = name := if_pos (List.mem_singleton_self y)
  have hout : ∀ z, z ≠ y → z ∉ [y] := fun z hne hmem => hne (List.mem_singleton.1 hmem)
  have hframec : ∀ z ∈ c.ids, w.frame? z = u.frame? z := fun z hz =>
    (if_neg (hout z fun heq => hyc (heq ▸ hz))).trans (if_pos hz)
  have hframer : ∀ z ∈ r.ids, w.frame? z = v.frame? z := fun z hz =>
    (if_neg (hout z fun heq => hyr (heq ▸ hz))).trans (if_neg fun hin => hdisj z hin hz)
  have hnamec : ∀ z ∈ c.ids, w.name z = u.name z := fun z hz =>
    (if_neg (hout z fun heq => hyc (heq ▸ hz))).trans (if_pos hz)
  have hnamer : ∀ z ∈ r.ids, w.name z = v.name z := fun z hz =>
    (if_neg (hout z fun heq => hyr (heq ▸ hz))).trans (if_neg fun hin => hdisj z hin hz)
  refine ⟨w, ?_, hframe, hframec, hframer⟩
  rw [unfold_cons, unfold_congr hnamec hframec, unfold_congr hnamer hframer, Unfolding.slot,
    hframe, hname]
  rfl

theorem Unfolding.FitsIn.cons {node : Node} {c r : Forest} (hc : u.FitsIn c) (hr : v.FitsIn r)
    (hx : ∀ before after, w.frame? y = some (before, after) → Field.Fits node before after)
    (hframec : ∀ z ∈ c.ids, w.frame? z = u.frame? z) (hframer : ∀ z ∈ r.ids, w.frame? z = v.frame? z) :
    w.FitsIn (cons y node c r) := by
  intro entry hentry before after hsome
  rw [Forest.nodes, List.mem_cons, List.mem_append] at hentry
  rcases hentry with rfl | hentry | hentry
  · exact hx before after hsome
  · exact hc.congr hframec entry hentry before after hsome
  · exact hr.congr hframer entry hentry before after hsome

/-- A row that is the same as an unfolded one is unfolded from any row that is the same as the one
from which that one is unfolded. -/
theorem Forest.exists_unfolding {f' g' : Forest} (hf' : f'.ids.Nodup) (hbare : f'.bare = f.bare)
    (hbare' : g'.bare = (f.unfold u).bare) (hfits : u.FitsIn f) :
    ∃ v : Unfolding, f'.unfold v = g' ∧ v.FitsIn f' ∧
      ((∀ t ∈ f.topIds, u.frame? t = none) → ∀ t ∈ f'.topIds, v.frame? t = none) ∧
      ((∀ z ∈ f.ids, u.frame? z = none) → ∀ z ∈ f'.ids, v.frame? z = none) := by
  induction f generalizing f' g' with
  | nil =>
    cases eq_nil_of_bare hbare
    cases eq_nil_of_bare hbare'
    exact ⟨u, rfl, nofun, nofun, nofun⟩
  | cons x node children rest ihc ihr =>
    obtain ⟨y, c, r, rfl, hc, hr⟩ := exists_cons_of_bare hbare
    obtain ⟨-, -, hcNodup, hrNodup, -⟩ := nodup_cons_iff.1 hf'
    rw [unfold_cons] at hbare'
    obtain ⟨slot, later, rfl, hslot, hlater⟩ := exists_append_of_bare hbare'
    obtain ⟨hfitsc, hfitsr⟩ := hfits.of_cons
    obtain ⟨vr, rfl, hvr, htops, hallr⟩ := ihr hrNodup hr hlater hfitsr
    -- What becomes of the first node is decided by its slot, of its children by theirs.
    have hmade : ∃ (name : NodeId) (frame? : Option (Forest × Forest)) (vc : Unfolding),
        slot = Unfolding.slot ⟨fun _ => name, fun _ => frame?⟩ y node (c.unfold vc) ∧
          vc.FitsIn c ∧ (∀ before after, frame? = some (before, after) →
            Field.Fits node before after) ∧ (u.frame? x = none → frame? = none) ∧
          ((∀ z ∈ children.ids, u.frame? z = none) → ∀ z ∈ c.ids, vc.frame? z = none) := by
      cases hframe : u.frame? x with
      | none =>
        rw [Unfolding.slot_of_none hframe] at hslot
        obtain ⟨z, k, l, rfl, hk, hl⟩ := exists_cons_of_bare hslot
        cases eq_nil_of_bare hl
        obtain ⟨vc, rfl, hvc, -, hall⟩ := ihc hcNodup hc hk hfitsc
        exact ⟨z, none, vc, rfl, hvc, nofun, fun _ => rfl, hall⟩
      | some frame =>
        obtain ⟨before, after⟩ := frame
        rw [Unfolding.slot_of_some hframe] at hslot
        obtain ⟨before', more, rfl, hbefore, hmore⟩ := exists_append_of_bare hslot
        obtain ⟨k, after', rfl, hk, hafter⟩ := exists_append_of_bare hmore
        obtain ⟨vc, rfl, hvc, -, hall⟩ := ihc hcNodup hc hk hfitsc
        refine ⟨0, some (before', after'), vc, rfl, hvc, fun _ _ heq => ?_, nofun, hall⟩
        cases heq
        exact (hfits _ List.mem_cons_self before after hframe).of_bare hbefore hafter
    obtain ⟨name, frame?, vc, rfl, hvc, hfitsx, hnone, hallc⟩ := hmade
    obtain ⟨v, hunfold, hframey, hframec, hframer⟩ := exists_unfolding_cons hf' name frame? vc vr
    refine ⟨v, hunfold, hvc.cons hvr (fun before after hsome => hfitsx before after ?_) hframec hframer,
      fun hall t ht => ?_, fun hall z hz => ?_⟩
    · rw [← hframey, hsome]
    · rw [topIds_cons] at hall
      rw [topIds_cons, List.mem_cons] at ht
      rcases ht with rfl | ht
      · rw [hframey]
        exact hnone (hall x List.mem_cons_self)
      · rw [hframer t (mem_ids_of_mem_topIds ht)]
        exact htops (fun z hz => hall z (List.mem_cons_of_mem _ hz)) t ht
    · simp only [ids_cons, List.mem_cons, List.mem_append] at hall hz
      rcases hz with rfl | hz | hz
      · rw [hframey]
        exact hnone (hall x (.inl rfl))
      · rw [hframec z hz]
        exact hallc (fun z hz => hall z (.inr (.inl hz))) z hz
      · rw [hframer z hz]
        exact hallr (fun z hz => hall z (.inr (.inr hz))) z hz

/-! ## New rows -/

theorem Forest.flatMap_nodes_trees (f : Forest) : f.trees.flatMap Forest.nodes = f.nodes := by
  induction f with
  | nil => rfl
  | cons x node children rest _ ih =>
    rw [trees, List.flatMap_cons, ih, single, nodes, nodes, nodes, List.append_nil, List.cons_append]

/-- Trees that stand alone, as lots. -/
def aloneLots (trees : List Forest) : List Lot := trees.map fun tree => ⟨none, tree⟩

/-- Trees the first nodes of which are not unfolded. -/
def Unfolding.KeepsTops (u : Unfolding) (trees : List Forest) : Prop :=
  ∀ tree ∈ trees, ∃ x node children, tree = single x node children ∧ u.frame? x = none

theorem Unfolding.KeepsTops.trees (htops : ∀ t ∈ row.topIds, u.frame? t = none) :
    u.KeepsTops row.trees := by
  induction row with
  | nil => exact nofun
  | cons x node children rest _ ih =>
    rw [topIds_cons, List.forall_mem_cons] at htops
    exact List.forall_mem_cons.2 ⟨⟨x, node, children, rfl, htops.1⟩, ih htops.2⟩

variable {trees : List Forest}

theorem Lot.plain_alone (h : u.KeepsTops trees) : (aloneLots trees).flatMap Lot.plain = trees := by
  rw [aloneLots, List.flatMap_map]
  refine (List.flatMap_congr fun tree htree => ?_).trans (List.flatMap_singleton' _)
  obtain ⟨x, node, children, rfl, -⟩ := h tree htree
  rfl

theorem Lot.unfolded_alone (h : u.KeepsTops trees) :
    (aloneLots trees).flatMap (Lot.unfolded u) = trees.map (unfold u) := by
  rw [aloneLots, List.flatMap_map, List.map_eq_flatMap]
  refine List.flatMap_congr fun tree htree => ?_
  obtain ⟨x, node, children, rfl, hframe⟩ := h tree htree
  rw [Lot.unfolded_tree hframe, unfold_single, Unfolding.slot_of_none hframe]

theorem Lot.sound_alone (h : u.KeepsTops trees) {lot : Lot} (hlot : lot ∈ aloneLots trees) :
    lot.Sound u := by
  obtain ⟨tree, htree, rfl⟩ := List.mem_map.1 hlot
  obtain ⟨x, node, children, rfl, hframe⟩ := h tree htree
  exact Lot.sound_tree hframe _ _

theorem Forest.trees_unfold (h : ∀ t ∈ row.topIds, u.frame? t = none) :
    (row.unfold u).trees = row.trees.map (unfold u) := by
  induction row with
  | nil => rfl
  | cons x node children rest _ ih =>
    rw [topIds_cons, List.forall_mem_cons] at h
    rw [unfold_cons, Unfolding.slot_of_none h.1, trees, List.map_cons, unfold_single,
      Unfolding.slot_of_none h.1, ← ih h.2]
    rfl

theorem Lots.congr {rows rows' : List Forest} {lots : List Lot} (h : Lots u rows rows' lots)
    (hext : Unfolding.Extends (rows.flatMap Forest.ids) u v) : Lots v rows rows' lots := by
  have hids : ∀ {x : NodeId} {lot : Lot}, lot ∈ lots → x ∈ lot.plain.flatMap Forest.ids →
      x ∈ rows.flatMap Forest.ids := fun hlot hx => by
    rw [(h.plain.flatMap_right Forest.ids).mem_iff, List.flatMap_assoc]
    exact List.mem_flatMap.2 ⟨_, hlot, hx⟩
  have hinner : ∀ lot ∈ lots, lot.inner.ids ⊆ rows.flatMap Forest.ids := fun lot hlot x hx => by
    refine hids hlot ?_
    rw [Lot.plain_of_mem hx, List.flatMap_singleton]
    obtain ⟨husk?, f⟩ := lot
    cases husk? with
    | none => exact hx
    | some entry =>
      change x ∈ (cons entry.1 entry.2 f nil).ids
      rw [ids_cons]
      exact List.mem_cons_of_mem _ (List.mem_append_left _ hx)
  have hhusk : ∀ lot ∈ lots, ∀ entry ∈ lot.husk?, v.frame? entry.1 = u.frame? entry.1 :=
    fun lot hlot entry hentry => by
      refine hext.frame _ (hids hlot ?_)
      obtain ⟨husk?, f⟩ := lot
      cases hentry
      exact List.mem_flatMap.2 ⟨_, List.mem_singleton_self _, List.mem_cons_self⟩
  refine ⟨h.plain, ?_, fun lot hlot => ⟨fun entry hentry => ?_, fun t ht => ?_⟩⟩
  · refine h.unfolded.trans (.of_eq ?_)
    refine List.flatMap_congr fun lot hlot => ?_
    rw [Lot.unfolded, Lot.unfolded, hext.unfold (hinner lot hlot), Lot.scraps, Lot.scraps]
    have hbind : (lot.husk?.bind fun entry => v.frame? entry.1) =
        lot.husk?.bind fun entry => u.frame? entry.1 :=
      Option.bind_congr fun entry hentry => hhusk lot hlot entry hentry
    rw [hbind]
  · rw [hhusk lot hlot entry hentry]
    exact (h.sound lot hlot).husk entry hentry
  · rw [hext.frame t (hinner lot hlot (mem_ids_of_mem_topIds ht))]
    exact (h.sound lot hlot).tops t ht

namespace Document.Unfolds

theorem congr (h : d.Unfolds u e) (hext : Unfolding.Extends d.ids u v) : d.Unfolds v e where
  distinct := h.distinct
  distinct' := h.distinct'
  rooted := h.rooted
  root := (hext.frame _ h.rooted).trans h.root
  root_eq := h.root_eq.trans (hext.name _ h.rooted).symm
  declaration_eq := h.declaration_eq
  fits entry hentry before after hframe := by
    have hx : entry.1 ∈ d.ids := by
      rw [ids_eq_map_nodes]
      exact List.mem_map_of_mem hentry
    exact h.fits entry hentry before after ((hext.frame _ hx).symm.trans hframe)
  lots := by
    obtain ⟨lots, hlots⟩ := h.lots
    exact ⟨lots, hlots.congr hext⟩

/-- New rows that are the same but for unfolded nodes can be added to both documents. -/
theorem grow (h : d.Unfolds u e) (hd : d'.Distinct) (he : e'.Distinct) (hgrows : d.Grows d')
    (hgrows' : e.Grows e') {f' g' : Forest} (hrows : d'.allRows.Perm (f'.trees ++ d.allRows))
    (hrows' : e'.allRows.Perm (g'.trees ++ e.allRows)) (hbare : f'.bare = f.bare)
    (hbare' : g'.bare = (f.unfold w).bare) (hfits : w.FitsIn f)
    (htops : ∀ t ∈ f.topIds, w.frame? t = none) :
    ∃ v, Unfolding.Extends d.ids u v ∧ f'.unfold v = g' ∧ (∀ t ∈ f'.topIds, v.frame? t = none) ∧
      ((∀ z ∈ f.ids, w.frame? z = none) → ∀ z ∈ f'.ids, v.frame? z = none) ∧
      d'.Unfolds v e' := by
  have hids := (hrows.flatMap_right Forest.ids).nodup_iff.1 hd.nodup
  rw [List.flatMap_append, Forest.flatMap_ids_trees] at hids
  obtain ⟨hf', -, hdisj⟩ := List.nodup_append.1 hids
  have hout : ∀ y ∈ f'.ids, y ∉ d.ids := fun y hy hin => hdisj y hy y hin rfl
  obtain ⟨w', rfl, hfits', htops', hall⟩ := exists_unfolding hf' hbare hbare' hfits
  have htops' := htops' htops
  -- Old nodes are unfolded as before, and new ones by the unfolding that makes the new rows.
  have hext := Unfolding.extends_choose d.ids u w'
  have hunfold := Unfolding.unfold_choose_right (u := u) (v := w') hout
  have hframe : ∀ y ∈ f'.ids, (Unfolding.choose d.ids u w').frame? y = w'.frame? y :=
    fun y hy => if_neg (hout y hy)
  generalize Unfolding.choose d.ids u w' = v at hext hunfold hframe
  have htopsv : ∀ t ∈ f'.topIds, v.frame? t = none := fun t ht =>
    (hframe t (mem_ids_of_mem_topIds ht)).trans (htops' t ht)
  have hold := h.congr hext
  obtain ⟨lots, hlots⟩ := hold.lots
  refine ⟨v, hext, hunfold, htopsv, fun hplain z hz => (hframe z hz).trans (hall hplain z hz),
    hd, he, ?_, ?_, ?_, ?_, fun entry hentry => ?_,
    aloneLots f'.trees ++ lots, ?_, ?_, fun lot hlot => ?_⟩
  · rw [hgrows.root]
    exact (hrows.flatMap_right Forest.ids).mem_iff.2
      (by rw [List.flatMap_append]; exact List.mem_append_right _ h.rooted)
  · rw [hgrows.root, hold.root]
  · rw [hgrows'.root, hgrows.root, hold.root_eq]
  · rw [hgrows'.declaration, hgrows.declaration, hold.declaration_eq]
  · have hentry := (hrows.flatMap_right Forest.nodes).mem_iff.1 hentry
    rw [List.flatMap_append, flatMap_nodes_trees, List.mem_append] at hentry
    exact hentry.elim (hfits'.congr hframe entry) (hold.fits entry)
  · rw [List.flatMap_append, Lot.plain_alone (.trees htopsv)]
    exact hrows.trans (hlots.plain.append_left _)
  · rw [List.flatMap_append, Lot.unfolded_alone (.trees htopsv), ← trees_unfold htopsv, hunfold]
    exact hrows'.trans (hlots.unfolded.append_left _)
  · rcases List.mem_append.1 hlot with hlot | hlot
    · exact Lot.sound_alone (.trees htopsv) hlot
    · exact hlots.sound lot hlot

/-- New rows that are the same can be added to both documents. -/
theorem grow_same (h : d.Unfolds u e) (hd : d'.Distinct) (he : e'.Distinct) (hgrows : d.Grows d')
    (hgrows' : e.Grows e') {f' g' : Forest} (hrows : d'.allRows.Perm (f'.trees ++ d.allRows))
    (hrows' : e'.allRows.Perm (g'.trees ++ e.allRows)) (hbare : g'.bare = f'.bare) :
    ∃ v, Unfolding.Extends d.ids u v ∧ f'.unfold v = g' ∧ (∀ z ∈ f'.ids, v.frame? z = none) ∧
      d'.Unfolds v e' := by
  have hplain : ∀ z ∈ f'.ids, Unfolding.frame? ⟨id, fun _ => none⟩ z = none := fun _ _ => rfl
  obtain ⟨v, hext, hunfold, -, hall, h'⟩ := h.grow (f := f') (w := ⟨id, fun _ => none⟩) hd he hgrows
    hgrows' hrows hrows' rfl (by rw [unfold_eq_rename hplain, bare_rename, hbare]) nofun
    fun _ _ => rfl
  exact ⟨v, hext, hunfold, hall hplain, h'⟩

end Document.Unfolds

end Xml

end MailMerge
