import MailMerge.Proofs.Field.Lasting
import MailMerge.Proofs.Field.Statements
import MailMerge.Proofs.Lockstep
import MailMerge.Proofs.Xml.Alike

/-!
# Content in documents with unfolded fields

Content is put next to a node in both of two documents that are unfoldings of one another, with the
same new nodes. The documents stay unfoldings of one another, and what later fields rely on lasts
(`Since`), if the node is remote from that.
-/

namespace MailMerge

open Xml Xml.Forest Xml.Document

variable {α α' : Type} {c d e d' e' : Document} {u v : Unfolding} {q p : NodeId → Prop}
variable {w w' : Workspace} {a t x x' y z : NodeId}

namespace Xml

theorem Unfolding.Extends.stop {xs : List NodeId} (h : Unfolding.Extends xs u v) (hx : x ∈ xs) :
    v.stop x = u.stop x := by
  rw [Unfolding.stop, Unfolding.stop, h.name x hx, h.frame x hx]

theorem Unfolding.Extends.start {xs : List NodeId} (h : Unfolding.Extends xs u v) (hx : x ∈ xs) :
    v.start x = u.start x := by
  rw [Unfolding.start, Unfolding.start, h.name x hx, h.frame x hx]

end Xml

namespace Field

/-- Two documents have come from earlier ones. They are unfoldings of one another as those were, and
what later fields rely on has lasted. -/
structure Continues (c : Document) (u : Unfolding) (q p : NodeId → Prop) (v : Unfolding)
    (d e : Document) : Prop where
  agrees : Unfolding.Extends c.ids u v
  unfolds : d.Unfolds v e
  lasts : Lasts q p c d

/-- Two documents have come from earlier ones, and no new node is unfolded. -/
structure Since (c : Document) (u : Unfolding) (q p : NodeId → Prop) (v : Unfolding)
    (d e : Document) : Prop extends Continues c u q p v d e where
  plain : ∀ z ∈ d.ids, z ∉ c.ids → v.frame? z = none

/-- Two steps go in lockstep, and leave documents that have come from the same earlier ones. -/
def Abreast (c : Document) (u : Unfolding) (q p : NodeId → Prop) (m : Merge α) (m' : Merge α')
    (w w' : Workspace) (answers : Unfolding → α → α' → Document → Prop) : Prop :=
  Merge.Lockstep m m' w w' fun a a' d e => ∃ v, Since c u q p v d e ∧ answers v a a' d

namespace Since

theorem refl (h : d.Unfolds u e) (q p : NodeId → Prop) : Since d u q p u d e where
  agrees := .refl _ _
  unfolds := h
  lasts := .refl h.distinct q p
  plain _ hz hout := absurd hz hout

theorem imp {q' p' : NodeId → Prop} (h : Since c u q p v d e) (hq : ∀ y, q' y → q y)
    (hp : ∀ f, p' f → p f) : Since c u q' p' v d e :=
  { h with lasts := h.lasts.imp hq hp }

theorem frame? (h : Since c u q p v d e) (ha : a ∈ c.ids) (hframe : u.frame? a = none) :
    v.frame? a = none := (h.agrees.frame a ha).trans hframe

/-- New rows have been added to both documents. -/
theorem grow (h : Since c u q p v d e) (hq : ∀ y, q y → y ∈ c.ids) (hp : ∀ f, p f → f ∈ c.ids)
    (hd : d.Spares d.allRows d') (he : e.Spares e.allRows e') {f g : Forest}
    (hrows : d'.allRows.Perm (f.trees ++ d.allRows))
    (hrows' : e'.allRows.Perm (g.trees ++ e.allRows)) (hbare : g.bare = f.bare) :
    ∃ v', Unfolding.Extends d.ids v v' ∧ f.unfold v' = g ∧ (∀ z ∈ f.ids, v'.frame? z = none) ∧
      Since c u q p v' d' e' := by
  obtain ⟨v', hext, hunfold, hplain, hnew⟩ := h.unfolds.grow_same hd.apart.distinct
    he.apart.distinct hd.grows he.grows hrows hrows' hbare
  have hlasts := Lasts.of_spares h.unfolds.distinct hd (fun _ hy => h.lasts.ids (hq _ hy))
    fun _ hf => h.lasts.ids (hp _ hf)
  refine ⟨v', hext, hunfold, hplain,
    ⟨h.agrees.trans hext h.lasts.ids, hnew, h.lasts.trans hlasts⟩, fun z hz hout => ?_⟩
  rw [Document.ids, (hrows.flatMap_right Forest.ids).mem_iff, List.flatMap_append,
    flatMap_ids_trees, List.mem_append] at hz
  rcases hz with hz | hz
  · exact hplain z hz
  · rw [hext.frame z hz]
    exact h.plain z hz hout

/-- A node that is not unfolded has been taken out of both documents. -/
theorem detach (h : Since c u q (fun f => p f ∧ f ≠ a) v d e) (hq : ∀ y, q y → y ∈ c.ids)
    (hp : ∀ f, p f → f ∈ c.ids) (ha : a ∈ c.ids) (hframe : u.frame? a = none)
    (hout : ∀ y, q y → c.isNamed y "w:fldSimple" = true → a ∉ (c.below y).ids) :
    Since c u q p v (d.detach a) (e.detach (u.name a)) where
  agrees := h.agrees
  unfolds := by
    rw [← h.agrees.name a ha]
    exact h.unfolds.detach_of_none (h.lasts.ids ha) (h.frame? ha hframe)
  lasts := by
    refine h.lasts.detach hq hp (h.lasts.ids ha) fun y hy hsimple hin => ?_
    rw [h.lasts.isNamed (hq y hy)] at hsimple
    exact hout y hy hsimple (h.lasts.inner ha hin)
  plain z hz hout := by
    rw [ids_eq_map_nodes, ((detach_perm d a).map Prod.fst).mem_iff, ← ids_eq_map_nodes] at hz
    exact h.plain z hz hout

end Since

/-! ## New nodes -/

/-- A new node stands alone, and is the same in both documents. -/
structure Sprout (c : Document) (v : Unfolding) (x x' : NodeId) (d : Document) : Prop where
  name : x' = v.name x
  frame : v.frame? x = none
  alone : ∃ node f rest, d.allRows.Perm (single x node f :: rest) ∧
    c.ids ⊆ rest.flatMap Forest.ids

section Insert

variable (hq : ∀ y, q y → y ∈ c.ids) (hp : ∀ f, p f → f ∈ c.ids) (ha : a ∈ c.ids)
  (hframe : u.frame? a = none) (hat : Remote q p c a)
include hq hp ha hframe hat

/-- Trees of new nodes are put after a node in both documents. -/
theorem insertTrees_abreast {row : Forest} {rest : List Forest}
    (h : Since c u q p v w.document w'.document) (hsame : Merge.SameRegistries w w')
    (hrows : w.document.allRows.Perm (row.trees ++ rest)) (hold : c.ids ⊆ rest.flatMap Forest.ids)
    (htops : ∀ z ∈ row.topIds, v.frame? z = none) :
    Abreast c u q p (Merge.insertAllAfter a row.topIds)
      (Merge.insertAllAfter (u.name a) (row.unfold v).topIds) w w' fun _ _ _ d =>
        d.below a = w.document.below a := by
  have hd := h.unfolds.distinct
  have hnone := h.frame? ha hframe
  obtain ⟨d, e, hm, hm', hplanted, hunfolds⟩ :=
    h.unfolds.insertTrees hrows htops (hold ha) (.inl hnone)
  have hids := (hrows.flatMap_right Forest.ids).nodup_iff.1 hd.nodup
  rw [List.flatMap_append] at hids
  have hnew : ∀ z ∈ row.trees.flatMap Forest.ids, z ∉ c.ids := fun z hz hin =>
    (List.nodup_append.1 hids).2.2 z hz z (hold hin) rfl
  rw [Unfolding.stop_of_none hnone, h.agrees.name a ha] at hm'
  refine Merge.lockstep_ok hm hm' (hsame.document _ _) ⟨v, ⟨⟨h.agrees, hunfolds,
    h.lasts.plant hplanted hnew hq hp (hat.later ha hq h.lasts)⟩, fun z hz hout => ?_⟩, ?_⟩
  · rw [ids_eq_map_nodes, (hplanted.moved.perm.map Prod.fst).mem_iff, ← ids_eq_map_nodes] at hz
    exact h.plain z hz hout
  · refine (hplanted.below hd (h.lasts.ids ha) fun hin => hnew a hin ha).trans
      (rewrite_of_notMem fun hin => ?_)
    obtain ⟨s, hs⟩ := exists_site? (h.lasts.ids ha)
    rw [below_eq_site?, hs] at hin
    exact notMem_children_self hd.nodup_forest (hd.forest_site? hs) hin

/-- Markup is put after a node in both documents. -/
theorem insertMarkupAfter_abreast (h : Since c u q p v w.document w'.document)
    (hsame : Merge.SameRegistries w w') (markup : String) :
    Abreast c u q p (Merge.insertMarkupAfter a markup) (Merge.insertMarkupAfter (u.name a) markup)
      w w' fun _ _ _ _ => True := by
  unfold Merge.insertMarkupAfter
  refine Merge.lockstep_document ?_
  rcases parseFragment_alike w.document w'.document markup with
    ⟨error, hd, he⟩ | ⟨row, row', n, n', hd, he, hbare⟩
  · rw [hd, he]
    exact Merge.lockstep_throw hsame _
  · rw [hd, he]
    obtain ⟨v', hext, rfl, hplain, h'⟩ := h.grow hq hp
      (h.unfolds.distinct.apart.parseFragment hd).1 (h.unfolds.distinct'.apart.parseFragment he).1
      (f := row) (g := row') (.of_eq (List.append_assoc _ _ _))
      (.of_eq (List.append_assoc _ _ _)) hbare
    refine Merge.lockstep_edit_bind ?_
    exact (insertTrees_abreast hq hp ha hframe hat h' (hsame.document _ _)
      (.of_eq (List.append_assoc _ _ _)) h.lasts.ids
      fun z hz => hplain z (mem_ids_of_mem_topIds hz)).imp
        fun _ _ _ _ _ ⟨v'', hsince, _⟩ => ⟨v'', hsince, trivial⟩

/-- A new node is put after another one in both documents. -/
theorem insertSprout_abreast (h : Since c u q p v w.document w'.document)
    (hsame : Merge.SameRegistries w w') (hnew : Sprout c v x x' w.document) :
    Abreast c u q p (Merge.move (·.insertAfter a x)) (Merge.move (·.insertAfter (u.name a) x'))
      w w' fun _ _ _ d => d.below a = w.document.below a := by
  obtain ⟨rfl, hx, node, f, rest, hrows, hold⟩ := hnew
  have hall := insertTrees_abreast hq hp ha hframe hat h hsame
    (show w.document.allRows.Perm ((single x node f).trees ++ rest) from hrows) hold
    fun z hz => by rw [List.mem_singleton.1 hz, hx]
  have hone : ∀ a x, Merge.insertAllAfter a [x] = Merge.move (·.insertAfter a x) := fun a x => by
    rw [Merge.insertAllAfter_cons]
    exact pure_bind _ _
  rw [unfold_single, Unfolding.slot_of_none hx, single, single, topIds_cons, topIds_cons, topIds_nil,
    hone, hone] at hall
  exact hall

end Insert

/-- Markup takes the place of a node in both documents. -/
theorem replaceMarkup_abreast (hq : ∀ y, q y → y ∈ c.ids) (hp : ∀ f, p f → f ∈ c.ids)
    (ha : a ∈ c.ids) (hframe : u.frame? a = none) (hat : Remote q (fun f => p f ∧ f ≠ a) c a)
    (h : Since c u q p v w.document w'.document) (hsame : Merge.SameRegistries w w')
    (markup : String) :
    Abreast c u q p
      (do Merge.insertMarkupAfter a markup; Merge.edit (·.detach a))
      (do Merge.insertMarkupAfter (u.name a) markup; Merge.edit (·.detach (u.name a)))
      w w' fun _ _ _ _ => True := by
  refine (insertMarkupAfter_abreast hq (fun f hf => hp f hf.1) ha hframe hat
    (h.imp (fun _ hy => hy) fun _ hf => hf.1) hsame markup).bind
      fun _ w₁ _ w₁' _ hsame₁ ⟨v₁, h₁, _⟩ => ?_
  exact Merge.lockstep_edit hsame₁ ⟨v₁, h₁.detach hq hp ha hframe hat.inner, trivial⟩

/-- A step for each item of a list, where each of them keeps something of the documents. -/
theorem abreast_forM {xs : List α} {step step' : α → Merge Unit}
    {kept : Unfolding → Document → Prop} (h : Since c u q p v w.document w'.document)
    (hsame : Merge.SameRegistries w w') (hkept : kept v w.document)
    (hstep : ∀ x ∈ xs, ∀ (v : Unfolding) (w w' : Workspace),
      Since c u q p v w.document w'.document → Merge.SameRegistries w w' → kept v w.document →
        Abreast c u q p (step x) (step' x) w w' fun v _ _ d => kept v d) :
    Abreast c u q p (xs.forM step) (xs.forM step') w w' fun v _ _ d => kept v d := by
  induction xs generalizing v w w' with
  | nil => exact Merge.lockstep_pure hsame ⟨v, h, hkept⟩
  | cons x xs ih =>
    refine (hstep x List.mem_cons_self v w w' h hsame hkept).bind
      fun _ w₁ _ w₁' _ hsame₁ ⟨v₁, h₁, hkept₁⟩ => ?_
    exact ih h₁ hsame₁ hkept₁ fun y hy => hstep y (List.mem_cons_of_mem _ hy)

end Field

namespace Content

open Field

variable {s : Site}

/-- The payload of the copy of a displaying node. -/
def marked (cs : List Char) (node : Node) : Node :=
  if hasBlankEnd cs then node.mapElement (·.setAttribute "xml:space" "preserve") else node

/-- The copy of a displaying node stands alone, and so does what it has displayed. -/
theorem displayCopy_rows (hd : w.document.Distinct) (hs : w.document.site? t = some s)
    (cs : List Char) : ∃ x y kids d,
      displayCopy t cs w = .ok x { w with document := d } ∧
      w.document.Spares w.document.allRows d ∧ kids.bare = s.children.bare ∧
      d.allRows.Perm
        ((cons x (marked cs s.node) (single y (.text (String.ofList cs)) .nil) kids).trees ++
          w.document.allRows) := by
  have htree := tree_of_site? hs
  have hcopied : (w.document.copy t).2.Holds (single w.document.next s.node .nil)
      w.document.next (s.children.relabel (w.document.next + 1)) w.document.allRows := by
    refine ⟨hd.copy t, by simp [single], ?_⟩
    rw [refill_single, Document.copy, htree]
    exact .refl _
  have htext := hcopied.setText (String.ofList cs)
  have hgrows := (copy_grows w.document t).trans
    (setText_grows (w.document.copy t).2 w.document.next (String.ofList cs))
  have hspares : ∀ {d : Document} {node : Node} {f : Forest} {kids : List Forest},
      d.Holds (single w.document.next node .nil) w.document.next f
        (kids ++ w.document.allRows) → w.document.Grows d →
      w.document.Spares w.document.allRows d := fun {d node f kids} hholds hgrows => by
    have hrows := hholds.rows
    rw [← List.cons_append] at hrows
    refine ⟨⟨hholds.distinct, _, hrows⟩, fun z hz => ?_, hgrows⟩
    rw [Document.ids, (hrows.flatMap_right Forest.ids).mem_iff, List.flatMap_append]
    exact List.mem_append_right _ hz
  unfold displayCopy marked
  split
  next =>
    have hmarked := htext.update (·.mapElement (·.setAttribute "xml:space" "preserve"))
    exact ⟨_, _, _, _, rfl, hspares hmarked (hgrows.trans ⟨rfl, rfl, Nat.le_refl _⟩),
      bare_relabel _ _, refill_single .. ▸ hmarked.rows⟩
  next =>
    exact ⟨_, _, _, _, rfl, hspares htext hgrows, bare_relabel _ _, refill_single .. ▸ htext.rows⟩

section Insert

variable (hq : ∀ y, q y → y ∈ c.ids) (hp : ∀ f, p f → f ∈ c.ids) (ht : t ∈ c.ids)
  (hframe : u.frame? t = none)
include hq hp ht hframe

/-- A copy of the displaying node is made in both documents. -/
theorem displayCopy_abreast (h : Since c u q p v w.document w'.document)
    (hsame : Merge.SameRegistries w w') (hkept : w.document.below t = c.below t)
    (hplain : ∀ z ∈ (c.below t).ids, u.frame? z = none) (cs : List Char) :
    Abreast c u q p (displayCopy t cs) (displayCopy (u.name t) cs) w w' fun v x x' d =>
      Sprout c v x x' d ∧ d.below t = c.below t := by
  have hd := h.unfolds.distinct
  obtain ⟨s, hs⟩ := exists_site? (h.lasts.ids ht)
  have hnone := h.frame? ht hframe
  obtain ⟨r, hs', -⟩ := h.unfolds.exists_site? hs hnone
  rw [h.agrees.name t ht] at hs'
  obtain ⟨x, y, kids, d, hm, hspares, hkids, hrows⟩ := displayCopy_rows hd hs cs
  obtain ⟨x', y', kids', d', hm', hspares', hkids', hrows'⟩ :=
    displayCopy_rows h.unfolds.distinct' hs' cs
  have hchildren : s.children = c.below t := by
    rw [← hkept, below_eq_site?, hs]
    rfl
  have hold : ∀ z ∈ (c.below t).ids, v.frame? z = none := fun z hz => by
    refine (h.agrees.frame z ?_).trans (hplain z hz)
    exact mem_ids_of_mem_descendants (mem_descendants_of_mem_below hz)
  rw [hchildren, unfold_eq_rename hold, bare_rename] at hkids'
  rw [hchildren] at hkids
  obtain ⟨v', hext, hunfold, hnew, h'⟩ := h.grow hq hp hspares hspares' hrows hrows'
    (by rw [bare_cons, bare_cons, hkids, hkids', bare_single, bare_single])
  have hx := hnew x List.mem_cons_self
  rw [unfold_cons, Unfolding.slot_of_none hx] at hunfold
  refine Merge.lockstep_ok hm hm' (hsame.document _ _) ⟨v', h', ⟨(cons.inj hunfold).1.symm, hx, _, _,
    kids.trees ++ w.document.allRows, hrows, fun z hz => ?_⟩, ?_⟩
  · rw [List.flatMap_append]
    exact List.mem_append_right _ (h.lasts.ids hz)
  · rw [← hkept, below_eq_site?, below_eq_site?, hd.apart.site?_eq hspares.apart (h.lasts.ids ht)]

/-- The node for a piece of text is made in both documents. -/
theorem pieceNode_abreast (h : Since c u q p v w.document w'.document)
    (hsame : Merge.SameRegistries w w') (hkept : w.document.below t = c.below t)
    (hplain : ∀ z ∈ (c.below t).ids, u.frame? z = none) (cs : List Char) :
    Abreast c u q p (pieceNode t cs) (pieceNode (u.name t) cs) w w' fun v x x' d =>
      Sprout c v x x' d ∧ d.below t = c.below t := by
  unfold pieceNode
  split
  next =>
    have hd := h.unfolds.distinct
    have hspares := hd.apart.create (.element ⟨"w:br", []⟩)
    obtain ⟨v', hext, hunfold, hnew, h'⟩ := h.grow hq hp hspares
      (h.unfolds.distinct'.apart.create (.element ⟨"w:br", []⟩))
      (f := single w.document.next (.element ⟨"w:br", []⟩) .nil)
      (g := single w'.document.next (.element ⟨"w:br", []⟩) .nil) (.refl _) (.refl _) rfl
    have hx := hnew _ List.mem_cons_self
    rw [unfold_single, Unfolding.slot_of_none hx] at hunfold
    refine Merge.lockstep_create hsame
      ⟨v', h', ⟨(cons.inj hunfold).1.symm, hx, _, _, _, .refl _, h.lasts.ids⟩, ?_⟩
    · refine Eq.trans ?_ hkept
      rw [below_eq_site?, below_eq_site?, hd.apart.site?_eq hspares.apart (h.lasts.ids ht)]
      rfl
  next => exact displayCopy_abreast hq hp ht hframe h hsame hkept hplain cs

variable (hplain : ∀ z ∈ (c.below t).ids, u.frame? z = none)
include hplain

/-- The nodes for a text are put after the displaying node in both documents. -/
theorem insertText_abreast (hat : Remote q p c t) (h : Since c u q p v w.document w'.document)
    (hsame : Merge.SameRegistries w w') (hkept : w.document.below t = c.below t) (s : String) :
    Abreast c u q p (insertText t s) (insertText (u.name t) s) w w' fun _ _ _ _ => True := by
  have hall : Abreast c u q p (insertText t s) (insertText (u.name t) s) w w' fun _ _ _ d =>
      d.below t = c.below t := by
    refine abreast_forM h hsame hkept fun cs _ v w w' h hsame hkept => ?_
    refine (pieceNode_abreast hq hp ht hframe h hsame hkept hplain cs).bind
      fun x w₁ x' w₁' _ hsame₁ ⟨v₁, h₁, hsprout, hkept₁⟩ => ?_
    refine (insertSprout_abreast hq hp ht hframe hat h₁ hsame₁ hsprout).imp
      fun _ _ _ _ _ ⟨v₂, h₂, hbelow⟩ => ⟨v₂, h₂, hbelow.trans hkept₁⟩
  exact hall.imp fun _ _ _ _ _ ⟨v', h', _⟩ => ⟨v', h', trivial⟩

/-- Content is put next to the displaying node in both documents. -/
theorem insert_abreast {paragraph? : Option NodeId} (hunfolds : c.Unfolds u w'.document)
    (hsame : Merge.SameRegistries w w') (hc : w.document = c) (hat : Remote q p c t)
    (hparagraph : ∀ a ∈ paragraph?, a ∈ c.ids ∧ u.frame? a = none ∧
      Remote q (fun f => p f ∧ f ≠ a) c a)
    (hrun : ∀ a, c.ancestor? t "w:r" = some a → Remote q (fun f => p f ∧ f ≠ a) c a)
    (convert? : Option Converter) (content : Content) :
    Abreast c u q p (content.insert convert? paragraph? t)
      (content.insert convert? (paragraph?.map u.name) (u.name t)) w w' fun _ _ _ _ => True := by
  subst hc
  have h := Since.refl hunfolds q p
  -- Markup for a whole block goes beside the paragraph if there is one, else beside the display.
  have hblock : ∀ {w₁ w₁' : Workspace} (markup : String),
      Since w.document u q p u w₁.document w₁'.document → Merge.SameRegistries w₁ w₁' →
      Abreast w.document u q p (insertBlock paragraph? t markup)
        (insertBlock (paragraph?.map u.name) (u.name t) markup) w₁ w₁' fun _ _ _ _ => True := by
    intro w₁ w₁' markup h₁ hsame₁
    cases paragraph? with
    | none => exact insertMarkupAfter_abreast hq hp ht hframe hat h₁ hsame₁ markup
    | some a =>
      obtain ⟨ha, hframe', hat'⟩ := hparagraph a rfl
      exact replaceMarkup_abreast hq hp ha hframe' hat' h₁ hsame₁ markup
  cases content with
  | text s => exact insertText_abreast hq hp ht hframe hplain hat h hsame rfl s
  | wordMl markup => exact hblock markup h hsame
  | inlineWordMl markup replacesRun =>
    cases replacesRun with
    | true =>
      refine Merge.lockstep_document ?_
      rw [hunfolds.ancestor?_eq ht hframe (by decide)]
      cases hr : w.document.ancestor? t "w:r" with
      | none =>
        exact replaceMarkup_abreast hq hp ht hframe
          (hat.imp (fun _ hy => hy) fun _ hf => hf.1) h hsame markup
      | some a =>
        obtain ⟨ha, hframe'⟩ := hunfolds.of_ancestor? (by decide) hr
        exact replaceMarkup_abreast hq hp ha hframe' (hrun a hr) h hsame markup
    | false => exact insertMarkupAfter_abreast hq hp ht hframe hat h hsame markup
  | html source styles =>
    cases convert? with
    | none => exact Merge.lockstep_throw hsame _
    | some convert =>
      have hconvert : Merge.Lockstep (Merge.onNumbering (convert source styles))
          (Merge.onNumbering (convert source styles)) w w'
          fun made made' d e => made' = made ∧ d = w.document ∧ e = w'.document :=
        Merge.lockstep_onNumbering hsame _ fun _ => ⟨rfl, rfl, rfl⟩
      refine hconvert.bind ?_
      rintro made w₁ _ w₁' _ hsame₁ ⟨rfl, hd, he⟩
      exact hblock _ (by rw [hd, he]; exact h) hsame₁
  | image picture => exact Merge.lockstep_pure hsame ⟨u, h, trivial⟩

end Insert

end Content

end MailMerge
