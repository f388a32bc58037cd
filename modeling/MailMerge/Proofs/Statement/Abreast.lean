import MailMerge.Proofs.Field.Pictures
import MailMerge.Proofs.Field.Planting
import MailMerge.Proofs.Statement.Simple

/-!
# Insertions in documents with unfolded fields

The statements of a tidy row are evaluated one after the other, in both of two documents that are
unfoldings of one another. What those rely on that still wait is told once (`Statement.Reached`): their
fields display what they did, and nothing comes after the anchors of their blocks that could begin a
field. An insertion leaves the others what they rely on (`Agenda.insertion`).
-/

namespace MailMerge

open Xml Xml.Forest Xml.Document Field

variable {c d d' e e' e₀ : Document} {u v v' : Unfolding} {x y z f m m' : NodeId} {rest : List Forest}
variable {q q' p : NodeId → Prop} {w w' : Workspace} {field : Field}

namespace Statement

variable {turn : Turn} {turns : List Turn} {opening : Opening} {b : Block}

/-! ## What is still to be done -/

/-- Statements that wait for their turn, made of the fields of a tidy row. -/
structure Agenda (c : Document) (x : NodeId) (rest : List Forest) (turns : List Turn) : Prop where
  apex : c.Apex x rest
  tidy : Tidy (c.tree x)
  schedule : Schedule c x turns
  simple : ∀ turn ∈ turns, ∀ opening b, turn.statement = .block opening b →
    b.Simple c turn.first turn.last

/-- What waiting statements rely on: the node below which they are, and the anchors of their blocks. -/
def Awaits (x : NodeId) (turns : List Turn) (f : NodeId) : Prop := f = x ∨ Opens turns f

/-- The simple fields that go on displaying what they did: those within other nodes, and those of
waiting statements. -/
def Stands (c : Document) (turns : List Turn) (d : Document) (z : NodeId) : Prop :=
  c.isNamed z "w:fldSimple" = true ∧
    ((d.parent? z).isSome ∨ ∃ turn ∈ turns, z = turn.first ∨ z = turn.last)

/-- Two documents have come from those in which statements were made, and leave the waiting ones what
they rely on. -/
structure Reached (c : Document) (u : Unfolding) (x : NodeId) (turns : List Turn) (v : Unfolding)
    (d e : Document) : Prop where
  continues : Continues c u (Stands c turns d) (Awaits x turns) v d e
  shown : Shown v d

theorem Awaits.of_tail (h : Awaits x turns f) : Awaits x (turn :: turns) f :=
  h.imp_right fun ⟨t, ht, hf⟩ => ⟨t, List.mem_cons_of_mem _ ht, hf⟩

namespace Agenda

theorem tail (h : Agenda c x rest (turn :: turns)) : Agenda c x rest turns where
  apex := h.apex
  tidy := h.tidy
  schedule := h.schedule.tail
  simple t ht := h.simple t (List.mem_cons_of_mem _ ht)

theorem first_lt (h : Agenda c x rest (turn :: turns)) :
    ∀ t ∈ turns, c.place x turn.first < c.place x t.first := fun t ht =>
  Nat.lt_of_le_of_lt (h.schedule.spans turn List.mem_cons_self).le (h.schedule.lt t ht)

variable (h : Agenda c x rest turns)
include h

theorem distinct : c.Distinct := h.apex.distinct

theorem display (hm : m ∈ c.descendants x) (hname : c.isNamed m "w:fldSimple" = true) :
    Display (c.below m) := h.tidy.display h.distinct hm hname

/-- The first anchor of a waiting block is at or around its first field. -/
theorem of_opens (hf : Opens turns f) : ∃ turn ∈ turns, turn.first ∈ c.descendants f ∧
    c.isNamed turn.first "w:fldSimple" = true ∧ f ∈ c.descendants x ∧
      ∀ z, c.Past x f z → c.place x turn.first < c.place x z := by
  obtain ⟨⟨m, m', t⟩, hturn, hf⟩ := hf
  cases t with
  | insertion => cases hf
  | block opening b =>
    cases hf
    have hspans := h.schedule.spans _ hturn
    have hsimple := h.simple _ hturn opening b rfl
    exact ⟨_, hturn, hsimple.first, hsimple.name, hspans.first_mem h.apex,
      fun z hz => hspans.place_lt_of_past h.apex hz⟩

theorem name_of_opens (hf : Opens turns f) :
    ∃ name ∈ ["w:fldSimple", "w:tr", "w:p"], c.isNamed f name = true := by
  obtain ⟨⟨m, m', t⟩, hturn, hf⟩ := hf
  cases t with
  | insertion => cases hf
  | block opening b =>
    cases hf
    have hsimple := h.simple _ hturn opening b rfl
    rcases hsimple.kind with ⟨-, hfirst, -⟩ | ⟨-, name, rfl | rfl, hname, -⟩
    · exact ⟨_, by simp, hfirst ▸ hsimple.name⟩
    · exact ⟨_, by simp, hname⟩
    · exact ⟨_, by simp, hname⟩

theorem mem_of_awaits (hf : Awaits x turns f) : f ∈ c.descendants x := by
  rcases hf with rfl | hf
  · exact mem_descendants_self h.apex.mem_ids
  · obtain ⟨-, -, -, -, hmem, -⟩ := h.of_opens hf
    exact hmem

/-- What comes before all waiting statements follows nothing that they rely on. -/
theorem notMem_following (hm : ∀ t ∈ turns, c.place x m < c.place x t.first)
    (hin : m ∈ c.descendants x) (hf : Awaits x turns f) (hy : m ∈ c.descendants y) :
    y ∉ (c.following f).ids := by
  intro hfollows
  rcases hf with rfl | hf
  · rw [h.apex.following_self] at hfollows
    cases hfollows
  · obtain ⟨t, ht, -, -, hmem, hpast⟩ := h.of_opens hf
    have hlater := (h.apex.past_of_mem_following hmem hfollows).below h.distinct hy
    exact Nat.lt_asymm (hm t ht) (hpast m hlater)

theorem notMem_turn (hm : ∀ t ∈ turns, c.place x m < c.place x t.first) :
    ¬∃ t ∈ turns, m = t.first ∨ m = t.last := by
  rintro ⟨t, ht, rfl | rfl⟩
  · exact Nat.lt_irrefl _ (hm t ht)
  · exact Nat.lt_irrefl _ (Nat.lt_of_lt_of_le (hm t ht) (h.schedule.spans t ht).le)

/-- The node below which statements are made stands alone. -/
theorem alone : c.Alone x := by
  obtain ⟨node, children, hrows⟩ := h.apex.rows
  exact ⟨node, children, hrows.mem_iff.2 List.mem_cons_self⟩

/-- A simple field is ready for its turn when all statements wait that come after it. -/
theorem atTurn (hl : Lasts q (Awaits x turns) c d) (hq : q m) (hin : m ∈ c.descendants x)
    (hname : c.isNamed m "w:fldSimple" = true)
    (hm : ∀ t ∈ turns, c.place x m < c.place x t.first) : AtTurn d (Awaits x turns) m := by
  have hmem := mem_ids_of_mem_descendants hin
  have hdisplay := h.display hin hname
  refine ⟨(hl.isNamed hmem _).trans hname, (hl.display m hq hname hdisplay).1, fun y hy hbelow => ?_,
    fun f hf => hl.ids (mem_ids_of_mem_descendants (h.mem_of_awaits hf)), fun f hf hfollows => ?_,
    fun f hf hbelow => ?_⟩
  · have hbefore := hl.inner hmem hbelow
    have hy' := h.apex.mem_of_mem_descendants hin (mem_descendants_of_mem_below hbefore)
    have hyname := (hl.isNamed (mem_ids_of_mem_descendants hy') _).symm.trans hy
    exact h.tidy.notMem_below h.distinct hy' hyname hname hbefore
  · rcases hl.following f hf m hfollows with hbefore | ⟨hnew, -⟩
    · exact h.notMem_following hm hin hf (mem_descendants_self hmem) hbefore
    · exact hnew hmem
  · have hmf := h.mem_of_awaits hf
    have hbefore := hl.below f (mem_ids_of_mem_descendants hmf) m hbelow
    rcases hf with rfl | hf
    · obtain rfl := h.distinct.mem_descendants_antisymm hbefore hin
      exact ⟨rfl, (hl.alone f (.inl rfl) h.alone).parent? hl.distinct⟩
    · obtain ⟨t, ht, htf, htname, -, -⟩ := h.of_opens hf
      have htm := h.distinct.mem_descendants_trans htf hbefore
      rcases (mem_descendants_iff_below hmem).1 htm with heq | htm
      · exact absurd (heq ▸ hm t ht) (Nat.lt_irrefl _)
      · exact absurd htm (h.tidy.notMem_below h.distinct hin hname htname)

end Agenda

/-! ## Insertions -/

theorem Spans.of_insertion {expression : Expression}
    (h : Spans c x m m' (.insertion expression field)) : field.FoundAt c x m := by
  cases h with
  | insertion hfound => exact hfound

/-- What is relied on after a statement that leaves the rest what that relies on. -/
theorem Reached.next (h : Reached c u x (turn :: turns) v d e)
    (h' : Continues d v q (Awaits x turns) v' d' e') (hshown : Shown v' d')
    (hq : ∀ z, d.isNamed z "w:fldSimple" = true →
      (d'.parent? z).isSome ∨ (∃ t ∈ turns, z = t.first ∨ z = t.last) → q z) :
    Reached c u x turns v' d' e' where
  shown := hshown
  continues := by
    obtain ⟨hagrees, hunfolds, hlasts⟩ := h.continues
    have hparent : ∀ z, z ∈ c.ids → (d'.parent? z).isSome → (d.parent? z).isSome := by
      intro z hz hsome
      obtain ⟨y, hy⟩ := Option.isSome_iff_exists.1 hsome
      have hin := Forest.mem_ids_of_mem_topIds (h'.lasts.distinct.mem_children_iff_parent?.2 hy)
      exact hlasts.distinct.isSome_parent?_of_mem_below (h'.lasts.inner (hlasts.ids hz) hin)
    refine ⟨hagrees.trans h'.agrees hlasts.ids, h'.unfolds, ?_⟩
    refine (hlasts.imp (fun z hz => ?_) fun _ => Awaits.of_tail).trans (h'.lasts.imp (fun z hz => ?_)
      fun _ hf => hf)
    · refine ⟨hz.1, hz.2.imp (hparent z (mem_ids_of_isNamed hz.1)) fun ⟨t, ht, hin⟩ => ?_⟩
      exact ⟨t, List.mem_cons_of_mem _ ht, hin⟩
    · exact hq z ((hlasts.isNamed (mem_ids_of_isNamed hz.1) _).trans hz.1) hz.2

/-- What is relied on after a field has been replaced or removed. -/
theorem Reached.of_since (h : Reached c u x (turn :: turns) v d e)
    (h' : Since d v (OtherThan d m) (Awaits x turns) v' d' e') (hparent : d'.parent? m = none)
    (hout : ¬∃ t ∈ turns, m = t.first ∨ m = t.last) : Reached c u x turns v' d' e' := by
  refine h.next h'.toContinues (h'.shown h.continues.unfolds.distinct h.shown fun z hz => ?_)
    fun z hz hor => ⟨hz, ?_⟩
  · by_cases heq : z = m
    · exact .inr (heq ▸ hparent)
    · exact .inl ⟨hz, heq⟩
  · rintro rfl
    rcases hor with hsome | hturn
    · rw [hparent] at hsome
      cases hsome
    · exact hout hturn

section Insertion

variable {host : Host} {context : Context} {expression : Expression}
variable (hagenda : Agenda c x rest (turn :: turns))
  (h : Reached c u x (turn :: turns) v w.document w'.document)
  (hsame : Merge.SameRegistries w w')
include hagenda h hsame

/-- When the turn of a simple field has come, it is replaced or removed in both documents. -/
theorem evaluateSimple_abreast (hc : c.Unfolds u e₀) (hfound : turn.first ∈ c.descendants x)
    (hname : c.isNamed turn.first "w:fldSimple" = true) (instruction text : String) :
    Merge.Lockstep
      (evaluateInsertion host context expression ⟨.simple turn.first, instruction, text⟩)
      (evaluateInsertion host context expression
        (u.field c ⟨.simple turn.first, instruction, text⟩)) w w'
      fun _ _ d e => ∃ v', Reached c u x turns v' d e := by
  have hlt := hagenda.first_lt
  have hstands : Stands c (turn :: turns) w.document turn.first :=
    ⟨hname, .inr ⟨turn, List.mem_cons_self, .inl rfl⟩⟩
  have hturn := hagenda.tail.atTurn (h.continues.lasts.imp (fun _ hz => hz) fun _ => Awaits.of_tail)
    hstands hfound hname hlt
  have hout := hagenda.tail.notMem_turn hlt
  rw [← (h.continues.field_eq hc hstands hname (hagenda.display hfound hname) _ _).1]
  have hremoved : Merge.Lockstep
      (Merge.edit (⟨.simple turn.first, instruction, text⟩ : Field).remove)
      (Merge.edit (v.field w.document ⟨.simple turn.first, instruction, text⟩).remove) w w'
      fun _ _ d e => ∃ v', Reached c u x turns v' d e :=
    Merge.lockstep_edit hsame ⟨v, h.of_since (remove_since h.continues.unfolds hturn _ _)
      h.continues.unfolds.distinct.parent?_detach_self hout⟩
  unfold evaluateInsertion
  cases expression.evaluate? context with
  | error e => exact Merge.lockstep_throw hsame e
  | ok value? =>
    simp only [Merge.ofExcept_ok_bind]
    split
    next => exact hremoved
    next => exact hremoved
    next =>
      refine (Merge.lockstep_ofExcept_same hsame _).bind ?_
      rintro _ w₁ content w₁' - hsame₁ ⟨rfl, hd, he⟩
      rw [← hd] at hturn h ⊢
      rw [← he] at h
      refine (replace_abreast h.continues.unfolds hsame₁ hturn host.convert? content _ _).imp ?_
      rintro - w₂ - w₂' - ⟨v₂, h₂, hparent⟩
      exact ⟨v₂, h.of_since h₂ hparent hout⟩

/-- When the turn of an image has come, it is placed in both documents, or left as it is. -/
theorem evaluateImage_abreast (hfound : turn.first ∈ c.descendants x)
    (hname : c.isNamed turn.first "w:drawing" = true) (instruction text : String) :
    Merge.Lockstep
      (evaluateInsertion host context expression ⟨.image turn.first, instruction, text⟩)
      (evaluateInsertion host context expression
        (u.field c ⟨.image turn.first, instruction, text⟩)) w w'
      fun _ _ d e => ∃ v', Reached c u x turns v' d e := by
  have hmem := mem_ids_of_mem_descendants hfound
  have hstays : ∀ {v' : Unfolding} {d e : Document}, Since w.document v
      (fun y => w.document.isNamed y "w:fldSimple" = true) (Awaits x turns) v' d e →
        Reached c u x turns v' d e := fun h' =>
    h.next h'.toContinues (h'.shown h.continues.unfolds.distinct h.shown fun z hz => .inl hz)
      fun z hz _ => hz
  have hsame_field : u.field c ⟨.image turn.first, instruction, text⟩ =
      ⟨.image (v.name turn.first), instruction, text⟩ := by
    rw [h.continues.agrees.name _ hmem]
    rfl
  have hleft : Merge.Lockstep (pure () : Merge Unit) (pure ()) w w'
      fun _ _ d e => ∃ v', Reached c u x turns v' d e :=
    Merge.lockstep_pure hsame ⟨v, hstays (.refl h.continues.unfolds _ _)⟩
  rw [hsame_field]
  unfold evaluateInsertion
  cases expression.evaluate? context with
  | error e => exact Merge.lockstep_throw hsame e
  | ok value? =>
    simp only [Merge.ofExcept_ok_bind]
    split
    next => exact hleft
    next => exact hleft
    next =>
      refine (Merge.lockstep_ofExcept_same hsame _).bind ?_
      rintro _ w₁ content w₁' - hsame₁ ⟨rfl, hd, he⟩
      rw [← hd] at h hstays
      rw [← he] at h
      -- A drawing is no simple field, and only simple fields are unfolded.
      have hnone : v.frame? turn.first = none := by
        by_contra hframe
        have hsimple := h.continues.unfolds.isNamed_of_unfolded (h.continues.lasts.ids hmem) hframe
        rw [h.continues.lasts.isNamed hmem] at hsimple
        exact absurd hname (Bool.eq_false_iff.1 (isNamed_of_ne hsimple (by decide)))
      have hleft : Merge.Lockstep (pure () : Merge Unit) (pure ()) w₁ w₁'
          fun _ _ d e => ∃ v', Reached c u x turns v' d e :=
        Merge.lockstep_pure hsame₁ ⟨v, hstays (.refl h.continues.unfolds _ _)⟩
      cases content with
      | image picture =>
        refine (placeImage_abreast h.continues.unfolds hsame₁ h.shown (h.continues.lasts.ids hmem) hnone
          (fun f hf => ?_) picture).imp fun _ _ _ _ _ ⟨v₂, h₂, _⟩ => ⟨v₂, hstays h₂⟩
        -- The fields to come are no drawings, and the drawing stands below none of them.
        have hmf := mem_ids_of_mem_descendants (hagenda.tail.mem_of_awaits hf)
        refine ⟨h.continues.lasts.ids hmf, fun hin => ?_⟩
        rw [h.continues.lasts.isNamed hmf]
        rcases hf with rfl | hf
        · have hbelow := h.continues.lasts.inner hmf hin
          have heq := hagenda.distinct.mem_descendants_antisymm (mem_descendants_of_mem_below hbelow) hfound
          rw [heq] at hbelow
          exact absurd hbelow (hagenda.distinct.notMem_below_self _)
        · obtain ⟨name, hname, hnamed⟩ := hagenda.tail.name_of_opens hf
          refine isNamed_of_ne hnamed ?_
          rintro rfl
          revert hname
          decide
      | _ => exact hleft

/-- An insertion in both documents leaves the waiting statements what they rely on. -/
theorem evaluateInsertion_abreast (hc : c.Unfolds u e₀)
    (hstatement : turn.statement = .insertion expression field) :
    Merge.Lockstep (evaluateInsertion host context expression field)
      (evaluateInsertion host context expression (u.field c field)) w w'
      fun _ _ d e => ∃ v', Reached c u x turns v' d e := by
  have hspans := hagenda.schedule.spans turn List.mem_cons_self
  rw [hstatement] at hspans
  have hfound := hspans.of_insertion
  obtain ⟨shape, instruction, text⟩ := field
  rcases hfound.shape_of_tidy hagenda.distinct hagenda.tidy with
    ⟨rfl, hname⟩ | ⟨rfl, hname, -⟩
  · exact evaluateSimple_abreast hagenda h hsame hc hfound.mem hname _ _
  · exact evaluateImage_abreast hagenda h hsame hfound.mem hname _ _

end Insertion

end Statement
end MailMerge
