import MailMerge.Proofs.Field.Discovery
import MailMerge.Proofs.Statement.Map

/-!
# Statements of unfolded fields

Fields in two shapes have the same directives, and blocks between them have the same kind. The first
anchor of a block that is told by its fields is the last run of a field that is unfolded, and the last
anchor is the first run of one. So the statements below a node correspond to those below the node
that is made of it (`Unfolds.ofFields_eq`).
-/

namespace MailMerge

open Xml Xml.Forest Xml.Document Field

variable {u : Unfolding} {d e : Document} {field start stop : Field} {x y z : NodeId} {f : Forest}
variable {name : String} {b : Block}

namespace Xml.Unfolding

/-- A block as it is in the document where its fields may be unfolded. -/
def block (u : Unfolding) (d : Document) (b : Block) : Block where
  kind := b.kind
  start := u.field d b.start
  stop := u.field d b.stop
  first := u.stop b.first
  last := u.start b.last
  settled? := b.settled?.map fun nodes => nodes.flatMap (u.runs d)

theorem start_of_none (h : u.frame? x = none) : u.start x = u.name x := by simp [start, h]

/-- The nodes that are made of a field around a single node. -/
theorem runs_eq (hx : x ∈ d.ids) {before after inner : Forest} {n : Node}
    (hframe : u.frame? x = some (before, after)) (hbelow : d.below x = single y n inner)
    (hy : u.frame? y = none) : u.runs d x = before.topIds ++ u.name y :: after.topIds := by
  obtain ⟨s, hs⟩ := Document.exists_site? hx
  rw [below_eq_site?, hs, Option.map_some, Option.getD_some] at hbelow
  rw [runs, tree_of_site? hs, unfold_single, slot_of_some hframe, hbelow,
    unfold_single, slot_of_none hy, topIds_append, topIds_append]
  rfl

theorem stop_of_none (h : u.frame? x = none) : u.stop x = u.name x := by simp [stop, h]

end Xml.Unfolding

namespace Field

/-- A field that is simple or an image is where it can be unfolded: if it is to be, it stands within
other nodes and displays a single one. -/
def Sits (u : Unfolding) (d : Document) (field : Field) : Prop :=
  match field.shape with
  | .simple x => x ∈ d.ids ∧ (u.frame? x ≠ none →
      (d.parent? x).isSome ∧ ∃ y n inner, d.below x = single y n inner ∧ u.frame? y = none)
  | .image x => x ∈ d.ids ∧ u.frame? x = none
  | .complex _ _ _ => False

end Field

namespace Xml.Document.Unfolds

variable (h : d.Unfolds u e)

include h

/-- The first and the last node of a field, and what stands around it. -/
theorem field_ends (hsits : field.Sits u d) :
    (u.field d field).start = u.start field.start ∧ (u.field d field).stop = u.stop field.start ∧
      field.stop = field.start ∧ field.start ∈ d.ids ∧
      (u.frame? field.start = none ∨ (d.parent? field.start).isSome) := by
  obtain ⟨shape, instruction, expression⟩ := field
  cases shape with
  | complex first others after => exact hsits.elim
  | image x =>
    obtain ⟨hx, hframe⟩ := hsits
    exact ⟨(Unfolding.start_of_none hframe).symm, (Unfolding.stop_of_none hframe).symm, rfl, hx,
      .inl hframe⟩
  | simple x =>
    obtain ⟨hx, hparent⟩ := hsits
    change (u.field d ⟨.simple x, _, _⟩).start = u.start x ∧
      (u.field d ⟨.simple x, _, _⟩).stop = u.stop x ∧ x = x ∧ x ∈ d.ids ∧ _
    cases hframe : u.frame? x with
    | none =>
      refine ⟨?_, ?_, rfl, hx, .inl hframe⟩
      · rw [Unfolding.start_of_none hframe]
        simp [Unfolding.field, Unfolding.shape, hframe, Field.start]
      · rw [Unfolding.stop_of_none hframe]
        simp [Unfolding.field, Unfolding.shape, hframe, Field.stop, Field.nodes]
    | some frame =>
      obtain ⟨before, after⟩ := frame
      obtain ⟨hsome, y, n, inner, hbelow, hy⟩ := hparent (by rw [hframe]; exact Option.some_ne_none _)
      have hruns := Unfolding.runs_eq hx hframe hbelow hy
      have hhead : (d.children x).head? = some y := by
        rw [Document.children, hbelow]
        rfl
      have hbefore := h.before_ne_nil hx hframe
      have hafter := h.after_ne_nil hx hframe
      refine ⟨?_, ?_, rfl, hx, .inr hsome⟩
      · cases before with
        | nil => exact absurd rfl hbefore
        | cons first fn fc more =>
          simp [Unfolding.field, Unfolding.shape, Unfolding.start, hframe, hhead, hruns, Field.start]
      -- The last run is told from the end of what comes after the display.
      · obtain ⟨g, last, ln, lc, rfl, hlast⟩ := Forest.exists_eq_append_single hafter
        cases before with
        | nil => exact absurd rfl hbefore
        | cons first fn fc more =>
          have hsplit : first :: (more.topIds ++ u.name y :: (g.topIds ++ [last])) =
              (first :: (more.topIds ++ u.name y :: g.topIds)) ++ [last] := by simp
          simp [Unfolding.field, Unfolding.shape, Unfolding.stop, hframe, hhead, hruns, Field.stop,
            Field.nodes]
          rw [hsplit, List.getLast?_concat, Option.getD_some]

theorem enclosing_start (hx : x ∈ d.ids) (hstands : u.frame? x = none ∨ (d.parent? x).isSome) :
    e.enclosing (u.start x) = u.path (d.enclosing x) := by
  obtain ⟨s, hs⟩ := Document.exists_site? hx
  obtain ⟨n, c, l, hslot⟩ := Unfolding.exists_slot_start
    (fun _ _ hframe => h.before_ne_nil hx hframe) s.node (s.children.unfold u)
  exact (h.site?_of_slot hs hstands hslot).2

/-- The nearest element of a name around a field. -/
theorem field_ancestor?_eq (hsits : field.Sits u d) (hname : name ≠ "w:fldSimple") :
    (u.field d field).ancestor? e name = (field.ancestor? d name).map u.name := by
  obtain ⟨hstart, -, -, hx, hstands⟩ := h.field_ends hsits
  rw [Field.ancestor?, Field.ancestor?, hstart, Document.ancestor?, h.enclosing_start hx hstands,
    h.find?_path hname]

theorem inDifferent_eq (hstart : start.Sits u d) (hstop : stop.Sits u d)
    (hname : name ≠ "w:fldSimple") :
    Block.inDifferent e (u.field d start) (u.field d stop) name =
      Block.inDifferent d start stop name := by
  rw [Block.inDifferent, Block.inDifferent, h.field_ancestor?_eq hstart hname,
    h.field_ancestor?_eq hstop hname]
  cases hfirst : start.ancestor? d name with
  | none => rfl
  | some a =>
    cases hlast : stop.ancestor? d name with
    | none => rfl
    | some b =>
      obtain ⟨ha, haframe⟩ := h.of_ancestor? hname hfirst
      obtain ⟨hb, hbframe⟩ := h.of_ancestor? hname hlast
      have hiff : u.name a = u.name b ↔ a = b := ⟨h.inj ha hb haframe hbframe, congrArg u.name⟩
      simp only [Option.map_some, ne_eq, hiff]

/-- The node that stands for a field at the border of a block: one that is found around it is not
unfolded, so that it is the first and the last node of what is made of it. -/
theorem anchor_eq (hsits : field.Sits u d) (kind : BlockKind) {side : NodeId → NodeId}
    (hside : ∀ a, u.frame? a = none → side a = u.name a) (inner : NodeId) :
    Block.anchor e kind (u.field d field) (side inner) = side (Block.anchor d kind field inner) := by
  have haround : ∀ name, name ≠ "w:fldSimple" →
      ((u.field d field).ancestor? e name).getD (side inner) =
        side ((field.ancestor? d name).getD inner) := fun name hname => by
    rw [h.field_ancestor?_eq hsits hname]
    cases hfound : field.ancestor? d name with
    | none => rfl
    | some a => exact (hside a (h.of_ancestor? hname hfound).2).symm
  cases kind with
  | row => exact haround "w:tr" (by decide)
  | paragraph => exact haround "w:p" (by decide)
  | inline => rfl

/-- Blocks between fields correspond to the blocks between what is made of them. -/
theorem between_eq (hstart : start.Sits u d) (hstop : stop.Sits u d) :
    Block.between e (u.field d start) (u.field d stop) = u.block d (Block.between d start stop) := by
  have hkind : Block.classify e (u.field d start) (u.field d stop) =
      Block.classify d start stop := by
    rw [Block.classify, Block.classify, h.inDifferent_eq hstart hstop (by decide),
      h.inDifferent_eq hstart hstop (by decide)]
  obtain ⟨-, hstartLast, hstartSame, -⟩ := h.field_ends hstart
  obtain ⟨hstopFirst, -⟩ := h.field_ends hstop
  have hfirst := h.anchor_eq hstart (Block.classify d start stop)
    (fun _ => Unfolding.stop_of_none) start.start
  have hlast := h.anchor_eq hstop (Block.classify d start stop)
    (fun _ => Unfolding.start_of_none) stop.start
  simp only [Block.between, Unfolding.block, hkind, hstartLast, hstopFirst, hstartSame, hfirst,
    hlast, Option.map_none]

/-- The statements of fields correspond to those of what is made of the fields. -/
theorem ofFields_eq {fields : List Field} (hfields : ∀ field ∈ fields, field.Sits u d) :
    Statement.ofFields e (fields.map (u.field d)) =
      (Statement.ofFields d fields).map (List.map (Statement.map (u.field d) (u.block d))) := by
  have hcorresponds : Field.Corresponds d e (Field.Sits u d) (u.field d) (u.block d) :=
    ⟨fun _ => rfl, fun _ _ hstart hstop => h.between_eq hstart hstop⟩
  exact Statement.ofFields_map hcorresponds hfields

end Xml.Document.Unfolds

end MailMerge
