import MailMerge.Proofs.Field.Rename
import MailMerge.Proofs.Statement.Map
import MailMerge.Proofs.Statement.Ready

/-!
# Fields that match at every level

The fields of a body are read again wherever a copy of the body is rendered, without those that open
and close the block and without all else that is taken out with these. The fields below a node match
at every level when they do so in the template, and again in the body of each block of which copies
are rendered (`Matched`). This depends on the markup alone (`Matched.rename`), for blocks are found by
the instructions of fields and by what encloses them: the fields of renamed nodes make the statements
with their nodes renamed (`ofFields_discover_rename`).
-/

namespace MailMerge

open Xml Xml.Forest Xml.Document

variable {ρ : NodeId → NodeId} {d e : Document} {x : NodeId} {b : Block} {opening : Opening}
variable {statements : List Statement} {rest : List Forest}

section Rename

variable {y : NodeId} {start stop : Field}

/-! ## Blocks of renamed nodes -/

namespace Block

/-- The block with its nodes renamed. -/
def rename (ρ : NodeId → NodeId) (b : Block) : Block where
  kind := b.kind
  start := b.start.rename ρ
  stop := b.stop.rename ρ
  first := ρ b.first
  last := ρ b.last
  settled? := b.settled?.map (List.map ρ)

section Renamed

variable (h : Renamed ρ d x e)

include h

theorem ancestor?_rename (hstart : start.start ∈ d.descendants x) (name : String) :
    (start.rename ρ).ancestor? e name = (start.ancestor? d name).map ρ := by
  rw [Field.ancestor?, Field.ancestor?, Field.start_rename, h.ancestor? hstart]

theorem inDifferent_rename (hstart : start.start ∈ d.descendants x)
    (hstop : stop.start ∈ d.descendants x) (name : String) :
    inDifferent e (start.rename ρ) (stop.rename ρ) name = inDifferent d start stop name := by
  obtain ⟨rest, ha⟩ := h.alone
  have hmem : ∀ {field : Field} {a : NodeId}, field.start ∈ d.descendants x →
      field.ancestor? d name = some a → a ∈ d.descendants x := fun hin habove =>
    ha.mem_of_mem_descendants hin (ha.distinct.of_ancestor? habove).2
  rw [inDifferent, inDifferent, ancestor?_rename h hstart, ancestor?_rename h hstop]
  cases hfirst : start.ancestor? d name with
  | none => rfl
  | some a =>
    cases hlast : stop.ancestor? d name with
    | none => rfl
    | some b =>
      have hiff : ρ a = ρ b ↔ a = b :=
        ⟨h.inj (hmem hstart hfirst) (hmem hstop hlast), congrArg ρ⟩
      simp only [Option.map_some, ne_eq, hiff]

theorem anchor_rename (kind : BlockKind) (hstart : start.start ∈ d.descendants x) (inner : NodeId) :
    anchor e kind (start.rename ρ) (ρ inner) = ρ (anchor d kind start inner) := by
  cases kind with
  | row => rw [anchor, anchor, ancestor?_rename h hstart, Option.getD_map]
  | paragraph => rw [anchor, anchor, ancestor?_rename h hstart, Option.getD_map]
  | inline => rfl

theorem between_rename (hstart : start.start ∈ d.descendants x)
    (hstop : stop.start ∈ d.descendants x) :
    between e (start.rename ρ) (stop.rename ρ) = (between d start stop).rename ρ := by
  have hkind : classify e (start.rename ρ) (stop.rename ρ) = classify d start stop := by
    rw [classify, classify, inDifferent_rename h hstart hstop, inDifferent_rename h hstart hstop]
  simp only [between, rename, hkind, Field.stop_rename, Field.start_rename,
    anchor_rename h _ hstart, anchor_rename h _ hstop, Option.map_none]

theorem span_rename (hfirst : b.first ∈ d.descendants x) (hlast : b.last ∈ d.descendants x) :
    (b.rename ρ).span e = (b.span d).map ρ := by
  have hsame : (d.followingElements b.first).takeWhile ((fun y => decide (y ≠ ρ b.last)) ∘ ρ) =
      (d.followingElements b.first).takeWhile fun y => decide (y ≠ b.last) := by
    refine takeWhile_congr fun y hy => ?_
    have hmem := Field.mem_of_mem_followingElements h hfirst hy
    have hiff : ρ y = ρ b.last ↔ y = b.last := ⟨h.inj hmem hlast, congrArg ρ⟩
    simp only [Function.comp_apply, ne_eq, hiff]
  rw [span, span, rename, h.followingElements hfirst, List.takeWhile_map, hsame]

end Renamed

end Block

/-! ## Statements of renamed nodes -/

namespace Statement

/-- The statement with its nodes renamed. -/
def rename (ρ : NodeId → NodeId) : Statement → Statement
  | insertion expression field => insertion expression (field.rename ρ)
  | block opening b => block opening (b.rename ρ)

/-- The fields of renamed nodes make the statements with their nodes renamed. -/
theorem ofFields_rename (h : Renamed ρ d x e) {fields : List Field}
    (hfields : ∀ field ∈ fields, field.start ∈ d.descendants x) :
    ofFields e (fields.map (Field.rename ρ)) =
      (ofFields d fields).map (List.map (rename ρ)) := by
  have hmap : Statement.map (Field.rename ρ) (Block.rename ρ) = rename ρ :=
    funext fun t => by cases t <;> rfl
  have hcorresponds : Field.Corresponds d e (fun field => field.start ∈ d.descendants x)
      (Field.rename ρ) (Block.rename ρ) :=
    ⟨fun _ => rfl, fun _ _ hstart hstop => Block.between_rename h hstart hstop⟩
  rw [ofFields_map hcorresponds hfields, hmap]

theorem ofFields_discover_rename (h : Renamed ρ d x e) :
    ofFields e (Field.discover e (ρ x)) =
      (ofFields d (Field.discover d x)).map (List.map (rename ρ)) := by
  obtain ⟨rest, ha⟩ := h.alone
  rw [Field.discover_rename h]
  refine ofFields_rename h fun field hfield => ?_
  exact Field.mem_descendants_of_mem_discover ha hfield
    (field.nodes_subset_handles field.start_mem_nodes)

end Statement

end Rename

/-! ## Bodies on their own -/

namespace Block

/-- The body of a block: the nodes in it, each with what stands below it. -/
def content (d : Document) (b : Block) : Forest := join ((b.span d).map d.tree)

/-- A container with a copy of the body of a block, as a document of its own. -/
def excerpt (d : Document) (b : Block) : Document where
  rows := [single 0 (.element ⟨containerName, []⟩) ((b.content d).relabel 1)]
  aside := []
  root := 0
  next := (b.content d).size + 1
  declaration := none

theorem excerpt_apex (d : Document) (b : Block) : (b.excerpt d).Apex 0 [] := by
  have hids : (b.excerpt d).ids = List.range' 0 (b.excerpt d).next := by
    simp [Document.ids, allRows, excerpt, single, ids_relabel, List.range'_succ]
  refine ⟨⟨?_, fun y hy => ?_⟩, _, _, .refl _⟩
  · rw [hids]
    exact List.nodup_range'
  · rw [hids, List.mem_range'_1] at hy
    simpa using hy.2

theorem tree_excerpt (d : Document) (b : Block) :
    (b.excerpt d).tree 0 = single 0 (.element ⟨containerName, []⟩) ((b.content d).relabel 1) := by
  simp [Document.tree, Document.search, excerpt, single, Forest.tree?]

/-- There are no fields in an empty container. -/
theorem discover_of_empty (ha : d.Apex x rest)
    (h : (d.tree x).bare = (single 0 (.element ⟨containerName, []⟩) .nil).bare) :
    Field.discover d x = [] := by
  obtain ⟨node, children, -, hs⟩ := ha.site?
  have htree : d.tree x = single x node children := tree_of_site? hs
  rw [htree, bare_single, bare_single] at h
  obtain ⟨-, rfl, hnone, -⟩ := cons.inj h
  cases eq_nil_of_bare hnone
  rw [Field.discover, htree]
  rfl

theorem content_rename (h : Renamed ρ d x e) (hfirst : b.first ∈ d.descendants x)
    (hlast : b.last ∈ d.descendants x) : (b.rename ρ).content e = (b.content d).rename ρ := by
  rw [content, content, rename_join, span_rename h hfirst hlast, List.map_map, List.map_map]
  congr 1
  refine List.map_congr_left fun y hy => h.tree ?_
  exact Field.mem_of_mem_followingElements h hfirst (List.takeWhile_subset _ hy)

/-- The body of a block on its own does not depend on the numbers of the nodes. -/
theorem excerpt_rename (h : Renamed ρ d x e) (hfirst : b.first ∈ d.descendants x)
    (hlast : b.last ∈ d.descendants x) : (b.rename ρ).excerpt e = b.excerpt d := by
  rw [excerpt, excerpt, content_rename h hfirst hlast, relabel_rename, size_rename]

end Block

/-! ## Statements that do not stand within one another -/

/-- Copies of the body of a block are rendered. -/
def Opening.isRendered : Opening → Bool
  | .each _ _ | .condition _ _ => true
  | .call _ _ | .comment => false

namespace Statement

/-- The nodes below which the value of an insertion is displayed. -/
def displays : Statement → List NodeId
  | insertion _ field => field.displays
  | block _ _ => []

/-- The node after which the body of a block stands. -/
def opener? : Statement → Option NodeId
  | insertion _ _ => none
  | block _ b => some b.first

/-- No block begins within what an earlier insertion displays. -/
def Clear (d : Document) (statements : List Statement) : Prop :=
  statements.Pairwise fun s t => ∀ y ∈ s.displays, ∀ f ∈ t.opener?, f ∉ d.descendants y

instance (d : Document) (statements : List Statement) : Decidable (Clear d statements) :=
  inferInstanceAs (Decidable (List.Pairwise _ _))

theorem displays_rename (ρ : NodeId → NodeId) (s : Statement) :
    (s.rename ρ).displays = s.displays.map ρ := by
  cases s with
  | insertion expression field =>
    obtain ⟨shape, instruction, text⟩ := field
    cases shape with
    | simple x => rfl
    | complex first others after => cases after <;> rfl
    | image x => rfl
  | block opening b => rfl

theorem opener?_rename (ρ : NodeId → NodeId) (s : Statement) :
    (s.rename ρ).opener? = s.opener?.map ρ := by
  cases s <;> rfl

/-- The nodes by which statements are told are below the node below which they are made. -/
theorem mem_of_made (ha : d.Apex x rest) (h : ofFields d (Field.discover d x) = .ok statements)
    (hb : .block opening b ∈ statements) :
    b.first ∈ d.descendants x ∧ b.last ∈ d.descendants x := by
  obtain ⟨turns, rfl, hschedule⟩ := exists_schedule ha.distinct h
  obtain ⟨turn, hturn, heq⟩ := List.mem_map.1 hb
  have hspans := hschedule.spans turn hturn
  rw [heq] at hspans
  exact ⟨hspans.first_mem ha, hspans.lastAnchor_mem ha⟩

theorem mem_of_mem_displays (ha : d.Apex x rest)
    (h : ofFields d (Field.discover d x) = .ok statements) {s : Statement} (hs : s ∈ statements)
    {y : NodeId} (hy : y ∈ s.displays) : y ∈ d.descendants x := by
  cases s with
  | insertion expression field =>
    refine Field.mem_descendants_of_mem_discover ha (mem_of_mem_insertion h hs).1 ?_
    exact field.displays_subset_handles hy
  | block opening b => cases hy

/-- That no block begins below nodes of an earlier statement does not depend on the numbers of the
nodes. -/
theorem pairwise_out_rename {nodes : Statement → List NodeId} (h : Renamed ρ d x e)
    (hmade : ofFields d (Field.discover d x) = .ok statements)
    (hnodes : ∀ s, nodes (s.rename ρ) = (nodes s).map ρ)
    (hmem : ∀ s ∈ statements, ∀ y ∈ nodes s, y ∈ d.descendants x)
    (hout : statements.Pairwise fun s t => ∀ y ∈ nodes s, ∀ f ∈ t.opener?, f ∉ d.descendants y) :
    (statements.map (Statement.rename ρ)).Pairwise fun s t =>
      ∀ y ∈ nodes s, ∀ f ∈ t.opener?, f ∉ e.descendants y := by
  obtain ⟨rest, ha⟩ := h.alone
  refine List.pairwise_map.2 (hout.imp_of_mem fun {s t} hs ht hout y' hy' f' hf' => ?_)
  rw [hnodes] at hy'
  rw [opener?_rename] at hf'
  obtain ⟨y, hy, rfl⟩ := List.mem_map.1 hy'
  obtain ⟨f, hf, rfl⟩ := Option.map_eq_some_iff.1 hf'
  have hfirst : f ∈ d.descendants x := by
    cases t with
    | insertion expression field => cases hf
    | block opening b =>
      cases hf
      exact (mem_of_made ha hmade ht).1
  rw [h.mem_descendants_iff (hmem s hs y hy) hfirst]
  exact hout y hy f hf

theorem Clear.rename (h : Renamed ρ d x e) (hclear : Clear d statements)
    (hmade : ofFields d (Field.discover d x) = .ok statements) :
    Clear e (statements.map (Statement.rename ρ)) := by
  obtain ⟨rest, ha⟩ := h.alone
  exact pairwise_out_rename h hmade (displays_rename ρ)
    (fun _ hs _ hy => mem_of_mem_displays ha hmade hs hy) hclear

end Statement

/-! ## All levels -/

/-- The fields below a node match, in the template and in all bodies that are rendered, and no block
begins within what an earlier insertion displays. -/
inductive Matched : Document → NodeId → Prop where
  | intro {d : Document} {x : NodeId} {statements : List Statement}
      (made : Statement.ofFields d (Field.discover d x) = .ok statements)
      (clear : Statement.Clear d statements)
      (inner : ∀ opening b, .block opening b ∈ statements → opening.isRendered = true →
        Matched (b.excerpt d) 0) : Matched d x

/-- The fields below a node match, with at most `depth` levels of bodies. -/
def matchesWithin : Nat → Document → NodeId → Bool
  | 0, _, _ => false
  | depth + 1, d, x =>
    match Statement.ofFields d (Field.discover d x) with
    | .error _ => false
    | .ok statements =>
      decide (Statement.Clear d statements) && statements.all fun
        | .insertion _ _ => true
        | .block opening b => !opening.isRendered || matchesWithin depth (b.excerpt d) 0

theorem Matched.of_within {depth : Nat} (h : matchesWithin depth d x = true) : Matched d x := by
  induction depth generalizing d x with
  | zero => cases h
  | succ depth ih =>
    rw [matchesWithin] at h
    split at h
    next => cases h
    next statements hmade =>
      rw [Bool.and_eq_true, decide_eq_true_iff, List.all_eq_true] at h
      refine .intro hmade h.1 fun opening b hb hrendered => ih ?_
      have hinner := h.2 _ hb
      dsimp only at hinner
      rwa [hrendered, Bool.not_true, Bool.false_or] at hinner

/-- Whether fields match at every level does not depend on the numbers of the nodes. -/
theorem Matched.rename (h : Renamed ρ d x e) (hm : Matched d x) : Matched e (ρ x) := by
  cases hm with
  | @intro _ _ statements made clear inner =>
    obtain ⟨rest, ha⟩ := h.alone
    refine .intro ?_ (clear.rename h made)
      fun opening b hb hrendered => ?_
    · rw [Statement.ofFields_discover_rename h, made]
      rfl
    · obtain ⟨s, hs, heq⟩ := List.mem_map.1 hb
      cases s with
      | insertion expression field => cases heq
      | block opening' b' =>
        cases heq
        obtain ⟨hfirst, hlast⟩ := Statement.mem_of_made ha made hs
        rw [Block.excerpt_rename h hfirst hlast]
        exact inner opening b' hs hrendered

end MailMerge
