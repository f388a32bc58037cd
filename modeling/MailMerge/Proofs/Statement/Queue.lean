import MailMerge.Proofs.Block.Anchors
import MailMerge.Proofs.Statement.Scanner

/-!
# Statements in document order

The fields below a node are found in the order of the nodes that begin them, and so are the
statements that they make (`Statement.exists_queue`). The field that closes a block begins after the
one that opens it.
-/

namespace MailMerge

open Xml

namespace Field

variable {d : Document} {field : Field} {m x : NodeId}

/-- A node can begin a field. -/
def canBegin (node : Node) : Bool := node.isNamed "w:fldSimple" || isMarker "begin" node

/-- A field with a directive is found at a node. -/
structure FoundAt (d : Document) (x m : NodeId) (field : Field) : Prop where
  mem : m ∈ d.descendants x
  begins : field.BeginsAt d m
  found : field ∈ discover d x

/-- The fields at and below a node, with the nodes that begin them. -/
def entries (d : Document) (x : NodeId) : List (NodeId × Field) :=
  (d.tree x).nodes.filterMap fun entry =>
    ((ofNode? d entry.1 entry.2).filter isValid).map fun field => (entry.1, field)

theorem map_entries (d : Document) (x : NodeId) : (entries d x).map Prod.snd = discover d x := by
  rw [entries, List.map_filterMap, discover]
  congr 1
  funext entry
  rw [Option.map_map]
  exact congrFun Option.map_id _

theorem entries_sublist (d : Document) (x : NodeId) :
    ((entries d x).map Prod.fst).Sublist (d.descendants x) := by
  rw [entries, Document.descendants, Forest.ids]
  induction (d.tree x).nodes with
  | nil => exact .slnil
  | cons entry nodes ih =>
    rw [List.filterMap_cons, List.map_cons]
    cases (ofNode? d entry.1 entry.2).filter isValid with
    | none => exact ih.cons _
    | some field => exact ih.cons_cons _

theorem foundAt_of_mem_entries (hd : d.Distinct) (h : (m, field) ∈ entries d x) :
    field.FoundAt d x m := by
  refine ⟨(entries_sublist d x).subset (List.mem_map_of_mem h), ?_, ?_⟩
  · obtain ⟨⟨y, node⟩, hnode, hfield⟩ := List.mem_filterMap.1 h
    obtain ⟨_, hfound, heq⟩ := Option.map_eq_some_iff.1 hfield
    cases heq
    exact ⟨node, (hd.shows_tree x).node? hnode, (Option.filter_eq_some_iff.1 hfound).1⟩
  · rw [← map_entries]
    exact List.mem_map_of_mem h

theorem isValid_of_mem_discover (h : field ∈ discover d x) : field.isValid = true := by
  obtain ⟨entry, -, hfound⟩ := List.mem_filterMap.1 h
  exact (Option.filter_eq_some_iff.1 hfound).2

/-- The directive of a picture, if there is one, starts with an equals sign. -/
theorem head?_pictureDirective (h : (ofDrawing d m).isValid = true) :
    (ofDrawing d m).expression.toList.head? = some '=' := by
  unfold isValid ofDrawing pictureDirective at h
  unfold ofDrawing pictureDirective
  dsimp only at h ⊢
  split at h
  next rest hname =>
    split at h
    next => simp at h
    next => simp
  next => simp at h

/-- Fields whose directive opens a block are no images, so that all their nodes are taken out. -/
theorem FoundAt.opens (h : field.FoundAt d x m) {opening : Opening}
    (hopens : Directive.ofText field.expression = .opening opening) :
    field.removed = field.nodes ∧ ∃ node, d.node? m = some node ∧ canBegin node = true := by
  obtain ⟨node, hnode, hfield⟩ := h.begins
  unfold ofNode? at hfield
  split at hfield
  next hnamed =>
    cases hfield
    exact ⟨rfl, node, hnode, by simp [canBegin, hnamed]⟩
  next =>
    split at hfield
    next hmarker =>
      obtain ⟨first, -, rfl⟩ := Option.map_eq_some_iff.1 hfield
      exact ⟨rfl, node, hnode, by simp [canBegin, hmarker]⟩
    next =>
      split at hfield
      next =>
        cases hfield
        have hdirective := (Directive.ofText_eq_opening_iff.1 hopens).1
        have hvalid := isValid_of_mem_discover h.found
        exact absurd (head?_pictureDirective hvalid) hdirective
      next => cases hfield

end Field

namespace Statement

variable {d : Document} {x m : NodeId} {t : Statement} {fields : List Field}

/-- A statement made of the fields below a node, with the node that begins its first field. -/
inductive FoundAt (d : Document) (x : NodeId) : NodeId → Statement → Prop where
  | insertion {m : NodeId} {field : Field} {expression : Expression} (found : field.FoundAt d x m) :
    FoundAt d x m (.insertion expression field)
  | block {m m' : NodeId} {start stop : Field} {opening : Opening}
      (opens : Directive.ofText start.expression = .opening opening)
      (first : start.FoundAt d x m) (last : stop.FoundAt d x m')
      (lt : d.place x m < d.place x m') :
    FoundAt d x m (.block opening (Block.between d start stop))

/-- A statement made of the fields below a node, with the nodes that begin its first and its last
field. -/
inductive Spans (d : Document) (x : NodeId) : NodeId → NodeId → Statement → Prop where
  | insertion {m : NodeId} {field : Field} {expression : Expression} (found : field.FoundAt d x m) :
    Spans d x m m (.insertion expression field)
  | block {m m' : NodeId} {start stop : Field} {opening : Opening}
      (opens : Directive.ofText start.expression = .opening opening)
      (first : start.FoundAt d x m) (last : stop.FoundAt d x m')
      (lt : d.place x m < d.place x m') :
    Spans d x m m' (.block opening (Block.between d start stop))

namespace Spans

variable {m' : NodeId}

theorem foundAt (h : t.Spans d x m m') : t.FoundAt d x m := by
  cases h with
  | insertion found => exact .insertion found
  | block opens first last lt => exact .block opens first last lt

theorem le (h : t.Spans d x m m') : d.place x m ≤ d.place x m' := by
  cases h with
  | insertion => exact Nat.le_refl _
  | block _ _ _ lt => exact Nat.le_of_lt lt

end Spans

/-- A statement that waits for its turn. -/
structure Turn where
  first : NodeId
  last : NodeId
  statement : Statement

/-- Statements in document order, one after the other. -/
structure Schedule (d : Document) (x : NodeId) (turns : List Turn) : Prop where
  spans : ∀ turn ∈ turns, turn.statement.Spans d x turn.first turn.last
  sorted : turns.Pairwise fun a b => d.place x a.last < d.place x b.first

namespace Schedule

variable {turn : Turn} {turns : List Turn} {entries : List (NodeId × Field)}

theorem tail (h : Schedule d x (turn :: turns)) : Schedule d x turns :=
  ⟨fun t ht => h.spans t (List.mem_cons_of_mem _ ht), (List.pairwise_cons.1 h.sorted).2⟩

theorem lt (h : Schedule d x (turn :: turns)) :
    ∀ t ∈ turns, d.place x turn.last < d.place x t.first :=
  (List.pairwise_cons.1 h.sorted).1

theorem append {turns' : List Turn} (h : Schedule d x turns) (h' : Schedule d x turns')
    (hlt : ∀ t ∈ turns, ∀ t' ∈ turns', d.place x t.last < d.place x t'.first) :
    Schedule d x (turns ++ turns') where
  spans t ht := (List.mem_append.1 ht).elim (h.spans t) (h'.spans t)
  sorted := List.pairwise_append.2 ⟨h.sorted, h'.sorted, hlt⟩

theorem cons (h : Schedule d x turns) (hspans : turn.statement.Spans d x turn.first turn.last)
    (hfirst : ∀ t ∈ turns, t.first ∈ entries.map Prod.fst)
    (hbefore : ∀ entry ∈ entries, d.place x turn.last < d.place x entry.1) :
    Schedule d x (turn :: turns) := by
  refine ⟨List.forall_mem_cons.2 ⟨hspans, h.spans⟩, List.pairwise_cons.2 ⟨?_, h.sorted⟩⟩
  intro t ht
  obtain ⟨entry, hentry, heq⟩ := List.mem_map.1 (hfirst t ht)
  exact heq ▸ hbefore entry hentry

end Schedule

/-- The statements that fields make, with the nodes that begin their fields. -/
theorem exists_schedule_of_entries {entries : List (NodeId × Field)} {statements : List Statement}
    (hfound : ∀ entry ∈ entries, entry.2.FoundAt d x entry.1)
    (hsorted : entries.Pairwise fun a b => d.place x a.1 < d.place x b.1)
    (h : ofFields d (entries.map Prod.snd) = .ok statements) :
    ∃ turns : List Turn, turns.map Turn.statement = statements ∧ Schedule d x turns ∧
      (∀ t ∈ turns, t.first ∈ entries.map Prod.fst) ∧
      ∀ t ∈ turns, t.last ∈ entries.map Prod.fst := by
  generalize hfields : entries.map Prod.snd = fields at h
  fun_induction ofFields d fields generalizing statements entries with
  | case1 =>
    cases h
    exact ⟨[], rfl, ⟨by simp, List.Pairwise.nil⟩, by simp, by simp⟩
  | case2 => cases h
  | case3 field rest expression hdirective later hlater ih =>
    cases h
    obtain ⟨⟨m, _⟩, more, rfl, rfl, rfl⟩ := List.map_eq_cons_iff.1 hfields
    obtain ⟨hbefore, hsorted⟩ := List.pairwise_cons.1 hsorted
    obtain ⟨turns, hturns, hschedule, hfirsts, hlasts⟩ :=
      ih (fun entry hentry => hfound entry (List.mem_cons_of_mem _ hentry)) hsorted rfl hlater
    have hspans : Spans d x m m (.insertion expression _) :=
      .insertion (hfound _ List.mem_cons_self)
    refine ⟨⟨m, m, .insertion expression _⟩ :: turns, congrArg _ hturns,
      hschedule.cons hspans hfirsts hbefore, ?_, ?_⟩
    · exact List.forall_mem_cons.2 ⟨by simp, fun t ht => List.mem_cons_of_mem _ (hfirsts t ht)⟩
    · exact List.forall_mem_cons.2 ⟨by simp, fun t ht => List.mem_cons_of_mem _ (hlasts t ht)⟩
  | case4 => cases h
  | case5 => cases h
  | case6 field rest opening hdirective closed hclosed hshorter later hlater ih =>
    cases h
    obtain ⟨⟨m, _⟩, more, rfl, rfl, rfl⟩ := List.map_eq_cons_iff.1 hfields
    obtain ⟨hbefore, hsorted⟩ := List.pairwise_cons.1 hsorted
    have hlater' := fun entry hentry => hfound entry (List.mem_cons_of_mem _ hentry)
    obtain ⟨inside, hinside, -⟩ := Opening.findEnd_eq_append hclosed
    obtain ⟨before, after, rfl, -, hafter⟩ := List.map_eq_append_iff.1 hinside
    obtain ⟨⟨m', stop⟩, rest, rfl, hstop, hrest⟩ := List.map_eq_cons_iff.1 hafter
    -- The end field is one of the entries, so that the block spans from its own entry to that one.
    have hend : (m', stop) ∈ before ++ (m', stop) :: rest := by simp
    have hrestSub : rest ⊆ before ++ (m', stop) :: rest := fun entry hentry =>
      List.mem_append_right _ (List.mem_cons_of_mem _ hentry)
    obtain ⟨-, hsorted, -⟩ := List.pairwise_append.1 hsorted
    obtain ⟨hafter, hsorted⟩ := List.pairwise_cons.1 hsorted
    obtain ⟨turns, hturns, hschedule, hfirsts, hlasts⟩ :=
      ih (fun entry hentry => hlater' entry (hrestSub hentry)) hsorted hrest hlater
    rw [← hstop]
    have hspans : Spans d x m m' (.block opening (Block.between d _ stop)) :=
      .block hdirective (hfound _ List.mem_cons_self) (hlater' _ hend) (hbefore _ hend)
    have hin := List.map_subset Prod.fst hrestSub
    refine ⟨⟨m, m', _⟩ :: turns, congrArg _ hturns, hschedule.cons hspans hfirsts hafter, ?_, ?_⟩
    · refine List.forall_mem_cons.2 ⟨by simp, fun t ht => ?_⟩
      exact List.mem_cons_of_mem _ (hin (hfirsts t ht))
    · refine List.forall_mem_cons.2 ⟨by simp, fun t ht => ?_⟩
      exact List.mem_cons_of_mem _ (hin (hlasts t ht))
  | case7 field rest hdirective ih =>
    obtain ⟨first, more, rfl, -, rfl⟩ := List.map_eq_cons_iff.1 hfields
    obtain ⟨turns, hturns, hschedule, hfirsts, hlasts⟩ :=
      ih (fun entry hentry => hfound entry (List.mem_cons_of_mem _ hentry))
        (List.pairwise_cons.1 hsorted).2 rfl h
    exact ⟨turns, hturns, hschedule, fun t ht => List.mem_cons_of_mem _ (hfirsts t ht),
      fun t ht => List.mem_cons_of_mem _ (hlasts t ht)⟩

/-- The statements that fields make, where a block among them is told by its fields: those before it
leave no block open. -/
theorem exists_schedule_of_block {before inside after : List (NodeId × Field)}
    {first last : NodeId × Field} {opening : Opening} {earlier statements : List Statement}
    (hfound : ∀ entry ∈ before ++ first :: (inside ++ last :: after), entry.2.FoundAt d x entry.1)
    (hsorted : (before ++ first :: (inside ++ last :: after)).Pairwise fun a b =>
      d.place x a.1 < d.place x b.1)
    (h : ofFields d ((before ++ first :: (inside ++ last :: after)).map Prod.snd) = .ok statements)
    (hbefore : ofFields d (before.map Prod.snd) = .ok earlier)
    (hopens : Directive.ofText first.2.expression = .opening opening)
    (hfinds : opening.Finds first.2 ((inside ++ last :: after).map Prod.snd) last.2
      (after.map Prod.snd)) :
    ∃ turns : List Turn, turns.map Turn.statement = statements ∧ Schedule d x turns ∧
      ⟨first.1, last.1, .block opening (Block.between d first.2 last.2)⟩ ∈ turns := by
  rw [List.map_append, ofFields_append d hbefore, List.map_cons,
    ofFields_eq_of_finds hopens hfinds] at h
  cases hlater : ofFields d (after.map Prod.snd) with
  | error e =>
    rw [hlater] at h
    cases h
  | ok later =>
    rw [hlater] at h
    cases h
    obtain ⟨hsortedBefore, hsortedRest, hacross⟩ := List.pairwise_append.1 hsorted
    obtain ⟨hfirst, hsortedRest⟩ := List.pairwise_cons.1 hsortedRest
    obtain ⟨-, hsortedAfter, -⟩ := List.pairwise_append.1 hsortedRest
    obtain ⟨hlast, hsortedAfter⟩ := List.pairwise_cons.1 hsortedAfter
    obtain ⟨turns, hturns, hschedule, -, hlasts⟩ := exists_schedule_of_entries
      (fun entry hentry => hfound entry (by simp [hentry])) hsortedBefore hbefore
    obtain ⟨turns', hturns', hschedule', hfirsts, -⟩ := exists_schedule_of_entries
      (fun entry hentry => hfound entry (by simp [hentry])) hsortedAfter hlater
    have hspans : Spans d x first.1 last.1 (.block opening (Block.between d first.2 last.2)) :=
      .block hopens (hfound first (by simp)) (hfound last (by simp)) (hfirst last (by simp))
    -- The turns after the block are scheduled first, then the block before them, then the earlier
    -- ones.
    have hblock : Schedule d x
        (⟨first.1, last.1, .block opening (Block.between d first.2 last.2)⟩ :: turns') :=
      hschedule'.cons hspans hfirsts hlast
    refine ⟨turns ++ _ :: turns', ?_, hschedule.append hblock fun t ht t' ht' => ?_, by simp⟩
    · rw [List.map_append, List.map_cons, hturns, hturns']
    · obtain ⟨entry, hentry, heq⟩ := List.mem_map.1 (hlasts t ht)
      rw [← heq]
      rcases List.mem_cons.1 ht' with rfl | ht'
      · exact hacross entry hentry first (by simp)
      · obtain ⟨entry', hentry', heq'⟩ := List.mem_map.1 (hfirsts t' ht')
        rw [← heq']
        exact hacross entry hentry entry' (by simp [hentry'])

/-- Statements in the order of the nodes that begin them. -/
structure Queue (d : Document) (x : NodeId) (pending : List (NodeId × Statement)) : Prop where
  found : ∀ entry ∈ pending, entry.2.FoundAt d x entry.1
  sorted : pending.Pairwise fun a b => d.place x a.1 < d.place x b.1

theorem Schedule.queue {turns : List Turn} (h : Schedule d x turns) :
    Queue d x (turns.map fun turn => (turn.first, turn.statement)) := by
  constructor
  · intro entry hentry
    obtain ⟨turn, hturn, rfl⟩ := List.mem_map.1 hentry
    exact (h.spans turn hturn).foundAt
  · refine List.pairwise_map.2 (h.sorted.imp_of_mem fun {a b} ha _ hlt => ?_)
    exact Nat.lt_of_le_of_lt (h.spans a ha).le hlt

theorem pairwise_entries (hd : d.Distinct) (x : NodeId) :
    (Field.entries d x).Pairwise fun a b => d.place x a.1 < d.place x b.1 := by
  have hmarks := (hd.pairwise_place x).sublist (Field.entries_sublist d x)
  exact (List.pairwise_map (f := Prod.fst)).1 hmarks

/-- The statements below a node, in document order. -/
theorem exists_schedule {statements : List Statement} (hd : d.Distinct)
    (h : ofFields d (Field.discover d x) = .ok statements) :
    ∃ turns : List Turn, turns.map Turn.statement = statements ∧ Schedule d x turns := by
  rw [← Field.map_entries] at h
  obtain ⟨turns, hturns, hschedule, -⟩ := exists_schedule_of_entries
    (fun _ hentry => Field.foundAt_of_mem_entries hd hentry) (pairwise_entries hd x) h
  exact ⟨turns, hturns, hschedule⟩

/-- The statements below a node, as they wait for their turn. -/
theorem exists_queue {statements : List Statement} (hd : d.Distinct)
    (h : ofFields d (Field.discover d x) = .ok statements) :
    ∃ pending : List (NodeId × Statement), pending.map Prod.snd = statements ∧
      Queue d x pending := by
  obtain ⟨turns, hturns, hschedule⟩ := exists_schedule hd h
  refine ⟨_, ?_, hschedule.queue⟩
  rw [List.map_map, ← hturns]
  rfl

end Statement

end MailMerge
