import MailMerge.Proofs.Rendering.Apart
import MailMerge.Proofs.Template.Fields
import MailMerge.Proofs.Xml.Place

/-!
# Where blocks are anchored

Fields are told by the nodes that begin them: simple fields by themselves, complex ones by their begin
marker. The nodes of a field stand around or after the node that begins it, and so do the anchors of
a block around the nodes that begin its fields. No simple field is among the nodes that a later block
takes out, when the begin markers of complex fields do not stand right below simple ones.
-/

namespace MailMerge

open Xml

namespace Field

variable {d : Document} {field : Field} {m x y : NodeId} {rest : List Forest}

/-- A node begins a field. -/
def BeginsAt (d : Document) (m : NodeId) (field : Field) : Prop :=
  ∃ node, d.node? m = some node ∧ ofNode? d m node = some field

/-- Begin markers stand right below elements that are not simple fields. -/
def Framed (d : Document) (x : NodeId) : Prop :=
  ∀ m ∈ d.descendants x, ∀ node, d.node? m = some node → isMarker "begin" node = true →
    ∀ y, m ∈ d.children y →
      ∃ n, d.node? y = some n ∧ n.isElement = true ∧ n.isNamed "w:fldSimple" = false

theorem isElement_of_isNamed {node : Node} {name : String} (h : node.isNamed name = true) :
    node.isElement = true := by
  cases node with
  | element tag => rfl
  | text content => cases h
  | cdata content => cases h

/-- A complex field begins below its first run. -/
structure BeginsRuns (d : Document) (m first : NodeId) (field : Field) : Prop where
  child : m ∈ d.children first
  marker : ∃ node, d.node? m = some node ∧ isMarker "begin" node = true
  nodes : field.nodes = first :: runsAfter d first
  removed : field.removed = field.nodes

theorem BeginsAt.cases (hd : d.Distinct) (h : field.BeginsAt d m) :
    (field.nodes = [m] ∧ ∃ node, d.node? m = some node ∧ node.isElement = true) ∨
      ∃ first, BeginsRuns d m first field := by
  obtain ⟨node, hnode, hfield⟩ := h
  unfold ofNode? at hfield
  split at hfield
  next hnamed =>
    cases hfield
    exact .inl ⟨rfl, node, hnode, isElement_of_isNamed hnamed⟩
  next =>
    split at hfield
    next hmarker =>
      obtain ⟨first, hfirst, rfl⟩ := Option.map_eq_some_iff.1 hfield
      exact .inr ⟨first, hd.mem_children_of_parent? hfirst, ⟨node, hnode, hmarker⟩, rfl, rfl⟩
    next =>
      split at hfield
      next hdrawing =>
        cases hfield
        rw [Bool.and_eq_true] at hdrawing
        exact .inl ⟨rfl, node, hnode, isElement_of_isNamed hdrawing.1⟩
      next => cases hfield

/-- A simple field begins at its node. -/
theorem BeginsAt.simple (h : field.BeginsAt d m) (hshape : field.shape = .simple y) :
    y = m ∧ ∃ node, d.node? m = some node ∧ node.isNamed "w:fldSimple" = true := by
  obtain ⟨node, hnode, hfield⟩ := h
  unfold ofNode? at hfield
  split at hfield
  next hnamed =>
    cases hfield
    cases hshape
    exact ⟨rfl, node, hnode, hnamed⟩
  next =>
    split at hfield
    next =>
      obtain ⟨first, -, rfl⟩ := Option.map_eq_some_iff.1 hfield
      cases hshape
    next =>
      split at hfield
      next =>
        cases hfield
        cases hshape
      next => cases hfield

theorem start_eq_of_nodes {first : NodeId} {others : List NodeId}
    (h : field.nodes = first :: others) : field.start = first := by
  obtain ⟨shape, instruction, expression⟩ := field
  cases shape <;> cases h <;> rfl

/-- The first node of a field is the node that begins it, or has it as a child. -/
theorem BeginsAt.start (hd : d.Distinct) (h : field.BeginsAt d m) :
    m ∈ d.descendants field.start := by
  have hm : m ∈ d.ids := by
    obtain ⟨node, hnode, -⟩ := h
    rw [Document.node?_eq_site?] at hnode
    obtain ⟨s, hs, -⟩ := Option.map_eq_some_iff.1 hnode
    exact Document.mem_ids_of_site? hs
  rcases h.cases hd with ⟨hnodes, -⟩ | ⟨first, hruns⟩
  · rw [start_eq_of_nodes hnodes]
    exact Document.mem_descendants_self hm
  · rw [start_eq_of_nodes hruns.nodes]
    exact Document.mem_descendants_of_mem_children hruns.child

/-- The nodes of a field are the node that begins it, the run around that node, and later ones. -/
theorem BeginsAt.mem_nodes (ha : d.Apex x rest) (h : field.BeginsAt d m)
    (hm : m ∈ d.descendants x) (hy : y ∈ field.nodes) :
    y = m ∨ BeginsRuns d m y field ∨ d.Past x m y := by
  rcases h.cases ha.distinct with ⟨hnodes, -⟩ | ⟨first, hruns⟩
  · rw [hnodes, List.mem_singleton] at hy
    exact .inl hy
  · rw [hruns.nodes, List.mem_cons] at hy
    rcases hy with rfl | hy
    · exact .inr (.inl hruns)
    · have hbelow := Document.mem_descendants_of_mem_children hruns.child
      have hfollow := Document.mem_topIds_of_mem_followingElements (runsAfter_subset d first hy)
      have hpast := ha.past_of_mem_following (ha.mem_of_mem_descendants hm hbelow)
        (Forest.mem_ids_of_mem_topIds hfollow)
      exact .inr (.inr (hpast.of_mem ha.distinct hbelow))

/-- The nodes of a field are elements. -/
theorem BeginsAt.isElement (ha : d.Apex x rest) (hframed : Framed d x)
    (h : field.BeginsAt d m) (hm : m ∈ d.descendants x) (hy : y ∈ field.nodes) :
    ∃ node, d.node? y = some node ∧ node.isElement = true := by
  rcases h.cases ha.distinct with ⟨hnodes, helement⟩ | ⟨first, hruns⟩
  · rw [hnodes, List.mem_singleton] at hy
    exact hy ▸ helement
  · rw [hruns.nodes, List.mem_cons] at hy
    rcases hy with rfl | hy
    · obtain ⟨node, hnode, hmarker⟩ := hruns.marker
      obtain ⟨n, hn, helement, -⟩ := hframed m hm node hnode hmarker y hruns.child
      exact ⟨n, hn, helement⟩
    · exact ha.distinct.isElement_of_mem_followingElements (runsAfter_subset d first hy)

/-- No simple field is among the nodes of a field that begins later. -/
theorem BeginsAt.notMem_nodes (ha : d.Apex x rest) (hframed : Framed d x)
    (h : field.BeginsAt d m) (hm : m ∈ d.descendants x) {node : Node} (hnode : d.node? y = some node)
    (hnamed : node.isNamed "w:fldSimple" = true) (hlt : d.place x y < d.place x m) :
    y ∉ field.nodes := by
  intro hy
  rcases h.mem_nodes ha hm hy with rfl | hruns | hlater
  · exact Nat.lt_irrefl _ hlt
  · obtain ⟨n, hn, hmarker⟩ := hruns.marker
    obtain ⟨n', hn', -, hnot⟩ := hframed m hm n hn hmarker y hruns.child
    rw [hnode] at hn'
    cases hn'
    rw [hnamed] at hnot
    cases hnot
  · exact Nat.lt_asymm hlt (hlater.place_lt (Document.mem_ids_of_mem_descendants hm))

/-- The siblings between the first and the last run of a complex field are runs of it. -/
theorem mem_runsAfter_of_following (hd : d.Distinct) {first last : NodeId}
    (hlast : last ∈ runsAfter d first) (hy : y ∈ d.followingElements first)
    (hafter : last ∈ (d.following y).topIds) : y ∈ runsAfter d first :=
  hd.mem_of_isPrefix (runsAfter_spec d first).1 hlast hy hafter

end Field

namespace Block

variable {d : Document} {b : Block} {start stop : Field} {m m' x y : NodeId} {rest : List Forest}

/-- The anchors of a block are rows or paragraphs around its fields, or the inner ends of these. -/
inductive Anchored (d : Document) (start stop : Field) (b : Block) : Prop where
  | around {name : String} (isOuter : name = "w:tr" ∨ name = "w:p")
      (first : start.ancestor? d name = some b.first) (last : stop.ancestor? d name = some b.last)
      (frame : b.frame = [b.first, b.last])
  | inline (first : b.first = start.stop) (last : b.last = stop.start)
      (frame : b.frame = start.removed ++ stop.removed)

theorem exists_of_inDifferent {name : String} (h : inDifferent d start stop name = true) :
    ∃ first last, start.ancestor? d name = some first ∧ stop.ancestor? d name = some last := by
  unfold inDifferent at h
  split at h
  next first last hfirst hlast => exact ⟨first, last, hfirst, hlast⟩
  next => cases h

/-- The kind of a block says what its anchors are. -/
theorem between_cases (d : Document) (start stop : Field) :
    ((between d start stop).kind = .inline ∧ (between d start stop).first = start.stop ∧
        (between d start stop).last = stop.start) ∨
      ((between d start stop).kind ≠ .inline ∧ ∃ name, (name = "w:tr" ∨ name = "w:p") ∧
        start.ancestor? d name = some (between d start stop).first ∧
        stop.ancestor? d name = some (between d start stop).last) := by
  unfold between classify
  split
  next h =>
    obtain ⟨first, last, hfirst, hlast⟩ := exists_of_inDifferent h
    exact .inr ⟨nofun, "w:tr", .inl rfl, by simp [anchor, hfirst], by simp [anchor, hlast]⟩
  next =>
    split
    next h =>
      obtain ⟨first, last, hfirst, hlast⟩ := exists_of_inDifferent h
      exact .inr ⟨nofun, "w:p", .inr rfl, by simp [anchor, hfirst], by simp [anchor, hlast]⟩
    next => exact .inl ⟨rfl, rfl, rfl⟩

theorem frame_of_ne (h : b.kind ≠ .inline) : b.frame = [b.first, b.last] := by
  unfold frame
  split
  next => rfl
  next => rfl
  next hinline => exact absurd hinline h

theorem frame_of_inline (h : b.kind = .inline) : b.frame = b.start.removed ++ b.stop.removed := by
  rw [frame, h]

theorem anchored_between (d : Document) (start stop : Field) :
    Anchored d start stop (between d start stop) := by
  rcases between_cases d start stop with ⟨hkind, hfirst, hlast⟩ | ⟨hkind, name, hname, hfirst, hlast⟩
  · exact .inline hfirst hlast (frame_of_inline hkind)
  · exact .around hname hfirst hlast (frame_of_ne hkind)

/-- The first anchor of a block encloses the node that begins it, or is a run after the one that
does. -/
def LedBy (d : Document) (m : NodeId) (b : Block) : Prop :=
  m ∈ d.descendants b.first ∨
    ∃ run, m ∈ d.children run ∧ run ∈ b.frame ∧ b.first ∈ (d.following run).topIds ∧
      ∀ y ∈ d.followingElements run, b.first ∈ (d.following y).topIds → y ∈ b.frame

theorem Anchored.ledBy (h : Anchored d start stop b) (hd : d.Distinct)
    (hstart : start.BeginsAt d m) : b.LedBy d m := by
  have hself := hstart.start hd
  cases h with
  | around _ hfirst =>
    exact .inl (hd.mem_descendants_trans hself (hd.of_ancestor? hfirst).2)
  | inline hfirst _ hframe =>
    have hlast := start.stop_mem_nodes
    unfold LedBy
    rw [hfirst]
    rcases hstart.cases hd with ⟨hnodes, -⟩ | ⟨run, hruns⟩
    · rw [hnodes, List.mem_singleton] at hlast
      have hfield := start.start_mem_nodes
      rw [hnodes, List.mem_singleton] at hfield
      rw [hfield] at hself
      exact .inl (hlast ▸ hself)
    · have hin : ∀ y ∈ start.nodes, y ∈ b.frame := by
        intro y hy
        rw [hframe]
        exact List.mem_append_left _ (hruns.removed ▸ hy)
      rw [hruns.nodes, List.mem_cons] at hlast
      rcases hlast with heq | hlast
      · exact .inl (heq ▸ Document.mem_descendants_of_mem_children hruns.child)
      · refine .inr ⟨run, hruns.child, hin run (by simp [hruns.nodes]), ?_, fun y hy hafter => ?_⟩
        · exact Document.mem_topIds_of_mem_followingElements (Field.runsAfter_subset d run hlast)
        · apply hin
          rw [hruns.nodes]
          exact List.mem_cons_of_mem _ (Field.mem_runsAfter_of_following hd hlast hy hafter)

theorem LedBy.first_mem (h : b.LedBy d m) (ha : d.Apex x rest) (hm : m ∈ d.descendants x) :
    b.first ∈ d.descendants x := by
  rcases h with hin | ⟨run, hchild, -, hafter, -⟩
  · exact ha.mem_of_mem_descendants hm hin
  · have hrun := ha.mem_of_mem_descendants hm (Document.mem_descendants_of_mem_children hchild)
    exact ha.mem_of_mem_following hrun (Forest.mem_ids_of_mem_topIds hafter)

/-- What stands before the first anchor comes to an end before the node that begins the block, or is
taken out with it. -/
theorem LedBy.mem_frame_or_past (h : b.LedBy d m) (ha : d.Apex x rest)
    (hy : y ∈ d.descendants x) {node : Node} (hnode : d.node? y = some node) (helement : node.isElement = true)
    (hafter : b.first ∈ (d.following y).topIds) : y ∈ b.frame ∨ d.Past x y m := by
  have hpast := ha.past_of_mem_following hy (Forest.mem_ids_of_mem_topIds hafter)
  rcases h with hin | ⟨run, hchild, hrun, hfollow, hbetween⟩
  · exact .inr (hpast.below ha.distinct hin)
  have hbelow := Document.mem_descendants_of_mem_children hchild
  rcases ha.distinct.eq_or_mem_following hafter hfollow with rfl | hlater | hearlier
  · exact .inl hrun
  · exact .inl (hbetween y (ha.distinct.mem_followingElements hlater hnode helement) hafter)
  · have hbefore := ha.past_of_mem_following hy (Forest.mem_ids_of_mem_topIds hearlier)
    exact .inr (hbefore.below ha.distinct hbelow)

theorem not_isNamed_of_isOuter {name : String} {node : Node} (hname : name = "w:tr" ∨ name = "w:p")
    (h : node.isNamed name = true) : node.isNamed "w:fldSimple" = false := by
  have hsame : node.name? = some name := by simpa [Node.isNamed] using h
  rcases hname with rfl | rfl <;> simp [Node.isNamed, hsame]

/-- A block takes out no simple field that begins before it. -/
theorem Anchored.notMem_frame (h : Anchored d start stop b) (ha : d.Apex x rest)
    (hframed : Field.Framed d x) (hstart : start.BeginsAt d m) (hm : m ∈ d.descendants x)
    (hstop : stop.BeginsAt d m') (hm' : m' ∈ d.descendants x) {node : Node}
    (hnode : d.node? y = some node) (hnamed : node.isNamed "w:fldSimple" = true)
    (hlt : d.place x y < d.place x m) (hlt' : d.place x y < d.place x m') : y ∉ b.frame := by
  intro hy
  cases h with
  | around hname hfirst hlast hframe =>
    have hout : ∀ {a : NodeId} {field : Field} {name : String}, name = "w:tr" ∨ name = "w:p" →
        field.ancestor? d name = some a → y ≠ a := by
      rintro a field name hname habove rfl
      obtain ⟨⟨n, hn, hnamed'⟩, -⟩ := ha.distinct.of_ancestor? habove
      rw [hnode] at hn
      cases hn
      rw [not_isNamed_of_isOuter hname hnamed'] at hnamed
      cases hnamed
    rw [hframe, List.mem_cons, List.mem_singleton] at hy
    rcases hy with rfl | rfl
    · exact hout hname hfirst rfl
    · exact hout hname hlast rfl
  | inline _ _ hframe =>
    rw [hframe, List.mem_append] at hy
    rcases hy with hy | hy
    · exact hstart.notMem_nodes ha hframed hm hnode hnamed hlt (start.removed_subset hy)
    · exact hstop.notMem_nodes ha hframed hm' hnode hnamed hlt' (stop.removed_subset hy)

/-- The first anchor of a block is an element. -/
theorem Anchored.isElement_first (h : Anchored d start stop b) (ha : d.Apex x rest)
    (hframed : Field.Framed d x) (hstart : start.BeginsAt d m) (hm : m ∈ d.descendants x) :
    ∃ node, d.node? b.first = some node ∧ node.isElement = true := by
  cases h with
  | around _ hfirst =>
    obtain ⟨⟨n, hn, hnamed⟩, -⟩ := ha.distinct.of_ancestor? hfirst
    exact ⟨n, hn, Field.isElement_of_isNamed hnamed⟩
  | inline hfirst =>
    rw [hfirst]
    exact hstart.isElement ha hframed hm start.stop_mem_nodes

end Block

end MailMerge
