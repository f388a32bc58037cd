import MailMerge.Proofs.Block.Anchors

/-!
# What stands between the fields of a block

When the last anchor of a block is a later sibling of the first one, what is found between its two
fields stands within nodes of its frame or within siblings after its first anchor. The nodes that the
block is told by do not come to an end before the block begins.
-/

namespace MailMerge

open Xml

variable {d e : Document} {start stop field : Field} {m m' x y z a : NodeId} {rest : List Forest}

/-- The node that begins a field is an element. -/
theorem Field.BeginsAt.isElement_self (hd : d.Distinct) (h : field.BeginsAt d m) :
    ∃ node, d.node? m = some node ∧ node.isElement = true := by
  rcases h.cases hd with ⟨-, helement⟩ | ⟨first, hruns⟩
  · exact helement
  · obtain ⟨node, hnode, hmarker⟩ := hruns.marker
    rw [isMarker, Bool.and_eq_true] at hmarker
    exact ⟨node, hnode, isElement_of_isNamed hmarker.1⟩

/-- What encloses an element is an element. -/
theorem Xml.Document.Proper.isElement_of_mem_descendants (hd : d.Proper) {node : Node}
    (hnode : d.node? z = some node) (helement : node.isElement = true)
    (hz : z ∈ d.descendants a) : ∃ n, d.node? a = some n ∧ n.isElement = true := by
  obtain ⟨s, hs, rfl | hin⟩ := Document.mem_descendants_iff.1 hz
  · exact ⟨node, hnode, helement⟩
  · refine ⟨s.node, by rw [Document.node?_eq_site?, hs]; rfl, ?_⟩
    by_contra htext
    rw [hd.leaves a s hs (by simpa using htext)] at hin
    cases hin

namespace Block

variable {b : Block}

/-- The nodes that a block is told by. -/
def border (b : Block) : List NodeId := b.first :: b.last :: b.frame

theorem Anchored.last_mem (h : Anchored d start stop b) (hd : d.Distinct)
    (hstop : stop.BeginsAt d m') : m' ∈ d.descendants b.last := by
  cases h with
  | around _ _ hlast => exact hd.mem_descendants_trans (hstop.start hd) (hd.of_ancestor? hlast).2
  | inline _ hlast => exact hlast ▸ hstop.start hd

/-- The last anchor of a block is taken out with it, or begins the field that closes it. -/
theorem Anchored.last_mem_frame (h : Anchored d start stop b) (hd : d.Distinct)
    (hstop : stop.BeginsAt d m') : b.last ∈ b.frame ∨ b.last = m' := by
  cases h with
  | around _ _ _ hframe => exact .inl (by simp [hframe])
  | inline _ hlast hframe =>
    rw [hlast, hframe]
    have hin := stop.start_mem_nodes
    rcases hstop.cases hd with ⟨hnodes, -⟩ | ⟨first, hruns⟩
    · rw [hnodes, List.mem_singleton] at hin
      exact .inr hin
    · exact .inl (List.mem_append_right _ (hruns.removed ▸ hin))

/-- At or below a node there is one that does not come before another one. -/
def Reaches (d : Document) (x m y : NodeId) : Prop :=
  ∃ z ∈ d.descendants x, z ∈ d.descendants y ∧ d.place x m ≤ d.place x z

namespace Reaches

theorem of_mem (hm : m ∈ d.descendants x) (h : m ∈ d.descendants y) : Reaches d x m y :=
  ⟨m, hm, h, Nat.le_refl _⟩

theorem of_lt (hy : y ∈ d.descendants x) (hlt : d.place x m < d.place x y) : Reaches d x m y :=
  ⟨y, hy, Document.mem_descendants_self (Document.mem_ids_of_mem_descendants hy), Nat.le_of_lt hlt⟩

theorem of_place_le (h : Reaches d x m' y) (hle : d.place x m ≤ d.place x m') :
    Reaches d x m y := by
  obtain ⟨z, hz, hin, hle'⟩ := h
  exact ⟨z, hz, hin, hle.trans hle'⟩

theorem mem (h : Reaches d x m y) (ha : d.Apex x rest) : y ∈ d.descendants x := by
  obtain ⟨z, hz, hin, -⟩ := h
  exact ha.mem_of_mem_descendants hz hin

/-- What comes past a node that reaches so far comes later. -/
theorem place_lt (h : Reaches d x m y) (hz : d.Past x y z) : d.place x m < d.place x z := by
  obtain ⟨c, -, hc, hle⟩ := h
  exact Nat.lt_of_le_of_lt hle (hz.lt c hc)

end Reaches

theorem reaches_of_beginsAt (ha : d.Apex x rest) (h : field.BeginsAt d m)
    (hm : m ∈ d.descendants x) (hy : y ∈ field.nodes) : Reaches d x m y := by
  have hself := Document.mem_ids_of_mem_descendants hm
  rcases h.mem_nodes ha hm hy with rfl | hruns | hlater
  · exact .of_mem hm (Document.mem_descendants_self hself)
  · exact .of_mem hm (Document.mem_descendants_of_mem_children hruns.child)
  · exact .of_lt hlater.mem (hlater.place_lt hself)

/-- The nodes that a block is told by do not come to an end before the block begins. -/
theorem Anchored.reaches (h : Anchored d start stop b) (ha : d.Apex x rest)
    (hstart : start.BeginsAt d m) (hm : m ∈ d.descendants x) (hstop : stop.BeginsAt d m')
    (hm' : m' ∈ d.descendants x) (hle : d.place x m ≤ d.place x m') (hy : y ∈ b.border) :
    Reaches d x m y := by
  have hfirst : Reaches d x m b.first := by
    rcases h.ledBy ha.distinct hstart with hin | ⟨run, hchild, -, hafter, -⟩
    · exact .of_mem hm hin
    · have hbelow := Document.mem_descendants_of_mem_children hchild
      have hpast := ha.past_of_mem_following (ha.mem_of_mem_descendants hm hbelow)
        (Forest.mem_ids_of_mem_topIds hafter)
      exact .of_lt hpast.mem (hpast.lt m hbelow)
  have hlast : Reaches d x m b.last :=
    (Reaches.of_mem hm' (h.last_mem ha.distinct hstop)).of_place_le hle
  rw [border, List.mem_cons, List.mem_cons] at hy
  rcases hy with rfl | rfl | hy
  · exact hfirst
  · exact hlast
  cases h with
  | around _ _ _ hframe =>
    rw [hframe, List.mem_cons, List.mem_singleton] at hy
    rcases hy with rfl | rfl
    · exact hfirst
    · exact hlast
  | inline _ _ hframe =>
    rw [hframe, List.mem_append] at hy
    rcases hy with hy | hy
    · exact reaches_of_beginsAt ha hstart hm (start.removed_subset hy)
    · exact (reaches_of_beginsAt ha hstop hm' (stop.removed_subset hy)).of_place_le hle

/-- An element that comes after one node and before another one. -/
structure Between (d : Document) (x m m' z : NodeId) : Prop where
  mem : z ∈ d.descendants x
  isElement : ∃ node, d.node? z = some node ∧ node.isElement = true
  lt : d.place x m < d.place x z
  lt' : d.place x z < d.place x m'

/-- A node of the template is taken out with a block, or follows its first anchor, and encloses
another node. -/
structure Covers (d : Document) (x : NodeId) (b : Block) (e : Document) (a z : NodeId) : Prop where
  mem : a ∈ d.descendants x
  ne : a ≠ x
  isElement : ∃ node, d.node? a = some node ∧ node.isElement = true
  encloses : z ∈ e.descendants a
  taken : a ∈ b.frame ∨ a ∈ (e.following b.first).topIds

/-- What is between the nodes that begin the fields of a block is covered. -/
theorem Anchored.exists_covers (h : Anchored d start stop b) (hd : d.Proper) (ha : d.Apex x rest)
    (hstart : start.BeginsAt d m) (hm : m ∈ d.descendants x) (hstop : stop.BeginsAt d m')
    (hframe : b.first ∈ b.frame) (hlast : b.last ∈ (d.following b.first).topIds)
    (hbetween : Between d x m m' z) : ∃ a, Covers d x b d a z := by
  obtain ⟨hz, ⟨node, hnode, helement⟩, hlt, hlt'⟩ := hbetween
  have helements : ∀ a, z ∈ d.descendants a → ∃ n, d.node? a = some n ∧ n.isElement = true :=
    fun a hin => hd.isElement_of_mem_descendants hnode helement hin
  have hcovers : ∀ a, z ∈ d.descendants a → a ≠ x →
      a ∈ b.frame ∨ a ∈ (d.following b.first).topIds → Covers d x b d a z := fun a hin hne htaken =>
    ⟨ha.mem_of_mem_descendants hz hin, hne, helements a hin, hin, htaken⟩
  -- Up to the last anchor, all comes below or after the node that encloses the beginning.
  have hbetween : ∀ y, m ∈ d.descendants y → b.last ∈ (d.following y).topIds →
      z ∈ d.descendants y ∨ z ∈ (d.following y).ids := by
    intro y hy hafter
    have hmem := ha.mem_of_mem_descendants hm hy
    refine ha.mem_of_place hmem hafter (h.last_mem ha.distinct hstop) hz ?_ (Nat.le_of_lt hlt')
    exact (ha.distinct.place_le hmem hy).trans (Nat.le_of_lt hlt)
  have hself := Document.mem_descendants_self ha.mem_ids
  have hlater : ∀ y, m ∈ d.descendants y → z ∈ (d.following y).ids →
      ∃ a ∈ (d.following y).topIds, z ∈ d.descendants a ∧ a ≠ x := by
    intro y hy hin
    obtain ⟨a, hafter, hzin⟩ := ha.distinct.exists_sibling_of_mem_following hin
    refine ⟨a, hafter, hzin, ?_⟩
    rintro rfl
    have hmem := ha.mem_of_mem_descendants hm hy
    have hpast := ha.past_of_mem_following hmem (Forest.mem_ids_of_mem_topIds hafter)
    exact Nat.not_le_of_lt (hpast.place_lt (Document.mem_ids_of_mem_descendants hmem))
      (ha.distinct.place_le hself hmem)
  rcases h.ledBy ha.distinct hstart with hin | ⟨run, hchild, hrun, hafter, hruns⟩
  · rcases hbetween b.first hin hlast with hzin | hzin
    · have hne := ha.ne_of_mem_following (Forest.mem_ids_of_mem_topIds hlast)
      exact ⟨b.first, hcovers _ hzin hne (.inl hframe)⟩
    · obtain ⟨a, hafter, hzin, hne⟩ := hlater b.first hin hzin
      exact ⟨a, hcovers a hzin hne (.inr hafter)⟩
  · -- The first anchor is a later run of the field, and the runs up to it are taken out.
    have hin := Document.mem_descendants_of_mem_children hchild
    rcases hbetween run hin (ha.distinct.mem_following_trans hafter hlast) with hzin | hzin
    · have hne := ha.ne_of_mem_following (Forest.mem_ids_of_mem_topIds hafter)
      exact ⟨run, hcovers run hzin hne (.inl hrun)⟩
    · obtain ⟨a, hfollow, hzin, hne⟩ := hlater run hin hzin
      refine ⟨a, hcovers a hzin hne ?_⟩
      rcases ha.distinct.eq_or_mem_following_of_mem hafter hfollow with rfl | hbefore | hbehind
      · exact .inl hframe
      · obtain ⟨n, hn, htag⟩ := helements a hzin
        exact .inl (hruns a (ha.distinct.mem_followingElements hfollow hn htag) hbefore)
      · exact .inr hbehind

end Block

end MailMerge
