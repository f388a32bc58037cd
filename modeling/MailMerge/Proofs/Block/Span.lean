import Mathlib.Data.List.TakeWhile
import MailMerge.Proofs.Statement.Pairing
import MailMerge.Proofs.Xml.Order
import MailMerge.Proofs.Xml.Parse

/-!
# What an emptied block takes out

A block that is replaced by nothing takes out its body and its frame. When the last anchor is a
later sibling of the first one, the body is what stands between them; when it is not, the body goes
on to the end of the row. Main statement: a block takes out what stands between its anchors and
nothing else exactly when its last anchor is a later sibling of the first one, or no text is led
astray by the missing sibling (`exactSpan_iff`).
-/

namespace MailMerge

open Xml

namespace Field

/-- The nodes that are taken out with a field. -/
def removed (field : Field) : List NodeId :=
  match field.shape with
  | .image _ => []
  | _ => field.nodes

theorem remove_eq (field : Field) (d : Document) : field.remove d = d.detachAll field.removed := by
  obtain ⟨shape, instruction, expression⟩ := field
  cases shape <;> rfl

theorem removed_subset (field : Field) : field.removed ⊆ field.nodes := by
  unfold removed
  split
  · exact List.nil_subset _
  · exact List.Subset.refl _

theorem removed_eq_nodes {field : Field} {x : NodeId} (h : x ∈ field.removed) :
    field.removed = field.nodes := by
  obtain ⟨shape, instruction, expression⟩ := field
  cases shape with
  | simple y => rfl
  | complex first others after => rfl
  | image drawing => cases h

end Field

namespace Block

variable {d : Document} {b : Block} {x y : NodeId}

/-- The nodes that open and close a block. -/
def frame (b : Block) : List NodeId :=
  match b.kind with
  | .row | .paragraph => [b.first, b.last]
  | .inline => b.start.removed ++ b.stop.removed

theorem removeFrame_eq (b : Block) (d : Document) : b.removeFrame d = d.detachAll b.frame := by
  unfold removeFrame frame
  cases b.kind with
  | row => rfl
  | paragraph => rfl
  | inline => rw [Field.remove_eq, Field.remove_eq, ← Document.detachAll_append]

/-- The document after a block has been replaced by nothing. -/
def emptied (d : Document) (b : Block) : Document := d.detachAll (b.body d ++ b.frame)

theorem replace_nil (b : Block) (w : Workspace) :
    b.replace [] w = .ok () { w with document := b.emptied w.document } := by
  have h : b.emptied w.document = b.removeFrame (w.document.detachAll (b.body w.document)) := by
    rw [removeFrame_eq, emptied, Document.detachAll_append]
  rw [h]
  rfl

/-- A node is neither within an anchor nor within one of the fields of a block. -/
def Outside (d : Document) (b : Block) (x : NodeId) : Prop :=
  ∀ y ∈ b.first :: b.last :: (b.start.nodes ++ b.stop.nodes), x ∉ d.descendants y

theorem frame_subset (b : Block) :
    b.frame ⊆ b.first :: b.last :: (b.start.nodes ++ b.stop.nodes) := by
  unfold frame
  cases b.kind with
  | row => simp
  | paragraph => simp
  | inline =>
    intro y hy
    refine List.mem_cons_of_mem _ (List.mem_cons_of_mem _ ?_)
    rcases List.mem_append.1 hy with hy | hy
    · exact List.mem_append_left _ (b.start.removed_subset hy)
    · exact List.mem_append_right _ (b.stop.removed_subset hy)

/-- What is still attached when a block has been replaced by nothing. -/
theorem isAttached_emptied (hd : d.WellFormed) :
    (b.emptied d).isAttached x = true ↔
      x ∈ d.descendants d.root ∧ ∀ y ∈ b.body d ++ b.frame,
        y ∈ d.descendants d.root → d.root ≠ y → x ∉ d.descendants y := by
  have hroot := (Document.detachAll_sameFrame d (b.body d ++ b.frame)).root
  rw [(show (b.emptied d).WellFormed from hd.detachAll _).isAttached_iff, emptied, hroot,
    hd.mem_descendants_detachAll]

/-- What stands after an anchor is attached only if the anchor is, and stands below the root. -/
theorem attached_of_mem_rest (hd : d.Proper) {s : Site} (hs : d.site? b.first = some s)
    (hx : x ∈ s.rest.ids) (hattached : x ∈ d.descendants d.root) :
    b.first ∈ d.descendants d.root ∧ b.first ≠ d.root := by
  obtain ⟨t, ht⟩ := Document.exists_site? hd.rooted
  obtain ⟨hbelow, hafter⟩ := hd.topmost _ s hs
  have hxt : x ∈ t.children.ids := by
    obtain ⟨t', ht', hxt⟩ := Document.mem_descendants_iff.1 hattached
    rw [ht] at ht'
    cases ht'
    exact hxt.resolve_left fun h => hafter (h ▸ hx)
  have hforest := hd.forest_site? hs
  have hne : b.first ≠ d.root := by
    intro h
    rw [h, ht] at hs
    cases hs
    exact Forest.notMem_rest_of_mem_children hd.nodup_forest (hd.forest_site? ht) hxt hx
  refine ⟨Document.mem_descendants_iff.2 ⟨t, ht, .inr ?_⟩, hne⟩
  rcases Forest.mem_of_mem_both hd.nodup_forest hforest (hd.forest_site? ht) (.inr hx) hxt with
    h | (h | h) | h
  · exact absurd h.symm hne
  · exact absurd h hbelow
  · exact absurd h hafter
  · exact h

theorem exists_site?_of_mem_followingElements (hy : y ∈ d.followingElements x) :
    ∃ s, d.site? x = some s ∧ y ∈ s.rest.topIds := by
  rw [Document.followingElements, Document.following_eq_site?] at hy
  cases hs : d.site? x with
  | none => simp [hs, Forest.tops] at hy
  | some s =>
    rw [hs] at hy
    obtain ⟨top, htop, rfl⟩ := List.mem_map.1 hy
    exact ⟨s, rfl, List.mem_map_of_mem (List.mem_filter.1 htop).1⟩

/-- Of what is neither within an anchor nor within a field, an emptied block takes out what stands
within its body. -/
theorem isAttached_emptied_of_outside (hd : d.Proper) (hb : b.settled? = none)
    (hout : b.Outside d x) (hattached : x ∈ d.descendants d.root) :
    (b.emptied d).isAttached x = true ↔ ∀ y ∈ b.span d, x ∉ d.descendants y := by
  rw [isAttached_emptied hd.toWellFormed, and_iff_right hattached, body, hb, Option.getD_none]
  constructor
  · intro h y hy hxy
    obtain ⟨s, hs, htop⟩ :=
      exists_site?_of_mem_followingElements ((List.takeWhile_sublist _).subset hy)
    have hyr := Forest.mem_ids_of_mem_topIds htop
    have hx : x ∈ s.rest.ids :=
      ((hd.has_rest hs).mem_ids_iff (Forest.nodup_rest hd.nodup_forest (hd.forest_site? hs))).2
        ⟨y, htop, hxy⟩
    obtain ⟨hfirst, hne⟩ := attached_of_mem_rest hd hs hx hattached
    obtain ⟨before, after, hroot⟩ := hd.exists_descendants_eq_append hs hfirst hne
    have hattachedY : y ∈ d.descendants d.root := by
      rw [hroot]
      simp [hyr]
    have hney : d.root ≠ y := fun heq => (hd.topmost _ s hs).2 (heq ▸ hyr)
    exact h y (List.mem_append_left _ hy) hattachedY hney hxy
  · intro h y hy _ _
    rcases List.mem_append.1 hy with hy | hy
    · exact h y hy
    · exact hout y (b.frame_subset hy)

/-- The text elements that stood before or after a block are still attached, and those that stood
between its anchors are not. -/
structure ExactSpan (d : Document) (b : Block) (left : Document) : Prop where
  keeps : ∀ x, d.isNamed x "w:t" = true → b.Outside d x →
    d.Precedes x b.first ∨ d.Precedes b.last x → left.isAttached x = true
  takes : ∀ x, d.isNamed x "w:t" = true → b.Outside d x →
    d.Precedes b.first x → d.Precedes x b.last → left.isAttached x = false

/-- No text element after a block stands within a later sibling of its first anchor, and all that
stand between its anchors do. -/
structure NothingAstray (d : Document) (b : Block) : Prop where
  after : ∀ x, d.isNamed x "w:t" = true → b.Outside d x → d.Precedes b.last x →
    ∀ y ∈ d.followingElements b.first, x ∉ d.descendants y
  between : ∀ x, d.isNamed x "w:t" = true → b.Outside d x →
    d.Precedes b.first x → d.Precedes x b.last →
    ∃ y ∈ d.followingElements b.first, x ∈ d.descendants y

/-! ## Blocks whose last anchor is a later sibling of the first one -/

/-- The last anchor cuts the row after the first one. -/
theorem exists_rest_eq_append (hd : d.Distinct) (h : b.last ∈ d.followingElements b.first) :
    ∃ s before node children after, d.site? b.first = some s ∧
      s.rest = before ++ .cons b.last node children after ∧
      b.span d = (before.tops.filter (·.2.isElement)).map Prod.fst := by
  obtain ⟨s, hs, htop⟩ := exists_site?_of_mem_followingElements h
  obtain ⟨before, node, children, after, hrest⟩ := Forest.exists_eq_append_of_mem_topIds htop
  have hnodup := Forest.nodup_rest hd.nodup_forest (hd.forest_site? hs)
  refine ⟨s, before, node, children, after, hs, hrest, ?_⟩
  have hfollowing : d.followingElements b.first =
      ((s.rest.tops.filter (·.2.isElement)).map Prod.fst) := by
    rw [Document.followingElements, Document.following_eq_site?, hs, Option.map_some,
      Option.getD_some]
  have hnot : b.last ∉ before.topIds := by
    rw [hrest, Forest.ids_append, List.nodup_append] at hnodup
    exact fun h => hnodup.2.2 _ (Forest.mem_ids_of_mem_topIds h) b.last (by simp) rfl
  have hnotAfter : b.last ∉ after.topIds := by
    rw [hrest, Forest.ids_append, Forest.ids_cons] at hnodup
    intro h
    have hmem := List.mem_append_right children.ids (Forest.mem_ids_of_mem_topIds h)
    exact (List.nodup_cons.1 (List.nodup_append.1 hnodup).2.1).1 hmem
  have hbefore : ∀ y ∈ (before.tops.filter (·.2.isElement)).map Prod.fst, y ≠ b.last := by
    rintro y hy rfl
    obtain ⟨top, htop, heq⟩ := List.mem_map.1 hy
    exact hnot (heq ▸ List.mem_map_of_mem (List.mem_filter.1 htop).1)
  have helement : node.isElement = true := by
    rw [hfollowing, hrest, Forest.tops_append, List.filter_append, List.map_append,
      List.mem_append] at h
    rcases h with h | h
    · exact absurd rfl (hbefore _ h)
    · by_contra hnode
      simp only [Forest.tops, List.filter_cons, hnode] at h
      obtain ⟨top, htop, heq⟩ := List.mem_map.1 h
      exact hnotAfter (heq ▸ List.mem_map_of_mem (List.mem_filter.1 htop).1)
  rw [span, hfollowing, hrest, Forest.tops_append, List.filter_append, List.map_append,
    List.takeWhile_append_of_pos (by simpa using hbefore), Forest.tops, List.filter_cons,
    if_pos helement, List.map_cons, List.takeWhile_cons, if_neg (by simp), List.append_nil]

/-- An element stands in the row between the anchors when it is within a node of the body. -/
theorem mem_between_iff (hd : d.Proper) {s : Site} {before more : Forest}
    (hs : d.site? b.first = some s) (hrest : s.rest = before ++ more)
    (hspan : b.span d = (before.tops.filter (·.2.isElement)).map Prod.fst)
    (hx : (d.node? x).any Node.isElement = true) :
    x ∈ before.ids ↔ ∃ y ∈ b.span d, x ∈ d.descendants y := by
  have hnodup := Forest.nodup_rest hd.nodup_forest (hd.forest_site? hs)
  rw [hrest, Forest.ids_append, List.nodup_append] at hnodup
  have hhas : d.Has before := (hrest ▸ hd.has_rest hs : d.Has (before ++ more)).left hnodup.1
  rw [hhas.mem_ids_iff hnodup.1, hspan]
  constructor
  · rintro ⟨y, hy, hxy⟩
    refine ⟨y, ?_, hxy⟩
    obtain ⟨top, htop, rfl⟩ := List.mem_map.1 hy
    refine List.mem_map.2 ⟨top, List.mem_filter.2 ⟨htop, ?_⟩, rfl⟩
    have hnode : d.node? top.1 = some top.2 := ((hhas.mem_tops_iff hnodup.1).1 htop).2
    obtain ⟨t, ht, hxt⟩ := Document.mem_descendants_iff.1 hxy
    rw [Document.node?_eq_site?, ht] at hnode
    rw [← Option.some.inj hnode]
    -- Nothing stands below a text, so that an element within one would be the text itself.
    by_contra htext
    rw [hd.leaves _ t ht (by simpa using htext)] at hxt
    have heq : x = top.1 := by simpa using hxt
    rw [heq, Document.node?_eq_site?, ht] at hx
    exact htext (by simpa using hx)
  · rintro ⟨y, hy, hxy⟩
    obtain ⟨top, htop, rfl⟩ := List.mem_map.1 hy
    exact ⟨top.1, List.mem_map_of_mem (List.mem_filter.1 htop).1, hxy⟩

theorem isElement_of_isNamed {name : String} (h : d.isNamed x name = true) :
    (d.node? x).any Node.isElement = true := by
  rw [Document.isNamed, Document.name?, beq_iff_eq] at h
  obtain ⟨node, hnode, hname⟩ := Option.bind_eq_some_iff.1 h
  obtain ⟨tag, htag, -⟩ := Option.map_eq_some_iff.1 hname
  simp [hnode, Node.isElement, htag]

theorem notMem_of_outside (hout : b.Outside d x) {s : Site} (hs : d.site? b.first = some s) :
    x ≠ b.first ∧ x ∉ s.children.ids := by
  have hnot := hout b.first List.mem_cons_self
  rw [Document.mem_descendants_iff] at hnot
  exact ⟨fun h => hnot ⟨s, hs, .inl h⟩, fun h => hnot ⟨s, hs, .inr h⟩⟩

/-- A block whose last anchor is a later sibling of the first one takes out what stands between
them and nothing else. -/
theorem exactSpan_of_sibling (hd : d.Proper) (hb : b.settled? = none)
    (h : b.last ∈ d.followingElements b.first) : b.ExactSpan d (b.emptied d) := by
  obtain ⟨s, before, node, children, after, hs, hrest, hspan⟩ :=
    exists_rest_eq_append hd.toDistinct h
  have hbody := fun x => mem_between_iff (x := x) hd hs hrest hspan
  have hin : ∀ x ∈ before.ids, x ∈ s.rest.ids := by
    intro x hx
    rw [hrest, Forest.ids_append]
    exact List.mem_append_left _ hx
  have hlast : b.last ∈ s.rest.ids := by simp [hrest]
  -- The whole document, cut at the two anchors.
  have horder : b.first ∈ d.descendants d.root → b.first ≠ d.root → ∃ front back,
      d.descendants d.root = (front ++ b.first :: (s.children.ids ++ before.ids)) ++
        b.last :: (children.ids ++ (after.ids ++ back)) := by
    intro hfirst hne
    obtain ⟨front, back, hroot⟩ := hd.exists_descendants_eq_append hs hfirst hne
    refine ⟨front, back, ?_⟩
    rw [hroot, hrest, Forest.ids_append, Forest.ids_cons]
    simp only [List.append_assoc, List.cons_append]
  have hnodup := hd.nodup_descendants d.root
  constructor
  · intro x hx hout hside
    have hattached : x ∈ d.descendants d.root := hside.elim (·.left) (·.right)
    rw [isAttached_emptied_of_outside hd hb hout hattached]
    intro y hy hxy
    have hxb : x ∈ before.ids := (hbody x (isElement_of_isNamed hx)).2 ⟨y, hy, hxy⟩
    obtain ⟨hfirst, hne⟩ := attached_of_mem_rest hd hs (hin x hxb) hattached
    obtain ⟨front, back, hroot⟩ := horder hfirst hne
    rw [Document.Precedes, Document.Precedes, hroot] at hside
    rw [hroot] at hnodup
    rcases hside with hside | hside
    · rw [List.append_assoc, List.cons_append] at hside hnodup
      have hfront := (pair_sublist_iff_mem_before hnodup).1 hside
      refine (List.nodup_append.1 hnodup).2.2 x hfront x ?_ rfl
      simp [hxb]
    · have hback := (pair_sublist_iff_mem_after hnodup).1 hside
      refine (List.nodup_append.1 hnodup).2.2 x ?_ x (List.mem_cons_of_mem _ hback) rfl
      simp [hxb]
  · intro x hx hout hfirst hlast'
    have hattached := hfirst.right
    rw [← Bool.not_eq_true, isAttached_emptied_of_outside hd hb hout hattached]
    obtain ⟨hself, hbelow⟩ := notMem_of_outside hout hs
    obtain ⟨-, hne⟩ := attached_of_mem_rest hd hs hlast hlast'.right
    obtain ⟨front, back, hroot⟩ := horder hfirst.left hne
    rw [Document.Precedes, hroot] at hfirst hlast'
    rw [hroot] at hnodup
    have hmem := (pair_sublist_iff_mem_before hnodup).1 hlast'
    rw [List.append_assoc, List.cons_append] at hfirst hnodup
    have hafter := (pair_sublist_iff_mem_after hnodup).1 hfirst
    have hnotFront : x ∉ front := fun h =>
      (List.nodup_append.1 hnodup).2.2 x h x (List.mem_cons_of_mem _ hafter) rfl
    have hxb : x ∈ before.ids := by simpa [hself, hbelow, hnotFront] using hmem
    obtain ⟨y, hy, hxy⟩ := (hbody x (isElement_of_isNamed hx)).1 hxb
    exact fun hall => hall y hy hxy

/-! ## Blocks whose last anchor is no later sibling of the first one -/

/-- Without the last anchor among them, the body is made of all later siblings. -/
theorem span_of_not_sibling (h : b.last ∉ d.followingElements b.first) :
    b.span d = d.followingElements b.first := by
  rw [span, List.takeWhile_eq_self_iff]
  intro y hy
  simpa using fun heq : y = b.last => h (heq ▸ hy)

theorem exactSpan_iff_of_not_sibling (hd : d.Proper) (hb : b.settled? = none)
    (h : b.last ∉ d.followingElements b.first) :
    b.ExactSpan d (b.emptied d) ↔ b.NothingAstray d := by
  have hleft : ∀ x, b.Outside d x → x ∈ d.descendants d.root →
      ((b.emptied d).isAttached x = true ↔
        ∀ y ∈ d.followingElements b.first, x ∉ d.descendants y) := by
    intro x hout hx
    rw [isAttached_emptied_of_outside hd hb hout hx, span_of_not_sibling h]
  constructor
  · intro hexact
    refine ⟨fun x hx hout hlast => ?_, fun x hx hout hfirst hlast => ?_⟩
    · exact (hleft x hout hlast.right).1 (hexact.keeps x hx hout (.inr hlast))
    · have hgone := hexact.takes x hx hout hfirst hlast
      rw [← Bool.not_eq_true, hleft x hout hlast.left] at hgone
      simpa using hgone
  · intro hastray
    refine ⟨fun x hx hout hside => ?_, fun x hx hout hfirst hlast => ?_⟩
    · rcases hside with hside | hside
      · refine (hleft x hout hside.left).2 fun y hy hxy => ?_
        obtain ⟨s, hs, htop⟩ := exists_site?_of_mem_followingElements hy
        have hxr : x ∈ s.rest.ids :=
          ((hd.has_rest hs).mem_ids_iff (Forest.nodup_rest hd.nodup_forest (hd.forest_site? hs))).2
            ⟨y, htop, hxy⟩
        obtain ⟨hfirst, hne⟩ := attached_of_mem_rest hd hs hxr hside.left
        obtain ⟨front, back, hroot⟩ := hd.exists_descendants_eq_append hs hfirst hne
        have hnodup := hd.nodup_descendants d.root
        rw [Document.Precedes, hroot] at hside
        rw [hroot] at hnodup
        have hfront := (pair_sublist_iff_mem_before hnodup).1 hside
        refine (List.nodup_append.1 hnodup).2.2 x hfront x ?_ rfl
        simp [hxr]
      · exact (hleft x hout hside.right).2 (hastray.after x hx hout hside)
    · obtain ⟨y, hy, hxy⟩ := hastray.between x hx hout hfirst hlast
      rw [← Bool.not_eq_true, hleft x hout hlast.left]
      exact fun hall => hall y hy hxy

end Block

/-- For the blocks that the fields of a document make: replaced by nothing, a block takes out what
stands between its anchors and nothing else exactly when its last anchor is a later sibling of the
first one, or no text is led astray by the missing sibling. -/
theorem exactSpan_iff (w : Workspace) (statements : List Statement) (opening : Opening) (b : Block)
    (hd : w.document.Proper)
    (hstatements : Statement.ofFields w.document
      (Field.discover w.document w.document.root) = .ok statements)
    (hb : .block opening b ∈ statements) :
    ∃ left, b.replace [] w = .ok () left ∧
      (b.ExactSpan w.document left.document ↔
        b.last ∈ w.document.followingElements b.first ∨ b.NothingAstray w.document) := by
  obtain ⟨_, start, _, stop, _, -, -, -, rfl⟩ := Statement.exists_of_mem_block hstatements hb
  refine ⟨_, Block.replace_nil _ w, ?_⟩
  by_cases h : (Block.between w.document start stop).last ∈
      w.document.followingElements (Block.between w.document start stop).first
  · exact ⟨fun _ => .inl h, fun _ => Block.exactSpan_of_sibling hd rfl h⟩
  · rw [Block.exactSpan_iff_of_not_sibling hd rfl h, or_iff_right h]

/-! ## An end that stands in a table -/

/-- A row of one element without attributes. -/
def Xml.Forest.ofElement (id : NodeId) (name : String) (children : Forest) : Forest :=
  .single id (.element ⟨name, []⟩) children

/-- A row of one simple field that displays nothing. -/
def Xml.Forest.ofDirective (id : NodeId) (directive : String) : Forest :=
  .single id (.element ⟨"w:fldSimple",
    [⟨"w:instr", " MERGEFIELD " ++ directive ++ " \\* MERGEFORMAT "⟩]⟩) .nil

/-- A condition that ends in a table, with a text after the table. -/
def endInTable : Document where
  rows := [.ofElement 0 "w:body" (.ofElement 1 "w:p" (.ofDirective 2 "x:if") ++
    .ofElement 3 "w:tbl" (.ofElement 4 "w:tr" (.ofElement 5 "w:tc"
      (.ofElement 6 "w:p" (.ofDirective 7 "x:endIf")))) ++
    .ofElement 8 "w:p" (.ofElement 9 "w:t" .nil))]
  aside := []
  root := 0
  next := 10
  declaration := none

/-- The block of the condition. -/
def blockIntoTable : Block where
  kind := .paragraph
  start := ⟨.simple 2, " MERGEFIELD x:if \\* MERGEFORMAT ", "x:if"⟩
  stop := ⟨.simple 7, " MERGEFIELD x:endIf \\* MERGEFORMAT ", "x:endIf"⟩
  first := 1
  last := 6

/-- The text after the table is taken out, although it stands after the block. -/
theorem blockIntoTable_not_exactSpan : ∃ left,
    blockIntoTable.replace [] ⟨endInTable, [], {}⟩ = .ok () left ∧
      ¬blockIntoTable.ExactSpan endInTable left.document := by
  obtain ⟨left, hleft, hexact⟩ := exactSpan_iff ⟨endInTable, [], {}⟩
    [.block (.condition "x" none) blockIntoTable] (.condition "x" none) blockIntoTable
    (Document.proper_single (by decide +kernel) (by decide +kernel) (by decide +kernel))
    (by decide +kernel) List.mem_cons_self
  refine ⟨left, hleft, ?_⟩
  rw [hexact, not_or]
  refine ⟨by decide +kernel, fun h => ?_⟩
  have hout : blockIntoTable.Outside endInTable 9 := by
    unfold Block.Outside
    decide +kernel
  have hafter : endInTable.Precedes blockIntoTable.last 9 := by
    unfold Document.Precedes
    decide +kernel
  exact h.after 9 (by decide +kernel) hout hafter 8 (by decide +kernel) (by decide +kernel)

end MailMerge
