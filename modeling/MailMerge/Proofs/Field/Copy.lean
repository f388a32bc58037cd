import MailMerge.Proofs.Field.Rename
import MailMerge.Proofs.Rendering.Undisturbed
import MailMerge.Proofs.Xml.Elsewhere
import MailMerge.Proofs.Xml.Exchange

/-!
# Copies of nodes

A copy stands alone in a row of new nodes, and holds what the node holds that it was made of. The
fields of a node are told by what stands at and below it, unless a field begins at its own place. So
the same fields are found in a copy as in the original (`Field.discover_eq_of_tree_eq`), and what is
done to the copy cannot be seen in the original. Main statement: `copy_independent`.
-/

namespace MailMerge

open Xml Xml.Forest Xml.Document

variable {c d e f : Document} {n x y z first : NodeId} {s : Site}

/-! ## The same tree in two documents -/

namespace Xml.Document

/-- What stands strictly below a node has its parent at or below that node. -/
theorem Distinct.exists_parent_of_mem_below (hd : d.Distinct) (hy : y ∈ (d.below n).ids) :
    ∃ p ∈ d.descendants n, y ∈ d.children p := by
  have hn : n ∈ d.ids := mem_ids_of_descendants (mem_descendants_of_mem_below hy)
  obtain ⟨s, hs⟩ := exists_site? hn
  have hne : y ≠ n := by
    rintro rfl
    rw [below_eq_site?, hs] at hy
    exact Forest.notMem_children_self hd.nodup_forest (hd.forest_site? hs) hy
  have hout : y ∉ (d.tree n).topIds := by
    rw [topIds_tree hn]
    simpa using hne
  have hrow := hd.shows_tree n
  obtain ⟨p, t, ht, hchild⟩ :=
    exists_parent_of_mem_ids hrow.nodup (mem_descendants_of_mem_below hy) hout
  obtain ⟨u, hu, -, hchildren⟩ := hrow.has p t ht
  exact ⟨p, Forest.mem_ids_of_site? ht, mem_children_iff.2 ⟨u, hu, hchildren ▸ hchild⟩⟩

/-- A node has the same tree in two documents. -/
structure SameTree (n : NodeId) (d e : Document) : Prop where
  distinct : d.Distinct
  distinct' : e.Distinct
  tree_eq : e.tree n = d.tree n

namespace SameTree

variable (h : SameTree n d e)
include h

theorem below : e.below n = d.below n := by
  rw [Document.below, h.tree_eq, ← Document.below]

/-- What stands strictly below the node stands at the same place in both documents. -/
theorem site? (hy : y ∈ (d.below n).ids) : e.site? y = d.site? y := by
  rw [h.distinct.site?_below hy, h.distinct'.site?_below (h.below ▸ hy), h.below]

theorem tree (hn : n ∈ d.ids) (hy : y ∈ d.descendants n) : e.tree y = d.tree y := by
  rcases (mem_descendants_iff_below hn).1 hy with rfl | hy
  · exact h.tree_eq
  · rw [tree_eq_site?, tree_eq_site?, h.site? hy]

theorem following (hy : y ∈ (d.below n).ids) : e.following y = d.following y := by
  rw [following_eq_site?, following_eq_site?, h.site? hy]

theorem children (hn : n ∈ d.ids) (hy : y ∈ d.descendants n) : e.children y = d.children y := by
  rw [Document.children, Document.below, h.tree hn hy]
  rfl

end SameTree

end Xml.Document

/-! ## Fields are told by the tree -/

namespace Field

section SameTree

variable (h : SameTree n d e) (hn : n ∈ d.ids)
include h hn

theorem find?_eq_of_sameTree (hy : y ∈ d.descendants n) (name : String) :
    e.find? y name = d.find? y name := by
  rw [Document.find?, Document.find?, Document.below, Document.below, h.tree hn hy]

theorem attribute?_eq_of_sameTree (hy : y ∈ d.descendants n) (name : String) :
    e.attribute? y name = d.attribute? y name := by
  rw [Document.attribute?, Document.attribute?, node?, node?, h.tree hn hy]

theorem holdsMarker_eq_of_sameTree (hy : y ∈ d.descendants n) (kind : String) :
    holdsMarker e kind y = holdsMarker d kind y := by
  rw [holdsMarker, holdsMarker, h.tree hn hy]

theorem pictureName?_eq_of_sameTree (hy : y ∈ d.descendants n) :
    pictureName? e y = pictureName? d y := by
  rw [pictureName?, pictureName?, find?_eq_of_sameTree h hn hy]
  cases hz : d.find? y "pic:cNvPr" with
  | none => rfl
  | some z =>
    obtain ⟨entry, hentry, rfl⟩ := Option.map_eq_some_iff.1 hz
    have hbelow : entry.1 ∈ (d.below y).ids :=
      List.mem_map_of_mem (List.mem_of_find?_eq_some hentry)
    apply attribute?_eq_of_sameTree h hn
    exact h.distinct.mem_descendants_trans (mem_descendants_of_mem_below hbelow) hy

theorem joinedInstruction_eq_of_sameTree {nodes : List NodeId}
    (hnodes : ∀ y ∈ nodes, y ∈ d.descendants n) :
    joinedInstruction e nodes = joinedInstruction d nodes := by
  rw [joinedInstruction, joinedInstruction, List.map_flatMap, List.map_flatMap]
  congr 1
  refine List.flatMap_congr fun y hy => ?_
  have hsame : e.findAll y "w:instrText" = d.findAll y "w:instrText" := by
    rw [Document.findAll, Document.findAll, Document.below, Document.below, h.tree hn (hnodes y hy)]
  rw [hsame]
  refine List.map_congr_left fun z hz => ?_
  obtain ⟨entry, hentry, rfl⟩ := List.mem_map.1 hz
  have hbelow : entry.1 ∈ (d.below y).ids := List.mem_map_of_mem (List.mem_of_mem_filter hentry)
  rw [Document.text, Document.text, h.tree hn
    (h.distinct.mem_descendants_trans (mem_descendants_of_mem_below hbelow) (hnodes y hy))]

omit hn in
theorem followingElements_eq_of_sameTree (hy : y ∈ (d.below n).ids) :
    e.followingElements y = d.followingElements y := by
  rw [Document.followingElements, Document.followingElements, h.following hy]

theorem runsAfter_eq_of_sameTree (hy : y ∈ (d.below n).ids) : runsAfter e y = runsAfter d y := by
  have hmarker : ∀ z ∈ d.followingElements y, holdsMarker e "end" z = holdsMarker d "end" z := by
    intro z hz
    apply holdsMarker_eq_of_sameTree h hn (mem_descendants_of_mem_below _)
    exact h.distinct.mem_below_of_following hy
      (mem_ids_of_mem_topIds (mem_topIds_of_mem_followingElements hz))
  have hbefore : (d.followingElements y).takeWhile (fun z => !holdsMarker e "end" z) =
      (d.followingElements y).takeWhile fun z => !holdsMarker d "end" z :=
    takeWhile_congr fun z hz => by rw [hmarker z hz]
  rw [runsAfter, runsAfter, followingElements_eq_of_sameTree h hy,
    holdsMarker_eq_of_sameTree h hn (mem_descendants_of_mem_below hy)]
  simp only [hbefore]

/-- The field of a row of runs that stand strictly below the node. -/
theorem ofRuns_eq_of_sameTree {others : List NodeId}
    (hnodes : ∀ y ∈ first :: others, y ∈ (d.below n).ids) : ofRuns e first others = ofRuns d first others := by
  have hin : ∀ y ∈ first :: others, y ∈ d.descendants n := fun y hy =>
    mem_descendants_of_mem_below (hnodes y hy)
  have hfound : (first :: others).find? (holdsMarker e "separate") =
      (first :: others).find? (holdsMarker d "separate") :=
    List.find?_congr fun y hy => holdsMarker_eq_of_sameTree h hn (hin y hy) "separate"
  have hafter : afterSeparator? e (first :: others) = afterSeparator? d (first :: others) := by
    rw [afterSeparator?, afterSeparator?, hfound]
    cases hy : (first :: others).find? (holdsMarker d "separate") with
    | none => rfl
    | some y =>
      rw [Option.bind_some, Option.bind_some, nextElement?, nextElement?,
        followingElements_eq_of_sameTree h (hnodes y (List.mem_of_find?_eq_some hy))]
  have hdisplay : (afterSeparator? d (first :: others)).bind (display? e) =
      (afterSeparator? d (first :: others)).bind (display? d) := by
    refine Option.bind_congr fun z hz => ?_
    obtain ⟨y, hy, hnext⟩ := Option.bind_eq_some_iff.1 hz
    have hbelow : z ∈ (d.below n).ids :=
      h.distinct.mem_below_of_following (hnodes y (List.mem_of_find?_eq_some hy))
        (mem_ids_of_mem_topIds (mem_topIds_of_mem_followingElements (List.mem_of_head? hnext)))
    have hz' : z ∈ d.descendants n := mem_descendants_of_mem_below hbelow
    rw [display?, display?, find?_eq_of_sameTree h hn hz', find?_eq_of_sameTree h hn hz']
  rw [ofRuns, ofRuns, joinedInstruction_eq_of_sameTree h hn hin, hafter, hdisplay]

/-- A node begins the same field in both documents, unless it is a begin marker in the place of the
node itself or right below it. -/
theorem ofNode?_eq_of_sameTree {node : Node} (hy : y ∈ d.descendants n)
    (hmarker : isMarker "begin" node = true → ∃ p ∈ (d.below n).ids, y ∈ d.children p) :
    ofNode? e y node = ofNode? d y node := by
  have hsimple : ofSimple e y = ofSimple d y := by
    rw [ofSimple, ofSimple, attribute?_eq_of_sameTree h hn hy]
  have hname := pictureName?_eq_of_sameTree h hn hy
  have hdrawing : ofDrawing e y = ofDrawing d y := by rw [ofDrawing, ofDrawing, hname]
  have hruns : isMarker "begin" node = true →
      (e.parent? y).map (fun first => ofRuns e first (runsAfter e first)) =
        (d.parent? y).map fun first => ofRuns d first (runsAfter d first) := by
    intro hbegin
    obtain ⟨p, hp, hchild⟩ := hmarker hbegin
    have hin := mem_descendants_of_mem_below hp
    have hparent : d.parent? y = some p := h.distinct.mem_children_iff_parent?.1 hchild
    have hparent' : e.parent? y = some p :=
      h.distinct'.mem_children_iff_parent?.1 (h.children hn hin ▸ hchild)
    have hall : ∀ z ∈ p :: runsAfter d p, z ∈ (d.below n).ids := by
      refine List.forall_mem_cons.2 ⟨hp, fun z hz => ?_⟩
      exact h.distinct.mem_below_of_following hp
        (mem_ids_of_mem_topIds (mem_topIds_of_mem_followingElements (runsAfter_subset d p hz)))
    rw [hparent, hparent', Option.map_some, Option.map_some, runsAfter_eq_of_sameTree h hn hp,
      ofRuns_eq_of_sameTree h hn hall]
  unfold ofNode?
  rw [hsimple, hname, hdrawing]
  by_cases hbegin : isMarker "begin" node = true
  · rw [hruns hbegin]
  · rw [if_neg hbegin, if_neg hbegin]

/-- The same fields are found at and below a node that has the same tree in two documents, unless a
marker stands in its own place or right below it. -/
theorem discover_eq_of_sameTree (hplain : d.isNamed n "w:fldChar" = false)
    (hbelow : ∀ y ∈ d.children n, d.isNamed y "w:fldChar" = false) :
    discover e n = discover d n := by
  rw [discover, discover, h.tree_eq]
  refine List.filterMap_congr fun entry hentry => ?_
  obtain ⟨y, node⟩ := entry
  have hy : y ∈ d.descendants n := List.mem_map_of_mem hentry
  have hnode : d.node? y = some node := (h.distinct.shows_tree n).node? hentry
  dsimp only
  rw [ofNode?_eq_of_sameTree h hn hy fun hbegin => ?_]
  have hmarker : d.isNamed y "w:fldChar" = true := by
    rw [isNamed, name?, hnode]
    exact (Bool.and_eq_true_iff.1 hbegin).1
  -- A marker that is neither the node nor a child of it has its parent strictly below the node.
  have hne : y ≠ n := by
    rintro rfl
    rw [hplain] at hmarker
    cases hmarker
  have hin : y ∈ (d.below n).ids := ((mem_descendants_iff_below hn).1 hy).resolve_left hne
  obtain ⟨p, hp, hchild⟩ := h.distinct.exists_parent_of_mem_below hin
  refine ⟨p, ((mem_descendants_iff_below hn).1 hp).resolve_left ?_, hchild⟩
  rintro rfl
  rw [hbelow y hchild] at hmarker
  cases hmarker

end SameTree

/-- What a field says: its kind, its instruction and its directive. -/
def told (field : Field) : FieldKind × String × String :=
  (field.kind, field.instruction, field.expression)

@[simp] theorem told_rename (ρ : NodeId → NodeId) (field : Field) :
    (field.rename ρ).told = field.told := by
  obtain ⟨shape, instruction, expression⟩ := field
  cases shape <;> rfl

end Field

/-! ## Copies -/

namespace Xml.Document

/-- The tree of a node on its own. -/
def excerpt (d : Document) (n : NodeId) : Document := ⟨[d.tree n], [], n, d.next, none⟩

theorem Distinct.excerpt_apex (hd : d.Distinct) (hn : n ∈ d.ids) : (d.excerpt n).Apex n [] := by
  obtain ⟨s, hs⟩ := exists_site? hn
  have hids : (d.excerpt n).ids = d.descendants n := by simp [excerpt, ids, allRows, descendants]
  refine ⟨⟨hids ▸ hd.nodup_descendants n, ?_⟩, s.node, s.children, ?_⟩
  · intro x hx
    exact hd.numbered x (mem_ids_of_mem_descendants (hids ▸ hx))
  · rw [← show d.tree n = single n s.node s.children from tree_of_site? hs]
    exact .refl _

theorem Distinct.sameTree_excerpt (hd : d.Distinct) (hn : n ∈ d.ids) :
    SameTree n d (d.excerpt n) := by
  refine ⟨hd, (hd.excerpt_apex hn).distinct, ?_⟩
  have hrow := (hd.excerpt_apex hn).tree_mem
  simpa [excerpt, allRows] using hrow

theorem relabel_tree (hs : d.site? n = some s) (next : NodeId) :
    (d.tree n).relabel next = single next s.node (s.children.relabel (next + 1)) := by
  rw [tree_of_site? hs]
  rfl

theorem Distinct.copy_apex (hd : d.Distinct) (hn : n ∈ d.ids) :
    (d.copy n).2.Apex (d.copy n).1 d.allRows := by
  obtain ⟨s, hs⟩ := exists_site? hn
  refine ⟨hd.copy n, s.node, s.children.relabel (d.next + 1), ?_⟩
  rw [← show (d.tree n).relabel d.next = single (d.copy n).1 _ _ from relabel_tree hs d.next]
  exact .refl _

theorem Distinct.tree_copy (hd : d.Distinct) (hn : n ∈ d.ids) :
    (d.copy n).2.tree (d.copy n).1 = (d.tree n).relabel d.next := by
  obtain ⟨s, hs⟩ := exists_site? hn
  have hrow : single d.next s.node (s.children.relabel (d.next + 1)) ∈ (d.copy n).2.allRows := by
    rw [← relabel_tree hs]
    exact List.mem_cons_self
  have hsite : (d.copy n).2.site? d.next = some ⟨s.node, s.children.relabel (d.next + 1), .nil⟩ := by
    rw [(hd.copy n).site?_of_row hrow List.mem_cons_self, single, Forest.site?, if_pos rfl]
  rw [relabel_tree hs]
  exact tree_of_site? hsite

/-- A node of a later document is an independent copy of one of an earlier document. -/
structure CopyOf (d : Document) (n : NodeId) (e : Document) (y : NodeId) : Prop where
  parent : e.parent? y = none
  same : (e.tree y).bare = (d.tree n).bare
  new : ∀ z ∈ e.descendants y, z ∉ d.ids
  undisturbed : d.Undisturbed e

theorem WellFormed.copyOf (hd : d.WellFormed) (hn : n ∈ d.ids) :
    CopyOf d n (d.copy n).2 (d.copy n).1 where
  parent := (hd.copy_apex hn).parent?_self
  same := by rw [hd.tree_copy hn, bare_relabel]
  new z hz hmem := by
    rw [descendants, hd.tree_copy hn, ids_relabel] at hz
    exact Nat.not_lt.2 (List.mem_range'_1.1 hz).1 (hd.numbered z hmem)
  undisturbed := (hd.apart.copy n).undisturbed hd.toDistinct

theorem Distinct.told_discover_copy (hd : d.Distinct) (hn : n ∈ d.ids)
    (hplain : d.isNamed n "w:fldChar" = false)
    (hbelow : ∀ y ∈ d.children n, d.isNamed y "w:fldChar" = false) :
    (Field.discover (d.copy n).2 (d.copy n).1).map Field.told =
      (Field.discover d n).map Field.told := by
  -- The copy renames the excerpt, and the excerpt has the fields of the node.
  have hsame := hd.sameTree_excerpt hn
  have hbare : ((d.excerpt n).tree n).bare = ((d.copy n).2.tree (d.copy n).1).bare := by
    rw [hsame.tree_eq, hd.tree_copy hn, bare_relabel]
  obtain ⟨ρ, hρ, hrenamed⟩ := (hd.excerpt_apex hn).exists_renamed (hd.copy_apex hn) hbare
  rw [← hρ, Field.discover_rename hrenamed, List.map_map,
    Field.discover_eq_of_sameTree hsame hn hplain hbelow]
  apply List.map_congr_left
  intro field _
  exact field.told_rename ρ

/-- In a document that has been read and edited, a copy of a node stands on its own: it is written
like the node, and holds the same fields unless a marker stands in the place of the node or right below
it. The node is written as before whatever is done to the copy and elsewhere, as long as no node of
its own is named. -/
theorem copy_independent {text : String} (hparse : parse text = .ok c) (h : Edited c d)
    (hn : n ∈ d.ids) :
    CopyOf d n (d.copy n).2 (d.copy n).1 ∧
      (d.copy n).2.nodeMarkup (d.copy n).1 = d.nodeMarkup n ∧
      (d.isNamed n "w:fldChar" = false →
        (∀ y ∈ d.children n, d.isNamed y "w:fldChar" = false) →
        (Field.discover (d.copy n).2 (d.copy n).1).map Field.told =
          (Field.discover d n).map Field.told) ∧
      ∀ e, EditedOutside (d.descendants n) (d.copy n).2 e → e.nodeMarkup n = d.nodeMarkup n := by
  have hd : d.WellFormed := EditedOutside.wellFormed h (proper_of_parse hparse).toWellFormed
  have hspares := hd.apart.copy n
  have hkept : (d.copy n).2.tree n = d.tree n := hspares.apart.tree_eq hd.apart hn
  refine ⟨hd.copyOf hn, ?_, hd.told_discover_copy hn, fun e he => ?_⟩
  · rw [nodeMarkup, hd.tree_copy hn, markup_relabel]
    rfl
  · have hlater : n ∈ (d.copy n).2.ids := hspares.ids hn
    rw [show d.descendants n = (d.copy n).2.descendants n from congrArg Forest.ids hkept.symm] at he
    rw [nodeMarkup, nodeMarkup, he.tree_eq (hspares.wellFormed hd) hlater, hkept]

/-- A paragraph with a field. -/
def marked : Document where
  rows := [single 0 (.element ⟨"w:body", []⟩) (single 1 (.element ⟨"w:p", []⟩)
    (single 2 (.element ⟨"w:fldSimple", [⟨"w:instr", " MERGEFIELD =x \\* MERGEFORMAT "⟩]⟩) .nil))]
  aside := []
  root := 0
  next := 3
  declaration := none

/-- The paragraph gets an attribute and is copied; the copy loses its field, but the paragraph not. -/
theorem copy_independent_marked : ∃ d e,
    parse "<w:body><w:p><w:fldSimple w:instr=\" MERGEFIELD =x \\* MERGEFORMAT \"/></w:p></w:body>" =
      .ok marked ∧
    d = marked.setAttribute 1 "w:id" "7" ∧ Edited marked d ∧ 1 ∈ d.ids ∧
    CopyOf d 1 (d.copy 1).2 3 ∧ (d.copy 1).2.nodeMarkup 3 = d.nodeMarkup 1 ∧
    (Field.discover (d.copy 1).2 3).map Field.told =
      [(.simple, " MERGEFIELD =x \\* MERGEFORMAT ", "=x")] ∧
    e = (d.copy 1).2.setText 3 "gone" ∧ e.nodeMarkup 3 = "<w:p w:id=\"7\">gone</w:p>" ∧
    EditedOutside (d.descendants 1) (d.copy 1).2 e ∧ e.nodeMarkup 1 = d.nodeMarkup 1 := by
  have hparse : parse
      "<w:body><w:p><w:fldSimple w:instr=\" MERGEFIELD =x \\* MERGEFORMAT \"/></w:p></w:body>" =
        .ok marked := rfl
  have hedited : Edited marked (marked.setAttribute 1 "w:id" "7") :=
    .single ⟨.payload 1 (·.mapElement (·.setAttribute "w:id" "7")), by decide, by decide, rfl⟩
  obtain ⟨hcopy, hmarkup, hfields, hlater⟩ :=
    copy_independent hparse hedited (n := 1) (by decide)
  have hchanged : EditedOutside ((marked.setAttribute 1 "w:id" "7").descendants 1)
      ((marked.setAttribute 1 "w:id" "7").copy 1).2
      (((marked.setAttribute 1 "w:id" "7").copy 1).2.setText 3 "gone") :=
    .single ⟨.shape (.setText 3 "gone"), by decide, by decide, rfl⟩
  refine ⟨_, _, hparse, rfl, hedited, by decide, hcopy, hmarkup, ?_, rfl, by decide +kernel, hchanged,
    hlater _ hchanged⟩
  exact (hfields (by decide) (by decide)).trans (by decide +kernel)

end Xml.Document

end MailMerge
