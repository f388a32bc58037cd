import MailMerge.Proofs.Content.Pieces
import MailMerge.Proofs.Field.Apart
import MailMerge.Proofs.Field.Spans
import MailMerge.Proofs.Xml.Exchange

/-!
# What is left of a complex field

A complex field is taken out run by run, whatever else stands in these runs. When a text takes its place,
the run after the first one with a separator stays, even where it does not belong to the field, and of it
all but the node that has displayed. Nothing else of the document is touched (`frame_complex`).
-/

namespace MailMerge

open Xml Xml.Forest

namespace Field

open Xml.Document

variable {w : Workspace} {d e : Document} {field : Field} {rest : List Forest}
variable {root x y t first after run : NodeId} {others : List NodeId}

/-- The node whose text a field displays. -/
def shown? (d : Document) (field : Field) : Option NodeId :=
  match field.shape with
  | .simple x => display? d x
  | .complex _ _ after => after.bind (display? d)
  | .image _ => none

/-- The runs that a text in the place of a field leaves no room for. -/
def cleared (field : Field) : List NodeId :=
  match field.shape with
  | .complex first others after => (first :: others).filter fun x => some x ≠ after
  | _ => []

/-! ## Complex fields that carry a directive -/

/-- A complex field with the run after its separator and the node in it that displays. Its runs are siblings
below some root. -/
structure Displays (d : Document) (root : NodeId) (field : Field) (first : NodeId)
    (others : List NodeId) (after t : NodeId) : Prop where
  shape : field.shape = .complex first others (some after)
  first_mem : first ∈ d.descendants root
  others_first : others <+: d.followingElements first
  after_mem : after ∈ d.followingElements first
  separates : afterSeparator? d (first :: others) = some after
  displays : display? d after = some t

/-- The run after the separator is a later sibling of the first run. -/
theorem mem_followingElements_of_afterSeparator? (hd : d.Distinct)
    (h : afterSeparator? d (first :: runsAfter d first) = some after) :
    after ∈ d.followingElements first := by
  obtain ⟨z, hz, hnext⟩ := Option.bind_eq_some_iff.1 h
  have hafter : after ∈ d.followingElements z := List.mem_of_head? hnext
  rcases List.mem_cons.1 (List.mem_of_find?_eq_some hz) with rfl | hlater
  · exact hafter
  · have hlater := (runsAfter_spec d first).1.subset hlater
    obtain ⟨n, hn, helement⟩ := hd.isElement_of_mem_followingElements hafter
    exact hd.mem_followingElements (hd.mem_following_trans (mem_topIds_of_mem_followingElements hlater)
      (mem_topIds_of_mem_followingElements hafter)) hn helement

/-- A complex field is only found where it displays something. -/
theorem exists_displays (ha : d.Apex root rest) (hfield : field ∈ discover d root)
    (hkind : field.kind = .complex) :
    ∃ first others after t, Displays d root field first others after t := by
  obtain ⟨⟨z, node⟩, hz, hfound⟩ := List.mem_filterMap.1 hfield
  obtain ⟨hof, hvalid⟩ := Option.filter_eq_some_iff.1 hfound
  obtain ⟨-, hparent, heq⟩ := eq_ofRuns_of_ofNode? hof hkind
  generalize field.start = first at hparent heq
  subst heq
  have hsome : ((afterSeparator? d (first :: runsAfter d first)).bind (display? d)).isSome = true := by
    by_contra hnone
    simp [isValid, ofRuns, hnone] at hvalid
  obtain ⟨t, ht⟩ := Option.isSome_iff_exists.1 hsome
  obtain ⟨after, hafter, ht⟩ := Option.bind_eq_some_iff.1 ht
  have hchild := mem_descendants_of_mem_children (ha.distinct.mem_children_of_parent? hparent)
  exact ⟨first, runsAfter d first, after, t,
    { shape := by rw [ofRuns, hafter]
      first_mem := ha.mem_of_mem_descendants (List.mem_map_of_mem hz) hchild
      others_first := (runsAfter_spec d first).1
      after_mem := mem_followingElements_of_afterSeparator? ha.distinct hafter
      separates := hafter
      displays := ht }⟩

namespace Displays

variable (h : Displays d root field first others after t)
include h

theorem nodes_eq : field.nodes = first :: others := by rw [nodes, h.shape]

theorem cleared_eq : field.cleared = (first :: others).filter fun x => some x ≠ some after := by
  rw [cleared, h.shape]

theorem shown?_eq : field.shown? d = some t := by
  rw [shown?, h.shape]
  exact h.displays

theorem mem_siblings (hrun : run ∈ field.nodes) : run ∈ first :: d.followingElements first := by
  rw [h.nodes_eq] at hrun
  exact List.cons_subset_cons _ h.others_first.subset hrun

theorem mem_cleared : run ∈ field.cleared ↔ run ∈ field.nodes ∧ run ≠ after := by
  rw [h.cleared_eq, h.nodes_eq, List.mem_filter]
  simp

variable (ha : d.Apex root rest)
include ha

theorem mem_descendants (hy : y ∈ first :: d.followingElements first) : y ∈ d.descendants root := by
  rcases List.mem_cons.1 hy with rfl | hy
  · exact h.first_mem
  · exact ha.mem_of_mem_following h.first_mem
      (mem_ids_of_mem_topIds (mem_topIds_of_mem_followingElements hy))

/-- The root is none of the siblings of a field. -/
theorem root_notMem (hy : y ∈ first :: d.followingElements first) : root ∉ d.descendants y := by
  have hfollows : ∀ z ∈ d.followingElements first, z ∈ (d.following first).ids := fun z hz =>
    mem_ids_of_mem_topIds (mem_topIds_of_mem_followingElements hz)
  intro hin
  have hroot : y = root := ha.distinct.mem_descendants_antisymm (h.mem_descendants ha hy) hin
  rcases List.mem_cons.1 hy with rfl | hy
  · exact ha.ne_of_mem_following (hfollows after h.after_mem) hroot
  · exact ha.notMem_following h.first_mem (hroot ▸ hfollows y hy)

theorem display_mem : t ∈ d.descendants root :=
  ha.distinct.mem_descendants_trans (mem_descendants_of_display? h.displays)
    (h.mem_descendants ha (List.mem_cons_of_mem _ h.after_mem))

theorem display_ne : t ≠ root := by
  rintro rfl
  exact h.root_notMem ha (List.mem_cons_of_mem _ h.after_mem) (mem_descendants_of_display? h.displays)

/-- The display stands in a run of its own. -/
theorem display_notMem (hrun : run ∈ field.cleared) :
    t ∉ d.descendants run ∧ run ∉ d.descendants t := by
  obtain ⟨hnode, hne⟩ := h.mem_cleared.1 hrun
  have hsibling := h.mem_siblings hnode
  have hafter := List.mem_cons_of_mem first h.after_mem
  have hdisplay := mem_descendants_of_display? h.displays
  have hself := mem_descendants_self (mem_ids_of_mem_descendants (h.mem_descendants ha hsibling))
  constructor
  · intro hin
    exact hne (ha.distinct.eq_of_siblings hsibling hafter hin hdisplay)
  · intro hin
    exact hne (ha.distinct.eq_of_siblings hsibling hafter hself
      (ha.distinct.mem_descendants_trans hin hdisplay))

end Displays

/-! ## The new text -/

/-- The pieces of a text stand in the place of the node that has displayed. -/
theorem replaceDisplay_exchanged (ha : w.document.Apex root rest) (ht : t ∈ w.document.descendants root)
    (hne : t ≠ root) (hx : display? w.document x = some t) (convert? : Option Converter) (s : String) :
    ∃ row left, replaceDisplay convert? x (.text s) w = .ok () left ∧
      w.document.Grows left.document ∧ w.document.Exchanged root t row left.document ∧
      row.text.toList = s.toList.filter fun c => !Content.isBreak c := by
  obtain ⟨r, look, node, shown, f, hholds, hself⟩ := ha.exists_holds ht hne
  obtain ⟨row, more, left, hreplace, hgrows, hrow, hleft⟩ := replaceDisplay_apply convert? s hholds hx
  refine ⟨row, left, hreplace, hgrows, hholds.exchanged hself hleft ha, ?_⟩
  obtain ⟨named, hnamed, hdisplay⟩ := node?_of_display? ha.distinct hx
  have hnode : named = node := by
    have hin : (t, node) ∈ (look ++ cons t node shown f).nodes := by simp [Forest.nodes]
    rw [hholds.shows.node? hin] at hnamed
    exact (Option.some.inj hnamed).symm
  cases named with
  | element tag =>
    rw [← text_bare, hrow, ← hnode]
    exact Content.text_pieces tag s
  | text content => cases hdisplay
  | cdata content => cases hdisplay

/-- A text takes the place of what the field displays, and then the other runs are taken out. -/
theorem Displays.replace_exchanged (h : Displays w.document root field first others after t)
    (ha : w.document.Apex root rest) (convert? : Option Converter) (s : String) :
    ∃ row e left, field.replace convert? (.text s) w = .ok () left ∧
      w.document.Grows e ∧ w.document.Exchanged root t row e ∧
      (row.text.toList = s.toList.filter fun c => !Content.isBreak c) ∧
      left.document = e.detachAll field.cleared := by
  obtain ⟨row, w', hreplace, hgrows, hexchanged, hrow⟩ :=
    replaceDisplay_exchanged ha (h.display_mem ha) (h.display_ne ha) h.displays convert? s
  refine ⟨row, w'.document, { w' with document := w'.document.detachAll field.cleared }, ?_,
    hgrows, hexchanged, hrow, rfl⟩
  unfold replace
  rw [h.shape, h.cleared_eq]
  exact Merge.bind_ok hreplace

/-! ## What is gone -/

/-- Removing a complex field takes out all of its runs, and nothing else. A text in its place takes out the
runs but the one after the separator, and of that one the node that has displayed. -/
theorem frame_complex (ha : w.document.Apex w.document.root rest)
    (hfield : field ∈ discover w.document w.document.root) (hkind : field.kind = .complex)
    (convert? : Option Converter) (s : String) :
    w.document.Lacks field.nodes (field.remove w.document) ∧
    ∃ t ∈ field.shown? w.document, ∃ left, field.replace convert? (.text s) w = .ok () left ∧
      w.document.Lacks (t :: field.cleared) left.document := by
  obtain ⟨first, others, after, t, h⟩ := exists_displays ha hfield hkind
  have hwell : w.document.WellFormed := ⟨ha.distinct, ha.mem_ids⟩
  have hout : ∀ run ∈ field.nodes, w.document.root ∉ w.document.descendants run := fun run hrun =>
    h.root_notMem ha (h.mem_siblings hrun)
  have hruns : ∀ run ∈ field.cleared, run ∈ field.nodes := fun run hrun => (h.mem_cleared.1 hrun).1
  have hremove : field.remove w.document = w.document.detachAll field.nodes := by
    rw [remove, h.shape, h.nodes_eq]
  refine ⟨hremove ▸ hwell.detachAll_lacks hout, t, h.shown?_eq, ?_⟩
  obtain ⟨row, e, left, hreplace, hgrows, hexchanged, -, hleft⟩ := h.replace_exchanged ha convert? s
  refine ⟨left, hreplace, hleft ▸ hexchanged.detachAll_lacks ha.distinct hgrows.root ?_ ?_ ?_⟩
  · exact fun run hrun => h.mem_descendants ha (h.mem_siblings (hruns run hrun))
  · exact fun run hrun => hout run (hruns run hrun)
  · exact fun run hrun => h.display_notMem ha hrun

/-- A paragraph with a field whose separator, displayed text and end marker share a run, and with text after
this run. -/
def sharedEnd : Document where
  rows := [.ofElement 0 "w:p"
    (.ofElement 1 "w:r" (.single 2 (markerElement "begin") .nil) ++
      (.ofElement 3 "w:r" (.ofElement 4 "w:instrText"
        (.single 5 (.text "MERGEFIELD =x \\* MERGEFORMAT") .nil)) ++
      (.ofElement 6 "w:r" (.single 7 (markerElement "separate") .nil ++
        (.ofElement 8 "w:t" (.single 9 (.text "x") .nil) ++ .single 10 (markerElement "end") .nil)) ++
      .ofElement 11 "w:r" (.ofElement 12 "w:t" (.single 13 (.text "after") .nil)))))]
  aside := []
  root := 0
  next := 14
  declaration := none

/-- The field there. -/
def sharedEndField : Field :=
  ⟨.complex 1 [3, 6] (some 11), "MERGEFIELD =x \\* MERGEFORMAT", "=x"⟩

theorem sharedEnd_apex : sharedEnd.Apex 0 [] :=
  ⟨⟨by decide, by decide⟩, _, _, .refl _⟩

/-- Removing the field there leaves the text after it, and replacing it does not. -/
theorem sharedEnd_frame :
    sharedEndField ∈ discover sharedEnd 0 ∧ (sharedEndField.remove sharedEnd).isAttached 12 = true ∧
      ∃ left, sharedEndField.replace none (.text "new") ⟨sharedEnd, {}, {}⟩ = .ok () left ∧
        left.document.isAttached 12 = false ∧ left.document.isAttached 11 = true := by
  have hfield : sharedEndField ∈ discover sharedEnd 0 := by decide +kernel
  obtain ⟨hremove, t, ht, left, hreplace, hleft⟩ := frame_complex (w := ⟨sharedEnd, {}, {}⟩)
    sharedEnd_apex hfield rfl none "new"
  have hshown : t = 12 := by
    have hdisplay : sharedEndField.shown? sharedEnd = some 12 := by decide
    exact Option.some.inj (ht.symm.trans hdisplay)
  subst hshown
  refine ⟨hfield, (hremove.attached 12 (by decide)).2 (by decide), left, hreplace, ?_, ?_⟩
  · rw [← Bool.not_eq_true, hleft.attached 12 (by decide)]
    exact fun hout => hout 12 List.mem_cons_self (by decide)
  · exact (hleft.attached 11 (by decide)).2 (by decide)

end Field

end MailMerge
