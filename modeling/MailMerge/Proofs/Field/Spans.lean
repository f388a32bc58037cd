import Mathlib.Data.List.Flatten
import Mathlib.Data.List.Pairwise
import MailMerge.Proofs.Block.Span
import MailMerge.Proofs.Field.Discovery
import MailMerge.Proofs.Xml.Place

/-!
# Where complex fields end

A complex field goes from the run of its begin marker to the first run of the row that holds an end
marker, whichever field that marker ends; without one it takes in the whole row. It is therefore found
as a whole, with its own directive, where no other field ends in the row before it does, and where the
run right after the separator shows a text (`discover_complex`).
-/

namespace MailMerge

open Xml Xml.Forest

variable {d : Document} {x y z first last : NodeId} {inner others : List NodeId}

namespace Xml

/-- The nodes of a row are those of its trees. -/
theorem Document.Shows.flatMap_tree {f : Forest} (h : d.Shows f) :
    f.topIds.flatMap (fun y => (d.tree y).nodes) = f.nodes := by
  induction f with
  | nil => rfl
  | cons id node children rest _ ih =>
    rw [topIds_cons, List.flatMap_cons, h.tree_eq, ih h.later]
    simp [single, Forest.nodes]

/-- A node and its later siblings have no nodes in common. -/
theorem Document.Distinct.nodup_siblings (hd : d.Distinct) (x : NodeId) :
    ((x :: d.followingElements x).flatMap fun y => (d.tree y).nodes).Nodup := by
  rw [List.flatMap_cons]
  have hlater : ((d.followingElements x).flatMap fun y => (d.tree y).nodes).Sublist
      (d.following x).nodes := by
    rw [← (hd.shows_following x).flatMap_tree]
    exact (List.filter_sublist.map Prod.fst).flatMap _
  cases hs : d.site? x with
  | none =>
    rw [Document.tree_eq_site?, hs]
    exact ((hd.shows_following x).nodup.of_map _).sublist hlater
  | some s =>
    obtain ⟨row, hrow, hsite⟩ := Document.exists_row_of_site? hs
    have hnodup := ((hd.nodup_row hrow).of_map _).sublist (nodes_sublist_of_site? hsite)
    have htree : (d.tree x).nodes = (x, s.node) :: s.children.nodes := by
      rw [Document.tree_of_site? hs]
      simp [single, Forest.nodes]
    have hrest : d.following x = s.rest := by
      rw [Document.following_eq_site?, hs]
      rfl
    rw [htree, List.cons_append]
    refine hnodup.sublist (List.Sublist.cons_cons _ ((List.Sublist.refl _).append ?_))
    rw [← hrest]
    exact hlater

theorem Document.Distinct.eq_of_siblings (hd : d.Distinct) {a : NodeId}
    (hy : y ∈ x :: d.followingElements x) (hz : z ∈ x :: d.followingElements x)
    (hay : a ∈ d.descendants y) (haz : a ∈ d.descendants z) : y = z := by
  have hapart := (List.nodup_flatMap.1 (hd.nodup_siblings x)).2
  have hsymm : Std.Symm (Function.onFun List.Disjoint fun y => (d.tree y).nodes) :=
    ⟨fun _ _ h _ ha hb => h hb ha⟩
  obtain ⟨s, hs⟩ := Document.exists_site? (Document.mem_ids_of_mem_descendants hay)
  have hnode : d.node? a = some s.node := by rw [Document.node?_eq_site?, hs, Option.map_some]
  by_contra hne
  exact hapart.forall hy hz hne ((hd.shows_tree y).mem_nodes_iff.2 ⟨hay, hnode⟩)
    ((hd.shows_tree z).mem_nodes_iff.2 ⟨haz, hnode⟩)

end Xml

/-- What comes before a member of a list is before it wherever the list is cut in front of it. -/
theorem mem_left_of_append_eq {α : Type} {front back left right : List α} {a c : α}
    (h : front ++ back = left ++ c :: right) (hout : c ∉ front) (ha : a ∈ front) : a ∈ left := by
  rcases List.append_eq_append_iff.1 h with ⟨more, rfl, -⟩ | ⟨more, rfl, hmore⟩
  · exact List.mem_append_left _ ha
  · cases more with
    | nil => simpa using ha
    | cons m more =>
      rw [List.cons_append] at hmore
      obtain ⟨rfl, -⟩ := List.cons.inj hmore
      exact absurd (List.mem_append_right _ List.mem_cons_self) hout

theorem filterMap_eq_singleton {α β : Type} {xs : List α} {a : α} {b : β} {g : α → Option β}
    (hxs : xs.Nodup) (ha : a ∈ xs) (hg : g a = some b) (hother : ∀ c ∈ xs, c ≠ a → g c = none) :
    xs.filterMap g = [b] := by
  obtain ⟨before, after, rfl⟩ := List.append_of_mem ha
  obtain ⟨-, hafter, hdisj⟩ := List.nodup_append.1 hxs
  have hbefore : before.filterMap g = [] := by
    rw [List.filterMap_eq_nil_iff]
    intro c hc
    exact hother c (List.mem_append_left _ hc) fun heq => hdisj c hc a List.mem_cons_self heq
  have hlater : after.filterMap g = [] := by
    rw [List.filterMap_eq_nil_iff]
    intro c hc
    refine hother c (List.mem_append_right _ (List.mem_cons_of_mem _ hc)) fun heq => ?_
    exact (List.nodup_cons.1 hafter).1 (heq ▸ hc)
  rw [List.filterMap_append, hbefore, List.filterMap_cons_some hg, hlater, List.nil_append]

namespace Field

/-- All elements of a name below a node that does not have this name itself. -/
theorem findAll_eq_tree {name : String} (hself : d.isNamed y name = false) :
    d.findAll y name = ((d.tree y).nodes.filter (·.2.isNamed name)).map Prod.fst := by
  rw [Document.findAll, Document.below_eq_site?, Document.tree_eq_site?]
  cases hs : d.site? y with
  | none => rfl
  | some s =>
    have hnamed : s.node.isNamed name = false := by
      rw [Document.isNamed, Document.name?, Document.node?_eq_site?, hs] at hself
      exact hself
    simp [Site.tree, single, Forest.nodes, hnamed]

/-- A complex field that a node begins is that of the runs from the parent of the node on. -/
theorem eq_ofRuns_of_ofNode? {node : Node} {field : Field} (h : ofNode? d y node = some field)
    (hkind : field.kind = .complex) :
    isMarker "begin" node = true ∧ d.parent? y = some field.start ∧
      field = ofRuns d field.start (runsAfter d field.start) := by
  unfold ofNode? at h
  split at h
  · cases h
    cases hkind
  split at h
  next hbegins =>
    obtain ⟨first, hfirst, rfl⟩ := Option.map_eq_some_iff.1 h
    exact ⟨hbegins, hfirst, rfl⟩
  next =>
    split at h
    · cases h
      cases hkind
    · cases h

/-! ## Fields that are found as a whole -/

/-- A complex field in a row of runs, with its markers and all nodes of its runs in document order. No
other marker stands before its end marker, which is in its last run. The markers can share their runs
with one another and with anything else, but the end marker not with the other two. All instruction
texts stand between the begin marker and the separator, and the run after that of the separator shows a
text. -/
structure Layout (d : Document) where
  first : NodeId
  inner : List NodeId
  last : NodeId
  separator : NodeId
  display : NodeId
  opening : NodeId × Node
  divider : NodeId × Node
  closing : NodeId × Node
  before : List (NodeId × Node)
  instructions : List (NodeId × Node)
  shown : List (NodeId × Node)
  after : List (NodeId × Node)
  row : inner ++ [last] <+: d.followingElements first
  nodes : ((first :: (inner ++ [last])).flatMap fun y => (d.tree y).nodes) =
    before ++ opening :: (instructions ++ divider :: (shown ++ closing :: after))
  begins : isMarker "begin" opening.2 = true
  divides : isMarker "separate" divider.2 = true
  ends : isMarker "end" closing.2 = true
  unmarked : ∀ entry ∈ before ++ (instructions ++ shown), entry.2.isNamed "w:fldChar" = false
  opening_mem : d.parent? opening.1 = some first
  divider_mem : divider ∈ (d.tree separator).nodes
  closing_mem : closing ∈ (d.tree last).nodes
  separator_mem : separator ∈ first :: inner
  runs : ∀ y ∈ first :: (inner ++ [last]), d.isNamed y "w:instrText" = false
  instructed : ∀ entry ∈ before ++ (shown ++ after), entry.2.isNamed "w:instrText" = false
  next : d.nextElement? separator = some display
  displays : (d.find? display "w:t").isSome = true

namespace Layout

/-- The text between the begin marker and the separator. -/
def instruction (l : Layout d) : String :=
  String.join (((l.instructions.filter (·.2.isNamed "w:instrText")).map Prod.fst).map d.text)

/-- The field over all runs. -/
def field (l : Layout d) : Field :=
  ⟨.complex l.first (l.inner ++ [l.last]) (some l.display), l.instruction, directive l.instruction⟩

variable (l : Layout d)

theorem nodup (hd : d.Distinct) :
    ((l.first :: (l.inner ++ [l.last])).flatMap fun y => (d.tree y).nodes).Nodup := by
  obtain ⟨more, hrow⟩ := l.row
  have hall := hd.nodup_siblings l.first
  rw [← hrow, ← List.cons_append, List.flatMap_append] at hall
  exact (List.nodup_append.1 hall).1

/-- Before the last run there are no markers but the first two of the field. -/
theorem eq_of_mem_nodes (hd : d.Distinct) {y : NodeId} {entry : NodeId × Node}
    (hy : y ∈ l.first :: l.inner) (hentry : entry ∈ (d.tree y).nodes)
    (hmarker : entry.2.isNamed "w:fldChar" = true) : entry = l.opening ∨ entry = l.divider := by
  have hnodup := l.nodup hd
  have hsplit := l.nodes
  have hcut : ∀ tail : List (NodeId × Node), l.before ++ l.opening :: (l.instructions ++ l.divider ::
      (l.shown ++ tail)) = (l.before ++ l.opening :: (l.instructions ++ l.divider :: l.shown)) ++ tail :=
    fun tail => by simp
  rw [← List.cons_append, List.flatMap_append, List.flatMap_singleton] at hnodup hsplit
  rw [hcut] at hsplit
  have hclosing : l.closing ∉ (l.first :: l.inner).flatMap fun y => (d.tree y).nodes :=
    fun hin => (List.nodup_append.1 hnodup).2.2 _ hin _ l.closing_mem rfl
  have hleft := mem_left_of_append_eq hsplit hclosing (List.mem_flatMap.2 ⟨y, hy, hentry⟩)
  have hunmarked := l.unmarked entry
  rw [hmarker] at hunmarked
  simp only [List.mem_append, List.mem_cons] at hleft hunmarked
  rcases hleft with hleft | rfl | hleft | rfl | hleft
  · exact absurd (hunmarked (.inl hleft)) (by simp)
  · exact .inl rfl
  · exact absurd (hunmarked (.inr (.inl hleft))) (by simp)
  · exact .inr rfl
  · exact absurd (hunmarked (.inr (.inr hleft))) (by simp)

theorem holdsMarker_iff {kind : String} {y : NodeId} :
    holdsMarker d kind y = true ↔ ∃ entry ∈ (d.tree y).nodes, isMarker kind entry.2 = true := by
  rw [holdsMarker, List.any_eq_true]

theorem holds_end (hd : d.Distinct) (hy : y ∈ l.first :: l.inner) :
    holdsMarker d "end" y = false := by
  rw [Bool.eq_false_iff]
  intro hend
  obtain ⟨entry, hentry, hmarker⟩ := holdsMarker_iff.1 hend
  rcases l.eq_of_mem_nodes hd hy hentry (isNamed_of_isMarker hmarker) with rfl | rfl
  · rw [isMarker_of_ne l.begins (by decide)] at hmarker
    cases hmarker
  · rw [isMarker_of_ne l.divides (by decide)] at hmarker
    cases hmarker

theorem runsAfter_eq (hd : d.Distinct) : runsAfter d l.first = l.inner ++ [l.last] := by
  obtain ⟨more, hrow⟩ := l.row
  have hlast : holdsMarker d "end" l.last = true := holdsMarker_iff.2 ⟨_, l.closing_mem, l.ends⟩
  have hfollowing : d.followingElements l.first = l.inner ++ l.last :: more := by
    rw [← hrow]
    simp
  exact runsAfter_eq_append hfollowing (fun y hy => l.holds_end hd hy) hlast

/-- Only the run of the separator holds one, among those before the last one. -/
theorem eq_separator (hd : d.Distinct) (hy : y ∈ l.first :: l.inner)
    (hholds : holdsMarker d "separate" y = true) : y = l.separator := by
  obtain ⟨entry, hentry, hmarker⟩ := holdsMarker_iff.1 hholds
  have hdivider : entry = l.divider := by
    rcases l.eq_of_mem_nodes hd hy hentry (isNamed_of_isMarker hmarker) with rfl | rfl
    · rw [isMarker_of_ne l.begins (by decide)] at hmarker
      cases hmarker
    · rfl
  subst hdivider
  obtain ⟨more, hrow⟩ := l.row
  have hruns : ∀ z ∈ l.first :: l.inner, z ∈ l.first :: d.followingElements l.first := by
    intro z hz
    rw [← hrow, ← List.cons_append, ← List.cons_append]
    exact List.mem_append_left _ (List.mem_append_left _ hz)
  exact hd.eq_of_siblings (hruns y hy) (hruns _ l.separator_mem) (List.mem_map_of_mem hentry)
    (List.mem_map_of_mem l.divider_mem)

theorem afterSeparator?_eq (hd : d.Distinct) :
    afterSeparator? d (l.first :: (l.inner ++ [l.last])) = some l.display := by
  have hholds : holdsMarker d "separate" l.separator = true :=
    holdsMarker_iff.2 ⟨_, l.divider_mem, l.divides⟩
  have hsome : ((l.first :: l.inner).find? (holdsMarker d "separate")).isSome = true :=
    List.find?_isSome.2 ⟨_, l.separator_mem, hholds⟩
  obtain ⟨y, hfind⟩ := Option.isSome_iff_exists.1 hsome
  have hy := l.eq_separator hd (List.mem_of_find?_eq_some hfind) (List.find?_some hfind)
  rw [afterSeparator?, ← List.cons_append, List.find?_append, hfind, hy]
  exact l.next

theorem joinedInstruction_eq :
    joinedInstruction d (l.first :: (l.inner ++ [l.last])) = l.instruction := by
  have htexts : (l.first :: (l.inner ++ [l.last])).flatMap (d.findAll · "w:instrText") =
      (((l.first :: (l.inner ++ [l.last])).flatMap fun y => (d.tree y).nodes).filter
        (·.2.isNamed "w:instrText")).map Prod.fst := by
    rw [List.filter_flatMap, List.map_flatMap]
    exact List.flatMap_congr fun y hy => findAll_eq_tree (l.runs y hy)
  have hnone : (l.before ++ (l.shown ++ l.after)).filter (·.2.isNamed "w:instrText") = [] := by
    rw [List.filter_eq_nil_iff]
    intro entry hentry
    simp [l.instructed entry hentry]
  have hmarker : ∀ {kind : String} {node : Node}, isMarker kind node = true →
      node.isNamed "w:instrText" = false :=
    fun h => isNamed_of_ne (isNamed_of_isMarker h) (by decide)
  rw [joinedInstruction, htexts, l.nodes, instruction]
  rw [List.filter_append, List.filter_append, List.append_eq_nil_iff, List.append_eq_nil_iff] at hnone
  obtain ⟨hbefore, hshown, hafter⟩ := hnone
  simp only [List.filter_append, List.filter_cons, hmarker l.begins, hmarker l.divides,
    hmarker l.ends, hbefore, hshown, hafter, List.nil_append, List.append_nil, Bool.false_eq_true,
    if_false]

theorem ofRuns_eq (hd : d.Distinct) : ofRuns d l.first (runsAfter d l.first) = l.field := by
  have hdisplay : (display? d l.display).isSome = true := by
    rw [display?, Option.isSome_or, l.displays]
    rfl
  rw [l.runsAfter_eq hd, ofRuns, l.afterSeparator?_eq hd, l.joinedInstruction_eq, Option.bind_some, if_pos hdisplay]
  rfl

theorem node?_opening (hd : d.Distinct) : d.node? l.opening.1 = some l.opening.2 := by
  have hmem : l.opening ∈ (l.first :: (l.inner ++ [l.last])).flatMap fun y => (d.tree y).nodes := by
    rw [l.nodes]
    simp
  obtain ⟨y, -, hy⟩ := List.mem_flatMap.1 hmem
  exact (hd.shows_tree y).node? hy

/-- The begin marker of the field is the only one that stands right below its first run. -/
theorem eq_opening (hd : d.Distinct) {node : Node} (hnode : d.node? y = some node)
    (hbegins : isMarker "begin" node = true) (hparent : d.parent? y = some l.first) :
    (y, node) = l.opening := by
  have hin := Document.mem_descendants_of_mem_children (hd.mem_children_of_parent? hparent)
  have hentry : (y, node) ∈ (d.tree l.first).nodes :=
    (hd.shows_tree l.first).mem_nodes_iff.2 ⟨hin, hnode⟩
  rcases l.eq_of_mem_nodes hd List.mem_cons_self hentry (isNamed_of_isMarker hbegins) with h | h
  · exact h
  · have hdivides := l.divides
    rw [← h, isMarker_of_ne hbegins (by decide)] at hdivides
    cases hdivides

theorem ofNode?_opening (hd : d.Distinct) : ofNode? d l.opening.1 l.opening.2 = some l.field := by
  have hsimple : l.opening.2.isNamed "w:fldSimple" = false :=
    isNamed_of_ne (isNamed_of_isMarker l.begins) (by decide)
  rw [ofNode?, hsimple, l.begins, l.opening_mem]
  exact congrArg some (l.ofRuns_eq hd)

/-- The field is found once, by its begin marker. -/
theorem filter_discover (hd : d.Distinct) (hx : l.first ∈ d.descendants x)
    (hdirective : directive l.instruction ≠ "") :
    (discover d x).filter (fun field => field.kind = .complex ∧ field.start = l.first) =
      [l.field] := by
  have hvalid : l.field.isValid = true := by
    simpa [isValid, Layout.field, String.isEmpty_iff] using hdirective
  have hmem : l.opening ∈ (d.tree x).nodes := by
    refine (hd.shows_tree x).mem_nodes_iff.2 ⟨hd.mem_descendants_trans ?_ hx, l.node?_opening hd⟩
    exact Document.mem_descendants_of_mem_children (hd.mem_children_of_parent? l.opening_mem)
  rw [discover, List.filter_filterMap]
  refine filterMap_eq_singleton ((hd.shows_tree x).nodup.of_map _) hmem ?_ ?_
  · change ((ofNode? d l.opening.1 l.opening.2).filter isValid).filter _ = _
    rw [l.ofNode?_opening hd, Option.filter_some, if_pos hvalid, Option.filter_some]
    exact if_pos (decide_eq_true ⟨rfl, rfl⟩)
  · rintro ⟨y, node⟩ hentry hne
    have hnode := (hd.shows_tree x).node? hentry
    rw [Option.filter_eq_none_iff]
    intro field hfield hmatch
    obtain ⟨hkind, hstart⟩ := of_decide_eq_true hmatch
    obtain ⟨hbegins, hparent, -⟩ := eq_ofRuns_of_ofNode? (Option.filter_eq_some_iff.1 hfield).1 hkind
    exact hne (l.eq_opening hd hnode hbegins (hstart ▸ hparent))

end Layout

/-- A complex field is found once, as a whole and with its own directive, where it stands as a layout
tells. Whatever the markers of a document are, the runs of a complex field are the first ones of a row,
no run but the last one holds an end marker, and the last one holds an end marker if any run of the row
does. -/
theorem discover_complex (hd : d.Distinct) (x : NodeId) :
    (∀ l : Layout d, l.first ∈ d.descendants x → directive l.instruction ≠ "" →
      (discover d x).filter (fun field => field.kind = .complex ∧ field.start = l.first) =
        [l.field]) ∧
    ∀ field ∈ discover d x, field.kind = .complex →
      field.nodes <+: field.start :: d.followingElements field.start ∧
      (∀ y ∈ field.nodes.dropLast, holdsMarker d "end" y = false) ∧
      ((∃ y ∈ field.start :: d.followingElements field.start, holdsMarker d "end" y = true) →
        holdsMarker d "end" field.stop = true) := by
  refine ⟨fun l hx hdirective => l.filter_discover hd hx hdirective, fun field hfield hkind => ?_⟩
  obtain ⟨entry, -, hfound⟩ := List.mem_filterMap.1 hfield
  obtain ⟨-, -, heq⟩ := eq_ofRuns_of_ofNode? (Option.filter_eq_some_iff.1 hfound).1 hkind
  obtain ⟨hfirsts, hinner, hlast⟩ := runsAfter_spec d field.start
  have hnodes : field.nodes = field.start :: runsAfter d field.start := congrArg Field.nodes heq
  rw [hnodes]
  refine ⟨(List.cons_prefix_cons).2 ⟨rfl, hfirsts⟩, hinner, fun hsome => ?_⟩
  obtain ⟨y, hy, hend⟩ := hlast hsome
  have hstop : field.stop = y := by
    rw [stop, hnodes, List.getLastD_eq_getLast?, hy]
    rfl
  rw [hstop]
  exact hend

/-- A field marker of the given type. -/
def markerElement (kind : String) : Node := .element ⟨"w:fldChar", [⟨"w:fldCharType", kind⟩]⟩

/-- A paragraph with a field whose begin marker and separator share their runs with its instruction, and
whose end marker shares one with the begin marker of another field. -/
def sharedRuns : Document where
  rows := [.ofElement 0 "w:p"
    (.ofElement 1 "w:r" (.single 2 (markerElement "begin") .nil ++
        .ofElement 3 "w:instrText" (.single 4 (.text "MERGEFIELD =x ") .nil)) ++
      (.ofElement 5 "w:r" (.ofElement 6 "w:instrText" (.single 7 (.text "\\* MERGEFORMAT") .nil) ++
        .single 8 (markerElement "separate") .nil) ++
      (.ofElement 9 "w:r" (.ofElement 10 "w:t" (.single 11 (.text "x") .nil)) ++
      .ofElement 12 "w:r" (.single 13 (markerElement "end") .nil ++
        .single 14 (markerElement "begin") .nil))))]
  aside := []
  root := 0
  next := 15
  declaration := none

/-- How the first field stands there. -/
def sharedLayout : Layout sharedRuns where
  first := 1
  inner := [5, 9]
  last := 12
  separator := 5
  display := 9
  opening := (2, markerElement "begin")
  divider := (8, markerElement "separate")
  closing := (13, markerElement "end")
  before := [(1, .element ⟨"w:r", []⟩)]
  instructions := [(3, .element ⟨"w:instrText", []⟩), (4, .text "MERGEFIELD =x "),
    (5, .element ⟨"w:r", []⟩), (6, .element ⟨"w:instrText", []⟩), (7, .text "\\* MERGEFORMAT")]
  shown := [(9, .element ⟨"w:r", []⟩), (10, .element ⟨"w:t", []⟩), (11, .text "x"),
    (12, .element ⟨"w:r", []⟩)]
  after := [(14, markerElement "begin")]
  row := by decide
  nodes := by decide
  begins := by decide
  divides := by decide
  ends := by decide
  unmarked := by decide
  opening_mem := by decide
  divider_mem := by decide
  closing_mem := by decide
  separator_mem := by decide
  runs := by decide
  instructed := by decide
  next := by decide
  displays := by decide

theorem sharedRuns_distinct : sharedRuns.Distinct := ⟨by decide, by decide⟩

theorem sharedRuns_complex :
    (discover sharedRuns 0).filter (fun field => field.kind = .complex ∧ field.start = 1) =
      [⟨.complex 1 [5, 9, 12] (some 9), "MERGEFIELD =x \\* MERGEFORMAT", "=x"⟩] := by
  have hinstruction : sharedLayout.instruction = "MERGEFIELD =x \\* MERGEFORMAT" := by decide
  have hdirective : directive "MERGEFIELD =x \\* MERGEFORMAT" = "=x" := by decide +kernel
  have hfound := (discover_complex sharedRuns_distinct 0).1 sharedLayout (by decide)
    (by rw [hinstruction, hdirective]; decide)
  rw [Layout.field, hinstruction, hdirective] at hfound
  exact hfound

end Field

end MailMerge
