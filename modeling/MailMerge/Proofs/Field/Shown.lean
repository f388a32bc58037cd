import MailMerge.Proofs.Field.Frame

/-!
# Text in the place of a field

Main statement: a field is exchanged for a text without its line breaks, but of what the field has held
only the first text is exchanged (`replace_text`). The rest of a simple field stays, and so does what
stands beside this text in the run after the separator of a complex field. The text has the whole place of
the field to itself just where nothing else in it has characters.
-/

namespace MailMerge

open Xml Xml.Forest

/-! ## Rows of siblings -/

namespace Xml

variable {d : Document} {f g : Forest} {x y root : NodeId} {rest : List Forest} {s : Site}

/-- The siblings of a row that are elements. -/
def Forest.elementIds (f : Forest) : List NodeId := (f.tops.filter (·.2.isElement)).map Prod.fst

theorem Forest.elementIds_subset (f : Forest) : f.elementIds ⊆ f.topIds :=
  (List.filter_sublist.map Prod.fst).subset

theorem Forest.elementIds_append (f g : Forest) :
    (f ++ g).elementIds = f.elementIds ++ g.elementIds := by
  induction f with
  | nil => rfl
  | cons id node children rest _ ih =>
    rw [elementIds, elementIds, cons_append, tops, tops, List.filter_cons, List.filter_cons]
    split
    · exact congrArg (id :: ·) ih
    · exact ih

/-- A row can be cut right after each of its elements. -/
theorem Forest.exists_append_of_prefix {xs : List NodeId} (h : xs <+: f.elementIds) :
    ∃ g k, f = g ++ k ∧ g.elementIds = xs ∧ g.topIds.getLast? = xs.getLast? := by
  induction f generalizing xs with
  | nil => exact ⟨.nil, .nil, rfl, (List.prefix_nil.1 h).symm, by rw [List.prefix_nil.1 h]; rfl⟩
  | cons id node children rest _ ih =>
    cases xs with
    | nil => exact ⟨.nil, _, rfl, rfl, rfl⟩
    | cons a xs =>
      rw [elementIds, tops, List.filter_cons] at h
      split at h
      next helement =>
        obtain ⟨rfl, hlater⟩ := List.cons_prefix_cons.1 h
        obtain ⟨g, k, rfl, helements, hlast⟩ := ih hlater
        refine ⟨cons a node children g, k, rfl, ?_, ?_⟩
        · rw [elementIds, tops, List.filter_cons, if_pos helement]
          exact congrArg (a :: ·) helements
        · rw [topIds_cons, List.getLast?_cons, List.getLast?_cons, hlast]
      next helement =>
        obtain ⟨g, k, rfl, helements, hlast⟩ := ih h
        refine ⟨cons id node children g, k, rfl, ?_, ?_⟩
        · rw [elementIds, tops, List.filter_cons, if_neg helement]
          exact helements
        · rw [topIds_cons, List.getLast?_cons, hlast, List.getLast?_cons, Option.getD_some]

namespace Document

/-- The elements after one that follows a node are those after it in the row. -/
theorem Distinct.followingElements_of_append (hd : d.Distinct) {before after : List NodeId}
    (h : x :: d.followingElements x = before ++ y :: after) : d.followingElements y = after := by
  cases before with
  | nil =>
    obtain ⟨rfl, hafter⟩ := List.cons.inj h
    exact hafter
  | cons z before =>
    have hlater : d.followingElements x = before ++ y :: after := (List.cons.inj h).2
    have hy : y ∈ d.followingElements x := by simp [hlater]
    obtain ⟨f, n, children, hrow⟩ :=
      hd.exists_following_eq_append (mem_topIds_of_mem_followingElements hy)
    obtain ⟨n', hn', helement⟩ := hd.isElement_of_mem_followingElements hy
    have hn : d.node? y = some n := (hd.shows_following x).node? (by simp [hrow, Forest.nodes])
    cases hn.symm.trans hn'
    have hnodup : (d.followingElements x).Nodup :=
      (hd.nodup_following x).sublist ((List.filter_sublist.map Prod.fst).trans (topIds_sublist _))
    have hsplit : d.followingElements x = f.elementIds ++ y :: (d.following y).elementIds := by
      have hself : (cons y n children (d.following y)).elementIds =
          y :: (d.following y).elementIds := by
        rw [elementIds, tops, List.filter_cons, if_pos helement]
        rfl
      rw [← hself, ← elementIds_append, ← hrow]
      rfl
    exact (eq_of_nodup_append (hsplit ▸ hnodup) (hsplit.symm.trans hlater)).2

theorem Shows.exists_nodes_eq_append (h : d.Shows f) (hx : x ∈ f.ids) :
    ∃ before after, f.nodes = before ++ ((d.tree x).nodes ++ after) := by
  obtain ⟨s, hs⟩ := Forest.exists_site? hx
  obtain ⟨before, after, hnodes⟩ := Forest.exists_nodes_eq_append hs
  refine ⟨before, s.rest.nodes ++ after, ?_⟩
  rw [hnodes, h.tree_eq_site hs]
  simp [Site.tree, single, Forest.nodes]

/-- A node is shown with its siblings after it. -/
theorem Distinct.shows_row (hd : d.Distinct) (hs : d.site? x = some s) :
    d.Shows (cons x s.node s.children s.rest) := by
  refine ⟨fun y t ht => ?_, ?_⟩
  · rw [Forest.site?] at ht
    split at ht
    next heq =>
      cases ht
      exact ⟨s, heq ▸ hs, rfl, rfl⟩
    next =>
      rcases Option.or_eq_some_iff.1 ht with ht | ⟨-, ht⟩
      · exact hd.has_children hs y t ht
      · exact hd.has_rest hs y t ht
  · have hnodup := nodup_of_site? hd.nodup_forest (hd.forest_site? hs)
    rwa [ids_cons]

end Document

end Xml

namespace Field

open Xml.Document

variable {w : Workspace} {d : Document} {field : Field} {rest : List Forest}
variable {root x t first after : NodeId} {others : List NodeId} {row : Forest}
variable {before behind look more : List (NodeId × Node)}

/-- The row of siblings from the first node of a field to the last one, between the nodes of a tree that
come before and after the field. -/
structure Spans (d : Document) (root : NodeId) (field : Field) (before : List (NodeId × Node))
    (row : Forest) (behind : List (NodeId × Node)) : Prop where
  shows : d.Shows row
  first : row.topIds.head? = some field.start
  last : row.topIds.getLast? = some field.stop
  runs : field.nodes ⊆ row.topIds
  nodes : (d.tree root).nodes = before ++ (row.nodes ++ behind)

/-- A complex field ends with its last run, and its separators share no run with an end marker. -/
def Closed (d : Document) (field : Field) : Prop :=
  field.kind = .complex → holdsMarker d "end" field.stop = true ∧
    ∀ run ∈ field.nodes, holdsMarker d "separate" run = true → holdsMarker d "end" run = false

/-- A node that is still there when a text has taken the place of a field. -/
def Keeps (d : Document) (field : Field) (y : NodeId) : Prop :=
  ∀ run ∈ field.cleared, y ∉ d.descendants run

instance : DecidablePred (field.Keeps d) := fun _ => List.decidableBAll _ _

/-- The characters of a text, but for its line breaks, between those of some nodes. -/
def between (before : List (NodeId × Node)) (s : String) (behind : List (NodeId × Node)) : List Char :=
  characters before ++ ((s.toList.filter fun c => !Content.isBreak c) ++ characters behind)

/-- The nodes with the text that a field displays. -/
def shownNodes (d : Document) (field : Field) : List (NodeId × Node) :=
  ((field.shown? d).map fun t => (d.tree t).nodes).getD []

theorem spans_simple (ha : d.Apex root rest) (hshape : field.shape = .simple x)
    (hx : x ∈ d.descendants root) :
    ∃ before behind, Spans d root field before (d.tree x) behind := by
  obtain ⟨before, behind, hnodes⟩ := (ha.distinct.shows_tree root).exists_nodes_eq_append hx
  obtain ⟨s, hs⟩ := exists_site? (mem_ids_of_mem_descendants hx)
  have htop : (d.tree x).topIds = [x] := by rw [tree_of_site? hs]; rfl
  have hself : field.nodes = [x] ∧ field.start = x := by
    rw [Field.nodes, start, hshape]
    exact ⟨rfl, rfl⟩
  refine ⟨before, behind, ha.distinct.shows_tree x, ?_, ?_, ?_, hnodes⟩
  · rw [htop, hself.2]
    rfl
  · rw [htop, stop, hself.1]
    rfl
  · rw [htop, hself.1]
    exact List.Subset.refl _

namespace Displays

variable (h : Displays d root field first others after t)
include h

theorem exists_spans (ha : d.Apex root rest) :
    ∃ before row behind, Spans d root field before row behind := by
  obtain ⟨g, k, hrow, helements, hlast⟩ := exists_append_of_prefix (f := d.following first) h.others_first
  obtain ⟨s, hs⟩ := Forest.exists_site? h.first_mem
  have hsite : d.site? first = some s := by
    rw [ha.distinct.site?_of_row ha.tree_mem h.first_mem, hs]
  have hrest : s.rest = g ++ k := by
    rw [← hrow, following_eq_site?, hsite]
    rfl
  have hshows := ha.distinct.shows_row hsite
  rw [hrest, ← cons_append] at hshows
  obtain ⟨before, behind, hnodes⟩ := exists_nodes_eq_append hs
  refine ⟨before, cons first s.node s.children g, k.nodes ++ behind, hshows.left, ?_, ?_, ?_, ?_⟩
  · rw [topIds_cons, List.head?_cons, start, h.shape]
  · rw [topIds_cons, List.getLast?_cons, hlast, stop, h.nodes_eq, List.getLastD_eq_getLast?, List.getLast?_cons]
    rfl
  · rw [h.nodes_eq, topIds_cons, ← helements]
    exact List.cons_subset_cons _ g.elementIds_subset
  · rw [hnodes, hrest, nodes_append]
    simp [Forest.nodes]

/-- The run after the separator belongs to a closed field. -/
theorem after_mem_nodes (hd : d.Distinct) (hclosed : field.Closed d) : after ∈ field.nodes := by
  obtain ⟨hends, hparted⟩ := hclosed (by rw [kind, h.shape]; rfl)
  obtain ⟨z, hz, hnext⟩ := Option.bind_eq_some_iff.1 h.separates
  obtain ⟨hseparates, firsts, later, hsplit, -⟩ := List.find?_eq_some_iff_append.1 hz
  obtain ⟨more, hmore⟩ := h.others_first
  have hnodes : field.nodes = firsts ++ z :: later := h.nodes_eq.trans hsplit
  have hrow : first :: d.followingElements first = firsts ++ z :: (later ++ more) := by
    rw [← hmore, ← List.cons_append, hsplit]
    simp
  have hfollows := hd.followingElements_of_append hrow
  cases later with
  | nil =>
    -- the separator would be in the last run
    have hstop : field.stop = z := by
      rw [stop, List.getLastD_eq_getLast?, hnodes, List.getLast?_concat]
      rfl
    have hopen := hparted z (by simp [hnodes]) hseparates
    rw [← hstop, hends] at hopen
    cases hopen
  | cons y later =>
    rw [nextElement?, hfollows] at hnext
    cases Option.some.inj hnext
    rw [hnodes]
    simp

end Displays

theorem cleared_subset (field : Field) : field.cleared ⊆ field.nodes := by
  unfold cleared nodes
  cases field.shape with
  | simple => exact List.nil_subset _
  | complex => exact List.filter_sublist.subset
  | image => exact List.nil_subset _

/-- What comes before and after a field stays. -/
theorem Spans.keeps (h : Spans d root field before row behind) (hd : d.Distinct)
    {entry : NodeId × Node} (hentry : entry ∈ before ∨ entry ∈ behind) : field.Keeps d entry.1 := by
  intro run hrun hin
  have hnodup := hd.nodup_descendants root
  have hrow : entry.1 ∈ row.ids :=
    (h.shows.has.mem_ids_iff h.shows.nodup).2 ⟨run, h.runs (field.cleared_subset hrun), hin⟩
  rw [descendants_of_nodes h.nodes] at hnodup
  obtain ⟨-, hright, hleft⟩ := List.nodup_append.1 hnodup
  rcases hentry with hentry | hentry
  · exact hleft _ (List.mem_map_of_mem hentry) _ (List.mem_append_left _ hrow) rfl
  · exact (List.nodup_append.1 hright).2.2 _ hrow _ (List.mem_map_of_mem hentry) rfl

/-! ## Complex fields -/

/-- Of a complex field what stands in the run of its display stays, but for the display itself. -/
theorem Displays.text_replace (h : Displays w.document root field first others after t)
    (ha : w.document.Apex root rest) (hclosed : field.Closed w.document)
    (convert? : Option Converter) (s : String) :
    ∃ before row behind look more left, Spans w.document root field before row behind ∧
      row.nodes = look ++ ((w.document.tree t).nodes ++ more) ∧
      field.replace convert? (.text s) w = .ok () left ∧
      (left.document.text root).toList =
        between (before ++ look.filter fun entry => field.Keeps w.document entry.1) s
          ((more.filter fun entry => field.Keeps w.document entry.1) ++ behind) := by
  obtain ⟨before, row, behind, hspans⟩ := h.exists_spans ha
  have hd := ha.distinct
  have ht : t ∈ row.ids := (hspans.shows.has.mem_ids_iff hspans.shows.nodup).2
    ⟨after, hspans.runs (h.after_mem_nodes hd hclosed), mem_descendants_of_display? h.displays⟩
  obtain ⟨look, more, hsplit⟩ := hspans.shows.exists_nodes_eq_append ht
  obtain ⟨new, e, left, hreplace, -, hexchanged, hnew, hleft⟩ := h.replace_exchanged ha convert? s
  refine ⟨before, row, behind, look, more, left, hspans, hsplit, hreplace, ?_⟩
  have hplace : (w.document.tree root).nodes =
      (before ++ look) ++ ((w.document.tree t).nodes ++ (more ++ behind)) := by
    simp [hspans.nodes, hsplit]
  have hnodes := hexchanged.nodes_eq hd (mem_ids_of_mem_descendants (h.display_mem ha)) hplace
  -- The cleared runs are siblings of the display, so that neither encloses the other.
  have hruns : ∀ run ∈ field.cleared, run ∈ w.document.descendants root ∧
      root ∉ w.document.descendants run := by
    intro run hrun
    have hsibling := h.mem_siblings (field.cleared_subset hrun)
    exact ⟨h.mem_descendants ha hsibling, h.root_notMem ha hsibling⟩
  have hsame : ∀ run ∈ field.cleared, e.descendants run = w.document.descendants run := by
    intro run hrun
    obtain ⟨hrt, htr⟩ := h.display_notMem ha hrun
    exact congrArg Forest.ids (hexchanged.tree run (hruns run hrun).1 hrt htr)
  have hkept : ∀ entry : NodeId × Node,
      (∀ run ∈ field.cleared, entry.1 ∉ e.descendants run) ↔ field.Keeps w.document entry.1 :=
    fun entry => forall₂_congr fun run hrun => by rw [hsame run hrun]
  have hall : ∀ nodes : List (NodeId × Node), (∀ entry ∈ nodes, field.Keeps w.document entry.1) →
      (nodes.filter fun entry => field.Keeps w.document entry.1) = nodes := by
    intro nodes hnodes
    rw [List.filter_eq_self]
    intro entry hentry
    exact decide_eq_true (hnodes entry hentry)
  have hrow : ∀ entry ∈ new.nodes, field.Keeps w.document entry.1 := by
    intro entry hentry run hrun hin
    refine hexchanged.new entry.1 (List.mem_map_of_mem hentry) ?_
    exact hd.mem_descendants_trans hin (hruns run hrun).1
  rw [hleft, Document.text, toList_text, hexchanged.distinct.nodes_detachAll fun run hrun =>
    hsame run hrun ▸ (hruns run hrun).2]
  simp only [hkept, hnodes, List.filter_append, characters_append]
  rw [hall before fun _ hentry => hspans.keeps hd (.inl hentry),
    hall behind fun _ hentry => hspans.keeps hd (.inr hentry), hall new.nodes hrow,
    ← toList_text, hnew]
  simp [between]

/-! ## Simple fields -/

/-- A node that displays nothing gets an empty run at its end. -/
theorem ensureDisplay_holds {around f : Forest} (h : w.document.Holds around x f rest)
    (hnone : display? w.document x = none) :
    ∃ run text e, ensureDisplay x w = .ok () { w with document := e } ∧
      display? e x = some text ∧
      e.Holds around x (f ++ single run (.element ⟨"w:r", []⟩)
        (single text (.element ⟨"w:t", []⟩) .nil)) rest := by
  have hrun := (h.create (.element ⟨"w:r", []⟩)).turn.create (.element ⟨"w:t", []⟩)
  generalize hc : ((w.document.create (.element ⟨"w:r", []⟩)).2.create
    (.element ⟨"w:t", []⟩)).2 = c at hrun
  obtain ⟨d, hmove, -, hfilled⟩ := hrun.appendTree
  obtain ⟨e, hmove', -, hholds⟩ := (hfilled.turnBack h.mem).appendTree
  refine ⟨_, _, e, ?_, ?_, hholds⟩
  · have hfirst : Merge.move (·.appendChild w.document.next (w.document.next + 1))
        { w with document := c } = .ok () { w with document := d } := Merge.move_ok hmove
    have hsecond : Merge.move (·.appendChild x w.document.next) { w with document := d } =
        .ok () { w with document := e } := Merge.move_ok hmove'
    unfold ensureDisplay
    rw [Merge.document_bind, hnone]
    rw [← hc] at hfirst
    exact (Merge.bind_ok hfirst).trans hsecond
  · have hf : f.nodes.find? (·.2.isNamed "w:t") = none := by
      have hfind := (Option.or_eq_none_iff.1 hnone).1
      rwa [Document.find?, h.below, Option.map_eq_none_iff] at hfind
    rw [display?, Document.find?, hholds.below, nodes_append, List.find?_append, hf]
    rfl

/-- A text is filled in where a simple field displays another one. -/
theorem fill_display (ha : w.document.Apex root rest) (hx : x ∈ w.document.descendants root)
    (ht : display? w.document x = some t)
    (hnodes : (w.document.tree root).nodes = before ++ ((w.document.tree x).nodes ++ behind))
    (convert? : Option Converter) (s : String) :
    ∃ look more left, replaceDisplay convert? x (.text s) w = .ok () left ∧
      (w.document.tree x).nodes = look ++ ((w.document.tree t).nodes ++ more) ∧
      (∃ rest', left.document.Apex root rest') ∧
      (∀ entry ∈ before ++ look, entry ∈ (left.document.tree root).nodes) ∧
      (left.document.text root).toList = between (before ++ look) s (more ++ behind) := by
  have htx : t ∈ w.document.descendants x := mem_descendants_of_display? ht
  have hin := ha.distinct.mem_descendants_trans htx hx
  have hne : t ≠ root := by
    rintro rfl
    have hsame : x = t := ha.distinct.mem_descendants_antisymm hx htx
    exact ha.distinct.notMem_below_self t (mem_below_of_display? (hsame ▸ ht))
  obtain ⟨row, left, hreplace, -, hexchanged, hrow⟩ :=
    replaceDisplay_exchanged ha hin hne ht convert? s
  obtain ⟨look, more, hsplit⟩ := (ha.distinct.shows_tree x).exists_nodes_eq_append htx
  have hplace : (w.document.tree root).nodes =
      (before ++ look) ++ ((w.document.tree t).nodes ++ (more ++ behind)) := by
    simp [hnodes, hsplit]
  have hleft := hexchanged.nodes_eq ha.distinct (mem_ids_of_mem_descendants hin) hplace
  refine ⟨look, more, left, hreplace, hsplit, hexchanged.apex, ?_, ?_⟩
  · intro entry hentry
    rw [hleft]
    exact List.mem_append_left _ hentry
  · rw [Document.text, toList_text, hleft, characters_append, characters_append row.nodes,
      ← toList_text row, hrow]
    rfl

/-- A text is filled in at the end of a simple field that displays nothing. -/
theorem fill_empty (ha : w.document.Apex root rest) (hx : x ∈ w.document.descendants root)
    (hnone : display? w.document x = none)
    (hnodes : (w.document.tree root).nodes = before ++ ((w.document.tree x).nodes ++ behind))
    (convert? : Option Converter) (s : String) :
    ∃ middle left, ensureDisplay x w = .ok () middle ∧
      replaceDisplay convert? x (.text s) middle = .ok () left ∧
      (∃ rest', left.document.Apex root rest') ∧
      (∀ entry ∈ before ++ (w.document.tree x).nodes, entry ∈ (left.document.tree root).nodes) ∧
      (left.document.text root).toList =
        between (before ++ (w.document.tree x).nodes) s behind := by
  obtain ⟨u, hu⟩ := Forest.exists_site? hx
  have hsite : w.document.site? x = some u := by
    rw [ha.distinct.site?_of_row ha.tree_mem hx, hu]
  have htree : w.document.tree x = u.tree x := tree_of_site? hsite
  have hinner : (w.document.tree x).nodes = (x, u.node) :: (w.document.below x).nodes := by
    rw [nodes_tree hsite, below_eq_site?, hsite]
    rfl
  obtain ⟨run, text, middle, hensure, hfound, hfilled⟩ :=
    ensureDisplay_holds (ha.holds_below hx).1 hnone
  have hempty : middle.Holds ((w.document.tree root).refill x
      (w.document.below x ++ single run (.element ⟨"w:r", []⟩) .nil)) run
      (.nil ++ cons text (.element ⟨"w:t", []⟩) .nil .nil) rest := hfilled.inner_iff.2 hfilled
  obtain ⟨row, more, left, hreplace, -, hrow, hholds⟩ :=
    replaceDisplay_apply (w := { w with document := middle }) convert? s hempty hfound
  have hleft := hfilled.inner_iff.1 hholds
  obtain ⟨hapex, htree'⟩ := hleft.apex_tree ha
  -- The new run comes behind all that the field held, and before what stood behind the field.
  have hfinal : (left.document.tree root).nodes = before ++ (w.document.tree x).nodes ++
      ((run, .element ⟨"w:r", []⟩) :: (row.nodes ++ behind)) := by
    rw [htree', nodes_refill (ha.distinct.shows_tree root).nodup hu (htree ▸ hnodes), hinner]
    simp [Forest.nodes]
  refine ⟨_, left, hensure, hreplace, ⟨_, hapex⟩, ?_, ?_⟩
  · intro entry hentry
    rw [hfinal]
    exact List.mem_append_left _ hentry
  · have hpieces : row.text.toList = s.toList.filter fun c => !Content.isBreak c := by
      rw [← text_bare, hrow]
      exact Content.text_pieces _ s
    rw [Document.text, toList_text, hfinal, characters_append, characters_cons,
      characters_append row.nodes, ← toList_text row, hpieces]
    rfl

theorem exists_simple (hd : d.Distinct) (hfield : field ∈ discover d root)
    (hkind : field.kind = .simple) :
    ∃ x tag, field.shape = .simple x ∧ x ∈ d.descendants root ∧
      d.node? x = some (.element tag) := by
  obtain ⟨⟨x, node⟩, hx, hfound⟩ := List.mem_filterMap.1 hfield
  have hof := (Option.filter_eq_some_iff.1 hfound).1
  unfold ofNode? at hof
  split at hof
  next hnamed =>
    cases hof
    cases node with
    | element tag => exact ⟨x, tag, rfl, List.mem_map_of_mem hx, (hd.shows_tree root).node? hx⟩
    | text content => cases hnamed
    | cdata content => cases hnamed
  next =>
    split at hof
    · obtain ⟨first, -, rfl⟩ := Option.map_eq_some_iff.1 hof
      cases hkind
    · split at hof
      · cases hof
        cases hkind
      · cases hof

/-- Of a simple field everything stays but its display. -/
theorem text_replace_simple {node : Node} (ha : w.document.Apex root rest) (hshape : field.shape = .simple x)
    (hx : x ∈ w.document.descendants root) (hnode : w.document.node? x = some node)
    (hempty : node.characters = "") (convert? : Option Converter) (s : String) :
    ∃ before behind look more left, Spans w.document root field before (w.document.tree x) behind ∧
      (w.document.tree x).nodes = look ++ (field.shownNodes w.document ++ more) ∧
      (field.shown? w.document = none → more = []) ∧
      field.replace convert? (.text s) w = .ok () left ∧
      (left.document.text root).toList = between (before ++ look) s (more ++ behind) := by
  obtain ⟨before, behind, hspans⟩ := spans_simple ha hshape hx
  have hself : (x, node) ∈ (w.document.tree x).nodes :=
    (ha.distinct.shows_tree x).mem_nodes_iff.2
      ⟨mem_descendants_self (mem_ids_of_mem_descendants hx), hnode⟩
  -- in the end the children of the field take its place
  have hunwrap : ∀ (e : Document) (rest' : List Forest), e.Apex root rest' →
      (x, node) ∈ (e.tree root).nodes → (e.unwrap x).text root = e.text root := by
    intro e rest' he hin
    exact he.text_unwrap (List.mem_map_of_mem hin) ((he.distinct.shows_tree root).node? hin) hempty
  have hshown : field.shown? w.document = display? w.document x := by rw [shown?, hshape]
  rw [shownNodes, hshown]
  unfold replace
  rw [hshape]
  cases hdisplay : display? w.document x with
  | some t =>
    obtain ⟨look, more, left, hreplace, hsplit, ⟨rest', hapex⟩, hkept, htext⟩ :=
      fill_display ha hx hdisplay hspans.nodes convert? s
    have hensure : ensureDisplay x w = .ok () w := by
      unfold ensureDisplay
      rw [Merge.document_bind, hdisplay]
      rfl
    refine ⟨before, behind, look, more, { left with document := left.document.unwrap x }, hspans,
      hsplit, by simp, (Merge.bind_ok hensure).trans (Merge.bind_ok hreplace), ?_⟩
    have hfirst : (x, node) ∈ look := by
      obtain ⟨u, hu⟩ := exists_site? (mem_ids_of_mem_descendants hx)
      have hbelow := mem_below_of_display? hdisplay
      obtain ⟨v, hv⟩ := exists_site? (mem_ids_of_mem_descendants (mem_descendants_of_mem_below hbelow))
      rw [node?_eq_site?, hu] at hnode
      cases hnode
      rw [nodes_tree hu, nodes_tree hv] at hsplit
      cases look with
      | cons entry look =>
        rw [(List.cons.inj hsplit).1]
        exact List.mem_cons_self
      | nil =>
        -- the field would display itself
        obtain ⟨rfl, -⟩ := Prod.mk.inj (List.cons.inj hsplit).1
        exact absurd hbelow (ha.distinct.notMem_below_self x)
    rw [hunwrap _ _ hapex (hkept _ (List.mem_append_right _ hfirst)), htext]
  | none =>
    obtain ⟨middle, left, hensure, hreplace, ⟨rest', hapex⟩, hkept, htext⟩ :=
      fill_empty ha hx hdisplay hspans.nodes convert? s
    refine ⟨before, behind, (w.document.tree x).nodes, [],
      { left with document := left.document.unwrap x }, hspans, by simp, fun _ => rfl,
      (Merge.bind_ok hensure).trans (Merge.bind_ok hreplace), ?_⟩
    rw [hunwrap _ _ hapex (hkept _ (List.mem_append_right _ hself)), htext]
    rfl

/-! ## All fields -/

theorem between_append_eq_iff (s : String) :
    between (before ++ look) s (more ++ behind) = between before s behind ↔
      characters look = [] ∧ characters more = [] := by
  constructor
  · intro h
    have hlength := congrArg List.length h
    simp only [between, characters_append, List.length_append] at hlength
    exact ⟨List.eq_nil_of_length_eq_zero (by omega), List.eq_nil_of_length_eq_zero (by omega)⟩
  · rintro ⟨hlook, hmore⟩
    simp [between, hlook, hmore]

/-- A text takes the place of the first text that a field shows. What else stands in the field stays, but
for the other runs of a complex field. So the field is exchanged for the text as a whole just where
nothing that stays has characters. -/
theorem replace_text (ha : w.document.Apex root rest) (hfield : field ∈ discover w.document root)
    (hkind : field.kind ≠ .image) (hclosed : field.Closed w.document)
    (convert? : Option Converter) (s : String) :
    ∃ before row behind look more left, Spans w.document root field before row behind ∧
      row.nodes = look ++ (field.shownNodes w.document ++ more) ∧
      (field.shown? w.document = none → more = []) ∧
      field.replace convert? (.text s) w = .ok () left ∧
      (left.document.text root).toList =
        between (before ++ look.filter fun entry => field.Keeps w.document entry.1) s
          ((more.filter fun entry => field.Keeps w.document entry.1) ++ behind) ∧
      ((left.document.text root).toList = between before s behind ↔
        ∀ entry ∈ look ++ more, field.Keeps w.document entry.1 → entry.2.characters = "") := by
  have hkept : ∀ nodes : List (NodeId × Node),
      characters (nodes.filter fun entry => field.Keeps w.document entry.1) = [] ↔
        ∀ entry ∈ nodes, field.Keeps w.document entry.1 → entry.2.characters = "" := by
    intro nodes
    rw [characters_eq_nil_iff]
    exact ⟨fun h entry hentry hkeeps => h entry (List.mem_filter.2 ⟨hentry, decide_eq_true hkeeps⟩),
      fun h entry hentry => h entry (List.mem_filter.1 hentry).1
        (of_decide_eq_true (List.mem_filter.1 hentry).2)⟩
  -- A simple field keeps all its nodes, and a complex one loses its other runs.
  cases hshape : field.kind with
  | simple =>
    obtain ⟨x, tag, hshape, hx, hnode⟩ := exists_simple ha.distinct hfield hshape
    obtain ⟨before, behind, look, more, left, hspans, hsplit, hnone, hreplace, htext⟩ :=
      text_replace_simple ha hshape hx hnode rfl convert? s
    have hall : ∀ nodes : List (NodeId × Node),
        (nodes.filter fun entry => field.Keeps w.document entry.1) = nodes := by
      intro nodes
      rw [List.filter_eq_self]
      intro entry _
      simp [Keeps, cleared, hshape]
    refine ⟨before, _, behind, look, more, left, hspans, hsplit, hnone, hreplace, ?_, ?_⟩
    · rw [hall, hall, htext]
    · rw [htext, between_append_eq_iff, List.forall_mem_append, ← hkept, ← hkept, hall, hall]
  | complex =>
    obtain ⟨first, others, after, t, h⟩ := exists_displays ha hfield hshape
    obtain ⟨before, row, behind, look, more, left, hspans, hsplit, hreplace, htext⟩ :=
      h.text_replace ha hclosed convert? s
    have hshown : field.shown? w.document = some t := h.shown?_eq
    refine ⟨before, row, behind, look, more, left, hspans, ?_, ?_, hreplace, htext, ?_⟩
    · rw [shownNodes, hshown]
      exact hsplit
    · simp [hshown]
    · rw [htext, between_append_eq_iff, List.forall_mem_append, ← hkept, ← hkept]
  | image => exact absurd hshape hkind

/-- A paragraph with a simple field that shows its text in two runs. -/
def twoRuns : Document where
  rows := [.ofElement 0 "w:p" (.single 1
    (.element ⟨"w:fldSimple", [⟨"w:instr", "MERGEFIELD =x \\* MERGEFORMAT"⟩]⟩)
    (.ofElement 2 "w:r" (.ofElement 3 "w:t" (.single 4 (.text "a") .nil)) ++
      .ofElement 5 "w:r" (.ofElement 6 "w:t" (.single 7 (.text "b") .nil))))]
  aside := []
  root := 0
  next := 8
  declaration := none

/-- The field there. -/
def twoRunsField : Field := ⟨.simple 1, "MERGEFIELD =x \\* MERGEFORMAT", "=x"⟩

theorem twoRuns_apex : twoRuns.Apex 0 [] := ⟨⟨by decide, by decide⟩, _, _, .refl _⟩

/-- Only the text in the first run is exchanged, so that the field is not exchanged as a whole. -/
theorem twoRuns_text : ∃ before row behind look more left,
    Spans twoRuns 0 twoRunsField before row behind ∧
      row.nodes = look ++ (twoRunsField.shownNodes twoRuns ++ more) ∧
      twoRunsField.replace none (.text "new") ⟨twoRuns, {}, {}⟩ = .ok () left ∧
      left.document.text 0 = "newb" ∧
      ((left.document.text 0).toList = between before "new" behind ↔
        ∀ entry ∈ look ++ more, twoRunsField.Keeps twoRuns entry.1 → entry.2.characters = "") := by
  have hfield : twoRunsField ∈ discover twoRuns 0 := by decide +kernel
  obtain ⟨before, row, behind, look, more, left, hspans, hsplit, -, hreplace, -, hwhole⟩ :=
    replace_text (w := ⟨twoRuns, {}, {}⟩) twoRuns_apex hfield (by decide) nofun none "new"
  have htext : (twoRunsField.replace none (.text "new") >>= fun _ =>
      (·.text 0) <$> Merge.document).run' ⟨twoRuns, {}, {}⟩ = some "newb" := by decide +kernel
  delta EStateM.run' at htext
  rw [EStateM.run, Merge.bind_ok hreplace] at htext
  exact ⟨before, row, behind, look, more, left, hspans, hsplit, hreplace, Option.some.inj htext,
    hwhole⟩

end Field

end MailMerge
