import MailMerge.Proofs.Template.Fields

/-!
# The field of a marker

A marker is found again in a document by its markup, with the identities that its nodes have there.
Main statement: the children of a marker have exactly one field, which carries the directive of the
marker (`Marker.exists_places`).
-/

namespace MailMerge

open Xml

namespace Template

open Xml.Forest

variable {directive : String} {d : Document} {around c row : Forest} {p : NodeId}
variable {rest : List Forest}

/-- A row is the markup of a field, and the field is the one with the nodes of the row. -/
def FieldMarkup.Places : FieldMarkup directive → Forest → Field → Prop
  | simple tag run _ _, row, field =>
    ∃ x inside, row = single x (.element tag) inside ∧ inside.bare = run.forest.bare ∧
      field.shape = .simple x
  | complex runs _, row, field =>
    ∃ opening x inside closing first others,
      row = opening ++ cons x (.element runs.run.tag) inside closing ∧
      (single x (.element runs.run.tag) inside).bare = runs.run.forest.bare ∧
      row.topIds = first :: others ∧ field.shape = .complex first others (some x)

/-- A row is made of the children of a marker, among which there is a field with its directive. -/
structure Marker.Places (marker : Marker directive) (c : Forest) (field : Field) : Prop where
  split : ∃ before row after, c = before ++ (row ++ after) ∧ before.bare = marker.before.bare ∧
    marker.field.Places row field ∧ after.bare = marker.after.bare
  expression : field.expression = directive

/-- The row of a field begins with the first node of the field. -/
theorem FieldMarkup.Places.exists_start {markup : FieldMarkup directive} {field : Field}
    (h : markup.Places row field) :
    ∃ node inside after, row = cons field.start node inside after := by
  cases markup with
  | simple tag run isField states =>
    obtain ⟨x, inside, rfl, -, hshape⟩ := h
    refine ⟨.element tag, inside, .nil, ?_⟩
    rw [Field.start, hshape]
    rfl
  | complex runs states =>
    obtain ⟨opening, x, inside, closing, first, others, -, -, hnodes, hshape⟩ := h
    cases row with
    | nil => cases hnodes
    | cons y node children after =>
      have hy : y = first := (List.cons.inj hnodes).1
      refine ⟨node, children, after, ?_⟩
      rw [Field.start, hshape, hy]

theorem exists_of_isNamed {node : Node} {name : String} (h : node.isNamed name = true) :
    ∃ tag, node = .element tag ∧ tag.name = name := by
  cases node with
  | element tag => exact ⟨tag, rfl, by simpa [Node.isNamed, Node.name?, Node.element?] using h⟩
  | text content => cases h
  | cdata content => cases h

/-- A marker that begins a field is a marker and nothing else. -/
theorem isNamed_of_isMarker {kind : String} {node : Node} (h : Field.isMarker kind node = true) :
    node.isNamed "w:fldSimple" = false := by
  rw [Field.isMarker, Bool.and_eq_true] at h
  have hname : node.name? = some "w:fldChar" := by simpa [Node.isNamed] using h.1
  rw [Node.isNamed, hname]
  decide

/-- An element of a known name begins no field by itself. -/
theorem ofNode?_eq_none {x : NodeId} {tag : Element} (hname : tag.name ≠ "w:fldSimple")
    (hmarker : tag.name ≠ "w:fldChar") (hdrawing : tag.name ≠ "w:drawing") :
    Field.ofNode? d x (.element tag) = none := by
  simp [Field.ofNode?, Field.isMarker, Node.isNamed, Node.name?, Node.element?, hname, hmarker,
    hdrawing]

theorem DisplayRun.fieldless (run : DisplayRun) : run.forest.fieldless = true := by
  have hrun := run.isRun
  have htext := run.isText
  simp [DisplayRun.forest, DisplayRun.around, single, Forest.fieldless, Field.isMarker,
    Node.isNamed, Node.name?, Node.element?, hrun, htext, run.quietLook, run.quietShown]

/-- The field of a simple marker. -/
theorem within_simple {f g inside : Forest} {x : NodeId} {tag : Element} {run : DisplayRun}
    (h : d.Holds around p (f ++ cons x (.element tag) inside g) rest)
    (hfield : tag.name = "w:fldSimple")
    (hstates : Field.directive ((tag.attribute? "w:instr").getD "") = directive)
    (hne : directive ≠ "") (hinside : inside.bare = run.forest.bare) :
    ∃ field, Field.within d (single x (.element tag) inside) = [field] ∧
      field.shape = .simple x ∧ field.expression = directive := by
  have hd : d.Shows (cons x (.element tag) inside g) := h.shows.right
  have hquiet : inside.fieldless = true := by
    rw [fieldless_of_bare hinside, run.fieldless]
  have hnode : d.node? x = some (.element tag) := hd.node? (by simp [Forest.nodes])
  have hattribute : d.attribute? x "w:instr" = tag.attribute? "w:instr" := by
    rw [Document.attribute?, hnode]
    rfl
  have hexpression : (Field.ofSimple d x).expression = directive := by
    rw [← hstates, ← hattribute]
    rfl
  have hvalid : (Field.ofSimple d x).isValid = true := by
    simp [Field.isValid, hexpression, hne]
  have hof : Field.ofNode? d x (.element tag) = some (Field.ofSimple d x) := by
    simp [Field.ofNode?, Node.isNamed, Node.name?, Node.element?, hfield]
  refine ⟨Field.ofSimple d x, ?_, rfl, hexpression⟩
  rw [single, Field.within_cons, hof, Option.filter_some, if_pos hvalid,
    Field.within_eq_nil hd.below hquiet]
  rfl

/-- The text that a run displays is found in it. -/
theorem isSome_display? {inside g : Forest} {x : NodeId} {node : Node} {run : DisplayRun}
    (hd : d.Shows (cons x node inside g))
    (hinside : (single x node inside).bare = run.forest.bare) :
    (Field.display? d x).isSome = true := by
  have hsome : (inside.nodes.find? (·.2.isNamed "w:t")).isSome = true := by
    rw [List.find?_isSome]
    have hany : inside.holds (·.isNamed "w:t") = true := by
      have heq : inside.bare = (run.look ++ single 0 (.element run.display) run.shown).bare :=
        (cons.inj hinside).2.2.1
      rw [holds_of_bare heq, holds_append, Bool.or_eq_true]
      refine .inr ?_
      simp [Forest.holds, single, Forest.nodes, Node.isNamed, Node.name?, Node.element?,
        run.isText]
    rw [Forest.holds, List.any_map] at hany
    simpa using hany
  rw [Field.display?, Document.find?, hd.below_eq]
  obtain ⟨entry, hentry⟩ := Option.isSome_iff_exists.1 hsome
  rw [hentry]
  rfl

/-- The parts of a row that is the markup of a complex field. -/
theorem exists_of_runs {runs : FieldRuns} (hrow : row.bare = runs.forest.bare) :
    ∃ opening x inside closing, row = opening ++ cons x (.element runs.run.tag) inside closing ∧
      opening.bare = runs.opening.bare ∧
      (single x (.element runs.run.tag) inside).bare = runs.run.forest.bare ∧
      closing.bare = runs.closing.bare := by
  rw [FieldRuns.forest] at hrow
  obtain ⟨opening, later, rfl, hopening, hlater⟩ := exists_append_of_bare hrow
  obtain ⟨displaying, closing, rfl, hdisplaying, hclosing⟩ := exists_append_of_bare hlater
  obtain ⟨x, inside, none, rfl, hinside, hnone⟩ := exists_cons_of_bare hdisplaying
  cases eq_nil_of_bare hnone
  refine ⟨opening, x, inside, closing, rfl, hopening, ?_, hclosing⟩
  rw [bare_single, hinside]
  rfl

section Complex

variable {runs : FieldRuns} {before after opening inside closing : Forest} {x : NodeId}

theorem bare_runs (hopening : opening.bare = runs.opening.bare)
    (hdisplaying : (single x (.element runs.run.tag) inside).bare = runs.run.forest.bare)
    (hclosing : closing.bare = runs.closing.bare) :
    (opening ++ cons x (.element runs.run.tag) inside closing).bare = runs.forest.bare := by
  rw [FieldRuns.forest, bare_append, bare_append, bare_append, ← hopening, ← hdisplaying,
    ← hclosing]
  rfl

/-- The nodes of a complex field are the siblings of its row. -/
theorem topIds_eq_runsAfter {first : NodeId} {node : Node} {children more : Forest}
    (h : d.Holds around p
      (before ++ ((cons first node children more ++ cons x (.element runs.run.tag) inside closing) ++
        after)) rest)
    (hopening : (cons first node children more).bare = runs.opening.bare)
    (hdisplaying : (single x (.element runs.run.tag) inside).bare = runs.run.forest.bare)
    (hclosing : closing.bare = runs.closing.bare) :
    first :: Field.runsAfter d first =
      (cons first node children more ++ cons x (.element runs.run.tag) inside closing).topIds := by
  have hend : closing.holdsLast (Field.isMarker "end") = true := by
    rw [← holdsLast_bare, hclosing, holdsLast_bare, runs.ended]
  obtain ⟨front, e, enode, einside, rfl, hfront, hlast⟩ := exists_of_holdsLast hend
  have hrow : d.Holds around p (before ++ cons first node children
      ((more ++ cons x (.element runs.run.tag) inside front) ++ cons e enode einside after)) rest := by
    simpa [append_assoc, single] using h
  have hd := hrow.shows.right
  -- No run before the closing ones holds an end marker.
  have hunended : (cons first node children more ++
      single x (.element runs.run.tag) inside).holds (Field.isMarker "end") = false := by
    rw [holds_append, holds_of_bare hopening, holds_of_bare hdisplaying, ← holds_append,
      runs.unended]
  rw [holds_append, holds_cons, Bool.or_eq_false_iff, Bool.or_eq_false_iff] at hunended
  have helements : (cons first node children more).tops.all (·.2.isElement) = true ∧
      (front ++ single e enode einside).tops.all (·.2.isElement) = true := by
    have hall := runs.elements
    rw [tops_append, List.all_append, Bool.and_eq_true, ← all_tops_of_bare hopening,
      ← all_tops_of_bare hclosing] at hall
    exact hall
  rw [tops, List.all_cons, Bool.and_eq_true, tops_append, List.all_append, Bool.and_eq_true]
    at helements
  have hruns : Field.runsAfter d first =
      (more ++ cons x (.element runs.run.tag) inside front).topIds ++ [e] := by
    refine Field.runsAfter_eq ?_ hrow.following hd.later.left ?_ ?_ ?_ ?_
    · rw [Field.holdsMarker_first hd, hunended.1.1]
    · rw [holds_append, holds_cons, hunended.1.2, hunended.2, hfront]
      rfl
    · rw [tops_append, List.all_append, tops, List.all_cons, helements.1.2, helements.2.1]
      rfl
    · simpa [single, tops] using helements.2.2
    · rw [Field.holdsMarker_first hd.later.right, hlast]
  rw [hruns]
  simp [single]

/-- A complex field has the directive of its markup. -/
theorem expression_eq {first : NodeId} {others : List NodeId}
    (h : d.Holds around p
      (before ++ ((opening ++ cons x (.element runs.run.tag) inside closing) ++ after)) rest)
    (hopening : opening.bare = runs.opening.bare)
    (hdisplaying : (single x (.element runs.run.tag) inside).bare = runs.run.forest.bare)
    (hclosing : closing.bare = runs.closing.bare)
    (hnodes : first :: others =
      (opening ++ cons x (.element runs.run.tag) inside closing).topIds) :
    Field.afterSeparator? d (first :: others) = some x ∧
      (Field.ofRuns d first others).expression =
        Field.directive (String.join runs.forest.instructions) := by
  have hd := h.shows.right.left
  have hseparated : opening.holdsLast (Field.isMarker "separate") = true := by
    rw [← holdsLast_bare, hopening, holdsLast_bare, runs.separated]
  obtain ⟨front, q, qnode, qinside, rfl, hfront, hlast⟩ := exists_of_holdsLast hseparated
  have hafter : Field.afterSeparator? d (first :: others) = some x := by
    have hnext : d.nextElement? q = some x := by
      have hrow : d.Holds around p ((before ++ front) ++ cons q qnode qinside
          (cons x (.element runs.run.tag) inside (closing ++ after))) rest := by
        simpa [append_assoc, single] using h
      rw [Document.nextElement?, Document.followingElements, hrow.following]
      rfl
    have hd' : d.Shows (front ++
        cons q qnode qinside (cons x (.element runs.run.tag) inside closing)) := by
      simpa [append_assoc, single] using hd
    have hfound := Field.afterSeparator?_eq hd' hfront hlast hnext
    rw [hnodes]
    simpa [append_assoc, single] using hfound
  have hinstruction : Field.joinedInstruction d (first :: others) =
      String.join runs.forest.instructions := by
    rw [hnodes, Field.joinedInstruction_eq hd,
      instructions_of_bare (bare_runs hopening hdisplaying hclosing)]
  refine ⟨hafter, ?_⟩
  rw [Field.ofRuns, hafter, hinstruction]
  simp only [Option.bind_some, isSome_display? hd.right hdisplaying, if_true]

/-- The field of a complex marker. -/
theorem within_complex
    (h : d.Holds around p (before ++ (row ++ after)) rest) (hrow : row.bare = runs.forest.bare)
    (hstates : Field.directive (String.join runs.forest.instructions) = directive)
    (hne : directive ≠ "") :
    ∃ field, Field.within d row = [field] ∧
      (FieldMarkup.complex runs hstates).Places row field ∧ field.expression = directive := by
  obtain ⟨opening, x, inside, closing, rfl, hopening, hdisplaying, hclosing⟩ :=
    exists_of_runs hrow
  have hopens : opening.opens = true := by rw [← opens_bare, hopening, opens_bare, runs.opens]
  obtain ⟨first, node, children, more, rfl, hnode, hbelow, hmore⟩ := exists_of_opens hopens
  obtain ⟨front, b, bnode, binside, behind, rfl, hbegin, hfront, hbinside, hbehind⟩ :=
    exists_of_opensBelow hbelow
  have hnodes := topIds_eq_runsAfter h hopening hdisplaying hclosing
  obtain ⟨hafter, hexpression⟩ := expression_eq h hopening hdisplaying hclosing hnodes
  rw [hstates] at hexpression
  have hvalid : (Field.ofRuns d first (Field.runsAfter d first)).isValid = true := by
    simp [Field.isValid, hexpression, hne]
  have hd := h.shows.right.left
  have hparent : d.parent? b = some first := by
    have hcons : d.Holds around p (before ++ cons first node (front ++ cons b bnode binside behind)
        (more ++ (cons x (.element runs.run.tag) inside (closing ++ after)))) rest := by
      simpa [append_assoc] using h
    exact ((hcons.inner_iff).2 hcons).parent?
  -- The begin marker makes the field; no other node of the runs begins one.
  have hof : Field.ofNode? d b bnode =
      some (Field.ofRuns d first (Field.runsAfter d first)) := by
    rw [Field.ofNode?, isNamed_of_isMarker hbegin, hbegin, hparent]
    rfl
  have hfirst : Field.ofNode? d first node = none := by
    obtain ⟨tag, rfl, htag⟩ := exists_of_isNamed hnode
    exact ofNode?_eq_none (by simp [htag]) (by simp [htag]) (by simp [htag])
  have hclosed : closing.fieldless = true := by
    rw [fieldless_of_bare hclosing, runs.quiet]
  have hdisplayed : (single x (.element runs.run.tag) inside).fieldless = true := by
    rw [fieldless_of_bare hdisplaying, runs.run.fieldless]
  refine ⟨_, ?_, ⟨_, x, inside, closing, first, _, rfl, hdisplaying, hnodes.symm, ?_⟩, hexpression⟩
  · have hopened := hd.left.below
    have hdisplay : Field.within d (cons x (.element runs.run.tag) inside closing) = [] := by
      rw [show cons x (.element runs.run.tag) inside closing =
        single x (.element runs.run.tag) inside ++ closing from rfl, Field.within_append,
        Field.within_eq_nil hd.right.first hdisplayed, Field.within_eq_nil hd.right.later hclosed]
      rfl
    rw [Field.within_append, hdisplay, Field.within_cons, hfirst, Field.within_append,
      Field.within_eq_nil hopened.left hfront, Field.within_cons, hof, Option.filter_some,
      if_pos hvalid, Field.within_eq_nil hopened.right.below hbinside,
      Field.within_eq_nil hopened.right.later hbehind, Field.within_eq_nil hd.left.later hmore]
    rfl
  · rw [Field.ofRuns, hafter]

end Complex

/-- The children of a marker have one field, which carries its directive. -/
theorem Marker.exists_places (marker : Marker directive) (h : d.Holds around p c rest)
    (hc : c.bare = (marker.before ++ (marker.field.forest ++ marker.after)).bare)
    (hne : directive ≠ "") :
    ∃ field, Field.within d c = [field] ∧ marker.Places c field := by
  obtain ⟨before, later, rfl, hbefore, hlater⟩ := exists_append_of_bare hc
  obtain ⟨row, after, rfl, hrow, hafter⟩ := exists_append_of_bare hlater
  have hquietBefore : before.fieldless = true := by
    rw [fieldless_of_bare hbefore, marker.quietBefore]
  have hquietAfter : after.fieldless = true := by
    rw [fieldless_of_bare hafter, marker.quietAfter]
  obtain ⟨field, hfield, hplaces, hexpression⟩ :
      ∃ field, Field.within d row = [field] ∧ marker.field.Places row field ∧
        field.expression = directive := by
    cases hm : marker.field with
    | simple tag run isField states =>
      rw [hm] at hrow
      obtain ⟨x, inside, none, rfl, hinside, hnone⟩ := exists_cons_of_bare hrow
      cases eq_nil_of_bare hnone
      obtain ⟨field, hfield, hshape, hexpression⟩ :=
        within_simple h isField states hne hinside
      exact ⟨field, hfield, ⟨x, inside, rfl, hinside, hshape⟩, hexpression⟩
    | complex runs states =>
      rw [hm] at hrow
      exact within_complex h hrow states hne
  refine ⟨field, ?_, ⟨before, row, after, rfl, hbefore, hplaces, hafter⟩, hexpression⟩
  rw [Field.within_append, Field.within_append, hfield,
    Field.within_eq_nil h.shows.left hquietBefore,
    Field.within_eq_nil h.shows.right.right hquietAfter]
  rfl

end Template

end MailMerge
