import Mathlib.Data.List.Infix
import Mathlib.Data.List.TakeWhile
import MailMerge.Proofs.Template.Directive
import MailMerge.Proofs.Xml.Holds

/-!
# The fields of a template

Which fields begin in a row is told by its markup alone. Main statement: a marker has exactly one
field, whose expression is the directive of the marker (`Marker.fields_eq`).
-/

namespace MailMerge

open Xml

namespace Xml.Forest

variable {f g : Forest} {p : Node → Bool}

/-! ## Markup does not depend on identities -/

theorem holds_of_bare (h : f.bare = g.bare) : f.holds p = g.holds p := by
  rw [holds, holds, payloads_eq_of_bare h]

theorem displaysPicture_of_bare (h : f.bare = g.bare) :
    f.displaysPicture = g.displaysPicture := by
  rw [displaysPicture, displaysPicture, payloads_eq_of_bare h]

@[simp] theorem fieldless_bare (f : Forest) : f.bare.fieldless = f.fieldless := by
  induction f with
  | nil => rfl
  | cons id node children rest ihc ihr =>
    rw [bare_cons, fieldless, fieldless, ihc, ihr, displaysPicture_of_bare (bare_bare children)]

theorem fieldless_of_bare (h : f.bare = g.bare) : f.fieldless = g.fieldless := by
  rw [← fieldless_bare f, h, fieldless_bare]

@[simp] theorem textsOf_bare (name : String) (f : Forest) : f.bare.textsOf name = f.textsOf name := by
  induction f with
  | nil => rfl
  | cons id node children rest ihc ihr => rw [bare_cons, textsOf, textsOf, ihc, ihr, text_bare]

@[simp] theorem instructions_bare (f : Forest) : f.bare.instructions = f.instructions := by
  induction f with
  | nil => rfl
  | cons id node children rest _ ih => rw [bare_cons, instructions, instructions, ih, textsOf_bare]

theorem instructions_of_bare (h : f.bare = g.bare) : f.instructions = g.instructions := by
  rw [← instructions_bare f, h, instructions_bare]

@[simp] theorem fieldless_append (f g : Forest) :
    (f ++ g).fieldless = (f.fieldless && g.fieldless) := by
  induction f with
  | nil => rfl
  | cons id node children rest _ ih =>
    rw [cons_append, fieldless, fieldless, ih]
    simp only [Bool.and_assoc]

@[simp] theorem holds_append (f g : Forest) : (f ++ g).holds p = (f.holds p || g.holds p) := by
  simp [holds]

@[simp] theorem opensBelow_bare (f : Forest) : f.bare.opensBelow = f.opensBelow := by
  induction f with
  | nil => rfl
  | cons id node children rest _ ih =>
    have htop : (single 0 node children.bare).fieldless = (single id node children).fieldless := by
      simp [single, fieldless, displaysPicture_of_bare (bare_bare children)]
    rw [bare_cons, opensBelow, opensBelow, ih, htop, fieldless_bare, fieldless_bare]

@[simp] theorem opens_bare (f : Forest) : f.bare.opens = f.opens := by
  cases f with
  | nil => rfl
  | cons id node children rest => simp [opens]

@[simp] theorem holdsLast_bare (f : Forest) : f.bare.holdsLast p = f.holdsLast p := by
  induction f with
  | nil => rfl
  | cons id node children rest _ ih =>
    have htop : (single 0 node children.bare).holds p = (single id node children).holds p :=
      holds_of_bare (by simp)
    have hlast : rest.bare.tops.isEmpty = rest.tops.isEmpty := by cases rest <;> rfl
    rw [bare_cons, holdsLast, holdsLast, htop, hlast, ih]

/-! ## Parts of rows -/

/-- The sibling that holds a node with a property is the last one. -/
theorem exists_of_holdsLast (h : f.holdsLast p = true) :
    ∃ front x node children, f = front ++ single x node children ∧ front.holds p = false ∧
      (single x node children).holds p = true := by
  induction f with
  | nil => cases h
  | cons id node children rest _ ih =>
    rw [holdsLast] at h
    split at h
    next hfirst =>
      cases rest with
      | nil => exact ⟨nil, id, node, children, rfl, rfl, hfirst⟩
      | cons id' node' children' rest' => cases h
    next hfirst =>
      obtain ⟨front, x, n, c, heq, hfront, hlast⟩ := ih h
      refine ⟨cons id node children front, x, n, c, by rw [heq]; rfl, ?_, hlast⟩
      have hsplit := holds_append (p := p) (single id node children) front
      rw [Bool.not_eq_true] at hfirst
      rw [hfirst, hfront] at hsplit
      exact hsplit

/-- The marker at which the field of a row begins. -/
theorem exists_of_opensBelow (h : f.opensBelow = true) :
    ∃ before x node children after, f = before ++ cons x node children after ∧
      Field.isMarker "begin" node = true ∧ before.fieldless = true ∧
      children.fieldless = true ∧ after.fieldless = true := by
  induction f with
  | nil => cases h
  | cons id node children rest _ ih =>
    rw [opensBelow] at h
    split at h
    next hbegin =>
      rw [Bool.and_eq_true] at h
      exact ⟨nil, id, node, children, rest, rfl, hbegin, rfl, h.1, h.2⟩
    next =>
      rw [Bool.and_eq_true] at h
      obtain ⟨before, x, n, c, after, heq, hbegin, hbefore, hc, hafter⟩ := ih h.2
      refine ⟨cons id node children before, x, n, c, after, by rw [heq]; rfl, hbegin, ?_, hc,
        hafter⟩
      have hsplit := fieldless_append (single id node children) before
      rw [h.1, hbefore] at hsplit
      exact hsplit

theorem exists_of_opens (h : f.opens = true) :
    ∃ x node children rest, f = cons x node children rest ∧ node.isNamed "w:r" = true ∧
      children.opensBelow = true ∧ rest.fieldless = true := by
  cases f with
  | nil => cases h
  | cons x node children rest =>
    rw [opens, Bool.and_eq_true, Bool.and_eq_true] at h
    exact ⟨x, node, children, rest, rfl, h.1.1, h.1.2, h.2⟩

/-- The siblings of a row of elements. -/
theorem map_filter_tops (h : f.tops.all (·.2.isElement) = true) :
    (f.tops.filter (·.2.isElement)).map Prod.fst = f.topIds := by
  rw [List.filter_eq_self.2 (List.all_eq_true.1 h)]
  rfl

theorem holds_cons {x : NodeId} {node : Node} {children rest : Forest} :
    (cons x node children rest).holds p = ((single x node children).holds p || rest.holds p) :=
  holds_append (single x node children) rest

end Xml.Forest

namespace Field

open Xml.Forest

variable {d : Document} {f g children : Forest} {x : NodeId} {node : Node}

/-- The fields that begin in a row, as they are in a document. -/
def within (d : Document) (f : Forest) : List Field :=
  f.nodes.filterMap fun entry => (ofNode? d entry.1 entry.2).filter isValid

theorem discover_eq_within (d : Document) (x : NodeId) : discover d x = within d (d.tree x) := rfl

@[simp] theorem within_nil (d : Document) : within d .nil = [] := rfl

@[simp] theorem within_append (d : Document) (f g : Forest) :
    within d (f ++ g) = within d f ++ within d g := by
  simp [within]

@[simp] theorem within_cons (d : Document) (x : NodeId) (node : Node) (children rest : Forest) :
    within d (.cons x node children rest) =
      ((ofNode? d x node).filter isValid).toList ++ (within d children ++ within d rest) := by
  cases h : (ofNode? d x node).filter isValid <;>
    simp [within, Forest.nodes, h]

theorem within_single_append (d : Document) (x : NodeId) (node : Node) (children rest : Forest) :
    within d (.cons x node children rest) =
      within d (single x node children) ++ within d rest :=
  within_append d (single x node children) rest

/-- The name of the first picture below a node is that of the first one in its row. -/
theorem pictureName?_eq (hd : d.Shows children) (hbelow : d.below x = children) :
    pictureName? d x =
      ((children.nodes.map Prod.snd).find? (·.isNamed "pic:cNvPr")).bind (·.attribute? "name") := by
  rw [pictureName?, Document.find?, hbelow, List.find?_map, Function.comp_def]
  cases hfound : children.nodes.find? (·.2.isNamed "pic:cNvPr") with
  | none => rfl
  | some entry =>
    have hnode := hd.node? (List.mem_of_find?_eq_some hfound)
    simp [Document.attribute?, hnode]

/-- No field begins in a row without fields. -/
theorem within_eq_nil (hd : d.Shows f) (hquiet : f.fieldless = true) : within d f = [] := by
  induction f with
  | nil => rfl
  | cons x node children rest ihc ihr =>
    simp only [fieldless, Bool.and_eq_true, Bool.not_eq_true'] at hquiet
    obtain ⟨⟨⟨⟨hsimple, hbegin⟩, hpicture⟩, hqc⟩, hqr⟩ := hquiet
    have hname := pictureName?_eq hd.below hd.below_eq
    rw [displaysPicture, ← hname] at hpicture
    have hnone : ofNode? d x node = none := by
      rw [ofNode?, hsimple, hbegin, hpicture]
      rfl
    rw [within_cons, hnone, ihc hd.below hqc, ihr hd.later hqr]
    rfl

/-! ## Rows of runs -/

variable {kind : String} {y first last : NodeId} {inner : List NodeId} {after : Forest}

theorem holdsMarker_first (hd : d.Shows (.cons x node children g)) :
    holdsMarker d kind x = (single x node children).holds (isMarker kind) := by
  rw [holdsMarker, hd.tree_eq, Forest.holds, List.any_map]
  rfl

/-- The siblings of a row without a marker hold none. -/
theorem holdsMarker_of_mem_topIds (hd : d.Shows f) (hnone : f.holds (isMarker kind) = false)
    (hx : x ∈ f.topIds) : holdsMarker d kind x = false := by
  induction f with
  | nil => cases hx
  | cons id n c rest _ ih =>
    rw [holds_cons, Bool.or_eq_false_iff] at hnone
    rcases List.mem_cons.1 hx with rfl | hx
    · rw [holdsMarker_first hd, hnone.1]
    · exact ih hd.later hnone.2 hx

theorem runsAfter_eq_append {more : List NodeId}
    (hrow : d.followingElements first = inner ++ last :: more)
    (hinner : ∀ y ∈ first :: inner, holdsMarker d "end" y = false)
    (hlast : holdsMarker d "end" last = true) : runsAfter d first = inner ++ [last] := by
  have hwhile : (inner ++ last :: more).takeWhile (fun y => !holdsMarker d "end" y) = inner := by
    rw [List.takeWhile_append_of_pos, List.takeWhile_cons_of_neg, List.append_nil]
    · simp [hlast]
    · intro y hy
      simp [hinner y (List.mem_cons_of_mem _ hy)]
  unfold runsAfter
  simp only [hinner first List.mem_cons_self, Bool.false_eq_true, if_false, hrow, hwhile]
  rw [List.drop_left]
  rfl

/-- The runs of a complex field are the first ones of the row. Only the last one can hold an end marker,
and it holds one if any run of the row does. -/
theorem runsAfter_spec (d : Document) (first : NodeId) :
    runsAfter d first <+: d.followingElements first ∧
    (∀ y ∈ (first :: runsAfter d first).dropLast, holdsMarker d "end" y = false) ∧
    ((∃ y ∈ first :: d.followingElements first, holdsMarker d "end" y = true) →
      ∃ y ∈ (first :: runsAfter d first).getLast?, holdsMarker d "end" y = true) := by
  by_cases hself : holdsMarker d "end" first = true
  · have hnone : runsAfter d first = [] := by rw [runsAfter, if_pos hself]
    rw [hnone]
    exact ⟨List.nil_prefix, by simp, fun _ => ⟨first, rfl, hself⟩⟩
  rw [Bool.not_eq_true] at hself
  -- The row is cut behind its first end marker, or taken whole where there is none.
  cases hfind : (d.followingElements first).find? (holdsMarker d "end") with
  | some last =>
    obtain ⟨hlast, inner, more, hrow, hnone⟩ := List.find?_eq_some_iff_append.1 hfind
    have hinner : ∀ y ∈ first :: inner, holdsMarker d "end" y = false := by
      intro y hy
      rcases List.mem_cons.1 hy with rfl | hy
      · exact hself
      · simpa using hnone y hy
    rw [runsAfter_eq_append hrow hinner hlast, ← List.cons_append]
    refine ⟨⟨more, by simp [hrow]⟩, ?_, fun _ => ⟨last, ?_, hlast⟩⟩
    · rw [List.dropLast_concat]
      exact hinner
    · exact List.getLast?_concat
  | none =>
    have hnone : ∀ y ∈ first :: d.followingElements first, holdsMarker d "end" y = false := by
      intro y hy
      rcases List.mem_cons.1 hy with rfl | hy
      · exact hself
      · simpa using List.find?_eq_none.1 hfind y hy
    have hall : runsAfter d first = d.followingElements first := by
      have hwhile : (d.followingElements first).takeWhile (fun y => !holdsMarker d "end" y) =
          d.followingElements first := by
        rw [List.takeWhile_eq_self_iff]
        intro y hy
        simp [hnone y (List.mem_cons_of_mem _ hy)]
      unfold runsAfter
      simp [hself, hwhile]
    rw [hall]
    refine ⟨List.prefix_rfl, fun y hy => hnone y (List.mem_of_mem_dropLast hy), ?_⟩
    rintro ⟨y, hy, hend⟩
    rw [hnone y hy] at hend
    cases hend

theorem runsAfter_eq (hself : holdsMarker d "end" x = false)
    (hfollowing : d.following x = f ++ .cons y node children after)
    (hd : d.Shows f) (hnone : f.holds (isMarker "end") = false)
    (helements : f.tops.all (·.2.isElement) = true) (helement : node.isElement = true)
    (hend : holdsMarker d "end" y = true) : runsAfter d x = f.topIds ++ [y] := by
  have hsiblings : d.followingElements x =
      f.topIds ++ y :: (after.tops.filter (·.2.isElement)).map Prod.fst := by
    rw [Document.followingElements, hfollowing, tops_append, List.filter_append, List.map_append,
      map_filter_tops helements, tops, List.filter_cons, if_pos helement, List.map_cons]
  refine runsAfter_eq_append hsiblings (List.forall_mem_cons.2 ⟨hself, fun z hz => ?_⟩) hend
  exact holdsMarker_of_mem_topIds hd hnone hz

/-- The first run that holds a separator, and what follows it. -/
theorem afterSeparator?_eq {q : NodeId} {qnode : Node} {inside later : Forest}
    (hd : d.Shows (f ++ .cons q qnode inside later))
    (hnone : f.holds (isMarker "separate") = false)
    (hsep : (single q qnode inside).holds (isMarker "separate") = true)
    (hnext : d.nextElement? q = some y) :
    afterSeparator? d (f ++ .cons q qnode inside later).topIds = some y := by
  have hfind : (f ++ .cons q qnode inside later).topIds.find? (holdsMarker d "separate") =
      some q := by
    have hfront : f.topIds.find? (holdsMarker d "separate") = none := by
      rw [List.find?_eq_none]
      intro z hz
      rw [holdsMarker_of_mem_topIds hd.left hnone hz]
      exact Bool.false_ne_true
    have hq : holdsMarker d "separate" q = true := by
      rw [holdsMarker_first hd.right, hsep]
    rw [topIds_append, List.find?_append, hfront, topIds_cons, List.find?_cons, hq]
    rfl
  rw [afterSeparator?, hfind, Option.bind_some, hnext]

/-- The texts of the elements of a name in a row. -/
theorem map_text_eq (hd : d.Shows f) (name : String) :
    ((f.nodes.filter (·.2.isNamed name)).map Prod.fst).map d.text = f.textsOf name := by
  induction f with
  | nil => rfl
  | cons id n c rest ihc ihr =>
    have htext : d.text id = n.characters ++ c.text := by
      rw [Document.text, hd.tree_eq, single, Forest.text, Forest.text, String.append_empty]
    rw [textsOf, ← ihc hd.below, ← ihr hd.later, Forest.nodes, List.filter_cons]
    split <;> simp [htext]

/-- The instruction of a row of runs is that of their markup. -/
theorem joinedInstruction_eq (hd : d.Shows f) :
    joinedInstruction d f.topIds = String.join f.instructions := by
  rw [joinedInstruction]
  congr 1
  induction f with
  | nil => rfl
  | cons id n c rest _ ih =>
    rw [topIds_cons, List.flatMap_cons, List.map_append, instructions, ih hd.later,
      Document.findAll, hd.below_eq, map_text_eq hd.below]

end Field

end MailMerge
