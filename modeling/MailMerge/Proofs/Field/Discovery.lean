import MailMerge.Proofs.Field.Edits
import MailMerge.Proofs.Template.Marker

/-!
# Fields that are found in unfolded rows

Where a simple field is unfolded, a complex field with the same directive is found. Main statement:
the fields below a node are those below the node that is made of it (`Unfolds.discover_eq`).
-/

namespace MailMerge

open Xml Xml.Forest Template

variable {f g inner item run before after rest : Forest} {kind other instruction : String}
variable {node n : Node} {m x y : NodeId} {d e : Document}

namespace Field

/-! ## What runs of a frame hold -/

theorem isMarker_of_ne (h : isMarker kind node = true) (hne : kind ≠ other) :
    isMarker other node = false := by
  refine Bool.eq_false_iff.2 fun h' => hne ?_
  simp only [isMarker, Bool.and_eq_true, beq_iff_eq] at h h'
  exact Option.some.inj (h.2.symm.trans h'.2)

theorem isMarker_of_isNamed {name : String} (h : node.isNamed name = true) (hne : name ≠ "w:fldChar") :
    isMarker kind node = false := by
  rw [isMarker, isNamed_of_ne h hne, Bool.false_and]

theorem holds_idle (h : idle f = true) : f.holds (isMarker kind) = false := by
  rw [Forest.holds, List.any_eq_false]
  intro n hn hmarker
  obtain ⟨entry, hentry, rfl⟩ := List.mem_map.1 hn
  have hnamed := isNamed_of_isMarker hmarker
  rw [isNamed_of_idle h hentry (by simp [landmarks])] at hnamed
  cases hnamed

theorem holds_single (p : Node → Bool) (m : NodeId) (node : Node) (inner : Forest) :
    (single m node inner).holds p = (p node || inner.holds p) := by
  simp [Forest.holds, single, Forest.nodes]

/-- A run holds the markers of the row in it. -/
theorem Run.holds (h : Run item run) :
    run.holds (isMarker kind) = item.holds (isMarker kind) := by
  cases h with
  | mk name hbefore hafter =>
    rw [holds_single, isMarker_of_isNamed (isNamed_run name) (by decide), holds_append,
      holds_append, holds_idle hbefore, holds_idle hafter, Bool.false_or, Bool.false_or,
      Bool.or_false]

/-- A run is a single element. -/
theorem Run.exists_single (h : Run item run) :
    ∃ x tag children, run = single x (.element tag) children ∧ tag.name = "w:r" := by
  cases h with
  | mk name => exact ⟨_, _, _, rfl, name⟩

theorem MarkerRun.exists_single (h : MarkerRun kind run) :
    ∃ x tag children, run = single x (.element tag) children ∧ tag.name = "w:r" := by
  cases h with
  | mk _ _ holds => exact holds.exists_single

theorem InstructionRuns.elements (h : InstructionRuns instruction f) :
    f.tops.all (·.2.isElement) = true := by
  refine List.all_eq_true.2 fun entry hentry => ?_
  have hrun := h.allRuns entry hentry
  obtain ⟨id, node⟩ := entry
  cases node with
  | element tag => rfl
  | _ => cases hrun

theorem MarkerRun.holds_self (h : MarkerRun kind run) : run.holds (isMarker kind) = true := by
  cases h with
  | mk marker hidle holds => rw [holds.holds, holds_single, marker, Bool.true_or]

theorem MarkerRun.holds_other (h : MarkerRun kind run) (other : String) (hne : kind ≠ other) :
    run.holds (isMarker other) = false := by
  cases h with
  | mk marker hidle holds =>
    rw [holds.holds, holds_single, isMarker_of_ne marker hne, holds_idle hidle, Bool.false_or]

theorem InstructionRuns.holds (h : InstructionRuns instruction f) :
    f.holds (isMarker kind) = false := by
  have hpiece : ∀ {m : NodeId} {node : Node} {inner run : Forest},
      node.isNamed "w:instrText" = true → idle inner = true → Run (single m node inner) run →
        run.holds (isMarker kind) = false := fun hname hidle holds => by
    rw [holds.holds, holds_single, isMarker_of_isNamed hname (by decide), holds_idle hidle,
      Bool.false_or]
  induction h with
  | last hname hidle holds => exact hpiece hname hidle holds
  | cons hname hidle holds _ ih => rw [holds_append, hpiece hname hidle holds, ih, Bool.false_or]

/-- No field begins in a row without markers at which fields begin and without other nodes that are
looked for. -/
theorem fieldless_of_discreet (h : Discreet f) (hmarker : f.holds (isMarker "begin") = false) :
    f.fieldless = true := by
  induction f with
  | nil => rfl
  | cons x node children rest ihc ihr =>
    have hchildren : Discreet children := fun entry hentry =>
      h entry (List.mem_cons_of_mem _ (List.mem_append_left _ hentry))
    have hrest : Discreet rest := fun entry hentry =>
      h entry (List.mem_cons_of_mem _ (List.mem_append_right _ hentry))
    rw [holds_cons, holds_single, Bool.or_eq_false_iff, Bool.or_eq_false_iff] at hmarker
    have hself := h (x, node) List.mem_cons_self
    rw [Forest.fieldless, hself "w:fldSimple" (by simp [landmarks]) (by simp [frameNames]),
      hself "w:drawing" (by simp [landmarks]) (by simp [frameNames]), hmarker.1.1,
      ihc hchildren hmarker.1.2, ihr hrest hmarker.2]
    rfl

/-! ## The instruction of a frame -/

theorem textsOf_eq_nil {name : String} (h : ∀ entry ∈ f.nodes, entry.2.isNamed name = false) :
    f.textsOf name = [] := by
  induction f with
  | nil => rfl
  | cons x node children rest ihc ihr =>
    simp only [Forest.nodes, List.forall_mem_cons, List.forall_mem_append] at h
    simp [textsOf, h.1, ihc h.2.1, ihr h.2.2]

theorem textsOf_append (name : String) (f g : Forest) :
    (f ++ g).textsOf name = f.textsOf name ++ g.textsOf name := by
  induction f with
  | nil => rfl
  | cons x node children rest _ ih => rw [cons_append, textsOf, textsOf, ih]; simp

theorem textsOf_idle (h : idle f = true) : f.textsOf "w:instrText" = [] :=
  textsOf_eq_nil fun _ hentry => isNamed_of_idle h hentry (by simp [landmarks])

theorem instructions_append (f g : Forest) :
    (f ++ g).instructions = f.instructions ++ g.instructions := by
  induction f with
  | nil => rfl
  | cons x node children rest _ ih =>
    rw [cons_append, Forest.instructions, Forest.instructions, ih, List.append_assoc]

theorem Run.instructions (h : Run item run) : run.instructions = item.textsOf "w:instrText" := by
  cases h with
  | mk name hbefore hafter =>
    rw [single, Forest.instructions, Forest.instructions, textsOf_append, textsOf_append,
      textsOf_idle hbefore, textsOf_idle hafter]
    simp

theorem MarkerRun.instructions (h : MarkerRun kind run) : run.instructions = [] := by
  cases h with
  | mk marker hidle holds =>
    rw [holds.instructions]
    simp [single, textsOf, textsOf_idle hidle, isNamed_of_ne (isNamed_of_isMarker marker)]

theorem InstructionRuns.instructions (h : InstructionRuns instruction f) :
    String.join f.instructions = instruction := by
  have hpiece : ∀ {m : NodeId} {node : Node} {inner run : Forest},
      node.isNamed "w:instrText" = true → idle inner = true → Run (single m node inner) run →
        run.instructions = [inner.text] := fun {m node inner run} hname hidle holds => by
    have hcharacters : node.characters = "" := by
      cases node with
      | element tag => rfl
      | _ => cases hname
    rw [holds.instructions]
    simp [single, textsOf, textsOf_idle hidle, hname, hcharacters]
  induction h with
  | last hname hidle holds => rw [hpiece hname hidle holds]; simp
  | cons hname hidle holds _ ih =>
    rw [instructions_append, hpiece hname hidle holds, List.singleton_append]
    simp [ih]

/-! ## The field of a frame -/

/-- The complex field over a row of runs, the directive of which is in a known instruction. -/
def overRuns (instruction : String) (runs : List NodeId) (display : NodeId) : Field :=
  ⟨.complex (runs.headD display) runs.tail (some display), instruction, directive instruction⟩

/-- The parts of what a field displays. -/
theorem Display.elim (h : Display (single y n inner)) : ∃ tag, n = .element tag ∧
    n.isNamed "w:r" = true ∧ (inner.nodes.countP fun entry => entry.2.isNamed "w:t") = 1 ∧
      ∀ entry ∈ inner.nodes, isMarkup entry.2 = false := by
  cases h with
  | mk name text pure => exact ⟨_, rfl, isNamed_run name, text, pure⟩

theorem Display.exists_single (h : Display f) : ∃ y n inner, f = single y n inner ∧
    Display (single y n inner) := by
  cases h with
  | mk name text pure => exact ⟨_, _, _, rfl, .mk name text pure⟩

theorem Display.rename {ρ : NodeId → NodeId} (h : Display (single y n inner)) :
    Display (single (ρ y) n (inner.rename ρ)) := by
  cases h with
  | mk name text pure =>
    refine .mk name ?_ ?_
    · rw [Forest.nodes_rename, List.countP_map]
      exact text
    · rw [Forest.nodes_rename]
      exact List.forall_mem_map.2 pure

theorem isSome_display? (hshows : d.Shows (cons y n inner rest))
    (htext : (inner.nodes.countP fun entry => entry.2.isNamed "w:t") = 1) :
    (display? d y).isSome = true := by
  have hpos : 0 < inner.nodes.countP fun entry => entry.2.isNamed "w:t" := by omega
  obtain ⟨entry, hentry, hnamed⟩ := List.countP_pos_iff.1 hpos
  have hsome : (inner.nodes.find? (·.2.isNamed "w:t")).isSome = true :=
    List.find?_isSome.2 ⟨entry, hentry, hnamed⟩
  rw [display?, Document.find?, hshows.below_eq]
  obtain ⟨found, hfound⟩ := Option.isSome_iff_exists.1 hsome
  rw [hfound]
  rfl

theorem holds_pure (h : ∀ entry ∈ inner.nodes, isMarkup entry.2 = false) :
    inner.holds (isMarker kind) = false := by
  rw [Forest.holds, List.any_eq_false]
  intro n hn hmarker
  obtain ⟨entry, hentry, rfl⟩ := List.mem_map.1 hn
  have hmarkup := h entry hentry
  rw [isMarkup, isNamed_of_isMarker hmarker] at hmarkup
  simp at hmarkup

theorem ofNode?_run {tag : Element} (h : tag.name = "w:r") : ofNode? d x (.element tag) = none :=
  ofNode?_eq_none (by simp [h]) (by simp [h]) (by simp [h])

/-! ## The parts of a frame -/

theorem fieldless_idle (h : idle f = true) : f.fieldless = true :=
  fieldless_of_discreet (discreet_of_idle h) (holds_idle h)

theorem InstructionRuns.fieldless (h : InstructionRuns instruction f) : f.fieldless = true :=
  fieldless_of_discreet h.discreet h.holds

theorem MarkerRun.fieldless (h : MarkerRun kind run) (hne : kind ≠ "begin") :
    run.fieldless = true :=
  fieldless_of_discreet h.discreet (h.holds_other "begin" hne)

/-- A run with a marker holds nothing else that is looked for. -/
theorem MarkerRun.exists_marker (h : MarkerRun kind (single x node inner)) :
    ∃ m mark minside front back, inner = front ++ cons m mark minside back ∧
      isMarker kind mark = true ∧ front.fieldless = true ∧ minside.fieldless = true ∧
        back.fieldless = true := by
  generalize hrow : single x node inner = run at h
  cases h with
  | @mk m mark minside _ marker hidle holds =>
    cases holds with
    | @mk _ _ front back _ hfront hback =>
      cases hrow
      exact ⟨m, mark, minside, front, back, rfl, marker, fieldless_idle hfront, fieldless_idle hidle,
        fieldless_idle hback⟩

/-- The instruction is all that is to be read in a frame. -/
theorem Frame.instructions (hframe : Frame instruction before after)
    (hdisplay : Display (single y n inner)) :
    String.join (before ++ (single y n inner ++ after)).instructions = instruction := by
  obtain ⟨-, -, -, -, hpure⟩ := hdisplay.elim
  have hdisplayed : (single y n inner).instructions = [] := by
    rw [single, Forest.instructions, textsOf_eq_nil fun entry hentry => ?_]
    · rfl
    · have hmarkup := hpure entry hentry
      simp only [isMarkup, Bool.or_eq_false_iff] at hmarkup
      exact hmarkup.2
  cases hframe with
  | mk begins instructs separates ends =>
    simp only [instructions_append, begins.instructions, separates.instructions, ends.instructions,
      hdisplayed, List.nil_append, List.append_nil]
    exact instructs.instructions

section Runs

variable {opened pieces separator last : Forest}

/-- The runs of a frame are all of the row, up to the one that holds the end marker. -/
theorem Frame.runsAfter_eq (begins : MarkerRun "begin" (single x node opened))
    (instructs : InstructionRuns instruction pieces) (separates : MarkerRun "separate" separator)
    (hdisplay : Display (single y n inner)) (ends : MarkerRun "end" last)
    (hshows : d.Shows (cons x node opened (pieces ++ (separator ++ (single y n inner ++ last)))))
    (hfollowing : d.following x =
      (pieces ++ (separator ++ (single y n inner ++ last))) ++ rest) :
    runsAfter d x = (pieces ++ (separator ++ (single y n inner ++ last))).topIds := by
  obtain ⟨tag, rfl, hrun, -, hpure⟩ := hdisplay.elim
  obtain ⟨z, ztag, zinside, rfl, -⟩ := ends.exists_single
  obtain ⟨q, qtag, qinside, rfl, -⟩ := separates.exists_single
  have hsplit : pieces ++ (single q (.element qtag) qinside ++ (single y (.element tag) inner ++
      single z (.element ztag) zinside)) = (pieces ++ (single q (.element qtag) qinside ++
        single y (.element tag) inner)) ++ single z (.element ztag) zinside := by
    simp only [append_assoc]
  have hlater := hshows.later
  rw [hsplit] at hlater hfollowing ⊢
  rw [Field.runsAfter_eq ?_ (hfollowing.trans (append_assoc _ _ _)) hlater.left ?_ ?_ rfl ?_]
  · simp [single]
  · rw [holdsMarker_first hshows]
    exact begins.holds_other "end" (by decide)
  · rw [holds_append, instructs.holds, holds_append, separates.holds_other "end" (by decide),
      holds_single, isMarker_of_isNamed hrun (by decide), holds_pure hpure]
    rfl
  · rw [tops_append, List.all_append, instructs.elements]
    rfl
  · rw [holdsMarker_first hlater.right]
    exact ends.holds_self

/-- What comes after the separator is displayed. -/
theorem Frame.afterSeparator?_eq (hd : d.Distinct)
    (begins : MarkerRun "begin" (single x node opened))
    (instructs : InstructionRuns instruction pieces) (separates : MarkerRun "separate" separator)
    (hdisplay : Display (single y n inner))
    (hshows : d.Shows (cons x node opened (pieces ++ (separator ++ (single y n inner ++ f)))))
    (hfollowing : d.following x = (pieces ++ (separator ++ (single y n inner ++ f))) ++ rest) :
    afterSeparator? d (cons x node opened
      (pieces ++ (separator ++ (single y n inner ++ f)))).topIds = some y := by
  obtain ⟨tag, rfl, -⟩ := hdisplay.elim
  obtain ⟨q, qtag, qinside, rfl, -⟩ := separates.exists_single
  have hnext : d.nextElement? q = some y := by
    rw [append_assoc] at hfollowing
    rw [Document.nextElement?, Document.followingElements, hd.following_of_append hfollowing]
    rfl
  have hfront : (single x node opened ++ pieces).holds (isMarker "separate") = false := by
    rw [holds_append, begins.holds_other "separate" (by decide), instructs.holds]
    rfl
  exact Field.afterSeparator?_eq (f := single x node opened ++ pieces) hshows hfront
    separates.holds_self hnext

end Runs

theorem ofNode?_begin (hd : d.Distinct) (hmarker : isMarker "begin" node = true)
    (hmem : m ∈ d.children x) :
    ofNode? d m node = some (ofRuns d x (runsAfter d x)) := by
  rw [ofNode?, isNamed_of_ne (isNamed_of_isMarker hmarker) (by decide), hmarker,
    hd.mem_children_iff_parent?.1 hmem]
  rfl

/-- The runs of a frame make one field, which begins in the first of them. -/
theorem within_frame (hd : d.Distinct) (hframe : Frame instruction before after)
    (hdisplay : Display (single y n inner))
    (hshows : d.Shows (before ++ (single y n inner ++ after)))
    (hfollowing : ∀ first node children more,
      before ++ (single y n inner ++ after) = cons first node children more →
        d.following first = more ++ rest) :
    within d before = ((some (overRuns instruction
      (before ++ (single y n inner ++ after)).topIds y)).filter isValid).toList ∧
      within d after = [] := by
  have hinstruction := hframe.instructions hdisplay
  cases hframe with
  | @mk first pieces separator _ begins instructs separates ends =>
    obtain ⟨x, xtag, opened, rfl, xname⟩ := begins.exists_single
    have hrow : (single x (.element xtag) opened ++ (pieces ++ separator)) ++
        (single y n inner ++ after) =
          cons x (.element xtag) opened (pieces ++ (separator ++ (single y n inner ++ after))) := by
      rw [append_assoc, append_assoc]
      rfl
    have hrest := hfollowing _ _ _ _ hrow
    rw [hrow] at hshows hinstruction ⊢
    have hlater := hshows.later
    have hruns := Frame.runsAfter_eq begins instructs separates hdisplay ends hshows hrest
    have hfollower : afterSeparator? d (x :: (pieces ++ (separator ++
        (single y n inner ++ after))).topIds) = some y :=
      Frame.afterSeparator?_eq hd begins instructs separates hdisplay hshows hrest
    have hjoined : joinedInstruction d (x :: (pieces ++ (separator ++
        (single y n inner ++ after))).topIds) = instruction :=
      (joinedInstruction_eq hshows).trans hinstruction
    obtain ⟨m, mark, minside, front, back, rfl, marker, hfront, hminside, hback⟩ :=
      begins.exists_marker
    have hmem : m ∈ d.children x := by
      rw [Document.children, hshows.below_eq]
      simp [tops]
    have hof : ofNode? d m mark = some (overRuns instruction (x :: (pieces ++ (separator ++
        (single y n inner ++ after))).topIds) y) := by
      obtain ⟨-, -, -, htext, -⟩ := hdisplay.elim
      have hshown := isSome_display? hlater.right.right htext
      rw [ofNode?_begin hd marker hmem, hruns]
      simp only [ofRuns, hfollower, hjoined, Option.bind_some, hshown, if_true]
      rfl
    have hopened := hshows.below
    constructor
    · simp only [single, cons_append, nil_append, within_append, within_cons, ofNode?_run xname, hof,
        within_eq_nil hopened.left hfront, within_eq_nil hopened.right.below hminside,
        within_eq_nil hopened.right.later hback, within_eq_nil hlater.left instructs.fieldless,
        within_eq_nil hlater.right.left (separates.fieldless (by decide))]
      simp
    · exact within_eq_nil hlater.right.right.right (ends.fieldless (by decide))

/-! ## Tidy rows -/

/-- All simple fields of a row display a single run, and there are no markers of complex fields. -/
def Tidy : Forest → Prop
  | .nil => True
  | .cons _ node children rest => node.isNamed "w:fldChar" = false ∧
      (node.isNamed "w:fldSimple" = true → Display children) ∧ Tidy children ∧ Tidy rest

end Field

namespace Xml

open Field

variable {u : Unfolding} {s : Site} {k l children : Forest} {p X : NodeId}

namespace Unfolding

/-- The nodes that are made of a node, with their payload as it is in a document. -/
def runs (u : Unfolding) (d : Document) (x : NodeId) : List NodeId := ((d.tree x).unfold u).topIds

/-- The shape of a field in the document where it may be unfolded. -/
def shape (u : Unfolding) (d : Document) : FieldShape → FieldShape
  | .simple x =>
    match u.frame? x, (d.children x).head? with
    | some _, some display =>
      .complex ((u.runs d x).headD (u.name display)) (u.runs d x).tail (some (u.name display))
    | _, _ => .simple (u.name x)
  | .complex first others after => .complex (u.name first) (others.map u.name) (after.map u.name)
  | .image x => .image (u.name x)

/-- A field as it is in the document where it may be unfolded. -/
def field (u : Unfolding) (d : Document) (field : Field) : Field :=
  { field with shape := u.shape d field.shape }

end Unfolding

namespace Document.Unfolds

/-- Where the nodes are that are made of a node. -/
theorem site?_of_slot (h : d.Unfolds u e) (hs : d.site? x = some s)
    (hstands : u.frame? x = none ∨ (d.parent? x).isSome)
    (hslot : u.slot x s.node (s.children.unfold u) = k ++ cons p node children l) :
    (∃ r, e.site? p = some ⟨node, children, r⟩ ∧
      ((∀ z, d.parent? x = some z → u.frame? z = none) → r = l ++ s.rest.unfold u)) ∧
    e.enclosing p = u.path (d.enclosing x) := by
  obtain ⟨husk?, f, others, hlots, hmem | ⟨n, rfl⟩⟩ := h.exists_lot (mem_ids_of_site? hs)
  · exact h.exists_site?_of_slot hlots hmem ((h.site?_eq hlots hmem).symm.trans hs) hslot
  · rcases hstands with hframe | hparent
    · exact absurd hframe ((hlots.sound _ List.mem_cons_self).husk _ rfl)
    · rw [h.parent?_of_husk hlots] at hparent
      cases hparent

/-- A node without fields of its own, or with a simple field or an image, is the same in both
documents. -/
theorem ofNode?_eq (h : d.Unfolds u e) (hnode : d.node? x = some node) (hframe : u.frame? x = none)
    (hmarker : node.isNamed "w:fldChar" = false) :
    ofNode? e (u.name x) node = (ofNode? d x node).map (u.field d) := by
  have hx : x ∈ d.ids := isSome_node?_iff.1 (by rw [hnode]; rfl)
  have hbegin : ∀ kind, isMarker kind node = false := fun kind => by
    rw [isMarker, hmarker, Bool.false_and]
  have hpicture : pictureName? e (u.name x) = pictureName? d x := by
    rw [pictureName?, pictureName?, h.find?_eq hx hframe (by simp [landmarks]) (by simp [frameNames])
      (by decide)]
    cases hfound : d.find? x "pic:cNvPr" with
    | none => rfl
    | some y =>
      obtain ⟨hy, hyframe⟩ := h.of_find? (by decide) hfound
      exact h.attribute?_eq hy hyframe "name"
  simp only [ofNode?, hbegin, hpicture, Bool.false_eq_true, if_false, ofSimple, ofDrawing,
    h.attribute?_eq hx hframe]
  split
  next => simp [Unfolding.field, Unfolding.shape, hframe]
  next =>
    split
    next => simp [Unfolding.field, Unfolding.shape]
    next => rw [Option.map_none]

/-- Nothing of what a field displays is unfolded. -/
theorem frame?_of_display (h : d.Unfolds u e) (hd : d.Shows f) (hdisplay : Display f) :
    ∀ z ∈ f.ids, u.frame? z = none := by
  intro z hz
  obtain ⟨⟨_, n⟩, hentry, rfl⟩ := List.mem_map.1 hz
  refine h.frame?_of_node (hd.node? hentry) ?_
  cases hdisplay with
  | mk name text pure =>
    rw [single, Forest.nodes, Forest.nodes, List.append_nil, List.mem_cons] at hentry
    rcases hentry with hself | hentry
    · cases hself
      exact isNamed_of_ne (isNamed_run name) (by decide)
    · have hmarkup := pure _ hentry
      simp only [isMarkup, Bool.or_eq_false_iff] at hmarkup
      exact hmarkup.1.1

/-- A field carries the same directive in both documents. -/
theorem filter_field (found : Option Field) :
    ((found.map (u.field d)).filter isValid).toList =
      (found.filter isValid).toList.map (u.field d) := by
  cases found with
  | none => rfl
  | some found =>
    have hvalid : (u.field d found).isValid = found.isValid := rfl
    rw [Option.map_some, Option.filter_some, Option.filter_some, hvalid]
    split <;> rfl

/-- The fields of a row are those of the row that is made of it. -/
theorem within_eq (h : d.Unfolds u e) (hd : d.Shows f) (he : e.Shows (f.unfold u)) (htidy : Tidy f)
    (hclear : ∀ x ∈ f.topIds, u.frame? x ≠ none → ∃ z, d.parent? x = some z ∧ u.frame? z = none) :
    within e (f.unfold u) = (within d f).map (u.field d) := by
  induction f with
  | nil => rfl
  | cons x node children rest ihc ihr =>
    obtain ⟨hmarker, hdisplay, htidyc, htidyr⟩ := htidy
    rw [topIds_cons, List.forall_mem_cons] at hclear
    rw [unfold_cons] at he ⊢
    have hrest := ihr hd.later he.right htidyr hclear.2
    have hnode : d.node? x = some node := by
      obtain ⟨t, ht, hnode, -⟩ := hd.site?
      rw [node?_eq_site?, ht, ← hnode]
      rfl
    rw [within_append, hrest, within_cons, List.map_append, List.map_append, ← List.append_assoc]
    -- The later siblings agree by induction; what is left is the node itself and what stands below
    -- it.
    congr 1
    cases hframe : u.frame? x with
    | none =>
      rw [Unfolding.slot_of_none hframe] at he ⊢
      have hchildren := ihc hd.below he.left.below htidyc fun y hy hne => by
        refine ⟨x, ?_, hframe⟩
        rw [← h.distinct.mem_children_iff_parent?, Document.children, hd.below_eq]
        exact hy
      rw [single, within_cons, within_nil, List.append_nil, hchildren, h.ofNode?_eq hnode hframe hmarker]
      rw [filter_field]
    | some frame =>
      obtain ⟨before, after⟩ := frame
      rw [Unfolding.slot_of_some hframe] at he ⊢
      obtain ⟨z, hz, hclearz⟩ := hclear.1 (by rw [hframe]; exact Option.some_ne_none _)
      have hfits := h.fits (x, node) (mem_nodes_of_node? hnode) before after hframe
      obtain ⟨instruction, hinstruction, hshape⟩ := hfits.frame
      obtain ⟨t, ht, htnode, htchildren⟩ := hd.site?
      subst htnode htchildren
      have hdisplays := hdisplay hfits.name
      have hnone := h.frame?_of_display hd.below hdisplays
      have hrenamed := unfold_eq_rename hnone
      have hchildren := ihc hd.below he.left.right.left htidyc fun z hz hne =>
        absurd (hnone z (mem_ids_of_mem_topIds hz)) hne
      have hruns : u.runs d x = (before ++ (t.children.rename u.name ++ after)).topIds := by
        rw [Unfolding.runs, hd.tree_eq, unfold_single, Unfolding.slot_of_some hframe, hrenamed]
      rw [hrenamed] at he hchildren ⊢
      have hfollowing : ∀ first fn fc more,
          before ++ (t.children.rename u.name ++ after) = cons first fn fc more →
            e.following first = more ++ t.rest.unfold u := fun first fn fc more heq => by
        obtain ⟨r, hr, hrest⟩ := (h.site?_of_slot (k := nil) ht (.inr (by rw [hz]; rfl))
          (by rw [Unfolding.slot_of_some hframe, hrenamed, heq]; rfl)).1
        rw [following_eq_site?, hr, hrest fun z' hz' => by
          rw [hz] at hz'
          cases hz'
          exact hclearz]
        rfl
      have hof : (ofNode? d x t.node).map (u.field d) =
          some (overRuns instruction (u.runs d x) (u.name ((d.children x).headD x))) := by
        have hattribute : d.attribute? x "w:instr" = some instruction := by
          rw [Document.attribute?, hnode, Option.bind_some, hinstruction]
        obtain ⟨y, n, inner, hsingle, -⟩ := hdisplays.exists_single
        have hhead : (d.children x).head? = some y := by
          rw [Document.children, hd.below_eq, hsingle]
          rfl
        rw [ofNode?, if_pos hfits.name, ofSimple, hattribute, Option.map_some, List.headD_eq_head?_getD,
          hhead]
        simp only [Unfolding.field, Unfolding.shape, hframe, hhead, overRuns, Option.getD_some]
      obtain ⟨y, n, inner, hsingle, hydisplay⟩ := hdisplays.exists_single
      have hname : (d.children x).headD x = y := by
        rw [Document.children, hd.below_eq, hsingle]
        rfl
      have hshows := he.left
      rw [hsingle] at hshows hfollowing hruns hchildren ⊢
      -- Of the runs around the display only the first holds a begin marker, and it makes the one
      -- field.
      obtain ⟨hbefore, hafter⟩ := within_frame h.distinct' hshape hydisplay.rename hshows hfollowing
      rw [within_append, within_append, hchildren, hbefore, hafter, ← filter_field, hof, hname, hruns,
        List.append_nil]
      rfl

/-- The fields below a node are those below the node that is made of it. -/
theorem discover_eq (h : d.Unfolds u e) (hX : X ∈ d.ids) (hframe : u.frame? X = none)
    (htidy : Tidy (d.tree X)) : discover e (u.name X) = (discover d X).map (u.field d) := by
  have htree := h.tree_eq hX hframe
  have hshows := h.distinct'.shows_tree (u.name X)
  rw [htree] at hshows
  rw [discover_eq_within, discover_eq_within, htree]
  refine h.within_eq (h.distinct.shows_tree X) hshows htidy fun x hx hne => ?_
  obtain ⟨s, hs⟩ := Document.exists_site? hX
  rw [tree_of_site? hs] at hx
  cases List.mem_singleton.1 hx
  exact absurd hframe hne

end Document.Unfolds

end Xml

end MailMerge
