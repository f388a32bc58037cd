import MailMerge.Proofs.Field.Apart
import MailMerge.Proofs.Xml.ChildLists
import MailMerge.Proofs.Xml.Stepwise

/-!
# Replacement of fields by single moves

What is done at once when a field is replaced is told here by single moves, each of which could be
refused: the children of a node that is unwrapped are moved one after the other, a text is created and
put into its element, and a copy grows by one child after the other. No move is refused, and nothing
else comes of it (`replace_follows`).
-/

namespace MailMerge

open Xml

variable {α β : Type} {w w' : Workspace} {rest : List Forest} {d e : Document} {x y : NodeId}

/-! ## Steps that do the same -/

namespace Merge

/-- A step does what another one does, and that is not to move a node below or next to itself. -/
def Follows (m m' : Merge α) (w : Workspace) : Prop :=
  m w = m' w ∧ ∀ left, m' w ≠ .error .misplacedNode left

variable {m m' : Merge α} {next next' : α → Merge β} {answers : α → Document → Prop}

theorem follows_ok {a : α} (h : m w = .ok a w') (h' : m' w = .ok a w') : m.Follows m' w := by
  refine ⟨h.trans h'.symm, fun left hrun => ?_⟩
  rw [h'] at hrun
  cases hrun

theorem follows_error {error : MergeError} (h : m w = .error error w') (h' : m' w = .error error w')
    (hother : error ≠ .misplacedNode) : m.Follows m' w := by
  refine ⟨h.trans h'.symm, fun left hrun => ?_⟩
  rw [h'] at hrun
  cases hrun
  exact hother rfl

theorem follows_edit (f : Document → Document) : (edit f).Follows (edit f) w := follows_ok rfl rfl

/-- What is created is known exactly afterwards. -/
theorem follows_create {f : Document → NodeId × Document} {next next' : NodeId → Merge β}
    (h : (next (f w.document).1).Follows (next' (f w.document).1)
      { w with document := (f w.document).2 }) :
    (create f >>= next).Follows (create f >>= next') w := h

theorem follows_pure (a : α) : (pure a : Merge α).Follows (pure a) w := follows_ok rfl rfl

theorem follows_move {f : Document → Option Document} (h : f w.document = some d) :
    (move f).Follows (move f) w := follows_ok (move_ok h) (move_ok h)

theorem follows_document {next next' : Document → Merge β}
    (h : (next w.document).Follows (next' w.document) w) :
    (document >>= next).Follows (document >>= next') w := h

theorem Follows.andThen (h : m.Follows m' w)
    (hnext : ∀ a w', m' w = .ok a w' → (next a).Follows (next' a) w') :
    (m >>= next).Follows (m' >>= next') w := by
  cases hm : m' w with
  | error error left =>
    have hother : error ≠ .misplacedNode := by
      intro heq
      rw [heq] at hm
      exact h.2 left hm
    exact follows_error (bind_error (h.1.trans hm)) (bind_error hm) hother
  | ok a w' =>
    have hlater := hnext a w' hm
    refine ⟨?_, fun left hrun => ?_⟩
    · rw [bind_ok (h.1.trans hm), bind_ok hm]
      exact hlater.1
    · rw [bind_ok hm] at hrun
      exact hlater.2 left hrun

/-- What is known of the rows after the first step is at hand for the second one. -/
theorem Follows.bind (h : m.Follows m' w) (hspares : m'.Spares rest w answers)
    (hnext : ∀ a w', w.document.Spares rest w'.document → answers a w'.document →
      (next a).Follows (next' a) w') : (m >>= next).Follows (m' >>= next') w := by
  refine h.andThen fun a w' hm => ?_
  obtain ⟨hrows, ha⟩ := hspares.of_ok hm
  exact hnext a w' hrows ha

theorem follows_forM {step step' : α → Merge Unit} {xs : List α} (h : w.document.Apart rest)
    (hspares : ∀ x ∈ xs, ∀ w', w.document.Spares rest w'.document →
      (step' x).Spares rest w' fun _ _ => True)
    (hstep : ∀ x ∈ xs, ∀ w', w.document.Spares rest w'.document → (step x).Follows (step' x) w') :
    (xs.forM step).Follows (xs.forM step') w := by
  induction xs generalizing w with
  | nil => exact follows_ok rfl rfl
  | cons x xs ih =>
    have hself := Document.Spares.refl h
    refine (hstep x List.mem_cons_self w hself).bind (hspares x List.mem_cons_self w hself) ?_
    intro _ w' hrows _
    apply ih hrows.apart
    · intro y hy w'' hrows'
      exact hspares y (List.mem_cons_of_mem _ hy) w'' (hrows.trans hrows')
    · intro y hy w'' hrows'
      exact hstep y (List.mem_cons_of_mem _ hy) w'' (hrows.trans hrows')

theorem follows_mapM {step step' : α → Merge β} {xs : List α} (h : w.document.Apart rest)
    (hspares : ∀ x ∈ xs, ∀ w', w.document.Spares rest w'.document →
      (step' x).Spares rest w' fun _ _ => True)
    (hstep : ∀ x ∈ xs, ∀ w', w.document.Spares rest w'.document → (step x).Follows (step' x) w') :
    (xs.mapM step).Follows (xs.mapM step') w := by
  induction xs generalizing w with
  | nil => exact follows_ok rfl rfl
  | cons x xs ih =>
    have hself := Document.Spares.refl h
    rw [List.mapM_cons, List.mapM_cons]
    refine (hstep x List.mem_cons_self w hself).bind (hspares x List.mem_cons_self w hself) ?_
    intro b w' hrows _
    have hspares' : ∀ y ∈ xs, ∀ w'', w'.document.Spares rest w''.document →
        (step' y).Spares rest w'' fun _ _ => True :=
      fun y hy w'' hrows' => hspares y (List.mem_cons_of_mem _ hy) w'' (hrows.trans hrows')
    have hlater := ih hrows.apart hspares' fun y hy w'' hrows' =>
      hstep y (List.mem_cons_of_mem _ hy) w'' (hrows.trans hrows')
    have hall := spares_mapM hrows.apart (fun _ _ => trivial) hspares'
    exact hlater.bind hall fun bs w'' _ _ => follows_pure _

/-- Moves that are all admitted succeed one after the other. -/
theorem forM_move {ys : List NodeId} {f : NodeId → Document → Option Document}
    (h : ys.foldlM (fun d y => f y d) w.document = some e) :
    (ys.forM fun y => move (f y)) w = .ok () { w with document := e } := by
  induction ys generalizing w with
  | nil =>
    cases h
    rfl
  | cons y ys ih =>
    rw [List.foldlM_cons] at h
    obtain ⟨d, hfirst, hlater⟩ := Option.bind_eq_some_iff.1 h
    exact (bind_ok (move_ok hfirst)).trans (ih hlater)

end Merge

open Merge

/-! ## Edits by single moves -/

namespace Stepwise

/-- Moves the children of a node before it and takes it out. A node without a parent is taken out
with its children. -/
def unwrap (x : NodeId) : Merge Unit := do
  let d ← Merge.document
  if (d.parent? x).isSome then
    (d.children x).forM fun y => Merge.move (·.insertBefore x y)
  Merge.edit (·.detach x)

/-- Takes out the children of a node and puts a new text below it. -/
def setText (x : NodeId) (content : String) : Merge Unit := do
  Merge.edit (·.clearChildren x)
  let text ← Merge.create (·.createText content)
  Merge.move (·.appendChild x text)

/-- Puts copies of a row at the end of the children of a node, each after its own children have been
copied. -/
def copyBelow (parent : NodeId) : Forest → Merge Unit
  | .nil => return ()
  | .cons _ node children rest => do
    let x ← Merge.create (·.create node)
    copyBelow x children
    Merge.move (·.appendChild parent x)
    copyBelow parent rest

/-- Copies a node and everything below it. -/
def copy (x : NodeId) : Merge NodeId := do
  match (← Merge.document).tree x with
  | .nil => Merge.create (·.copy x)
  | .cons _ node children _ => do
    let y ← Merge.create (·.create node)
    copyBelow y children
    return y

/-- Makes a copy of the displaying node with another text. -/
def displayCopy (display : NodeId) (cs : List Char) : Merge NodeId := do
  let x ← copy display
  setText x (String.ofList cs)
  if Content.hasBlankEnd cs then
    Merge.edit (·.setAttribute x "xml:space" "preserve")
  return x

/-- Makes the node for a piece of text. -/
def pieceNode (display : NodeId) (cs : List Char) : Merge NodeId :=
  if cs.any Content.isBreak then Merge.create (·.createElement "w:br") else displayCopy display cs

/-- Puts the nodes for a text after the displaying node. -/
def insertText (display : NodeId) (s : String) : Merge Unit :=
  (Content.pieces s).reverse.forM fun cs => do
    let x ← pieceNode display cs
    Merge.move (·.insertAfter display x)

/-- Inserts content, a text by single moves. Markup is put next to nodes by single moves anyway. -/
def insert (convert? : Option Converter) (paragraph? : Option NodeId) (display : NodeId) :
    Content → Merge Unit
  | .text s => insertText display s
  | content => content.insert convert? paragraph? display

/-- Puts content in the place of the text displayed below a node. -/
def replaceDisplay (convert? : Option Converter) (x : NodeId) (content : Content) :
    Merge Unit := do
  let d ← Merge.document
  match Field.display? d x with
  | none => return ()
  | some display =>
    insert convert? (d.ancestor? x "w:p") display content
    Merge.edit (·.detach display)

/-- Puts content in the place of the text that a field displays, and takes the field out. -/
def replace (convert? : Option Converter) (field : Field) (content : Content) : Merge Unit := do
  match field.shape with
  | .simple x =>
    Field.ensureDisplay x
    replaceDisplay convert? x content
    unwrap x
  | .complex first others after =>
    if let some x := after then
      replaceDisplay convert? x content
    Merge.edit (·.detachAll ((first :: others).filter fun x => some x ≠ after))
  | .image _ => field.replace convert? content

end Stepwise

open Stepwise

theorem Xml.Document.Distinct.apart_nil (hd : d.Distinct) : d.Apart [] := ⟨hd, d.allRows, by simp⟩

theorem Xml.Document.free_nil_iff : d.Free [] x ↔ x ∈ d.ids := ⟨fun h => h.mem, fun h => ⟨h, by simp⟩⟩

/-- A new node can be put after each node that was there before. -/
theorem Xml.Document.Spares.exists_insertAfter (h : d.Spares d.allRows e)
    (hx : e.Free d.allRows x) (hy : y ∈ d.ids) : ∃ f, e.insertAfter y x = some f := by
  have hout : y ∉ e.descendants x := fun hin => (h.apart.free_of_mem_descendants hx hin).out hy
  exact h.apart.distinct.exists_insertAfter hx.mem (h.ids hy) hout

/-- A new node can be put before each node that was there before. -/
theorem Xml.Document.Spares.exists_insertBefore (h : d.Spares d.allRows e)
    (hx : e.Free d.allRows x) (hy : y ∈ d.ids) : ∃ f, e.insertBefore y x = some f := by
  have hout : y ∉ e.descendants x := fun hin => (h.apart.free_of_mem_descendants hx hin).out hy
  rcases h.apart.distinct.relocates_insertBefore hx.mem (h.ids hy) with ⟨hin, -⟩ | ⟨f, hf, -⟩
  · exact absurd hin hout
  · exact ⟨f, hf⟩

/-- A new node can be put below each node that was there before. -/
theorem Xml.Document.Spares.exists_appendChild (h : d.Spares d.allRows e)
    (hx : e.Free d.allRows x) (hy : y ∈ d.ids) : ∃ f, e.appendChild y x = some f := by
  have hout : y ∉ e.descendants x := fun hin => (h.apart.free_of_mem_descendants hx hin).out hy
  rcases h.apart.distinct.relocates_appendChild hx.mem (h.ids hy) with ⟨hin, -⟩ | ⟨f, hf, -⟩
  · exact absurd hin hout
  · exact ⟨f, hf⟩

theorem unwrap_follows (hd : w.document.Distinct) (x : NodeId) :
    (Stepwise.unwrap x).Follows (edit (·.unwrap x)) w := by
  refine follows_ok ?_ rfl
  unfold Stepwise.unwrap
  rw [document_bind]
  by_cases hparent : (w.document.parent? x).isSome = true
  · obtain ⟨e, hmoves, hdetach⟩ := hd.unwrap_eq_moves hparent
    rw [if_pos hparent]
    refine (bind_ok (forM_move (f := fun y d => d.insertBefore x y) hmoves)).trans ?_
    exact congrArg (fun d => EStateM.Result.ok () { w with document := d }) hdetach
  · have hnone : w.document.parent? x = none := by simpa using hparent
    have hsame : w.document.unwrap x = w.document.detach x := by
      simp only [Document.unwrap, hnone]
    rw [if_neg hparent]
    exact congrArg (fun d => EStateM.Result.ok () { w with document := d }) hsame.symm

theorem setText_follows (hd : w.document.Distinct) (hx : x ∈ w.document.ids) (content : String) :
    (Stepwise.setText x content).Follows (edit (·.setText x content)) w := by
  refine follows_ok ?_ rfl
  have hnext : (w.document.clearChildren x).next = w.document.next :=
    (Document.detachAll_sameFrame w.document _).next
  have hmove := (hd.appendChild_setText hx content).1
  rw [← hnext] at hmove
  unfold Stepwise.setText
  rw [edit_bind, create_bind]
  exact move_ok hmove

/-! ### Copies -/

/-- What has been copied so far stands at the front of the document without a parent, and is put below
the copy that stands next to it. -/
theorem appendChild_front {p next : NodeId} {n node : Node} {children row : Forest}
    {rows : List Forest} (hrows : d.rows = .single next n children :: .single p node row :: rows)
    (hp : p < next) (hchildren : ∀ y ∈ children.ids, next < y) :
    d.appendChild p next =
      some { d with rows := .single p node (row ++ .single next n children) :: rows } := by
  have htaken : d.takeOut (·.extract? next) =
      some (.single next n children, { d with rows := .single p node row :: rows }) := by
    simp [Document.takeOut, hrows, Document.takeFrom, Forest.single, Forest.extract?]
  have hout : (Forest.single next n children).contains p = false := by
    rw [← Bool.not_eq_true, Forest.contains_eq_true_iff]
    intro hin
    rcases List.mem_cons.1 (by simpa [Forest.single] using hin) with rfl | hin
    · exact Nat.lt_irrefl _ hp
    · exact Nat.lt_asymm hp (hchildren p hin)
  rw [Document.appendChild, Document.move, htaken]
  simp only [hout, Bool.false_eq_true, if_false]
  simp [Document.change, Document.changeRow, Forest.single, Forest.appendChild?]

/-- The row of a copy that is being made stands at the front of the document, and the copies of further
nodes are put at its end. -/
theorem copyBelow_ok {p : NodeId} {node : Node} {row : Forest} {rows : List Forest} (f : Forest)
    (hp : p < w.document.next) (hrows : w.document.rows = .single p node row :: rows) :
    copyBelow p f w = .ok () { w with document := { w.document with
      rows := .single p node (row ++ f.relabel w.document.next) :: rows
      next := w.document.next + f.size } } := by
  induction f generalizing w p node row rows with
  | nil =>
    obtain ⟨⟨ownRows, aside, root, next, declaration⟩, resources, numbering⟩ := w
    cases hrows
    simp [copyBelow, Forest.relabel, Forest.size]
  | cons id n children rest ihc ihr =>
    obtain ⟨⟨ownRows, aside, root, next, declaration⟩, resources, numbering⟩ := w
    cases hrows
    change p < next at hp
    rw [copyBelow, create_bind]
    -- The new node stands before the row until its own children have been copied.
    have hchildren := ihc (w := ⟨⟨.single next n .nil :: .single p node row :: rows, aside, root,
      next + 1, declaration⟩, resources, numbering⟩) (Nat.lt_succ_self next) rfl
    refine (bind_ok hchildren).trans ?_
    have hnew : ∀ y ∈ (children.relabel (next + 1)).ids, next < y := by
      intro y hy
      rw [Forest.ids_relabel, List.mem_range'_1] at hy
      exact hy.1
    have hmove := appendChild_front (d := ⟨.single next n (children.relabel (next + 1)) ::
      .single p node row :: rows, aside, root, next + 1 + children.size, declaration⟩) rfl hp hnew
    refine (bind_ok (move_ok hmove)).trans ?_
    have hlater : p < next + 1 + children.size :=
      Nat.lt_of_lt_of_le (Nat.lt_succ_of_lt hp) (Nat.le_add_right _ _)
    have hrest := ihr (w := ⟨⟨.single p node (row ++ .single next n (children.relabel (next + 1))) ::
      rows, aside, root, next + 1 + children.size, declaration⟩, resources, numbering⟩) hlater rfl
    refine hrest.trans ?_
    have hrow : (row ++ Forest.single next n (children.relabel (next + 1))) ++
        rest.relabel (next + 1 + children.size) = row ++ (Forest.cons id n children rest).relabel next := by
      rw [Forest.append_assoc]
      rfl
    have hsize : next + 1 + children.size + rest.size = next + (Forest.cons id n children rest).size := by
      rw [Forest.size, Nat.add_assoc, Nat.add_assoc, Nat.add_comm 1]
    simp only [hrow, hsize]

theorem copy_follows (hx : x ∈ w.document.ids) : (Stepwise.copy x).Follows (create (·.copy x)) w := by
  refine follows_ok ?_ rfl
  obtain ⟨s, hs⟩ := Document.exists_site? hx
  have htree : w.document.tree x = .single x s.node s.children := by
    rw [Document.tree_eq_site?, hs]
    rfl
  rw [Stepwise.copy, document_bind, htree]
  have hcopied := copyBelow_ok (w := { w with document := (w.document.create s.node).2 }) s.children
    (Nat.lt_succ_self w.document.next) rfl
  refine (bind_ok hcopied).trans ?_
  have hsize : w.document.next + 1 + s.children.size =
      w.document.next + (Forest.single x s.node s.children).size := by
    rw [Forest.single, Forest.size, Forest.size, Nat.add_zero, Nat.add_assoc, Nat.add_comm 1]
  simp only [← hsize]
  rfl

/-! ## Texts in the place of fields -/

theorem displayCopy_follows {display : NodeId} (hd : w.document.Distinct)
    (hdisplay : display ∈ w.document.ids) (cs : List Char) :
    (Stepwise.displayCopy display cs).Follows (Content.displayCopy display cs) w := by
  refine (copy_follows hdisplay).bind (spares_copy hd.apart_nil hdisplay) fun x w₁ h₁ hx => ?_
  have htext := h₁.apart.setText hx (String.ofList cs)
  refine (setText_follows h₁.apart.distinct hx.mem _).bind (spares_edit htext) fun _ w₂ h₂ _ => ?_
  split
  · have hspace := h₂.apart.update (hx.later h₂)
      (·.mapElement (·.setAttribute "xml:space" "preserve"))
    exact (follows_edit _).bind (spares_edit hspace) fun _ _ _ _ => follows_pure x
  · exact follows_pure x

theorem pieceNode_follows {display : NodeId} (hd : w.document.Distinct)
    (hdisplay : display ∈ w.document.ids) (cs : List Char) :
    (Stepwise.pieceNode display cs).Follows (Content.pieceNode display cs) w := by
  unfold Stepwise.pieceNode Content.pieceNode
  split
  · exact follows_ok rfl rfl
  · exact displayCopy_follows hd hdisplay cs

/-- The node for a piece of text is new, so that the displaying node does not stand below it. -/
theorem insertText_follows {display : NodeId} (hd : w.document.Distinct)
    (hdisplay : display ∈ w.document.ids) (s : String) :
    (Stepwise.insertText display s).Follows (Content.insertText display s) w := by
  apply follows_forM hd.apart_nil
  · intro cs _ w₁ h₁
    refine (Content.pieceNode_spares h₁.apart (h₁.ids hdisplay) cs).bind fun x w₂ h₂ hx => ?_
    refine spares_move h₂.apart fun d hmove => ?_
    exact h₂.apart.insertAfter hx (Document.free_nil_iff.2 (h₂.ids (h₁.ids hdisplay))) hmove
  · intro cs _ w₁ h₁
    have hdisplay₁ := h₁.ids hdisplay
    have hpiece := Content.pieceNode_spares h₁.apart.distinct.apart hdisplay₁ cs
    refine (pieceNode_follows h₁.apart.distinct hdisplay₁ cs).bind hpiece fun x w₂ h₂ hx => ?_
    obtain ⟨d, hmove⟩ := h₂.exists_insertAfter hx hdisplay₁
    exact follows_move hmove

theorem replaceDisplay_follows {convert? : Option Converter} (hd : w.document.Distinct)
    (hx : x ∈ w.document.ids) (s : String) :
    (Stepwise.replaceDisplay convert? x (.text s)).Follows
      (Field.replaceDisplay convert? x (.text s)) w := by
  refine follows_document ?_
  cases hdisplay : Field.display? w.document x with
  | none => exact follows_pure ()
  | some display =>
    have hfree := Field.free_of_display? hd.apart_nil (Document.free_nil_iff.2 hx) hdisplay
    have hinserted := Content.insertText_spares hd.apart_nil hfree s
    exact (insertText_follows hd hfree.mem s).bind hinserted fun _ _ _ _ => follows_edit _

/-- A field that displays nothing gets an empty run, which is new. -/
theorem ensureDisplay_follows (hd : w.document.Distinct) (hx : x ∈ w.document.ids) :
    (Field.ensureDisplay x).Follows (Field.ensureDisplay x) w := by
  refine follows_document ?_
  split
  · have hrun := hd.apart.create (.element ⟨"w:r", []⟩)
    have hrun' := hd.apart.create_free (.element ⟨"w:r", []⟩)
    have htext := hrun.apart.distinct.apart.create (.element ⟨"w:t", []⟩)
    have htext' := hrun.apart.distinct.apart.create_free (.element ⟨"w:t", []⟩)
    refine follows_create (follows_create ?_)
    obtain ⟨d, hmove⟩ := htext.exists_appendChild htext' hrun'.mem
    have hgrown := hrun.apart.create (.element ⟨"w:t", []⟩)
    have hmoved := hgrown.apart.appendChild (hrun.apart.create_free _) (hrun'.later hgrown) hmove
    have hmoved' := (hrun.trans hgrown).trans hmoved
    obtain ⟨e, hmove'⟩ := hmoved'.exists_appendChild ((hrun'.later hgrown).later hmoved) hx
    refine ⟨rfl, fun left hrun => ?_⟩
    rw [bind_ok (move_ok hmove), move_ok hmove'] at hrun
    cases hrun
  · exact follows_pure ()

/-- A text is put in the place of a field by single moves. -/
theorem replace_follows {field : Field} (convert? : Option Converter) (hd : w.document.Distinct)
    (hfield : ∀ x ∈ field.handles, x ∈ w.document.ids) (s : String) :
    (Stepwise.replace convert? field (.text s)).Follows (field.replace convert? (.text s)) w := by
  obtain ⟨shape, instruction, expression⟩ := field
  cases shape with
  | simple x =>
    have hx := hfield x List.mem_cons_self
    have hensured := Field.ensureDisplay_spares hd.apart_nil (Document.free_nil_iff.2 hx)
    apply (ensureDisplay_follows hd hx).bind hensured
    intro _ w₁ h₁ _
    have hx₁ := h₁.ids hx
    apply (replaceDisplay_follows h₁.apart.distinct hx₁ s).bind
    · exact Field.replaceDisplay_spares h₁.apart (Document.free_nil_iff.2 hx₁) (.text s)
    · intro _ w₂ h₂ _
      exact unwrap_follows h₂.apart.distinct x
  | complex first others after =>
    cases after with
    | none => exact follows_ok rfl rfl
    | some x =>
      have hx := hfield x (by simp [Field.handles])
      apply (replaceDisplay_follows hd hx s).bind
      · exact Field.replaceDisplay_spares hd.apart_nil (Document.free_nil_iff.2 hx) (.text s)
      · intro _ _ _ _
        exact follows_edit _
  | image drawing => exact follows_ok rfl rfl

end MailMerge
