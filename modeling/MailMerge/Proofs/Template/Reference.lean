import MailMerge.Proofs.Rendering.Markers
import MailMerge.Proofs.Template.Rendering
import MailMerge.Proofs.Block.Span
import MailMerge.Proofs.Xml.Parse

/-!
# Templates as the reference for rendering

A part whose fields all stand in the markup of a template is rendered to what the template means:
the row of the template is exchanged for its meaning, and all the rest stays. Where the template
means an error, rendering fails with that error. Main statement: `render_eq_meaning`.
-/

namespace MailMerge

open Xml

namespace Xml

namespace Forest

variable {around f g : Forest} {r : NodeId}

theorem bare_refill (around : Forest) (r : NodeId) (h : f.bare = g.bare) :
    (around.refill r f).bare = (around.refill r g).bare := by
  induction around with
  | nil => rfl
  | cons id node children rest ihc ihr =>
    by_cases hr : id = r
    · rw [hr, refill, refill, rewrite_cons_self, rewrite_cons_self]
      simp [h]
    · rw [refill_cons_of_ne _ _ _ hr, refill_cons_of_ne _ _ _ hr, bare_cons, bare_cons, ihc, ihr]

/-- A first tree is filled on its own. -/
theorem exists_refill_cons (x : NodeId) (node : Node) (children : Forest) {rest : Forest}
    (hr : r ∉ rest.ids) (f : Forest) :
    ∃ inside, (single x node children).refill r f = single x node inside ∧
      (cons x node children rest).refill r f = cons x node inside rest := by
  by_cases hx : x = r
  · refine ⟨f, ?_, ?_⟩
    · rw [hx, refill_single]
    · rw [hx, refill, rewrite_cons_self]
  · refine ⟨children.refill r f, ?_, ?_⟩
    · rw [single, refill_cons_of_ne _ _ _ hx]
      rfl
    · rw [refill_cons_of_ne _ _ _ hx, refill_of_notMem hr]

end Forest

end Xml

namespace Template

open Xml.Forest Xml.Document

/-- A marker has a node that begins its field. -/
theorem Marker.one_le_markers {directive : String} (marker : Marker directive) :
    1 ≤ marker.forest.markers := by
  have hfield : 1 ≤ marker.field.forest.markers := by
    cases marker.field with
    | simple tag run isField states =>
      have htag : (single 0 (.element tag) .nil).markers = 1 := by
        simp [markers, single, Forest.nodes, Node.isNamed, Node.name?, Node.element?, isField]
      rw [FieldMarkup.forest, single, markers_cons, htag]
      omega
    | complex runs states =>
      obtain ⟨x, node, children, rest, heq, -, hbelow, -⟩ := exists_of_opens runs.opens
      obtain ⟨before, y, n, inside, after, hchildren, hbegin, -⟩ := exists_of_opensBelow hbelow
      have hn : (single 0 n .nil).markers = 1 := by
        simp [markers, single, Forest.nodes, hbegin]
      rw [FieldMarkup.forest, FieldRuns.forest, markers_append, heq, markers_cons, hchildren,
        markers_append, markers_cons, hn]
      omega
  rw [Marker.forest, Marker.around, single, markers_cons, markers_append, markers_append]
  omega

/-- Blocks are not deeper inside one another than there are markers. -/
theorem nesting_le_markers (t : Template) : t.nesting ≤ t.forest.markers := by
  induction t with
  | nil => exact Nat.zero_le _
  | still tag children quiet rest ih =>
    rw [nesting, forest, markers_append]
    omega
  | insertion path marker rest ih =>
    rw [nesting, forest, markers_append]
    omega
  | block head start body stop rest ihBody ih =>
    have hstart := start.one_le_markers
    rw [nesting, forest, markers_append, markers_append, markers_append]
    omega

end Template

namespace Xml.Document

open Forest

variable {d e : Document} {children rest f : Forest} {x : NodeId} {node : Node}
variable {others : List Forest}

/-- The root is the first sibling of a row. -/
theorem Proper.exists_root_row (hd : d.Proper) :
    ∃ node children rest, cons d.root node children rest ∈ d.allRows := by
  obtain ⟨row, hrow, hroot⟩ := exists_row hd.rooted
  cases row with
  | nil => cases hroot
  | cons x node children rest =>
    have hsite : d.site? x = some ⟨node, children, rest⟩ := by
      rw [hd.site?_of_row hrow (by simp), Forest.site?, if_pos rfl]
    have htop := hd.topmost x _ hsite
    rw [ids_cons, List.mem_cons, List.mem_append] at hroot
    rcases hroot with heq | hmem | hmem
    · exact ⟨node, children, rest, heq ▸ hrow⟩
    · exact absurd hmem htop.1
    · exact absurd hmem htop.2

/-- A document holds what stands below a node of the part. -/
theorem Proper.exists_holds (hd : d.Proper) (hx : x ∈ d.descendants d.root) :
    ∃ node children rest others, x ∉ rest.ids ∧ d.tree d.root = single d.root node children ∧
      d.Holds (cons d.root node children rest) x (d.below x) others := by
  obtain ⟨node, children, rest, hrow⟩ := hd.exists_root_row
  have hroot : d.site? d.root = some ⟨node, children, rest⟩ := by
    rw [hd.site?_of_row hrow (by simp), Forest.site?, if_pos rfl]
  have hnodup := hd.nodup_row hrow
  have hinside : x ∈ (single d.root node children).ids := by
    rw [descendants_eq_site?, hroot] at hx
    simpa [single] using hx
  have hout : x ∉ rest.ids := by
    have happend : (single d.root node children ++ rest).ids.Nodup := hnodup
    rw [ids_append, List.nodup_append] at happend
    exact fun hmem => happend.2.2 x hinside x hmem rfl
  have hmem : x ∈ (cons d.root node children rest).ids := by
    have happend : x ∈ (single d.root node children ++ rest).ids := by
      rw [ids_append]
      exact List.mem_append_left _ hinside
    exact happend
  obtain ⟨s, hs⟩ := Forest.exists_site? hmem
  have hbelow : d.below x = s.children := by
    rw [below_eq_site?, hd.site?_of_row hrow hmem, hs]
    rfl
  obtain ⟨before, after, hrows⟩ := List.append_of_mem hrow
  refine ⟨node, children, rest, before ++ after, hout, ?_, hd.toDistinct, hmem, ?_⟩
  · rw [tree_eq_site?, hroot]
    rfl
  · rw [hbelow, refill_self hs hnodup, hrows]
    exact List.perm_middle

/-- The tree of the root, when a node in it has been filled. -/
theorem Holds.root_tree (h : e.Holds (cons d.root node children rest) x f others)
    (hx : x ∉ rest.ids) (hroot : e.root = d.root) :
    e.tree e.root = (single d.root node children).refill x f := by
  obtain ⟨inside, hsingle, hcons⟩ :=
    exists_refill_cons d.root node children hx f
  have hrow := h.row_mem
  rw [hcons] at hrow
  have hsite : e.site? d.root = some ⟨node, inside, rest⟩ := by
    rw [h.distinct.site?_of_row hrow (by simp), Forest.site?, if_pos rfl]
  rw [tree_eq_site?, hroot, hsite, hsingle]
  rfl

end Xml.Document

theorem Field.flatMap_discover {d : Document} {f : Forest} (hd : d.Shows f) :
    f.topIds.flatMap (discover d) = within d f := by
  induction f with
  | nil => rfl
  | cons x node children rest _ ih =>
    rw [Forest.topIds_cons, List.flatMap_cons, ih hd.later, discover_eq_within, hd.tree_eq,
      ← within_single_append]

/-- A part that is not the main one is rendered by its fields alone. -/
theorem Session.render_headerFooter (host : Host) (context : Context) (startPage? : Option Nat)
    {s : Session} (hkind : s.part.kind = .headerFooter) (hcache : s.cache? = none) :
    Session.render host context startPage? s =
      match Rendering.renderFields host context
        (Field.discover s.part.document s.part.document.root)
        ⟨s.part.document, s.resources, s.numbering⟩ with
      | .ok () w => .ok () (s.after none w)
      | .error e w => .error e (s.after none w) := by
  have hfields : s.part.fields none =
      (Field.discover s.part.document s.part.document.root, none) := rfl
  unfold Session.render
  rw [hcache, hfields]
  simp only [hkind, bind, EStateM.bind]
  generalize Rendering.renderFields host context
    (Field.discover s.part.document s.part.document.root)
    ⟨s.part.document, s.resources, s.numbering⟩ = result
  cases result <;> rfl

open Template Xml.Document in
/-- Rendering a part with a template does what the template means, and fails as it does. All fields of
the part are those of the children of a node, and these are the markup of the template. -/
theorem render_eq_meaning (host : Host) (t : Template) (s : Session) (data : Json)
    (context : Context) (startPage? : Option Nat) (body : NodeId)
    (hkind : s.part.kind = .headerFooter) (hcache : s.cache? = none)
    (hd : s.part.document.Proper)
    (hbody : body ∈ s.part.document.descendants s.part.document.root)
    (hmarkup : (s.part.document.below body).bare = t.forest.bare)
    (hfields : Field.discover s.part.document s.part.document.root =
      (s.part.document.children body).flatMap (Field.discover s.part.document))
    (hcontext : Context.ofJson data = .ok context) :
    match t.meaning context with
    | .ok row => ∃ left, s.render host context startPage? = .ok () left ∧
        left.part.document.declaration = s.part.document.declaration ∧
        (left.part.document.tree left.part.document.root).bare =
          ((s.part.document.tree s.part.document.root).refill body row).bare
    | .error e => ∃ left, s.render host context startPage? = .error e left := by
  set d := s.part.document with hdocument
  obtain ⟨node, children, rest, others, hout, htree, hholds⟩ := hd.exists_holds hbody
  obtain ⟨site, hsite⟩ := Forest.exists_site? hholds.mem
  obtain ⟨above, habove⟩ := Forest.exists_ancestors? hholds.mem
  have hfull : d.Holds (.cons d.root node children rest) body (.nil ++ (d.below body ++ .nil))
      others := by
    simpa using hholds
  obtain ⟨statements, hmakes, -, hstatements⟩ := exists_makes t hfull hsite habove hmarkup
  -- The markers below the body bound the nesting of the template, and so the depth suffices.
  have hdepth : t.nesting ≤ Rendering.depth d := by
    have hmarkers := t.nesting_le_markers
    rw [← Forest.markers_of_bare hmarkup] at hmarkers
    exact hmarkers.trans (hholds.markers_le.trans (Nat.le_add_right _ _))
  have hdiscover : Field.discover d d.root = Field.within d (d.below body) := by
    rw [hfields, ← Field.flatMap_discover hholds.shows]
    rfl
  have hrun : (Rendering.renderFields host context (Field.discover d d.root)).Simulates
      ⟨d, s.resources, s.numbering⟩ (t.meaning context) fun row _ w' =>
        d.Receives (.cons d.root node children rest) body .nil .nil others row w'.document := by
    unfold Rendering.renderFields Statement.evaluateFields
    refine Merge.simulates_of_ok rfl (Merge.simulates_of_ok rfl ?_)
    rw [hdiscover, hstatements]
    exact evaluates host t hdepth (Context.plain_ofJson hcontext) hmakes hfull
  rw [Session.render_headerFooter host context startPage? hkind hcache]
  generalize t.meaning context = plan at hrun ⊢
  cases plan with
  | ok row =>
    obtain ⟨_, w', hok, f, more, hgrows, hf, hfilled⟩ := hrun
    rw [Forest.nil_append, Forest.append_nil] at hfilled
    refine ⟨s.after none w', ?_, hgrows.declaration, ?_⟩
    · rw [← hdocument, hok]
    · rw [htree]
      exact (congrArg Forest.bare (hfilled.root_tree hout hgrows.root)).trans
        (Forest.bare_refill _ body hf)
  | error e =>
    obtain ⟨w', herror⟩ := hrun
    exact ⟨s.after none w', by rw [← hdocument, herror]⟩

/-! ## A list in a list -/

namespace Template

open Xml.Forest

/-- A run that displays a directive. -/
def shownRun (directive : String) : DisplayRun where
  tag := ⟨"w:r", []⟩
  look := .nil
  display := ⟨"w:t", []⟩
  shown := .single 0 (.text ("«" ++ directive ++ "»")) .nil
  isRun := rfl
  isText := rfl
  isFirst := rfl
  quietLook := rfl
  quietShown := rfl

/-- A paragraph with a simple field. -/
def paragraph (directive : String)
    (states : Field.directive ("MERGEFIELD " ++ directive ++ " \\* MERGEFORMAT") = directive) :
    Marker directive where
  tag := ⟨"w:p", []⟩
  before := .nil
  field := .simple ⟨"w:fldSimple",
    [⟨"w:instr", "MERGEFIELD " ++ directive ++ " \\* MERGEFORMAT"⟩]⟩ (shownRun directive) rfl states
  after := .nil
  isParagraph := rfl
  quietBefore := rfl
  quietAfter := rfl

/-- A text that is a word. -/
def Word.ofText (s : String) (hne : s ≠ "")
    (h : (s.toList.all fun c => c ∉ [' ', ':', '(', ')', '=']) = true) : Word :=
  ⟨s, hne, fun c hc => of_decide_eq_true (List.all_eq_true.1 h c hc)⟩

/-- The letters of a list of lists, without what is no letter. -/
def letters : Template :=
  .block (.loop (.ofText "rows" (by decide) rfl) (.ofText "x" (by decide) rfl))
    (paragraph _ (by decide +kernel))
    (.block (.loop (.ofText "x" (by decide) rfl) (.ofText "x" (by decide) rfl))
      (paragraph _ (by decide +kernel))
      (.block (.condition (.ofText "x" (by decide) rfl) none) (paragraph _ (by decide +kernel))
        (.insertion (.ofText "x" (by decide) rfl) (paragraph _ (by decide +kernel)) .nil)
        (paragraph _ (by decide +kernel)) .nil)
      (paragraph _ (by decide +kernel)) .nil)
    (paragraph _ (by decide +kernel)) .nil

/-- The text of a letter, in a paragraph. -/
def letter (s : String) : Forest :=
  .single 0 (.element ⟨"w:p", []⟩) (.single 0 (.element ⟨"w:r", []⟩)
    (.single 0 (.element ⟨"w:t", []⟩) (.single 0 (.text s) .nil)))

end Template

open Template in
/-- A part with the letters of a list of lists. -/
def lettersPart : Part where
  kind := .headerFooter
  document :=
    let row := (Forest.ofElement 0 "w:document" (.ofElement 0 "w:body" letters.forest)).relabel 0
    ⟨[row], [], 0, row.size, none⟩
  source? := none

/-- Two lists of letters, one of them with a gap. -/
def twoLists : Json :=
  .object [("rows", .array [.array [.string "a", .null, .string "b"], .array [.string "c"]])]

/-- The context in which the lists are rendered. -/
def listsContext : Context :=
  ⟨[("rows", .list [.list [.string "a", .null, .string "b"], .list [.string "c"]])]⟩

open Template in
/-- The inner name hides the outer one, both loops are closed by the same text, and the condition keeps
its body for the letters and not for the gap. -/
theorem lettersPart_render : ∃ left,
    Session.render {} listsContext none { part := lettersPart } = .ok () left ∧
      (left.part.document.tree left.part.document.root).bare =
        .ofElement 0 "w:document" (.ofElement 0 "w:body"
          (letter "a" ++ (letter "b" ++ letter "c"))) := by
  have hrender := render_eq_meaning {} letters { part := lettersPart } twoLists listsContext none 1
    rfl rfl (Document.proper_single (by decide +kernel) (by decide +kernel) (by decide +kernel))
    (by decide +kernel) (by decide +kernel) (by decide +kernel) rfl
  have hmeaning : letters.meaning listsContext =
      .ok (letter "a" ++ (letter "b" ++ letter "c")) := by
    rfl
  rw [hmeaning] at hrender
  obtain ⟨left, hleft, -, htree⟩ := hrender
  refine ⟨left, hleft, htree.trans ?_⟩
  decide +kernel

end MailMerge
