import MailMerge.Proofs.Content.Pieces
import MailMerge.Proofs.Template.Statements
import MailMerge.Proofs.Value.Plain

/-!
# Values in paragraphs

A value is displayed by new nodes after the text of the displaying run, which is then taken out
together with the field. Main statement: evaluating an insertion makes of its paragraph what the
template says (`evaluateInsertion_simulates`).
-/

namespace MailMerge

open Xml

namespace Xml.Document

open Forest

variable {d e e' : Document} {around f g k row row' : Forest} {r : NodeId}
variable {others more : List Forest}

/-- A later document holds a row with the given markup between two rows, and only has more rows
beside. -/
def Receives (d : Document) (around : Forest) (r : NodeId) (g k : Forest) (others : List Forest)
    (row : Forest) (e : Document) : Prop :=
  ∃ f more, d.Grows e ∧ f.bare = row.bare ∧ e.Holds around r (g ++ (f ++ k)) (more ++ others)

/-- What is received after what has been received already. -/
theorem Receives.after (h : e.Receives around r (g ++ f) k (more ++ others) row' e')
    (hgrows : d.Grows e) (hf : f.bare = row.bare) :
    d.Receives around r g k others (row ++ row') e' := by
  obtain ⟨f', more', hgrows', hf', hholds⟩ := h
  refine ⟨f ++ f', more' ++ more, hgrows.trans hgrows', ?_, ?_⟩
  · rw [bare_append, bare_append, hf, hf']
  · simpa [append_assoc] using hholds

end Xml.Document

namespace Template

open Xml.Forest Xml.Document

variable {around f g look shown : Forest} {r x z : NodeId} {others : List Forest} {w : Workspace}
variable {run : DisplayRun} {text : NodeId}

/-! ## The displaying run -/

/-- A piece of text is the same for a template as for a document. -/
theorem piece_eq (cs : List Char) : run.piece cs = Content.piece (.element run.display) cs := by
  unfold DisplayRun.piece Content.piece
  split
  · rfl
  · split <;> rfl

/-- The parts of a displaying run. -/
theorem exists_of_displayRun {row : Forest} (hrow : row.bare = run.forest.bare) :
    ∃ z look text shown, row = single z (.element run.tag)
      (look ++ single text (.element run.display) shown) ∧ look.bare = run.look.bare ∧
      shown.bare = run.shown.bare := by
  obtain ⟨z, inside, none, rfl, hinside, hnone⟩ := exists_cons_of_bare hrow
  cases eq_nil_of_bare hnone
  obtain ⟨look, last, rfl, hlook, hlast⟩ := exists_append_of_bare hinside
  obtain ⟨text, shown, none, rfl, hshown, hnone⟩ := exists_cons_of_bare hlast
  cases eq_nil_of_bare hnone
  exact ⟨z, look, text, shown, rfl, hlook, hshown⟩

/-- The text of a displaying run is the first one in it. -/
theorem find?_display (hlook : look.bare = run.look.bare) :
    (look ++ single text (.element run.display) shown).nodes.find? (·.2.isNamed "w:t") =
      some (text, .element run.display) := by
  have hnone : look.nodes.find? (·.2.isNamed "w:t") = none := by
    have hfirst := holds_of_bare (p := (·.isNamed "w:t")) hlook
    rw [run.isFirst, Forest.holds, List.any_map, List.any_eq_false] at hfirst
    exact List.find?_eq_none.2 hfirst
  rw [nodes_append, List.find?_append, hnone, single, Forest.nodes, List.find?_cons]
  simp [Node.isNamed, Node.name?, Node.element?, run.isText]

/-- The text of a displaying run is exchanged for that of a value. -/
theorem replaceDisplay_apply {q : NodeId} (convert? : Option Converter) (s : String)
    (h : w.document.Holds around r (look ++ single text (.element run.display) shown) others)
    (hdisplay : Field.display? w.document q = some text) :
    ∃ row more w', Field.replaceDisplay convert? q (.text s) w = .ok () w' ∧
      w.document.Grows w'.document ∧
      row.bare = Forest.join ((Content.pieces s).map run.piece) ∧
      w'.document.Holds around r (look ++ row) (more ++ others) := by
  obtain ⟨row, more, w', hreplace, hgrows, hrow, hholds⟩ :=
    Field.replaceDisplay_apply convert? s h hdisplay
  rw [append_nil] at hholds
  refine ⟨row, single text (.element run.display) shown :: more, w', hreplace, hgrows, ?_, hholds⟩
  rw [hrow, funext piece_eq]

/-! ## The field -/

section Field

variable {directive : String} {before after inside row : Forest} {p x : NodeId} {tag : Element}
variable {markup : FieldMarkup directive} {field : Field}

/-- The run that displays a field is filled with the text of a value. -/
theorem replaceDisplay_run (convert? : Option Converter) (s : String) {q : NodeId}
    (h : w.document.Holds around p (before ++ cons x (.element run.tag) inside after) others)
    (hinside : (single x (.element run.tag) inside).bare = run.forest.bare)
    (hq : Field.display? w.document q = Field.display? w.document x) :
    ∃ inside' more w', Field.replaceDisplay convert? q (.text s) w = .ok () w' ∧
      w.document.Grows w'.document ∧
      (single x (.element run.tag) inside').bare = (run.filled s).bare ∧
      w'.document.Holds around p (before ++ cons x (.element run.tag) inside' after)
        (more ++ others) := by
  obtain ⟨z, look, text, shown, hrow, hlook, -⟩ := exists_of_displayRun hinside
  obtain ⟨rfl, -, rfl, -⟩ := cons.inj hrow
  have hdisplay : Field.display? w.document q = some text := by
    rw [hq, Field.display?, Document.find?, h.shows.right.below_eq, find?_display hlook]
    rfl
  obtain ⟨row, more, w', hreplace, hgrows, hrow, hholds⟩ :=
    replaceDisplay_apply convert? s (h.inner_iff.2 h) hdisplay
  refine ⟨look ++ row, more, w', hreplace, hgrows, ?_, h.inner_iff.1 hholds⟩
  rw [DisplayRun.filled, DisplayRun.around, bare_single, bare_single, bare_append, bare_append,
    hlook, ← hrow, bare_bare]

/-- A node that displays something needs no run. -/
theorem ensureDisplay_apply (h : (Field.display? w.document x).isSome = true) :
    Field.ensureDisplay x w = .ok () w := by
  unfold Field.ensureDisplay
  rw [Merge.document_bind, Option.isNone_eq_false_iff.2 h]
  rfl

/-- What a node displays that has a run alone is what the run displays. -/
theorem display?_single {z : NodeId}
    (h : w.document.Shows (cons x (.element tag) (single z (.element run.tag) inside) after)) :
    Field.display? w.document x = Field.display? w.document z := by
  have hrun := run.isRun
  have hfind : ∀ name ≠ "w:r", w.document.find? x name = w.document.find? z name := by
    intro name hne
    rw [Document.find?, Document.find?, h.below_eq, h.below.below_eq, single, Forest.nodes,
      List.find?_cons_of_neg, Forest.nodes, List.append_nil]
    simpa [Node.isNamed, Node.name?, Node.element?, hrun] using Ne.symm hne
  rw [Field.display?, Field.display?, hfind "w:t" (by decide), hfind "w:instrText" (by decide)]

/-- All siblings but one. -/
theorem filter_topIds {node : Node} (hf : (f ++ cons x node inside g).ids.Nodup) :
    (f ++ cons x node inside g).topIds.filter (fun y => some y ≠ some x) =
      f.topIds ++ g.topIds := by
  have hnodup := hf.sublist (topIds_sublist _)
  rw [topIds_append, topIds_cons, List.nodup_append, List.nodup_cons] at hnodup
  obtain ⟨-, ⟨hg, -⟩, hf⟩ := hnodup
  rw [topIds_append, topIds_cons, List.filter_append, List.filter_cons_of_neg (by simp)]
  congr 1
  · refine List.filter_eq_self.2 fun y hy => ?_
    simpa using hf y hy x List.mem_cons_self
  · refine List.filter_eq_self.2 fun y hy => ?_
    have hne : y ≠ x := fun heq => hg (heq ▸ hy)
    simpa using hne

/-- A field is exchanged for its run with the text of a value. -/
theorem replace_apply (convert? : Option Converter) (s : String)
    (h : w.document.Holds around p (before ++ (row ++ after)) others)
    (hplaces : markup.Places row field) :
    ∃ filled more w', field.replace convert? (.text s) w = .ok () w' ∧
      w.document.Grows w'.document ∧ filled.bare = (markup.run.filled s).bare ∧
      w'.document.Holds around p (before ++ (filled ++ after)) (more ++ others) := by
  unfold Field.replace
  cases markup with
  | simple tag run isField states =>
    obtain ⟨x, inside, rfl, hinside, hshape⟩ := hplaces
    obtain ⟨z, look, none, rfl, hlook, hnone⟩ := exists_cons_of_bare hinside
    cases eq_nil_of_bare hnone
    have hx : w.document.Holds around p
        (before ++ cons x (.element tag) (.nil ++ single z (.element run.tag) look) after)
        others := h
    have hdisplay := display?_single hx.shows.right
    have hsome : (Field.display? w.document x).isSome = true := by
      rw [hdisplay]
      exact isSome_display? hx.shows.right.below hinside
    obtain ⟨filled, more, w', hreplace, hgrows, hfilled, hholds⟩ :=
      replaceDisplay_run convert? s (hx.inner_iff.2 hx) hinside hdisplay
    refine ⟨single z (.element run.tag) filled, single x (.element tag) .nil :: more,
      { w' with document := w'.document.unwrap x }, ?_,
      hgrows.trans (unwrap_sameFrame _ _).grows, hfilled, (hx.inner_iff.1 hholds).unwrap⟩
    rw [hshape]
    exact (Merge.bind_ok (ensureDisplay_apply hsome)).trans (Merge.bind_ok hreplace)
  | complex runs states =>
    obtain ⟨opening, x, inside, closing, first, others', rfl, hinside, hnodes, hshape⟩ := hplaces
    have hx : w.document.Holds around p
        ((before ++ opening) ++ cons x (.element runs.run.tag) inside (closing ++ after))
        others := by
      simpa [append_assoc] using h
    obtain ⟨filled, more, w', hreplace, hgrows, hfilled, hholds⟩ :=
      replaceDisplay_run convert? s hx hinside rfl
    -- All runs of the field but the displaying one go, those before it and those behind it.
    have hnames : (first :: others').filter (fun y => some y ≠ some x) =
        opening.topIds ++ closing.topIds := by
      rw [← hnodes, filter_topIds h.shows.right.left.nodup]
    have hcleared : w'.document.Holds around p
        (before ++ (opening ++ cons x (.element runs.run.tag) filled (closing ++ after)))
        (more ++ others) := by
      simpa [append_assoc] using hholds
    have hopened := hcleared.detachAll
    have hlast : (w'.document.detachAll opening.topIds).Holds around p
        ((before ++ single x (.element runs.run.tag) filled) ++ (closing ++ after))
        (opening.trees ++ (more ++ others)) := by
      simpa [append_assoc, single] using hopened
    have hclosed := hlast.detachAll
    refine ⟨single x (.element runs.run.tag) filled, closing.trees ++ (opening.trees ++ more),
      { w' with document := w'.document.detachAll (opening.topIds ++ closing.topIds) }, ?_,
      hgrows.trans (detachAll_sameFrame _ _).grows, hfilled, ?_⟩
    · rw [hshape, ← hnames]
      exact Merge.bind_ok hreplace
    · rw [detachAll_append]
      simpa [append_assoc] using hclosed

/-- A field is taken out with its row. -/
theorem remove_holds {d : Document} (h : d.Holds around p (before ++ (row ++ after)) others)
    (hplaces : markup.Places row field) :
    ∃ more, d.Grows (field.remove d) ∧
      (field.remove d).Holds around p (before ++ after) (more ++ others) := by
  unfold Field.remove
  cases markup with
  | simple tag run isField states =>
    obtain ⟨x, inside, rfl, -, hshape⟩ := hplaces
    rw [hshape]
    have hx : d.Holds around p (before ++ cons x (.element tag) inside after) others := h
    exact ⟨[single x (.element tag) inside], (detach_sameFrame d x).grows, hx.detach⟩
  | complex runs states =>
    obtain ⟨opening, x, inside, closing, first, others', -, -, hnodes, hshape⟩ := hplaces
    rw [hshape]
    have hmore := h.detachAll
    rw [hnodes] at hmore
    exact ⟨row.trees, (detachAll_sameFrame d _).grows, hmore⟩

end Field

/-! ## The paragraph -/

/-- A plain value takes the place of what was displayed, unless it has no text. -/
theorem replace_simulates {directive : String} {marker : Marker directive} {c k : Forest}
    {x : NodeId} {field : Field} {value : Value} (host : Host) (hplain : value.Plain)
    (h : w.document.Holds around r (g ++ cons x (.element marker.tag) c k) others)
    (hplaces : marker.Places c field) :
    (ofExcept (Content.wrap value) >>= fun content =>
      field.replace host.convert? content : Merge Unit).Simulates w
      (match value.toText? with
        | some s => .ok (marker.around (marker.field.run.filled s))
        | none => .error (.unsupportedContent value.describe))
      fun row _ w' => w.document.Receives around r g k others row w'.document := by
  obtain ⟨before, markup, after, rfl, hbefore, hmarkup, hafter⟩ := hplaces.split
  have hinner := h.inner_iff.2 h
  rw [hplain.wrap]
  cases value.toText? with
  | none => exact Merge.simulates_error rfl
  | some s =>
    obtain ⟨filled, more, w', hreplace, hgrows, hfilled, hholds⟩ :=
      replace_apply host.convert? s hinner hmarkup
    refine Merge.simulates_ok ((Merge.bind_ok rfl).trans hreplace)
      ⟨single x (.element marker.tag) (before ++ (filled ++ after)), more, hgrows, ?_,
        h.inner_iff.1 hholds⟩
    simp [Marker.around, hbefore, hafter, hfilled]

/-- The value of an expression is displayed in a paragraph as the template says. -/
theorem evaluateInsertion_simulates {directive : String} {marker : Marker directive}
    {c k : Forest} {x : NodeId} {field : Field} {context : Context} (host : Host)
    (expression : Expression) (hplain : context.Plain)
    (h : w.document.Holds around r (g ++ cons x (.element marker.tag) c k) others)
    (hplaces : marker.Places c field) :
    (Statement.evaluateInsertion host context expression field).Simulates w
      (expression.evaluate? context >>= display marker)
      fun row _ w' => w.document.Receives around r g k others row w'.document := by
  have hremoved : ((Merge.edit field.remove).Simulates w (.ok (marker.around .nil))
      fun row _ w' => w.document.Receives around r g k others row w'.document) := by
    obtain ⟨before, markup, after, rfl, hbefore, hmarkup, hafter⟩ := hplaces.split
    obtain ⟨more, hgrows, hremove⟩ := remove_holds (h.inner_iff.2 h) hmarkup
    refine Merge.simulates_ok (Merge.edit_apply _ _)
      ⟨single x (.element marker.tag) (before ++ after), more, hgrows, ?_,
        h.inner_iff.1 hremove⟩
    simp [Marker.around, hbefore, hafter]
  unfold Statement.evaluateInsertion
  cases hvalue : expression.evaluate? context with
  | error e => exact Merge.simulates_error rfl
  | ok value? =>
    rw [Merge.ofExcept_ok_bind]
    cases value? with
    | none => exact hremoved
    | some value =>
      have hplain := Expression.plain_of_evaluate? hplain hvalue
      have hdisplayed := replace_simulates host hplain h hplaces
      cases value with
      | bool b =>
        cases b with
        | false => exact hremoved
        | true => exact hdisplayed
      | _ => exact hdisplayed

end Template

end MailMerge
