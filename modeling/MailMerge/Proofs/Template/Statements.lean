import MailMerge.Proofs.Statement.Pairing
import MailMerge.Proofs.Template.Marker

/-!
# The statements of a template

The fields of a template are balanced, so that its statements are those of its parts, one after the
other. Main statement: the fields of a row with the markup of a template make the statements of the
template with the nodes of the row (`exists_makes`).
-/

namespace MailMerge

open Xml

namespace Block

variable {d : Document} {start stop : Field} {x y : NodeId} {a b : Element}
variable {common : List (NodeId × Node)}

/-- The block between two paragraphs side by side. -/
theorem between_eq (hstart : d.enclosing start.start = (x, .element a) :: common)
    (hstop : d.enclosing stop.start = (y, .element b) :: common) (ha : a.name = "w:p")
    (hb : b.name = "w:p") (hne : x ≠ y) :
    between d start stop = ⟨.paragraph, start, stop, x, y, none⟩ := by
  have hstartRow : start.ancestor? d "w:tr" =
      (common.find? (·.2.isNamed "w:tr")).map Prod.fst := by
    simp [Field.ancestor?, Document.ancestor?, hstart, Node.isNamed, Node.name?, Node.element?, ha]
  have hstopRow : stop.ancestor? d "w:tr" =
      (common.find? (·.2.isNamed "w:tr")).map Prod.fst := by
    simp [Field.ancestor?, Document.ancestor?, hstop, Node.isNamed, Node.name?, Node.element?, hb]
  have hstartParagraph : start.ancestor? d "w:p" = some x := by
    simp [Field.ancestor?, Document.ancestor?, hstart, Node.isNamed, Node.name?, Node.element?, ha]
  have hstopParagraph : stop.ancestor? d "w:p" = some y := by
    simp [Field.ancestor?, Document.ancestor?, hstop, Node.isNamed, Node.name?, Node.element?, hb]
  have hrow : inDifferent d start stop "w:tr" = false := by
    rw [inDifferent, hstartRow, hstopRow]
    cases (common.find? (·.2.isNamed "w:tr")).map Prod.fst <;> simp
  have hparagraph : inDifferent d start stop "w:p" = true := by
    simp [inDifferent, hstartParagraph, hstopParagraph, hne]
  simp [between, classify, hrow, hparagraph, anchor, hstartParagraph, hstopParagraph]

end Block

namespace Template

open Xml.Forest

/-- Statements are those of a template with the nodes of a row that is its markup. -/
inductive Makes : Template → Forest → List Statement → Prop where
  | nil : Makes .nil .nil []
  | still {tag : Element} {children c f : Forest} {x : NodeId} {rest : Template}
      {quiet : (Forest.single 0 (.element tag) children).fieldless = true}
      {statements : List Statement} (markup : c.bare = children.bare)
      (later : Makes rest f statements) :
      Makes (.still tag children quiet rest) (.cons x (.element tag) c f) statements
  | insertion {path : Word} {marker : Marker ("=" ++ path.text)} {c f : Forest} {x : NodeId}
      {field : Field} {rest : Template} {statements : List Statement}
      (places : marker.Places c field) (later : Makes rest f statements) :
      Makes (.insertion path marker rest) (.cons x (.element marker.tag) c f)
        (.insertion (Expression.parse path.text) field :: statements)
  | block {head : Head} {start : Marker head.text} {body : Template}
      {stop : Marker head.opening.endText} {c inside c' f : Forest} {x y : NodeId}
      {field field' : Field} {rest : Template} {statements : List Statement}
      (placesStart : start.Places c field) (markup : inside.bare = body.forest.bare)
      (placesStop : stop.Places c' field') (later : Makes rest f statements) :
      Makes (.block head start body stop rest)
        (.cons x (.element start.tag) c (inside ++ .cons y (.element stop.tag) c' f))
        (.block head.opening ⟨.paragraph, field, field', x, y, none⟩ :: statements)

variable {d : Document} {around f g k : Forest} {r : NodeId} {others : List Forest} {s : Site}
variable {above : List (NodeId × Node)}

/-- A paragraph with a field has no other one. -/
theorem exists_field {directive : String} {marker : Marker directive} {x : NodeId} {c : Forest}
    (h : d.Holds around r (g ++ .cons x (.element marker.tag) c f) others)
    (hs : around.site? r = some s) (habove : around.ancestors? r = some above)
    (hc : c.bare = (marker.before ++ (marker.field.forest ++ marker.after)).bare)
    (hne : directive ≠ "") :
    ∃ field, marker.Places c field ∧
      Field.within d (single x (.element marker.tag) c) = [field] ∧
      d.enclosing field.start = (x, .element marker.tag) :: (r, s.node) :: above := by
  obtain ⟨field, hwithin, hplaces⟩ := marker.exists_places (h.inner_iff.2 h) hc hne
  have hname := marker.isParagraph
  have hnone : Field.ofNode? d x (.element marker.tag) = none :=
    ofNode?_eq_none (by simp [hname]) (by simp [hname]) (by simp [hname])
  refine ⟨field, hplaces, ?_, ?_⟩
  · rw [single, Field.within_cons, hnone, hwithin]
    rfl
  · obtain ⟨before, row, after, rfl, -, hrow, -⟩ := hplaces.split
    obtain ⟨node, inside, later, rfl⟩ := hrow.exists_start
    exact h.enclosing_inner hs habove

theorem Head.text_ne (head : Head) : head.text ≠ "" := by
  intro h
  have hof := head.ofText_text
  rw [h] at hof
  cases hof

theorem Head.endText_ne (head : Head) : head.opening.endText ≠ "" := by
  cases head <;> simp [Head.opening, Opening.endText]

/-- The fields of a row with the markup of a template are balanced, and make its statements. -/
theorem exists_makes (t : Template) (h : d.Holds around r (g ++ (f ++ k)) others)
    (hs : around.site? r = some s) (habove : around.ancestors? r = some above)
    (hf : f.bare = t.forest.bare) :
    ∃ statements, t.Makes f statements ∧ Balanced (Field.within d f) ∧
      Statement.ofFields d (Field.within d f) = .ok statements := by
  induction t generalizing g f k with
  | nil =>
    cases eq_nil_of_bare hf
    exact ⟨[], .nil, .nil, by rw [Field.within]; simp [Forest.nodes, Statement.ofFields]⟩
  | still tag children quiet rest ih =>
    obtain ⟨x, c, f', rfl, hc, hf'⟩ := exists_single_append_of_bare hf
    have hlater : d.Holds around r ((g ++ single x (.element tag) c) ++ (f' ++ k)) others := by
      simpa [append_assoc, single] using h
    obtain ⟨statements, hmakes, hbalanced, hstatements⟩ := ih hlater hf'
    have hnone : Field.within d (single x (.element tag) c) = [] := by
      refine Field.within_eq_nil h.shows.right.left.first ?_
      rw [← quiet]
      exact fieldless_of_bare (by simp [hc])
    rw [Field.within_single_append, hnone, List.nil_append]
    exact ⟨statements, .still hc hmakes, hbalanced, hstatements⟩
  | insertion path marker rest ih =>
    obtain ⟨x, c, f', rfl, hc, hf'⟩ := exists_single_append_of_bare hf
    have hlater : d.Holds around r
        ((g ++ single x (.element marker.tag) c) ++ (f' ++ k)) others := by
      simpa [append_assoc, single] using h
    obtain ⟨statements, hmakes, hbalanced, hstatements⟩ := ih hlater hf'
    obtain ⟨field, hplaces, hwithin, -⟩ := exists_field h hs habove hc (by simp)
    have hdirective := hplaces.expression ▸ ofText_insertion path
    rw [Field.within_single_append, hwithin]
    exact ⟨_, .insertion hplaces hmakes, .insertion hdirective hbalanced,
      Statement.ofFields_insertion hdirective hstatements⟩
  | block head start body stop rest ihBody ih =>
    obtain ⟨x, c, afterStart, rfl, hc, hafterStart⟩ := exists_single_append_of_bare hf
    obtain ⟨inside, afterBody, rfl, hinside, hafterBody⟩ := exists_append_of_bare hafterStart
    obtain ⟨y, c', f', rfl, hc', hf'⟩ := exists_single_append_of_bare hafterBody
    -- The same row is split in three ways: at the body, at the end field and at what follows it.
    have hbody : d.Holds around r ((g ++ single x (.element start.tag) c) ++
        (inside ++ cons y (.element stop.tag) c' (f' ++ k))) others := by
      simpa [append_assoc, single] using h
    have hstop : d.Holds around r ((g ++ (single x (.element start.tag) c ++ inside)) ++
        cons y (.element stop.tag) c' (f' ++ k)) others := by
      simpa [append_assoc, single] using h
    have hrest : d.Holds around r ((g ++ (single x (.element start.tag) c ++
        (inside ++ single y (.element stop.tag) c'))) ++ (f' ++ k)) others := by
      simpa [append_assoc, single] using h
    obtain ⟨-, -, hbalancedBody, -⟩ := ihBody hbody hinside
    obtain ⟨statements, hmakes, hbalanced, hstatements⟩ := ih hrest hf'
    obtain ⟨field, hplaces, hwithin, habove₁⟩ := exists_field h hs habove hc head.text_ne
    obtain ⟨field', hplaces', hwithin', habove₂⟩ :=
      exists_field hstop hs habove hc' head.endText_ne
    have hdirective := hplaces.expression ▸ head.ofText_text
    have hother := head.ofText_endText
    have hne : x ≠ y := by
      rintro rfl
      exact hstop.notMem_left (by simp [single])
    have hfinds : head.opening.Finds field
        (Field.within d inside ++ field' :: Field.within d f') field' (Field.within d f') := by
      refine hbalancedBody.finds hother (Opening.finds_end (fun o heq => ?_) hplaces'.expression)
      rw [hplaces'.expression, hother] at heq
      cases heq
    have hblock := Block.between_eq habove₁ habove₂ start.isParagraph stop.isParagraph hne
    have hfields : Field.within d (cons x (.element start.tag) c
        (inside ++ cons y (.element stop.tag) c' f')) =
          field :: (Field.within d inside ++ field' :: Field.within d f') := by
      rw [Field.within_single_append, hwithin, Field.within_append, Field.within_single_append,
        hwithin']
      rfl
    rw [hfields]
    refine ⟨_, .block hplaces hinside hplaces' hmakes,
      .block hdirective hbalancedBody hplaces'.expression hother hbalanced, ?_⟩
    rw [Statement.ofFields_of_finds hdirective hfinds hstatements, hblock]

end Template

end MailMerge
