import MailMerge.Proofs.Template.Copies
import MailMerge.Part

/-!
# Rendering of templates

Rendering a part does what the template in it means. Each statement is evaluated with a renderer for
copies of bodies, which does the same one level deeper. Main statement: `render_simulates`.
-/

namespace MailMerge

open Xml

namespace Template

open Xml.Forest Xml.Document

variable {around f g inside k : Forest} {r c x y : NodeId} {others : List Forest}
variable {w : Workspace} {context : Context} {body : Template} {renderBelow : Renderer}
variable {field field' : Field}

/-! ## Copies of a body -/

/-- A renderer does with the row in a container what a template says, in every context of data. -/
def Renders (renderBelow : Renderer) (body : Template) : Prop :=
  ∀ ⦃context : Context⦄ ⦃w : Workspace⦄ ⦃c : NodeId⦄ ⦃row : Forest⦄ ⦃others : List Forest⦄,
    context.Plain → row.bare = body.forest.bare →
    w.document.Holds (container (c, .nil)) c row others →
    (renderBelow context c).Simulates w (body.meaning context) fun result _ w' =>
      w.document.Receives (container (c, .nil)) c .nil .nil others result w'.document

/-- A copy of the body is rendered as the template says. -/
theorem renderCopy_simulates (hrenders : Renders renderBelow body) (hplain : context.Plain)
    (hinside : inside.bare = body.forest.bare)
    (h : w.document.Holds around r (g ++ (inside ++ k)) others) :
    ((settled field field' x y inside).render renderBelow context).Simulates w
      (body.meaning context) fun result nodes w' =>
        ∃ copy more, nodes = copy.2.topIds ∧ copy.2.bare = result.bare ∧
          w.document.Grows w'.document ∧
          w'.document.Holds around r (g ++ (inside ++ k)) (container copy :: (more ++ others)) := by
  obtain ⟨c, copied, w₁, hcopy, hgrows, hbare, hholds⟩ := copyAll_apply h
  unfold Block.render
  refine Merge.simulates_of_ok rfl (Merge.simulates_of_ok hcopy ?_)
  refine (hrenders hplain (hbare.trans hinside) hholds.turn).andThen ?_
  intro result _ w' hreceives
  obtain ⟨row, more, hgrows', hrow, hholds'⟩ := hreceives
  rw [nil_append, append_nil] at hholds'
  refine ⟨_, w', rfl, (c, row), more, hholds'.children_eq, hrow, hgrows.trans hgrows', ?_⟩
  exact (hholds'.perm List.perm_middle).turnBack h.mem

/-- Copies of the body are rendered as the template says, one after the other. -/
theorem renderCopies_simulates (hrenders : Renders renderBelow body)
    (hinside : inside.bare = body.forest.bare) (contexts : List Context)
    (hplain : ∀ inner ∈ contexts, inner.Plain)
    (h : w.document.Holds around r (g ++ (inside ++ k)) others) :
    (contexts.mapM fun inner =>
        (settled field field' x y inside).render renderBelow inner : Merge _).Simulates w
      (contexts.mapM fun inner => body.meaning inner) fun rows lists w' =>
        ∃ (copies : List (NodeId × Forest)) (more : List Forest),
          lists = copies.map (·.2.topIds) ∧
          copies.map (·.2.bare) = rows.map bare ∧ w.document.Grows w'.document ∧
          w'.document.Holds around r (g ++ (inside ++ k))
            (copies.map container ++ (more ++ others)) := by
  induction contexts generalizing w others with
  | nil => exact Merge.simulates_ok rfl ⟨[], [], rfl, rfl, .refl _, h⟩
  | cons inner contexts ih =>
    rw [List.mapM_cons, List.mapM_cons]
    refine (renderCopy_simulates hrenders (hplain inner List.mem_cons_self) hinside h).bind ?_
    rintro result nodes w₁ ⟨copy, more, rfl, hcopy, hgrows, hholds⟩
    refine (ih (fun other hother => hplain other (List.mem_cons_of_mem _ hother)) hholds).bind ?_
    rintro rows lists w' ⟨copies, later, rfl, hcopies, hgrows', hholds'⟩
    refine Merge.simulates_ok rfl ⟨copy :: copies, later ++ more, rfl, ?_,
      hgrows.trans hgrows', hholds'.perm ?_⟩
    · rw [List.map_cons, List.map_cons, hcopy, hcopies]
    · have hmiddle : (copies.map container ++ later ++ container copy :: (more ++ others)).Perm
          (container copy :: (copies.map container ++ later ++ (more ++ others))) :=
        List.perm_middle
      simpa using hmiddle

/-! ## Blocks -/

/-- The rendered copies of the body take the place of the block. -/
theorem replaceCopies_simulates (field field' : Field) {n n' : Node} {children children' : Forest}
    (hrenders : Renders renderBelow body) (hinside : inside.bare = body.forest.bare)
    (contexts : List Context) (hplain : ∀ inner ∈ contexts, inner.Plain)
    (h : w.document.Holds around r (g ++ cons x n children (inside ++ cons y n' children' k))
      others) :
    (do
      let lists ← contexts.mapM fun inner =>
        (settled field field' x y inside).render renderBelow inner
      (settled field field' x y inside).replace lists.flatten : Merge Unit).Simulates w
      (join <$> contexts.mapM fun inner => body.meaning inner)
      fun row _ w' => w.document.Receives around r g k others row w'.document := by
  have hbody : w.document.Holds around r
      ((g ++ single x n children) ++ (inside ++ cons y n' children' k)) others := by
    simpa [append_assoc, single] using h
  refine ((renderCopies_simulates hrenders hinside contexts hplain hbody).andThen ?_).map
    fun _ _ _ => id
  rintro rows lists w₁ ⟨copies, more, rfl, hcopies, hgrows, hholds⟩
  have hblock : w₁.document.Holds around r
      (g ++ cons x n children (inside ++ cons y n' children' k))
      (copies.map container ++ (more ++ others)) := by
    simpa [append_assoc, single] using hholds
  obtain ⟨apart, w', hreplace, hgrows', hholds'⟩ := replaceBlock_apply hblock
  refine ⟨(), w', ?_, join (copies.map Prod.snd), apart ++ more, hgrows.trans hgrows', ?_, ?_⟩
  · rw [← List.flatMap_def]
    exact hreplace
  · rw [bare_join, bare_join, ← hcopies, List.map_map]
    rfl
  · simpa using hholds'

/-- The siblings that a template is made of are elements. -/
theorem all_elements (t : Template) : t.forest.tops.all (·.2.isElement) = true := by
  induction t with
  | nil => rfl
  | still tag children quiet rest ih =>
    simp only [forest, single, cons_append, nil_append, tops, List.all_cons, ih]
    rfl
  | insertion path marker rest ih =>
    simp only [forest, Marker.forest, Marker.around, single, cons_append, nil_append, tops,
      List.all_cons, ih]
    rfl
  | block head start body stop rest ihBody ih =>
    simp only [forest, Marker.forest, Marker.around, single, cons_append, nil_append, tops,
      tops_append, List.all_cons, List.all_append, ihBody, ih]
    rfl

/-- A condition repeats a body once or not at all, as what it depends on says. -/
theorem Head.contexts_condition (context : Context) (path : Word) (question? : Option Word) :
    (condition path question?).contexts context =
      (Statement.deciding? context path.text (question?.map Word.text)).map fun deciding =>
        if deciding.any Value.isTruthy then [context] else [] := by
  simp only [contexts, Statement.deciding?]
  cases (Expression.parse path.text).evaluate? context with
  | error e => cases question? <;> rfl
  | ok value =>
    cases question? with
    | none => rfl
    | some question => cases (value.getD .null).dispatch? question.text <;> rfl

/-- The contexts in which a body is repeated bind data only. -/
theorem Head.plain_of_contexts {head : Head} {contexts : List Context} (hplain : context.Plain)
    (h : head.contexts context = .ok contexts) : ∀ inner ∈ contexts, inner.Plain := by
  intro inner hinner
  cases head with
  | loop path name =>
    cases hvalue : (Expression.parse path.text).evaluate? context with
    | error e =>
      simp only [Head.contexts, hvalue] at h
      cases h
    | ok value? =>
      simp only [Head.contexts, hvalue] at h
      cases value? with
      | none => cases h
      | some value =>
        cases value with
        | list items =>
          cases h
          obtain ⟨item, hitem, rfl⟩ := List.mem_map.1 hinner
          exact hplain.bind _ ((Expression.plain_of_evaluate? hplain hvalue).items item hitem)
        | _ => cases h
  | condition path question? =>
    rw [Head.contexts_condition] at h
    cases hdeciding : Statement.deciding? context path.text (question?.map Word.text) with
    | error e =>
      rw [hdeciding] at h
      cases h
    | ok deciding =>
      rw [hdeciding] at h
      cases h
      rw [List.mem_ite_nil_right, List.mem_singleton] at hinner
      exact hinner.2 ▸ hplain
  | comment =>
    cases h
    cases hinner

/-- A block does what the template says, when copies of its body are rendered as it says. -/
theorem evaluateBlock_simulates (host : Host) {head : Head} {start : Marker head.text}
    {stop : Marker head.opening.endText} {children children' : Forest}
    (hrenders : Renders renderBelow body) (hplain : context.Plain)
    (hinside : inside.bare = body.forest.bare)
    (h : w.document.Holds around r (g ++ cons x (.element start.tag) children
      (inside ++ cons y (.element stop.tag) children' k)) others) :
    (Statement.evaluateBlock host renderBelow context head.opening
      ⟨.paragraph, field, field', x, y, none⟩).Simulates w
      (head.contexts context >>= fun contexts =>
        join <$> contexts.mapM fun inner => body.meaning inner)
      fun row _ w' => w.document.Receives around r g k others row w'.document := by
  have helements : inside.tops.all (·.2.isElement) = true := by
    rw [all_tops_of_bare hinside, body.all_elements]
  have hcopies : ∀ contexts, head.contexts context = .ok contexts → _ := fun contexts hcontexts =>
    replaceCopies_simulates field field' hrenders hinside contexts
      (head.plain_of_contexts hplain hcontexts) h
  unfold Statement.evaluateBlock
  refine Merge.simulates_of_ok rfl ?_
  -- The body is settled to its rows first; the kinds of block differ only in the copies they ask
  -- for.
  rw [settle_eq h helements rfl]
  cases head with
  | loop path name =>
    change (Statement.evaluateLoop renderBelow context path.text name.text _).Simulates w _ _
    unfold Statement.evaluateLoop
    simp only [Head.contexts] at hcopies ⊢
    generalize (Expression.parse path.text).evaluate? context = result at hcopies ⊢
    cases result with
    | error e => exact Merge.simulates_error rfl
    | ok value? =>
      rw [Merge.ofExcept_ok_bind]
      cases value? with
      | none => exact Merge.simulates_error rfl
      | some value =>
        cases value with
        | list items =>
          have hrows := hcopies _ rfl
          rw [List.mapM_map] at hrows
          exact hrows
        | _ => exact Merge.simulates_error rfl
  | condition path question? =>
    change (Statement.evaluateCondition renderBelow context path.text (question?.map Word.text)
      _).Simulates w _ _
    unfold Statement.evaluateCondition
    rw [Head.contexts_condition] at hcopies ⊢
    generalize Statement.deciding? context path.text (question?.map Word.text) = result at hcopies ⊢
    cases result with
    | error e => exact Merge.simulates_error rfl
    | ok deciding =>
      rw [Merge.ofExcept_ok_bind]
      have hrows := hcopies (if deciding.any Value.isTruthy then [context] else []) rfl
      change Merge.Simulates _ w (join <$> (if deciding.any Value.isTruthy then [context] else []).mapM
        fun inner => body.meaning inner) _
      split
      next htrue =>
        rw [if_pos htrue] at hrows
        simpa [List.mapM_cons] using hrows
      next hfalse =>
        rw [if_neg hfalse] at hrows
        exact hrows
  | comment => exact hcopies [] rfl

/-! ## Sequences of statements -/

/-- Evaluating the statements of a template does what the template says, wherever its row stands. -/
def Evaluates (host : Host) (renderBelow : Renderer) (t : Template) : Prop :=
  ∀ ⦃context : Context⦄ ⦃w : Workspace⦄ ⦃around g f k : Forest⦄ ⦃r : NodeId⦄
    ⦃others : List Forest⦄ ⦃statements : List Statement⦄, context.Plain →
    t.Makes f statements → w.document.Holds around r (g ++ (f ++ k)) others →
    (statements.forM (Statement.evaluate host renderBelow context)).Simulates w
      (t.meaning context) fun row _ w' =>
        w.document.Receives around r g k others row w'.document

/-- Rendering below a container evaluates the statements of the row in it. -/
theorem Evaluates.renders {host : Host} {depth : Nat} {t : Template}
    (h : Evaluates host (Rendering.renderBelow host depth) t) :
    Renders (Rendering.renderBelow host (depth + 1)) t := by
  intro context w c row others hplain hrow hholds
  have hsite : (container (c, .nil)).site? c =
      some ⟨.element ⟨Block.containerName, []⟩, .nil, .nil⟩ := by
    rw [container, single, Forest.site?, if_pos rfl]
  have habove : (container (c, .nil)).ancestors? c = some [] := by
    rw [container, single, Forest.ancestors?, if_pos rfl]
  have hfields : Field.discover w.document c = Field.within w.document row := by
    have hnone : Field.ofNode? w.document c (.element ⟨Block.containerName, []⟩) = none :=
      ofNode?_eq_none (by decide) (by decide) (by decide)
    rw [Field.discover_eq_within, hholds.tree_eq hsite, single, Field.within_cons, hnone,
      Field.within_nil]
    simp
  have hfull : w.document.Holds (container (c, .nil)) c (.nil ++ (row ++ .nil)) others := by
    simpa using hholds
  obtain ⟨statements, hmakes, -, hstatements⟩ := exists_makes t hfull hsite habove hrow
  unfold Rendering.renderBelow Statement.evaluateFields
  refine Merge.simulates_of_ok rfl (Merge.simulates_of_ok rfl ?_)
  rw [hfields, hstatements]
  exact h hplain hmakes hfull

/-- How many blocks of a template are inside one another. -/
def nesting : Template → Nat
  | nil => 0
  | still _ _ _ rest => rest.nesting
  | insertion _ _ rest => rest.nesting
  | block _ _ body _ rest => max (body.nesting + 1) rest.nesting

/-- The statements of a template do what it says, when copies of bodies may be rendered as deep as
blocks are nested in it. The induction is on the template, so that the copies of a body are rendered
by what is known of the body. -/
theorem evaluates (host : Host) (t : Template) {depth : Nat} (hdepth : t.nesting ≤ depth) :
    Evaluates host (Rendering.renderBelow host depth) t := by
  induction t generalizing depth with
  | nil =>
    intro context w around g f k r others statements hplain hmakes h
    cases hmakes
    exact Merge.simulates_ok rfl ⟨.nil, [], .refl _, rfl, h⟩
  | still tag children quiet rest ih =>
    intro context w around g f k r others statements hplain hmakes h
    cases hmakes with
    | @still _ _ c f x _ _ _ markup later =>
      have hlater : w.document.Holds around r ((g ++ single x (.element tag) c) ++ (f ++ k))
          others := by
        simpa [append_assoc, single] using h
      refine (ih hdepth hplain later hlater).map fun row _ w' hreceives => ?_
      -- What is written as it is makes no copies and is received at once.
      have hnext : w.document.Receives around r (g ++ single x (.element tag) c) k
          ([] ++ others) row w'.document := hreceives
      refine hnext.after (.refl _) ?_
      rw [bare_single, bare_single, markup]
  | insertion path marker rest ih =>
    intro context w around g f k r others statements hplain hmakes h
    cases hmakes with
    | @insertion _ _ c f x field _ _ places later =>
      have hplan : (insertion path marker rest).meaning context =
          ((Expression.parse path.text).evaluate? context >>= display marker) >>= fun paragraph =>
            (paragraph ++ ·) <$> rest.meaning context := by
        simp only [meaning, bind_assoc, map_eq_pure_bind]
      rw [hplan]
      refine (evaluateInsertion_simulates host (Expression.parse path.text) hplain h places).bind
        fun paragraph _ w₁ hreceives => ?_
      obtain ⟨displayed, more, hgrows, hdisplayed, hholds⟩ := hreceives
      have hlater : w₁.document.Holds around r ((g ++ displayed) ++ (f ++ k))
          (more ++ others) := by
        rw [append_assoc]
        exact hholds
      refine (ih hdepth hplain later hlater).map fun row _ w' hreceives => ?_
      exact hreceives.after hgrows hdisplayed
  | block head start body stop rest ihBody ih =>
    intro context w around g f k r others statements hplain hmakes h
    rw [nesting, Nat.max_le] at hdepth
    obtain ⟨n, rfl⟩ : ∃ n, depth = n + 1 := Nat.exists_eq_add_of_le' (Nat.le_of_add_left_le hdepth.1)
    cases hmakes with
    | @block _ _ _ _ c inside c' f x y field field' _ _ placesStart markup placesStop later =>
      -- A level of depth is spent on the body; the rest of the template is evaluated at the same
      -- depth.
      have hrenders : Renders (Rendering.renderBelow host (n + 1)) body :=
        (ihBody (Nat.le_of_succ_le_succ hdepth.1)).renders
      have hblock : w.document.Holds around r (g ++ cons x (.element start.tag) c
          (inside ++ cons y (.element stop.tag) c' (f ++ k))) others := by
        simpa [append_assoc] using h
      have hplan : (block head start body stop rest).meaning context =
          (head.contexts context >>= fun contexts =>
            join <$> contexts.mapM fun inner => body.meaning inner) >>= fun row =>
              (row ++ ·) <$> rest.meaning context := by
        simp only [meaning, bind_assoc, map_eq_pure_bind, pure_bind]
      rw [hplan]
      refine (evaluateBlock_simulates host hrenders hplain markup hblock).bind
        fun rows _ w₁ hreceives => ?_
      obtain ⟨made, more, hgrows, hmade, hholds⟩ := hreceives
      have hlater : w₁.document.Holds around r ((g ++ made) ++ (f ++ k)) (more ++ others) := by
        rw [append_assoc]
        exact hholds
      refine (ih hdepth.2 hplain later hlater).map fun row _ w' hreceives => ?_
      exact hreceives.after hgrows hmade

end Template

end MailMerge
