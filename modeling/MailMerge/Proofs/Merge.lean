import MailMerge.Workspace

/-!
# Steps of a merge

What a sequence of steps does is told by what its first step does. A step simulates a plan when it
fails as the plan does, and otherwise leaves something that is related to what the plan answers.
What a step leaves can also be told without a plan, whether or not the step fails, or together with
the ways in which the step can fail.
-/

namespace MailMerge

open Xml

namespace Merge

variable {α β γ δ : Type} {w w' : Workspace} {m : Merge α} {next : α → Merge β} {a : α}
variable {e : MergeError}

theorem bind_ok (h : m w = .ok a w') : (m >>= next) w = next a w' := by
  simp only [bind, EStateM.bind, h]

theorem bind_error (h : m w = .error e w') : (m >>= next) w = .error e w' := by
  simp only [bind, EStateM.bind, h]

/-- A sequence of steps succeeds when each of them does. -/
theorem exists_of_bind_ok {b : β} (h : (m >>= next) w = .ok b w') :
    ∃ a w₁, m w = .ok a w₁ ∧ next a w₁ = .ok b w' := by
  cases hm : m w with
  | error e w₁ =>
    rw [bind_error hm] at h
    cases h
  | ok a w₁ =>
    rw [bind_ok hm] at h
    exact ⟨a, w₁, rfl, h⟩

@[simp] theorem pure_apply (a : α) (w : Workspace) : (pure a : Merge α) w = .ok a w := rfl

@[simp] theorem throw_apply (e : MergeError) (w : Workspace) :
    (throw e : Merge α) w = .error e w := rfl

@[simp] theorem document_bind (next : Document → Merge β) (w : Workspace) :
    (document >>= next) w = next w.document w := rfl

@[simp] theorem edit_apply (f : Document → Document) (w : Workspace) :
    edit f w = .ok () { w with document := f w.document } := rfl

@[simp] theorem edit_bind (f : Document → Document) (next : Unit → Merge β) (w : Workspace) :
    (edit f >>= next) w = next () { w with document := f w.document } := rfl

@[simp] theorem create_apply (f : Document → NodeId × Document) (w : Workspace) :
    create f w = .ok (f w.document).1 { w with document := (f w.document).2 } := rfl

@[simp] theorem create_bind (f : Document → NodeId × Document) (next : NodeId → Merge β)
    (w : Workspace) :
    (create f >>= next) w = next (f w.document).1 { w with document := (f w.document).2 } := rfl

theorem move_ok {f : Document → Option Document} {d : Document} (h : f w.document = some d) :
    move f w = .ok () { w with document := d } := by
  simp only [move, h]

theorem exists_of_move_ok {f : Document → Option Document} (h : move f w = .ok () w') :
    ∃ d, f w.document = some d ∧ w' = { w with document := d } := by
  unfold move at h
  split at h
  next d hd =>
    cases h
    exact ⟨d, hd, rfl⟩
  next => cases h

theorem addImage_ok {picture : Picture} {id : String} {resources : Resources}
    (h : w.resources.addImage? picture = some (id, resources)) :
    addImage picture w = .ok id { w with resources } := by
  simp only [addImage, h]

theorem addImage_error {picture : Picture} (h : w.resources.addImage? picture = none) :
    addImage picture w = .error .overflow w := by
  simp only [addImage, h]

@[simp] theorem ofExcept_ok (a : α) (w : Workspace) :
    (ofExcept (.ok a : Except MergeError α) : Merge α) w = .ok a w := rfl

@[simp] theorem ofExcept_error (e : MergeError) (w : Workspace) :
    (ofExcept (.error e : Except MergeError α) : Merge α) w = .error e w := rfl

@[simp] theorem ofExcept_ok_bind (a : α) (next : α → Merge β) :
    ((ofExcept (.ok a : Except MergeError α) : Merge α) >>= next) = next a := rfl

@[simp] theorem ofExcept_error_bind (e : MergeError) (next : α → Merge β) :
    ((ofExcept (.error e : Except MergeError α) : Merge α) >>= next) = throw e := rfl

/-! ## Plans -/

/-- A step does what a plan says: it fails with the same error, or it leaves something that is
related to what the plan answers. -/
def Simulates (m : Merge α) (w : Workspace) (plan : Except MergeError β)
    (related : β → α → Workspace → Prop) : Prop :=
  match plan with
  | .ok b => ∃ a w', m w = .ok a w' ∧ related b a w'
  | .error e => ∃ w', m w = .error e w'

variable {plan : Except MergeError γ} {related : γ → α → Workspace → Prop}

theorem simulates_ok {b : γ} (h : m w = .ok a w') (hrelated : related b a w') :
    m.Simulates w (.ok b) related := ⟨a, w', h, hrelated⟩

theorem simulates_error (h : m w = .error e w') : m.Simulates w (.error e) related := ⟨w', h⟩

/-- Steps one after the other simulate plans one after the other. -/
theorem Simulates.bind {more : γ → Except MergeError δ} {related' : δ → β → Workspace → Prop}
    (h : m.Simulates w plan related)
    (hnext : ∀ c a w', related c a w' → (next a).Simulates w' (more c) related') :
    (m >>= next).Simulates w (plan >>= more) related' := by
  cases plan with
  | error e =>
    obtain ⟨w', hm⟩ := h
    exact ⟨w', bind_error hm⟩
  | ok c =>
    obtain ⟨a, w', hm, hrelated⟩ := h
    change (m >>= next).Simulates w (more c) related'
    have hlater := hnext c a w' hrelated
    unfold Simulates at hlater ⊢
    rw [bind_ok hm]
    exact hlater

/-- A step that succeeds leaves the plan to the next one. -/
theorem simulates_of_ok {related' : γ → β → Workspace → Prop} (h : m w = .ok a w')
    (hnext : (next a).Simulates w' plan related') : (m >>= next).Simulates w plan related' := by
  unfold Simulates at hnext ⊢
  rw [bind_ok h]
  exact hnext

/-- A step that succeeds can follow one that does all that was planned. -/
theorem Simulates.andThen {related' : γ → β → Workspace → Prop} (h : m.Simulates w plan related)
    (hnext : ∀ c a w', related c a w' → ∃ b w'', next a w' = .ok b w'' ∧ related' c b w'') :
    (m >>= next).Simulates w plan related' := by
  cases plan with
  | error e =>
    obtain ⟨w', hm⟩ := h
    exact ⟨w', bind_error hm⟩
  | ok c =>
    obtain ⟨a, w', hm, hrelated⟩ := h
    obtain ⟨b, w'', hnext, hrelated'⟩ := hnext c a w' hrelated
    exact ⟨b, w'', (bind_ok hm).trans hnext, hrelated'⟩

/-- What a plan answers can be worked on. -/
theorem Simulates.map {f : γ → δ} {related' : δ → α → Workspace → Prop}
    (h : m.Simulates w plan related) (himp : ∀ c a w', related c a w' → related' (f c) a w') :
    m.Simulates w (f <$> plan) related' := by
  cases plan with
  | error e => exact h
  | ok c =>
    obtain ⟨a, w', hm, hrelated⟩ := h
    exact ⟨a, w', hm, himp c a w' hrelated⟩

/-! ## What is left behind -/

/-- Whether or not a step fails, it leaves a document that is related to the one before. What it
answers is as told. -/
def Leaves (m : Merge α) (w : Workspace) (related : Document → Document → Prop)
    (answers : α → Document → Prop) : Prop :=
  match m w with
  | .ok a w' => related w.document w'.document ∧ answers a w'.document
  | .error _ w' => related w.document w'.document

variable {linked : Document → Document → Prop} {answers : α → Document → Prop}
variable {answers' : β → Document → Prop}

theorem leaves_ok (h : m w = .ok a w') (hlinked : linked w.document w'.document)
    (ha : answers a w'.document) : m.Leaves w linked answers := by
  unfold Leaves
  rw [h]
  exact ⟨hlinked, ha⟩

theorem leaves_error (h : m w = .error e w') (hlinked : linked w.document w'.document) :
    m.Leaves w linked answers := by
  unfold Leaves
  rw [h]
  exact hlinked

theorem Leaves.of_ok (h : m.Leaves w linked answers) (hm : m w = .ok a w') :
    linked w.document w'.document ∧ answers a w'.document := by
  unfold Leaves at h
  rw [hm] at h
  exact h

/-- Steps one after the other leave what is related through what the first one leaves. -/
theorem Leaves.bind (htrans : ∀ {c d e}, linked c d → linked d e → linked c e)
    (h : m.Leaves w linked answers)
    (hnext : ∀ a w', linked w.document w'.document → answers a w'.document →
      (next a).Leaves w' linked answers') :
    (m >>= next).Leaves w linked answers' := by
  unfold Leaves at h
  cases hm : m w with
  | error e w' =>
    rw [hm] at h
    exact leaves_error (bind_error hm) h
  | ok a w' =>
    rw [hm] at h
    have hlater := hnext a w' h.1 h.2
    unfold Leaves at hlater ⊢
    rw [bind_ok hm]
    cases hmore : next a w' with
    | error e w'' =>
      rw [hmore] at hlater
      exact htrans h.1 hlater
    | ok b w'' =>
      rw [hmore] at hlater
      exact ⟨htrans h.1 hlater.1, hlater.2⟩

/-- What is left can be told by less. -/
theorem Leaves.weaken {linked' : Document → Document → Prop} {answers' : α → Document → Prop}
    (h : m.Leaves w linked answers)
    (hlinked : ∀ d, linked w.document d → linked' w.document d)
    (hanswers : ∀ a d, answers a d → answers' a d) : m.Leaves w linked' answers' := by
  unfold Leaves at h ⊢
  cases hm : m w with
  | error e w' =>
    rw [hm] at h
    exact hlinked _ h
  | ok a w' =>
    rw [hm] at h
    exact ⟨hlinked _ h.1, hanswers _ _ h.2⟩

theorem Leaves.imp {answers' : α → Document → Prop} (h : m.Leaves w linked answers)
    (himp : ∀ a d, answers a d → answers' a d) : m.Leaves w linked answers' :=
  h.weaken (fun _ hlinked => hlinked) himp

/-- What is left by a step that succeeds, however little is told of one that fails. -/
theorem Leaves.forget (h : m.Leaves w linked answers) :
    m.Leaves w (fun _ _ => True) fun a d => linked w.document d ∧ answers a d := by
  unfold Leaves at h ⊢
  cases hm : m w with
  | error e w' => trivial
  | ok a w' =>
    rw [hm] at h
    exact ⟨trivial, h⟩

/-- A step that looks at the document goes on from there. -/
theorem leaves_document {next : Document → Merge β} (h : (next w.document).Leaves w linked answers') :
    (document >>= next).Leaves w linked answers' := h

/-! ## Steps that come to an end -/

/-- Two steps do the same and never fail because blocks are nested too deep. What they answer is as
told. -/
def Agrees (m m' : Merge α) (w : Workspace) (answers : α → Document → Prop) : Prop :=
  m' w = m w ∧
    match m w with
    | .ok a w' => answers a w'.document
    | .error e _ => e ≠ .nestedTooDeep

/-- A step comes to an end. -/
abbrev Ends (m : Merge α) (w : Workspace) (answers : α → Document → Prop) : Prop :=
  m.Agrees m w answers

variable {m' : Merge α} {next' : α → Merge β}

theorem ends_ok (h : m w = .ok a w') (ha : answers a w'.document) : m.Ends w answers := by
  refine ⟨rfl, ?_⟩
  rw [h]
  exact ha

theorem ends_error (h : m w = .error e w') (he : e ≠ .nestedTooDeep) : m.Ends w answers := by
  refine ⟨rfl, ?_⟩
  rw [h]
  exact he

theorem Agrees.of_ok (h : m.Agrees m' w answers) (hm : m w = .ok a w') : answers a w'.document := by
  have hends := h.2
  rw [hm] at hends
  exact hends

theorem Agrees.leaves (h : m.Agrees m' w answers) : m.Leaves w (fun _ _ => True) answers := by
  cases hm : m w with
  | error e w' => exact leaves_error hm trivial
  | ok a w' => exact leaves_ok hm trivial (h.of_ok hm)

theorem Agrees.ne_nestedTooDeep (h : m.Agrees m' w answers) : m w ≠ .error .nestedTooDeep w' := by
  intro hm
  have hends := h.2
  rw [hm] at hends
  exact hends rfl

theorem Agrees.bind (h : m.Agrees m' w answers)
    (hnext : ∀ a w', m w = .ok a w' → answers a w'.document →
      (next a).Agrees (next' a) w' answers') :
    (m >>= next).Agrees (m' >>= next') w answers' := by
  obtain ⟨hsame, hends⟩ := h
  cases hm : m w with
  | ok a w' =>
    rw [hm] at hsame hends
    obtain ⟨hsame', hends'⟩ := hnext a w' hm hends
    refine ⟨?_, ?_⟩
    · rw [bind_ok hm, bind_ok hsame, hsame']
    · rw [bind_ok hm]
      exact hends'
  | error e w' =>
    rw [hm] at hsame hends
    refine ⟨?_, ?_⟩
    · rw [bind_error hm, bind_error hsame]
    · rw [bind_error hm]
      exact hends

theorem Agrees.imp {answers' : α → Document → Prop} (h : m.Agrees m' w answers)
    (himp : ∀ a d, answers a d → answers' a d) : m.Agrees m' w answers' := by
  refine ⟨h.1, ?_⟩
  have hends := h.2
  cases hm : m w with
  | ok a w' =>
    rw [hm] at hends
    exact himp _ _ hends
  | error e w' =>
    rw [hm] at hends
    exact hends

/-- What is left behind by a step is left by two that do the same. -/
theorem Agrees.and_leaves {left : α → Document → Prop} (h : m.Agrees m' w answers)
    (hleaves : m.Leaves w linked left) :
    m.Agrees m' w fun a d => answers a d ∧ linked w.document d ∧ left a d := by
  refine ⟨h.1, ?_⟩
  have hends := h.2
  cases hm : m w with
  | ok a w' =>
    rw [hm] at hends
    exact ⟨hends, hleaves.of_ok hm⟩
  | error e w' =>
    rw [hm] at hends
    exact hends

/-- Steps that look at the document go on from there. -/
theorem agrees_document {next next' : Document → Merge α}
    (h : (next w.document).Agrees (next' w.document) w answers) :
    (document >>= next).Agrees (document >>= next') w answers := h

/-- A step ends as one does by which it is carried out. -/
theorem Ends.of_eq {n : Merge α} (h : n.Ends w' answers) (heq : m w = n w') :
    m.Ends w answers := by
  refine ⟨rfl, ?_⟩
  rw [heq]
  exact h.2

theorem ends_edit {f : Document → Document} {kept : Document → Prop} (h : kept (f w.document)) :
    (edit f).Ends w fun _ => kept := ends_ok rfl h

theorem ends_move {f : Document → Option Document} {kept : Document → Prop}
    (h : ∀ d, f w.document = some d → kept d) : (move f).Ends w fun _ => kept := by
  cases hmove : f w.document with
  | none =>
    have hfails : move f w = .error .misplacedNode w := by rw [move, hmove]
    exact ends_error hfails (by simp)
  | some d => exact ends_ok (move_ok hmove) (h d hmove)

/-- A step for each item of a list, where each of them keeps something of the document. -/
theorem agrees_forM {step step' : α → Merge Unit} {xs : List α} {kept : Document → Prop}
    (h : kept w.document)
    (hstep : ∀ x ∈ xs, ∀ w', kept w'.document → (step x).Agrees (step' x) w' fun _ => kept) :
    (xs.forM step).Agrees (xs.forM step') w fun _ => kept := by
  induction xs generalizing w with
  | nil => exact ends_ok rfl h
  | cons x xs ih =>
    refine (hstep x List.mem_cons_self w h).bind fun _ w' _ hkept => ?_
    exact ih hkept fun y hy => hstep y (List.mem_cons_of_mem _ hy)

theorem agrees_mapM {step step' : α → Merge β} {xs : List α} {kept : Document → Prop}
    (h : kept w.document)
    (hstep : ∀ x ∈ xs, ∀ w', kept w'.document → (step x).Agrees (step' x) w' fun _ => kept) :
    (xs.mapM step).Agrees (xs.mapM step') w fun _ => kept := by
  induction xs generalizing w with
  | nil => exact ends_ok rfl h
  | cons x xs ih =>
    rw [List.mapM_cons, List.mapM_cons]
    refine (hstep x List.mem_cons_self w h).bind fun _ w₁ _ hfirst => ?_
    refine (ih hfirst fun y hy => hstep y (List.mem_cons_of_mem _ hy)).bind fun _ w₂ _ hkept => ?_
    exact ends_ok rfl hkept

/-! ## Why steps fail -/

variable {fails : MergeError → Prop}

/-- A step fails as told, or else answers as told. -/
def Returns (m : Merge α) (w : Workspace) (fails : MergeError → Prop)
    (answers : α → Document → Prop) : Prop :=
  match m w with
  | .ok a w' => answers a w'.document
  | .error e _ => fails e

theorem returns_ok (h : m w = .ok a w') (ha : answers a w'.document) :
    m.Returns w fails answers := by
  unfold Returns
  rw [h]
  exact ha

theorem returns_error (h : m w = .error e w') (he : fails e) : m.Returns w fails answers := by
  unfold Returns
  rw [h]
  exact he

theorem Returns.of_ok (h : m.Returns w fails answers) (hm : m w = .ok a w') :
    answers a w'.document := by
  unfold Returns at h
  rw [hm] at h
  exact h

theorem Returns.of_error (h : m.Returns w fails answers) (hm : m w = .error e w') : fails e := by
  unfold Returns at h
  rw [hm] at h
  exact h

theorem Returns.bind (h : m.Returns w fails answers)
    (hnext : ∀ a w', answers a w'.document → m w = .ok a w' →
      (next a).Returns w' fails answers') : (m >>= next).Returns w fails answers' := by
  cases hm : m w with
  | error e w' => exact returns_error (bind_error hm) (h.of_error hm)
  | ok a w' =>
    have hlater := hnext a w' (h.of_ok hm) hm
    unfold Returns at hlater ⊢
    rw [bind_ok hm]
    exact hlater

theorem Returns.imp {answers' : α → Document → Prop} (h : m.Returns w fails answers)
    (himp : ∀ a d, answers a d → answers' a d) : m.Returns w fails answers' := by
  cases hm : m w with
  | error e w' => exact returns_error hm (h.of_error hm)
  | ok a w' => exact returns_ok hm (himp _ _ (h.of_ok hm))

theorem Returns.of_eq {n : Merge α} (h : n.Returns w' fails answers) (heq : m w = n w') :
    m.Returns w fails answers := by
  unfold Returns at h ⊢
  rwa [heq]

/-- What a step leaves is left also by one that is told to fail only in some ways. -/
theorem Returns.and_leaves {linked : Document → Document → Prop} {left : α → Document → Prop}
    (h : m.Returns w fails answers) (hleaves : m.Leaves w linked left) :
    m.Returns w fails fun a d => answers a d ∧ linked w.document d ∧ left a d := by
  cases hm : m w with
  | error e w' => exact returns_error hm (h.of_error hm)
  | ok a w' => exact returns_ok hm ⟨h.of_ok hm, hleaves.of_ok hm⟩

/-- A step that looks at the document goes on from there. -/
theorem returns_document {next : Document → Merge β}
    (h : (next w.document).Returns w fails answers') :
    (document >>= next).Returns w fails answers' := h

theorem returns_move {f : Document → Option Document} {kept : Document → Prop}
    (hfails : fails .misplacedNode) (h : ∀ d, f w.document = some d → kept d) :
    (move f).Returns w fails fun _ => kept := by
  cases hmove : f w.document with
  | none =>
    have herror : move f w = .error .misplacedNode w := by rw [move, hmove]
    exact returns_error herror hfails
  | some d => exact returns_ok (move_ok hmove) (h d hmove)

/-- A step for each item of a list, where each of them keeps something of the document. -/
theorem returns_forM {step : α → Merge Unit} {xs : List α} {kept : Document → Prop}
    (h : kept w.document)
    (hstep : ∀ x ∈ xs, ∀ w', kept w'.document → (step x).Returns w' fails fun _ => kept) :
    (xs.forM step).Returns w fails fun _ => kept := by
  induction xs generalizing w with
  | nil => exact returns_ok rfl h
  | cons x xs ih =>
    refine (hstep x List.mem_cons_self w h).bind fun _ w' hkept _ => ?_
    exact ih hkept fun y hy => hstep y (List.mem_cons_of_mem _ hy)

theorem returns_mapM {step : α → Merge β} {xs : List α} {kept : Document → Prop}
    (h : kept w.document)
    (hstep : ∀ x ∈ xs, ∀ w', kept w'.document → (step x).Returns w' fails fun _ => kept) :
    (xs.mapM step).Returns w fails fun _ => kept := by
  induction xs generalizing w with
  | nil => exact returns_ok rfl h
  | cons x xs ih =>
    rw [List.mapM_cons]
    refine (hstep x List.mem_cons_self w h).bind fun _ w₁ hfirst _ => ?_
    refine (ih hfirst fun y hy => hstep y (List.mem_cons_of_mem _ hy)).bind fun _ w₂ hkept _ => ?_
    exact returns_ok rfl hkept

end Merge

end MailMerge
