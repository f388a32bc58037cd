import MailMerge.Proofs.Merge

/-!
# Merges in lockstep

Two merges of different documents go in lockstep when they fail with the same error, or both succeed
with answers and documents that are related. Either way they leave the same registries. What is done
one step after the other goes in lockstep when each step does.
-/

namespace MailMerge

open Xml

namespace Merge

variable {α α' β β' : Type} {w w' : Workspace} {m : Merge α} {m' : Merge α'}
variable {next : α → Merge β} {next' : α' → Merge β'}
variable {related : α → α' → Document → Document → Prop}
variable {related' : β → β' → Document → Document → Prop}

/-- Two workspaces have the same resources and list definitions. -/
structure SameRegistries (w w' : Workspace) : Prop where
  resources : w'.resources = w.resources
  numbering : w'.numbering = w.numbering

theorem SameRegistries.document (h : SameRegistries w w') (d d' : Document) :
    SameRegistries { w with document := d } { w' with document := d' } := ⟨h.resources, h.numbering⟩

/-- Two merges fail with the same error, or leave what is related; and the same registries. -/
def Lockstep (m : Merge α) (m' : Merge α') (w w' : Workspace)
    (related : α → α' → Document → Document → Prop) : Prop :=
  match m w, m' w' with
  | .ok a v, .ok a' v' => SameRegistries v v' ∧ related a a' v.document v'.document
  | .error error v, .error error' v' => error' = error ∧ SameRegistries v v'
  | _, _ => False

theorem lockstep_ok {a : α} {a' : α'} {v v' : Workspace} (hm : m w = .ok a v)
    (hm' : m' w' = .ok a' v') (hsame : SameRegistries v v')
    (h : related a a' v.document v'.document) : Lockstep m m' w w' related := by
  rw [Lockstep, hm, hm']
  exact ⟨hsame, h⟩

theorem lockstep_error {error : MergeError} {v v' : Workspace} (hm : m w = .error error v)
    (hm' : m' w' = .error error v') (hsame : SameRegistries v v') :
    Lockstep m m' w w' related := by
  rw [Lockstep, hm, hm']
  exact ⟨rfl, hsame⟩

/-- What is known of merges in lockstep, case by case. -/
theorem Lockstep.elim (h : Lockstep m m' w w' related) :
    (∃ a v a' v', m w = .ok a v ∧ m' w' = .ok a' v' ∧ SameRegistries v v' ∧
      related a a' v.document v'.document) ∨
    ∃ error v v', m w = .error error v ∧ m' w' = .error error v' ∧ SameRegistries v v' := by
  rw [Lockstep] at h
  cases hm : m w with
  | ok a v =>
    cases hm' : m' w' with
    | ok a' v' =>
      rw [hm, hm'] at h
      exact .inl ⟨a, v, a', v', rfl, rfl, h⟩
    | error error' v' => simp [hm, hm'] at h
  | error error v =>
    cases hm' : m' w' with
    | ok a' v' => simp [hm, hm'] at h
    | error error' v' =>
      rw [hm, hm'] at h
      obtain ⟨rfl, hsame⟩ := h
      exact .inr ⟨error', v, v', rfl, rfl, hsame⟩

/-- Steps that do the same as others go in lockstep like them. -/
theorem Lockstep.of_eq {n : Merge α} {n' : Merge α'} (h : Lockstep n n' w w' related)
    (hm : m w = n w) (hm' : m' w' = n' w') : Lockstep m m' w w' related := by
  rwa [Lockstep, hm, hm']

theorem SameRegistries.of_common {w₀ : Workspace} (h : SameRegistries w₀ w) (h' : SameRegistries w₀ w') :
    SameRegistries w w' :=
  ⟨h'.resources.trans h.resources.symm, h'.numbering.trans h.numbering.symm⟩

/-- Two merges that go in lockstep with a third one go in lockstep with one another. -/
theorem Lockstep.of_common {α₀ : Type} {w₀ : Workspace} {m₀ : Merge α₀}
    {left : α₀ → α → Document → Document → Prop} {right : α₀ → α' → Document → Document → Prop}
    (h : Lockstep m₀ m w₀ w left) (h' : Lockstep m₀ m' w₀ w' right) :
    Lockstep m m' w w' fun a a' d d' => ∃ a₀ d₀, left a₀ a d₀ d ∧ right a₀ a' d₀ d' := by
  rcases h.elim with ⟨a₀, v₀, a, v, hm₀, hm, hsame, hleft⟩ | ⟨error, v₀, v, hm₀, hm, hsame⟩
  · rcases h'.elim with ⟨a₁, v₁, a', v', hm₁, hm', hsame', hright⟩ | ⟨error, v₁, v', hm₁, -⟩
    · cases hm₀.symm.trans hm₁
      exact lockstep_ok hm hm' (hsame.of_common hsame') ⟨a₀, v₀.document, hleft, hright⟩
    · cases hm₀.symm.trans hm₁
  · rcases h'.elim with ⟨a₁, v₁, a', v', hm₁, -⟩ | ⟨error', v₁, v', hm₁, hm', hsame'⟩
    · cases hm₀.symm.trans hm₁
    · cases hm₀.symm.trans hm₁
      exact lockstep_error hm hm' (hsame.of_common hsame')

/-- Steps one after the other go in lockstep. -/
theorem Lockstep.bind (h : Lockstep m m' w w' related)
    (hnext : ∀ a (v : Workspace) a' (v' : Workspace), m w = .ok a v → SameRegistries v v' →
      related a a' v.document v'.document → Lockstep (next a) (next' a') v v' related') :
    Lockstep (m >>= next) (m' >>= next') w w' related' := by
  rcases h.elim with ⟨a, v, a', v', hm, hm', hsame, hrelated⟩ | ⟨error, v, v', hm, hm', hsame⟩
  · have hlater := hnext a v a' v' hm hsame hrelated
    rwa [Lockstep, bind_ok hm, bind_ok hm']
  · exact lockstep_error (bind_error hm) (bind_error hm') hsame

theorem Lockstep.imp {related' : α → α' → Document → Document → Prop}
    (h : Lockstep m m' w w' related)
    (himp : ∀ a (v : Workspace) a' (v' : Workspace), m w = .ok a v → related a a' v.document v'.document →
      related' a a' v.document v'.document) : Lockstep m m' w w' related' := by
  rcases h.elim with ⟨a, v, a', v', hm, hm', hsame, hrelated⟩ | ⟨error, v, v', hm, hm', hsame⟩
  · exact lockstep_ok hm hm' hsame (himp a v a' v' hm hrelated)
  · exact lockstep_error hm hm' hsame

theorem lockstep_pure (hsame : SameRegistries w w') {a : α} {a' : α'}
    (h : related a a' w.document w'.document) : Lockstep (pure a) (pure a') w w' related :=
  lockstep_ok rfl rfl hsame h

theorem lockstep_throw (hsame : SameRegistries w w') (error : MergeError) :
    Lockstep (throw error) (throw error) w w' related :=
  lockstep_error rfl rfl hsame

theorem lockstep_edit {f f' : Document → Document} {related : Unit → Unit → Document → Document → Prop}
    (hsame : SameRegistries w w') (h : related () () (f w.document) (f' w'.document)) :
    Lockstep (edit f) (edit f') w w' related :=
  lockstep_ok (edit_apply f w) (edit_apply f' w') (hsame.document _ _) h

theorem lockstep_create {f f' : Document → NodeId × Document}
    {related : NodeId → NodeId → Document → Document → Prop} (hsame : SameRegistries w w')
    (h : related (f w.document).1 (f' w'.document).1 (f w.document).2 (f' w'.document).2) :
    Lockstep (create f) (create f') w w' related :=
  lockstep_ok (create_apply f w) (create_apply f' w') (hsame.document _ _) h

/-- Steps that look at the documents go on from there. -/
theorem lockstep_document {next : Document → Merge β} {next' : Document → Merge β'}
    (h : Lockstep (next w.document) (next' w'.document) w w' related') :
    Lockstep (document >>= next) (document >>= next') w w' related' := h

/-- Steps that change the documents go on from there. -/
theorem lockstep_edit_bind {f f' : Document → Document} {next : Unit → Merge β}
    {next' : Unit → Merge β'}
    (h : Lockstep (next ()) (next' ()) { w with document := f w.document }
      { w' with document := f' w'.document } related') :
    Lockstep (edit f >>= next) (edit f' >>= next') w w' related' := h

theorem lockstep_ofExcept (hsame : SameRegistries w w') {result : Except MergeError α}
    {related : α → α → Document → Document → Prop}
    (h : ∀ a, related a a w.document w'.document) :
    Lockstep (ofExcept result) (ofExcept result) w w' related := by
  cases result with
  | ok a => exact lockstep_ok (ofExcept_ok a w) (ofExcept_ok a w') hsame (h a)
  | error error => exact lockstep_error (ofExcept_error error w) (ofExcept_error error w') hsame

/-- What a result answers is the same, and the documents stay what they were. -/
theorem lockstep_ofExcept_same (hsame : SameRegistries w w') (result : Except MergeError α) :
    Lockstep (ofExcept result) (ofExcept result) w w'
      fun a a' d e => a' = a ∧ d = w.document ∧ e = w'.document :=
  lockstep_ofExcept hsame fun _ => ⟨rfl, rfl, rfl⟩

theorem lockstep_addImage (hsame : SameRegistries w w') (picture : Picture)
    {related : String → String → Document → Document → Prop}
    (h : ∀ id, related id id w.document w'.document) :
    Lockstep (addImage picture) (addImage picture) w w' related := by
  cases hadd : w.resources.addImage? picture with
  | some added =>
    have hadd' : w'.resources.addImage? picture = some added := hsame.resources ▸ hadd
    exact lockstep_ok (addImage_ok hadd) (addImage_ok hadd') ⟨rfl, hsame.numbering⟩ (h _)
  | none =>
    have hadd' : w'.resources.addImage? picture = none := hsame.resources ▸ hadd
    exact lockstep_error (addImage_error hadd) (addImage_error hadd') hsame

theorem lockstep_onNumbering (hsame : SameRegistries w w') (step : EStateM MergeError Numbering α)
    {related : α → α → Document → Document → Prop} (h : ∀ a, related a a w.document w'.document) :
    Lockstep (onNumbering step) (onNumbering step) w w' related := by
  have hsteps : step w'.numbering = step w.numbering := by rw [hsame.numbering]
  cases hstep : step w.numbering with
  | ok a numbering =>
    have hm : onNumbering step w = .ok a { w with numbering } := by rw [onNumbering, hstep]
    have hm' : onNumbering step w' = .ok a { w' with numbering } := by
      rw [onNumbering, hsteps, hstep]
    exact lockstep_ok hm hm' ⟨hsame.resources, rfl⟩ (h a)
  | error error numbering =>
    have hm : onNumbering step w = .error error { w with numbering } := by rw [onNumbering, hstep]
    have hm' : onNumbering step w' = .error error { w' with numbering } := by
      rw [onNumbering, hsteps, hstep]
    exact lockstep_error hm hm' ⟨hsame.resources, rfl⟩

end Merge

end MailMerge
