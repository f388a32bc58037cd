import MailMerge.Proofs.Xml.Bare

/-!
# Readings with other identities

Which identities are given to new nodes makes no difference to what is read: from any two numbers on,
a text is refused with the same error, or read as rows that are the same but for identities
(`Document.parseFragment_alike`).
-/

namespace MailMerge.Xml

open Forest

variable {b b' : Builder} {f g : Forest} {scope : Scope}

theorem Forest.bare_reverseOnto (f g : Forest) :
    (f.reverseOnto g).bare = f.bare.reverseOnto g.bare := by
  induction f generalizing g with
  | nil => rfl
  | cons x node children rest _ ih => rw [reverseOnto, ih, bare_cons, bare_cons, reverseOnto]

theorem Forest.bare_reverse (f : Forest) : f.reverse.bare = f.bare.reverse :=
  bare_reverseOnto f nil

theorem Forest.eq_nil_iff_of_bare (h : f.bare = g.bare) : f = .nil ↔ g = .nil := by
  constructor <;> rintro rfl
  · exact eq_nil_of_bare h.symm
  · exact eq_nil_of_bare h

/-- Open elements are the same but for identities. -/
structure OpenElement.Alike (o o' : OpenElement) : Prop where
  tag : o'.tag = o.tag
  children : o'.children.bare = o.children.bare

namespace Builder

/-- What has been built is the same but for identities. -/
structure Alike (b b' : Builder) : Prop where
  opened : List.Forall₂ OpenElement.Alike b.opened b'.opened
  top : b'.top.bare = b.top.bare
  declaration : b'.declaration = b.declaration

/-- Two steps are refused with the same error, or what they build is the same but for identities. -/
def AlikeResults : Except Error Builder → Except Error Builder → Prop
  | .ok b, .ok b' => Alike b b'
  | .error e, .error e' => e' = e
  | _, _ => False

namespace Alike

theorem put (h : Alike b b') (id id' : NodeId) (node : Node) (hchildren : g.bare = f.bare) :
    Alike (b.put id node f) (b'.put id' node g) := by
  obtain ⟨next, opened, top, declaration⟩ := b
  obtain ⟨next', opened', top', declaration'⟩ := b'
  obtain ⟨hopened, htop, hdeclaration⟩ := h
  cases hopened with
  | nil => exact ⟨.nil, by simp [Builder.put, hchildren, htop], hdeclaration⟩
  | cons hinner houter =>
    refine ⟨.cons ⟨hinner.tag, ?_⟩ houter, htop, hdeclaration⟩
    rw [bare_cons, bare_cons, hchildren, hinner.children]

theorem next (h : Alike b b') (n n' : NodeId) :
    Alike { b with next := n } { b' with next := n' } := ⟨h.opened, h.top, h.declaration⟩

theorem isEmpty (h : Alike b b') : b'.opened.isEmpty = b.opened.isEmpty := by
  cases hb : b.opened <;> cases hb' : b'.opened <;> have := h.opened <;> simp_all

theorem admitsElement (h : Alike b b') : b'.admitsElement scope = b.admitsElement scope := by
  have hnil := eq_nil_iff_of_bare h.top
  simp only [Builder.admitsElement, h.isEmpty, ne_eq, hnil]

theorem addText (h : Alike b b') (position : Nat) (node : Node) :
    AlikeResults (b.addText scope position node) (b'.addText scope position node) := by
  unfold Builder.addText
  rw [h.isEmpty]
  split
  · exact (h.put _ _ node rfl).next _ _
  · split
    · exact h
    · cases scope with
      | document => rfl
      | fragment => exact (h.put _ _ node rfl).next _ _

theorem step (h : Alike b b') (position : Nat) (event : Event) :
    AlikeResults (b.step scope position event) (b'.step scope position event) := by
  cases event with
  | start tag =>
    rw [Builder.step, Builder.step, h.admitsElement]
    split
    · exact ⟨.cons ⟨rfl, rfl⟩ h.opened, h.top, h.declaration⟩
    · rfl
  | empty tag =>
    rw [Builder.step, Builder.step, h.admitsElement]
    split
    · exact (h.put _ _ _ rfl).next _ _
    · rfl
  | stop name =>
    obtain ⟨next, opened, top, declaration⟩ := b
    obtain ⟨next', opened', top', declaration'⟩ := b'
    obtain ⟨hopened, htop, hdeclaration⟩ := h
    cases hopened with
    | nil => rfl
    | @cons inner inner' outer outer' hinner houter =>
      simp only [Builder.step, hinner.tag]
      split
      · have hleft : Alike ⟨next, outer, top, declaration⟩ ⟨next', outer', top', declaration'⟩ :=
          ⟨houter, htop, hdeclaration⟩
        refine hleft.put _ _ _ ?_
        rw [bare_reverse, bare_reverse, hinner.children]
      · rfl
  | text content => exact h.addText position _
  | cdata content => exact h.addText position _
  | declaration body => exact ⟨h.opened, h.top, rfl⟩
  | aside => exact h

theorem run (h : Alike b b') (events : List (Nat × Event)) :
    AlikeResults (b.run scope events) (b'.run scope events) := by
  induction events generalizing b b' with
  | nil => exact h
  | cons entry rest ih =>
    obtain ⟨position, event⟩ := entry
    have hstep : AlikeResults (b.step scope position event) (b'.step scope position event) :=
      h.step position event
    rw [Builder.run, Builder.run]
    cases hb : b.step scope position event <;> cases hb' : b'.step scope position event <;>
      rw [hb, hb'] at hstep
    · exact hstep
    · exact hstep.elim
    · exact hstep.elim
    · exact ih hstep

end Alike

theorem build_alike (scope : Scope) (n n' : NodeId) (reading : Reading) :
    AlikeResults (build scope n reading) (build scope n' reading) := by
  have hbegin : Alike (begin n) (begin n') := ⟨.nil, rfl, rfl⟩
  have hrun : AlikeResults ((begin n).run scope reading.events) ((begin n').run scope reading.events) :=
    hbegin.run reading.events
  rw [build, build]
  cases hb : (begin n).run scope reading.events <;> cases hb' : (begin n').run scope reading.events <;>
    rw [hb, hb'] at hrun
  · exact hrun
  · exact hrun.elim
  · exact hrun.elim
  case ok.ok b b' =>
    obtain ⟨next, opened, top, declaration⟩ := b
    obtain ⟨next', opened', top', declaration'⟩ := b'
    cases reading.fault with
    | some e => rfl
    | none =>
      cases hrun.opened with
      | nil => exact hrun
      | cons hinner _ =>
        simp only [AlikeResults, hinner.tag]

end Builder

namespace Document

variable {d e : Document}

/-- A fragment is refused with the same error in all documents, or read as rows that are the same but
for identities. -/
theorem parseFragment_alike (d e : Document) (text : String) :
    (∃ error, d.parseFragment text = .error error ∧ e.parseFragment text = .error error) ∨
    ∃ (row row' : Forest) (n n' : NodeId), d.parseFragment text = .ok (row.topIds, d.adopt row.trees n) ∧
      e.parseFragment text = .ok (row'.topIds, e.adopt row'.trees n') ∧ row'.bare = row.bare := by
  have hbuild := Builder.build_alike .fragment d.next e.next (Reading.ofString text)
  rw [parseFragment, parseFragment]
  cases hb : Builder.build .fragment d.next (Reading.ofString text) <;>
    cases hb' : Builder.build .fragment e.next (Reading.ofString text) <;> rw [hb, hb'] at hbuild
  · cases hbuild
    exact .inl ⟨_, rfl, rfl⟩
  · exact hbuild.elim
  · exact hbuild.elim
  · refine .inr ⟨_, _, _, _, rfl, rfl, ?_⟩
    rw [bare_reverse, bare_reverse, hbuild.top]

end Document

end MailMerge.Xml
