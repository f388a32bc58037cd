import MailMerge.Proofs.Xml.Within
import MailMerge.Xml.Document.Build

/-!
# Documents that are read

Reading a document numbers its nodes in the order in which they begin. Main statement: what is read
is a proper document (`proper_of_parse`), with a root that stands below and after nothing, and with
nothing below a text.
-/

namespace MailMerge.Xml

open Forest

/-- Nothing stands below a text. -/
def Forest.Leaves : Forest → Prop
  | .nil => True
  | .cons _ node children rest =>
    (node.isElement = false → children = .nil) ∧ children.Leaves ∧ rest.Leaves

instance Forest.decidableLeaves : (f : Forest) → Decidable f.Leaves
  | .nil => inferInstanceAs (Decidable True)
  | .cons _ node children rest =>
    have := decidableLeaves children
    have := decidableLeaves rest
    inferInstanceAs (Decidable ((node.isElement = false → children = .nil) ∧
      children.Leaves ∧ rest.Leaves))

theorem Forest.Leaves.site? {f : Forest} {x : NodeId} {s : Site} (hf : f.Leaves)
    (hs : f.site? x = some s) (hnode : s.node.isElement = false) : s.children = .nil := by
  induction f with
  | nil => cases hs
  | cons id node children rest ihc ihr =>
    obtain ⟨hself, hbelow, hlater⟩ := hf
    rw [Forest.site?] at hs
    split at hs
    next => cases hs; exact hself hnode
    next =>
      rcases Option.or_eq_some_iff.1 hs with hs | ⟨-, hs⟩
      · exact ihc hbelow hs
      · exact ihr hlater hs

theorem Forest.Leaves.reverseOnto {f done : Forest} (hf : f.Leaves) (hdone : done.Leaves) :
    (f.reverseOnto done).Leaves := by
  induction f generalizing done with
  | nil => exact hdone
  | cons id node children rest _ ih => exact ih hf.2.2 ⟨hf.1, hf.2.1, hdone⟩

theorem Forest.ids_reverse_perm (f : Forest) : f.reverse.ids.Perm f.ids := by
  have h := (reverseOnto_perm f .nil).map Prod.fst
  simpa [Forest.reverse, Forest.ids, Forest.nodes] using h

/-- A document as it is read: its root stands neither below nor after another node, and nothing
stands below a text. -/
structure Document.Proper (d : Document) : Prop extends d.WellFormed where
  topmost : ∀ x s, d.site? x = some s → d.root ∉ s.children.ids ∧ d.root ∉ s.rest.ids
  leaves : ∀ x s, d.site? x = some s → s.node.isElement = false → s.children = .nil

/-- A text or a CDATA section, and the node that is made of it. -/
inductive Event.Leaf : Event → Node → Prop
  | text (content : String) : Leaf (.text content) (.text content)
  | cdata (content : String) : Leaf (.cdata content) (.cdata content)

namespace Builder

variable {b c : Builder} {scope : Scope} {n : NodeId}

/-! ## One piece -/

/-- What a step comes to, for each kind of piece. -/
inductive Stepped (scope : Scope) (b : Builder) (position : Nat) :
    Event → Except Error Builder → Prop
  | start {tag : Element} (admitted : b.admitsElement scope = true) :
    Stepped scope b position (.start tag)
      (.ok { b with opened := ⟨b.next, tag, .nil⟩ :: b.opened, next := b.next + 1 })
  | empty {tag : Element} (admitted : b.admitsElement scope = true) :
    Stepped scope b position (.empty tag)
      (.ok { b.put b.next (.element tag) .nil with next := b.next + 1 })
  | refused {event : Event} {tag : Element} (element : event = .start tag ∨ event = .empty tag)
    (refused : ¬b.admitsElement scope = true) :
    Stepped scope b position event (.error (.manyRoots (some position)))
  | stop {inner : OpenElement} {outer : List OpenElement} (opened : b.opened = inner :: outer) :
    Stepped scope b position (.stop inner.tag.name)
      (.ok ({ b with opened := outer }.put inner.id (.element inner.tag) inner.children.reverse))
  | misfit {name : String} {e : Error} (other : (b.opened.map (·.tag.name)).head? ≠ some name) :
    Stepped scope b position (.stop name) (.error e)
  | leaf {event : Event} {node : Node} (leaf : event.Leaf node)
    (kept : b.opened = [] → scope = .fragment ∧ ¬Text.allBlank node.characters = true) :
    Stepped scope b position event (.ok { b.put b.next node .nil with next := b.next + 1 })
  | blank {event : Event} {node : Node} (leaf : event.Leaf node) (top : b.opened = [])
    (blank : Text.allBlank node.characters = true) : Stepped scope b position event (.ok b)
  | outside {event : Event} {node : Node} (leaf : event.Leaf node) (top : b.opened = [])
    (document : scope = .document) (shown : ¬Text.allBlank node.characters = true) :
    Stepped scope b position event
      (.error (.badStructure "Text content outside of the root element" (some position)))
  | declaration {body : String} :
    Stepped scope b position (.declaration body) (.ok { b with declaration := some body })
  | aside : Stepped scope b position .aside (.ok b)

theorem stepped_addText {event : Event} {node : Node} {position : Nat} (hleaf : event.Leaf node) :
    Stepped scope b position event (b.addText scope position node) := by
  unfold addText
  split
  next hopened =>
    have hinside : b.opened ≠ [] := by simpa using hopened
    exact .leaf hleaf fun htop => absurd htop hinside
  next hopened =>
    have htop : b.opened = [] := by simpa using hopened
    split
    next hblank => exact .blank hleaf htop hblank
    next hblank =>
      cases scope with
      | fragment => exact .leaf hleaf fun _ => ⟨rfl, hblank⟩
      | document => exact .outside hleaf htop rfl hblank

theorem stepped (scope : Scope) (b : Builder) (position : Nat) (event : Event) :
    Stepped scope b position event (b.step scope position event) := by
  cases event with
  | start tag =>
    rw [step]
    split
    next hadmitted => exact .start hadmitted
    next hrefused => exact .refused (.inl rfl) hrefused
  | empty tag =>
    rw [step]
    split
    next hadmitted => exact .empty hadmitted
    next hrefused => exact .refused (.inr rfl) hrefused
  | stop name =>
    rw [step]
    split
    next hopened => exact .misfit (by simp [hopened])
    next inner outer hopened =>
      split
      next hname =>
        subst hname
        exact .stop hopened
      next hname => exact .misfit (by simpa [hopened] using hname)
  | text content => exact stepped_addText (.text content)
  | cdata content => exact stepped_addText (.cdata content)
  | declaration body => exact .declaration
  | aside => exact .aside

/-! ## What has been built -/

/-- The identities of all nodes that have begun. -/
def ids (b : Builder) : List NodeId :=
  b.opened.flatMap (fun o => o.id :: o.children.ids) ++ b.top.ids

/-- What holds of all that has been built from `n` on: every identity up to the next one is used
once, and nothing stands below a text. -/
structure Sound (n : NodeId) (b : Builder) : Prop where
  begun : n ≤ b.next
  perm : b.ids.Perm (List.range' n (b.next - n))
  top : b.top.Leaves
  opened : ∀ o ∈ b.opened, o.children.Leaves

theorem Sound.nodup (hb : b.Sound n) : b.ids.Nodup := hb.perm.nodup_iff.2 List.nodup_range'

theorem Sound.numbered (hb : b.Sound n) : ∀ x ∈ b.ids, x < b.next := by
  intro x hx
  have hrange := (List.mem_range'_1.1 (hb.perm.mem_iff.1 hx)).2
  rwa [Nat.add_sub_cancel' hb.begun] at hrange

/-- A further identity is the next one. -/
theorem Sound.perm_next (hb : b.Sound n) :
    (b.next :: b.ids).Perm (List.range' n (b.next + 1 - n)) := by
  rw [Nat.sub_add_comm hb.begun, List.range'_concat, Nat.one_mul, Nat.add_sub_cancel' hb.begun]
  exact (hb.perm.cons _).trans (List.perm_append_singleton _ _).symm

theorem put_ids_perm (b : Builder) (id : NodeId) (node : Node) (children : Forest) :
    (b.put id node children).ids.Perm (id :: children.ids ++ b.ids) := by
  obtain ⟨next, opened, top, declaration⟩ := b
  cases opened with
  | nil => simp [put, ids]
  | cons parent outer =>
    simp only [put, ids, List.flatMap_cons, ids_cons, List.cons_append, List.append_assoc]
    refine (List.Perm.swap _ _ _).trans (.cons _ ?_)
    exact List.perm_middle.symm

theorem put_leaves (htop : b.top.Leaves) (hopened : ∀ o ∈ b.opened, o.children.Leaves)
    (id : NodeId) (node : Node) {children : Forest}
    (hself : node.isElement = false → children = .nil) (hbelow : children.Leaves) :
    (b.put id node children).top.Leaves ∧
      ∀ o ∈ (b.put id node children).opened, o.children.Leaves := by
  obtain ⟨next, opened, top, declaration⟩ := b
  cases opened with
  | nil => exact ⟨⟨hself, hbelow, htop⟩, by simp [put]⟩
  | cons parent outer =>
    refine ⟨htop, ?_⟩
    intro o ho
    rcases List.mem_cons.1 ho with rfl | ho
    · exact ⟨hself, hbelow, hopened parent List.mem_cons_self⟩
    · exact hopened o (List.mem_cons_of_mem _ ho)

@[simp] theorem put_next (b : Builder) (id : NodeId) (node : Node) (children : Forest) :
    (b.put id node children).next = b.next := by
  rw [put]
  split <;> rfl

/-- A new node without children keeps what holds of all that has been built. -/
theorem Sound.putNew (hb : b.Sound n) (node : Node) :
    Sound n { b.put b.next node .nil with next := b.next + 1 } := by
  have hperm : (b.put b.next node .nil).ids.Perm (b.next :: b.ids) := put_ids_perm b _ node .nil
  obtain ⟨htop, hopened⟩ := put_leaves hb.top hb.opened b.next node (fun _ => rfl) trivial
  exact ⟨Nat.le_succ_of_le hb.begun, hperm.trans hb.perm_next, htop, hopened⟩

/-- Every piece of markup keeps what holds of all that has been built. -/
theorem Sound.step (hb : b.Sound n) {position : Nat} {event : Event}
    (h : b.step scope position event = .ok c) : c.Sound n := by
  have hstep := stepped scope b position event
  rw [h] at hstep
  cases hstep with
  | start =>
    refine ⟨Nat.le_succ_of_le hb.begun, hb.perm_next, hb.top, ?_⟩
    rintro o (- | ⟨-, ho⟩)
    · trivial
    · exact hb.opened o ho
  | empty => exact hb.putNew _
  | @stop inner outer hopened =>
    obtain ⟨next, opened, top, declaration⟩ := b
    cases hopened
    let outside : Builder := ⟨next, outer, top, declaration⟩
    -- Closing an element moves its children and changes no identity.
    have hids : (outside.put inner.id (.element inner.tag) inner.children.reverse).ids.Perm
        (inner.id :: inner.children.ids ++ outside.ids) := by
      refine (put_ids_perm outside _ _ _).trans (.cons _ ?_)
      exact (ids_reverse_perm _).append_right _
    have hsplit : (inner.id :: inner.children.ids ++ outside.ids) =
        ids ⟨next, inner :: outer, top, declaration⟩ := by simp [ids, outside]
    rw [hsplit] at hids
    have hinner : inner.children.reverse.Leaves :=
      (hb.opened inner List.mem_cons_self).reverseOnto trivial
    have hself : (Node.element inner.tag).isElement = false →
        inner.children.reverse = .nil := by simp [Node.isElement, Node.element?]
    have hother : ∀ o ∈ outer, o.children.Leaves :=
      fun o ho => hb.opened o (List.mem_cons_of_mem _ ho)
    obtain ⟨htop, hopened⟩ := put_leaves (b := outside) hb.top hother inner.id
      (.element inner.tag) hself hinner
    refine ⟨?_, ?_, htop, hopened⟩
    · rw [put_next]
      exact hb.begun
    · rw [put_next]
      exact hids.trans hb.perm
  | leaf => exact hb.putNew _
  | blank => exact hb
  | declaration => exact ⟨hb.begun, hb.perm, hb.top, hb.opened⟩
  | aside => exact hb

theorem Sound.begin (n : NodeId) : (begin n).Sound n := by
  refine ⟨Nat.le_refl n, ?_, trivial, fun o ho => by simp [Builder.begin] at ho⟩
  simp [ids, Builder.begin]

theorem Sound.run (hb : b.Sound n) {events : List (Nat × Event)}
    (h : b.run scope events = .ok c) : c.Sound n := by
  induction events generalizing b with
  | nil => cases h; exact hb
  | cons piece rest ih =>
    obtain ⟨position, event⟩ := piece
    rw [Builder.run] at h
    split at h
    next => cases h
    next hstep => exact ih (hb.step hstep) h

/-- What is built has been run to its end, with no element left open. -/
theorem run_of_build {reading : Reading} (h : build scope n reading = .ok c) :
    (begin n).run scope reading.events = .ok c ∧ c.opened = [] := by
  rw [build] at h
  split at h
  next => cases h
  next hrun =>
    split at h
    next => cases h
    next hopened => cases h; exact ⟨hrun, hopened⟩
    next => cases h

theorem Sound.build {reading : Reading} (h : build scope n reading = .ok c) :
    c.Sound n ∧ c.opened = [] := by
  obtain ⟨hrun, hopened⟩ := run_of_build h
  exact ⟨(Sound.begin n).run hrun, hopened⟩

end Builder

namespace Document

theorem proper_single {x n : NodeId} {node : Node} {children : Forest}
    {declaration : Option String} (hnodup : (single x node children).ids.Nodup)
    (hnumbered : ∀ y ∈ (single x node children).ids, y < n)
    (hleaves : (single x node children).Leaves) :
    Proper ⟨[.single x node children], [], x, n, declaration⟩ := by
  have hids : ids ⟨[.single x node children], [], x, n, declaration⟩ =
      (single x node children).ids := by simp [ids, allRows]
  have hsite : ∀ y, site? ⟨[.single x node children], [], x, n, declaration⟩ y =
      (single x node children).site? y := by
    intro y
    rw [site?_eq_findSome?]
    simp only [allRows, List.append_nil, List.findSome?_cons, List.findSome?_nil]
    cases (single x node children).site? y <;> rfl
  refine { nodup := hids ▸ hnodup, numbered := hids ▸ hnumbered, rooted := ?_, topmost := ?_,
           leaves := ?_ }
  · rw [hids]
    simp [single]
  · intro y s hs
    rw [hsite] at hs
    have hx : x ∉ children.ids := by
      have := hnodup
      rw [single, ids_cons, List.nodup_cons] at this
      exact fun h => this.1 (List.mem_append_left _ h)
    have hroot : (single x node children).site? x = some ⟨node, children, .nil⟩ := by
      simp [single, Forest.site?]
    by_cases hyx : y = x
    · subst hyx
      rw [hroot] at hs
      cases hs
      exact ⟨hx, by simp⟩
    · rw [single, Forest.site?, if_neg (Ne.symm hyx), Forest.site?, Option.or_none] at hs
      exact ⟨fun h => hx (Forest.mem_of_mem_children hs h),
        fun h => hx (Forest.mem_of_mem_rest hs h)⟩
  · intro y s hs
    rw [hsite] at hs
    exact hleaves.site? hs

/-- A document is made of the only tree that has been built. -/
theorem exists_of_reading {reading : Reading} {d : Document} (h : ofReading reading = .ok d) :
    ∃ b x node children, Builder.build .document 0 reading = .ok b ∧
      b.top.reverse = single x node children ∧
      d = ⟨[single x node children], [], x, b.next, b.declaration⟩ := by
  rw [ofReading] at h
  split at h
  next => cases h
  next b hbuild =>
    split at h
    next => cases h
    next x node children hrow =>
      cases h
      exact ⟨b, x, node, children, hbuild, hrow, rfl⟩
    next => cases h

theorem proper_of_reading {reading : Reading} {d : Document} (h : ofReading reading = .ok d) :
    d.Proper := by
  obtain ⟨b, x, node, children, hbuild, hrow, rfl⟩ := exists_of_reading h
  obtain ⟨hb, hopened⟩ := Builder.Sound.build hbuild
  have hids : b.ids = b.top.ids := by simp [Builder.ids, hopened]
  have hperm := ids_reverse_perm b.top
  have hleaves : b.top.reverse.Leaves := hb.top.reverseOnto trivial
  rw [hrow] at hperm hleaves
  rw [← hids] at hperm
  exact proper_single (hperm.nodup_iff.2 hb.nodup)
    (fun y hy => hb.numbered y (hperm.mem_iff.1 hy)) hleaves

/-- What is read is a proper document. -/
theorem proper_of_parse {text : String} {d : Document} (h : parse text = .ok d) : d.Proper :=
  proper_of_reading h

end Document

end MailMerge.Xml
