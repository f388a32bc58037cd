import MailMerge.Proofs.Xml.Attributes
import MailMerge.Proofs.Xml.Nesting

/-!
# Attributes that are named once

A tag that names an attribute twice is not read, and a document has no other elements than those of
the tags that it is built from. So no element of a document that is read names an attribute twice
(`Document.unambiguous_of_parse`), and edits keep it so (`Document.Unambiguous.revised`).
-/

namespace MailMerge.Xml

/-! ## Tags -/

namespace AttributeList

variable {fuel offset : Nat} {known : List (List Char × Nat)} {cs : List Char}

/-- No name comes twice, nor does one that is known already. -/
theorem nodup_read (fuel : Nat) (known : List (List Char × Nat)) (offset : Nat) (cs : List Char) :
    ((read true fuel known offset cs).attributes.map RawAttribute.name).Nodup ∧
      ∀ a ∈ (read true fuel known offset cs).attributes, ∀ entry ∈ known, entry.1 ≠ a.name := by
  have hnone : ∀ known : List (List Char × Nat),
      (([] : List RawAttribute).map RawAttribute.name).Nodup ∧
        ∀ a ∈ ([] : List RawAttribute), ∀ entry ∈ known, entry.1 ≠ a.name :=
    fun _ => ⟨.nil, fun _ ha => absurd ha List.not_mem_nil⟩
  induction fuel generalizing known offset cs with
  | zero => exact hnone known
  | succ fuel ih =>
    rw [read]
    split
    next => exact hnone known
    next start first rest hstart =>
      dsimp only
      split
      next after rest' hequals =>
        split
        next => exact hnone known
        next hnew =>
          split
          next => exact hnone known
          next value later rest'' hvalue =>
            -- The name is known from here on, so that no later attribute has it.
            rw [if_pos rfl, List.find?_eq_none] at hnew
            generalize first :: (nameRest rest).1 = name at hnew ⊢
            obtain ⟨hnodup, hknown⟩ := ih (known ++ [(name, start)]) later rest''
            refine ⟨?_, ?_⟩
            · refine List.nodup_cons.2 ⟨fun hin => ?_, hnodup⟩
              obtain ⟨a, ha, heq⟩ := List.mem_map.1 hin
              exact hknown a ha (name, start) (by simp) heq.symm
            · rw [cons, List.forall_mem_cons]
              refine ⟨fun entry hentry => by simpa using hnew entry hentry, fun a ha entry hentry => ?_⟩
              exact hknown a ha entry (List.mem_append_left _ hentry)
      next => exact hnone known

end AttributeList

namespace Element

theorem names_of_resolveAttributes {fault : Option AttributeFault} {raws : List RawAttribute}
    {attributes : List Attribute} (h : resolveAttributes fault raws = .ok attributes) :
    attributes.map Attribute.name = raws.map fun raw => String.ofList raw.name := by
  induction raws generalizing attributes with
  | nil =>
    cases fault <;> cases h
    rfl
  | cons raw raws ih =>
    rw [resolveAttributes] at h
    split at h
    next => cases h
    next value hvalue =>
      cases hlater : resolveAttributes fault raws with
      | error _ => rw [hlater] at h; cases h
      | ok later =>
        rw [hlater] at h
        cases h
        rw [List.map_cons, List.map_cons, ih hlater]

theorem unambiguous_of_ofChars {cs : List Char} {tag : Element} (h : ofChars cs = .ok tag) :
    tag.Unambiguous := by
  rw [ofChars] at h
  dsimp only at h
  generalize hlist : AttributeList.ofChars true _ _ = list at h
  cases hread : resolveAttributes list.fault list.attributes with
  | error _ => rw [hread] at h; cases h
  | ok attributes =>
    rw [hread] at h
    cases h
    have hnodup : (list.attributes.map RawAttribute.name).Nodup := by
      rw [← hlist]
      exact (AttributeList.nodup_read _ _ _ _).1
    rw [Unambiguous, names_of_resolveAttributes hread]
    have hmap := hnodup.map (f := String.ofList) fun a b heq => String.ofList_inj.1 heq
    rwa [List.map_map] at hmap

end Element

/-! ## Pieces -/

/-- The element that a piece begins. -/
def Event.tag? : Event → Option Element
  | start tag | empty tag => some tag
  | _ => none

theorem Event.exists_of_start_mem {events : List Event} {tag : Element}
    (h : .start tag ∈ events.flatMap Event.spelled) : ∃ event ∈ events, event.tag? = some tag := by
  obtain ⟨event, hevent, hin⟩ := List.mem_flatMap.1 h
  refine ⟨event, hevent, ?_⟩
  cases event <;> simp [spelled] at hin <;> exact congrArg some hin.symm

theorem mem_of_mem_kept {opened : List String} {events : List Event} {event : Event}
    (h : event ∈ kept opened events) : event ∈ events := by
  induction events generalizing opened with
  | nil => cases h
  | cons first rest ih =>
    rw [kept, List.mem_append] at h
    rcases h with h | h
    · split at h
      next => exact List.mem_cons.2 (.inl (List.mem_singleton.1 h))
      next => cases h
    · exact List.mem_cons_of_mem _ (ih h)

/-- Every element of a reading is read from a tag. -/
theorem Reading.exists_ofChars {fuel position : Nat} {opened : List String} {cs : List Char}
    {event : Event} {tag : Element}
    (h : event ∈ (read fuel position opened cs).events.map Prod.snd) (htag : event.tag? = some tag) :
    ∃ inner, Element.ofChars inner = .ok tag := by
  fun_induction read fuel position opened cs with
  | case1 => cases h
  | case2 => cases h
  | case3 => cases h
  | case4 fuel position opened cs found opened' next rest hmarkup ih =>
    rw [Reading.cons, List.map_cons, List.mem_cons] at h
    rcases h with rfl | h
    · cases taken_of_readMarkup hmarkup with
      | start hread | empty hread =>
        cases htag
        exact ⟨_, hread⟩
      | aside | declaration | cdata | stop => cases htag
    · exact ih h
  | case5 => cases h
  | case6 _ _ _ _ _ _ _ _ _ _ _ ih =>
    rw [Reading.cons, List.map_cons, List.mem_cons] at h
    rcases h with rfl | h
    · cases htag
    · exact ih h

/-! ## Documents -/

theorem Forest.start_mem_spelled {f : Forest} {x : NodeId} {tag : Element} (hf : f.Leaves)
    (h : (x, .element tag) ∈ f.nodes) : .start tag ∈ f.spelled := by
  induction f with
  | nil => cases h
  | cons id node children rest ihc ihr =>
    obtain ⟨hleaf, hchildren, hrest⟩ := hf
    rw [Forest.nodes, List.mem_cons, List.mem_append] at h
    rcases h with heq | h | h
    · cases heq
      exact List.mem_cons_self
    · cases node with
      | element => simp [spelled, ihc hchildren h]
      | text | cdata =>
        rw [hleaf rfl] at h
        cases h
    · cases node <;> simp [spelled, ihr hrest h]

/-- No element of what is built of a text names an attribute twice. -/
theorem Builder.unambiguous_of_build {scope : Scope} {n x : NodeId} {s : String} {b : Builder}
    {tag : Element} (h : build scope n (Reading.ofString s) = .ok b)
    (hx : (x, .element tag) ∈ b.top.reverse.nodes) : tag.Unambiguous := by
  have hleaves : b.top.reverse.Leaves := (Sound.build h).1.top.reverseOnto trivial
  have hstart := Forest.start_mem_spelled hleaves hx
  rw [(spelled_of_build h).2] at hstart
  obtain ⟨event, hevent, htag⟩ := Event.exists_of_start_mem hstart
  obtain ⟨inner, hinner⟩ := Reading.exists_ofChars (mem_of_mem_kept hevent) htag
  exact Element.unambiguous_of_ofChars hinner

namespace Document

open Forest

variable {d e : Document} {x : NodeId} {s : String}

/-- No element of a document names an attribute twice. -/
def Unambiguous (d : Document) : Prop :=
  ∀ x tag, (x, .element tag) ∈ d.nodes → tag.Unambiguous

theorem Unambiguous.unambiguousAt (h : d.Unambiguous) (x : NodeId) : d.UnambiguousAt x :=
  fun tag htag => h x tag (mem_nodes_of_node? htag)

theorem unambiguous_of_parse (h : parse s = .ok d) : d.Unambiguous := by
  obtain ⟨b, x, node, children, hbuild, hrow, rfl⟩ := exists_of_reading h
  intro y tag hy
  apply Builder.unambiguous_of_build hbuild (x := y)
  rw [hrow]
  simpa [nodes, allRows] using hy

theorem nodes_adopt (d : Document) (rows : List Forest) (next : NodeId) :
    (d.adopt rows next).nodes = rows.flatMap Forest.nodes ++ d.nodes := by
  simp [nodes, allRows, adopt]

theorem flatMap_nodes_trees (f : Forest) : f.trees.flatMap Forest.nodes = f.nodes := by
  induction f with
  | nil => rfl
  | cons id node children rest _ ih => simp [trees, single, Forest.nodes, ih]

theorem Unambiguous.adopt (h : d.Unambiguous) (rows : List Forest) (next : NodeId)
    (hrows : ∀ x tag, (x, .element tag) ∈ rows.flatMap Forest.nodes → tag.Unambiguous) :
    (d.adopt rows next).Unambiguous := by
  intro x tag hx
  rw [nodes_adopt, List.mem_append] at hx
  rcases hx with hx | hx
  · exact hrows x tag hx
  · exact h x tag hx

theorem Unambiguous.of_perm (h : d.Unambiguous) (hperm : e.nodes.Perm d.nodes) : e.Unambiguous :=
  fun x tag hx => h x tag (hperm.mem_iff.1 hx)

theorem Unambiguous.create (h : d.Unambiguous) {node : Node}
    (hnode : ∀ tag, node = .element tag → tag.Unambiguous) : (d.create node).2.Unambiguous := by
  apply h.adopt [single d.next node .nil] (d.next + 1)
  intro x tag hx
  simp only [single, List.flatMap_singleton, Forest.nodes, List.append_nil, List.mem_singleton] at hx
  exact hnode tag (congrArg Prod.snd hx).symm

theorem Unambiguous.copy (h : d.Unambiguous) (hd : d.Distinct) (x : NodeId) :
    (d.copy x).2.Unambiguous := by
  apply h.adopt
  intro y tag hy
  rw [List.flatMap_singleton] at hy
  have hpayload : .element tag ∈ (d.tree x).nodes.map Prod.snd := by
    rw [← payloads_eq_of_bare (bare_relabel d.next (d.tree x))]
    exact List.mem_map_of_mem hy
  obtain ⟨⟨z, _⟩, hz, rfl⟩ := List.mem_map.1 hpayload
  exact h z tag (mem_nodes_of_node? ((hd.shows_tree x).node? hz))

theorem Unambiguous.parseFragment {nodes : List NodeId} (h : d.Unambiguous)
    (hparse : d.parseFragment s = .ok (nodes, e)) : e.Unambiguous := by
  rw [Document.parseFragment] at hparse
  split at hparse
  next => cases hparse
  next b hbuild =>
    cases hparse
    apply h.adopt
    intro x tag hx
    rw [flatMap_nodes_trees] at hx
    exact Builder.unambiguous_of_build hbuild hx

/-- An edit makes no element that names an attribute twice. -/
theorem Unambiguous.revision {r : Revision} (h : d.Unambiguous) (hd : d.WellFormed)
    (hr : r.nodes ⊆ d.ids) (hresult : r.result? d = some e) : e.Unambiguous := by
  have hmove : ∀ {target x : NodeId} {place : Forest → Forest → Option Forest}
      {graft : Forest → Forest → Forest},
      ((target ∈ d.descendants x ∧ d.move place target x = none) ∨
        ∃ e, d.move place target x = some e ∧ d.Relocates graft target x e) →
      d.move place target x = some e → e.Unambiguous := by
    intro target x place graft hmove heq
    rcases hmove with ⟨-, hnone⟩ | ⟨e', hsome, hmoved⟩
    · rw [hnone] at heq
      cases heq
    · rw [hsome] at heq
      cases heq
      exact h.of_perm hmoved.perm
  -- Moves, removals and unwrappings only exchange places; the other edits make nodes.
  cases r with
  | createElement name =>
    cases hresult
    refine h.create fun tag htag => ?_
    cases htag
    exact List.nodup_nil
  | createText content =>
    cases hresult
    exact h.create nofun
  | parseFragment text =>
    rw [Revision.result?] at hresult
    split at hresult
    next hparse =>
      cases hresult
      exact h.parseFragment hparse
    next =>
      cases hresult
      exact h
  | copy x =>
    cases hresult
    exact h.copy hd.toDistinct x
  | appendChild parent x =>
    exact hmove (hd.relocates_appendChild (hr (by simp [Revision.nodes]))
      (hr (by simp [Revision.nodes]))) hresult
  | insertAfter anchor x =>
    exact hmove (hd.relocates_insertAfter (hr (by simp [Revision.nodes]))
      (hr (by simp [Revision.nodes]))) hresult
  | insertBefore anchor x =>
    exact hmove (hd.relocates_insertBefore (hr (by simp [Revision.nodes]))
      (hr (by simp [Revision.nodes]))) hresult
  | detach x =>
    cases hresult
    exact h.of_perm (detach_perm d x)
  | unwrap x =>
    cases hresult
    exact h.of_perm (unwrap_perm d x)
  | clearChildren x =>
    cases hresult
    exact h.of_perm (detachAll_perm d _)
  | setText x content =>
    cases hresult
    have hcleared : (d.clearChildren x).Unambiguous := h.of_perm (detachAll_perm d _)
    have hcreated : ((d.clearChildren x).createText content).2.Unambiguous := hcleared.create nofun
    exact hcreated.of_perm (hd.relocates_setText (hr (by simp [Revision.nodes])) content).perm

/-- A document that is read and then edited names no attribute of an element twice. -/
theorem Unambiguous.revised (h : d.Unambiguous) (hd : d.WellFormed) (hrevised : Revised d e) :
    e.Unambiguous := by
  induction hrevised with
  | refl => exact h
  | @tail c e hearlier hstep ih =>
    obtain ⟨r, hr, hresult⟩ := hstep
    exact ih.revision (Revised.wellFormed hearlier hd) hr hresult

end Document

end MailMerge.Xml
