import MailMerge.Xml.Forest

/-!
# The nodes of a forest under its operations

Seen as the list of its nodes in document order, a forest loses and gains nothing by an edit: what
is taken out and what is left, or what is put in and what was there, are together the nodes of the
result. New identities are those from a number on, in document order.
-/

namespace MailMerge.Xml.Forest

/-! ## Rows one after the other -/

@[simp] theorem nodes_append (f g : Forest) : (f ++ g).nodes = f.nodes ++ g.nodes := by
  induction f with
  | nil => rfl
  | cons id node children rest _ ih => simp [nodes, ih]

@[simp] theorem ids_append (f g : Forest) : (f ++ g).ids = f.ids ++ g.ids := by
  simp [ids]

@[simp] theorem ids_nil : (nil : Forest).ids = [] := rfl

@[simp] theorem ids_cons (id : NodeId) (node : Node) (children rest : Forest) :
    (cons id node children rest).ids = id :: (children.ids ++ rest.ids) := by
  simp [ids, nodes]

@[simp] theorem tops_append (f g : Forest) : (f ++ g).tops = f.tops ++ g.tops := by
  induction f with
  | nil => rfl
  | cons id node children rest _ ih => simp [tops, ih]

@[simp] theorem size_append (f g : Forest) : (f ++ g).size = f.size + g.size := by
  induction f with
  | nil => simp [size]
  | cons id node children rest _ ih =>
    simp only [cons_append, size, ih]
    omega

@[simp] theorem text_append (f g : Forest) : (f ++ g).text = f.text ++ g.text := by
  induction f with
  | nil => simp [text]
  | cons id node children rest _ ih => simp [text, ih, String.append_assoc]

/-- The size is the number of nodes. -/
theorem size_eq_length_nodes (f : Forest) : f.size = f.nodes.length := by
  induction f with
  | nil => rfl
  | cons id node children rest ihc ihr => simp [size, nodes, ihc, ihr]

theorem length_ids (f : Forest) : f.ids.length = f.size := by
  simp [ids, size_eq_length_nodes]

/-- The opposite order keeps all nodes. -/
theorem reverseOnto_perm (f done : Forest) :
    (f.reverseOnto done).nodes.Perm (f.nodes ++ done.nodes) := by
  induction f generalizing done with
  | nil => exact .refl _
  | cons id node children rest _ ih =>
    refine (ih _).trans ?_
    simp only [nodes]
    refine List.perm_append_comm.trans ?_
    simp only [List.cons_append, List.append_assoc]
    exact .cons _ (.append_left _ List.perm_append_comm)

/-! ## Looking for a node -/

/-- A node is in a forest when its identity is among those of the forest. -/
theorem contains_eq_true_iff (x : NodeId) (f : Forest) : f.contains x = true ↔ x ∈ f.ids := by
  induction f with
  | nil => simp [contains]
  | cons id node children rest ihc ihr =>
    simp only [contains, Bool.or_eq_true, beq_iff_eq, ihc, ihr, ids_cons, List.mem_cons,
      List.mem_append, or_assoc]
    exact or_congr_left eq_comm

/-- There is a tree for each node of a forest and for no other. -/
theorem isSome_tree?_iff (x : NodeId) (f : Forest) : (f.tree? x).isSome ↔ x ∈ f.ids := by
  induction f with
  | nil => simp [tree?]
  | cons id node children rest ihc ihr =>
    rw [tree?]
    split
    next h => simp [h]
    next h => simp [ihc, ihr, Ne.symm h]

/-! ## Taking out and putting in -/

/-- What is added below the first sibling is added to the row. -/
theorem cons_perm_of_children {row children changed : Forest} (id : NodeId) (node : Node)
    (rest : Forest) (hperm : changed.nodes.Perm (row.nodes ++ children.nodes)) :
    (cons id node changed rest).nodes.Perm (row.nodes ++ (cons id node children rest).nodes) := by
  have hrow := (hperm.append_right rest.nodes).cons (id, node)
  rw [List.append_assoc] at hrow
  exact hrow.trans List.perm_middle.symm

/-- What is added to the later siblings is added to the row. -/
theorem cons_perm_of_rest {row rest changed : Forest} (id : NodeId) (node : Node)
    (children : Forest) (hperm : changed.nodes.Perm (row.nodes ++ rest.nodes)) :
    (cons id node children changed).nodes.Perm
      (row.nodes ++ (cons id node children rest).nodes) := by
  have hrow := hperm.append_left ((id, node) :: children.nodes)
  refine hrow.trans ?_
  rw [nodes, ← List.cons_append, ← List.append_assoc, ← List.append_assoc]
  exact List.perm_append_comm.append_right _

/-- What is taken out and what is left are together what was there. -/
theorem extract?_perm {x : NodeId} {f tree left : Forest}
    (htaken : f.extract? x = some (tree, left)) : f.nodes.Perm (tree.nodes ++ left.nodes) := by
  induction f generalizing tree left with
  | nil => cases htaken
  | cons id node children rest ihc ihr =>
    rw [extract?] at htaken
    split at htaken
    next =>
      cases htaken
      simp [single, nodes]
    next =>
      split at htaken
      next hbelow =>
        cases htaken
        exact cons_perm_of_children id node rest (ihc hbelow)
      next =>
        obtain ⟨_, hlater, heq⟩ := Option.map_eq_some_iff.mp htaken
        cases heq
        exact cons_perm_of_rest id node children (ihr hlater)

/-- What is taken out and its children in its place are together what was there. -/
theorem dissolve?_perm {x : NodeId} {f tree left : Forest}
    (htaken : f.dissolve? x = some (tree, left)) : f.nodes.Perm (tree.nodes ++ left.nodes) := by
  induction f generalizing tree left with
  | nil => cases htaken
  | cons id node children rest ihc ihr =>
    rw [dissolve?] at htaken
    split at htaken
    next =>
      cases htaken
      simp [single, nodes]
    next =>
      split at htaken
      next hbelow =>
        cases htaken
        exact cons_perm_of_children id node rest (ihc hbelow)
      next =>
        obtain ⟨_, hlater, heq⟩ := Option.map_eq_some_iff.mp htaken
        cases heq
        exact cons_perm_of_rest id node children (ihr hlater)

/-- A row put after a node is added to what was there. -/
theorem insertAfter?_perm {anchor : NodeId} {row f g : Forest}
    (hput : insertAfter? anchor row f = some g) : g.nodes.Perm (row.nodes ++ f.nodes) := by
  induction f generalizing g with
  | nil => cases hput
  | cons id node children rest ihc ihr =>
    rw [insertAfter?] at hput
    split at hput
    next =>
      cases hput
      refine cons_perm_of_rest id node children ?_
      rw [nodes_append]
    next =>
      split at hput
      next hbelow =>
        cases hput
        exact cons_perm_of_children id node rest (ihc hbelow)
      next =>
        obtain ⟨_, hlater, heq⟩ := Option.map_eq_some_iff.mp hput
        cases heq
        exact cons_perm_of_rest id node children (ihr hlater)

/-- A row put before a node is added to what was there. -/
theorem insertBefore?_perm {anchor : NodeId} {row f g : Forest}
    (hput : insertBefore? anchor row f = some g) : g.nodes.Perm (row.nodes ++ f.nodes) := by
  induction f generalizing g with
  | nil => cases hput
  | cons id node children rest ihc ihr =>
    rw [insertBefore?] at hput
    split at hput
    next =>
      cases hput
      rw [nodes_append]
    next =>
      split at hput
      next hbelow =>
        cases hput
        exact cons_perm_of_children id node rest (ihc hbelow)
      next =>
        obtain ⟨_, hlater, heq⟩ := Option.map_eq_some_iff.mp hput
        cases heq
        exact cons_perm_of_rest id node children (ihr hlater)

/-- A row put below a node is added to what was there. -/
theorem appendChild?_perm {parent : NodeId} {row f g : Forest}
    (hput : appendChild? parent row f = some g) : g.nodes.Perm (row.nodes ++ f.nodes) := by
  induction f generalizing g with
  | nil => cases hput
  | cons id node children rest ihc ihr =>
    rw [appendChild?] at hput
    split at hput
    next =>
      cases hput
      refine cons_perm_of_children id node rest ?_
      rw [nodes_append]
      exact List.perm_append_comm
    next =>
      split at hput
      next hbelow =>
        cases hput
        exact cons_perm_of_children id node rest (ihc hbelow)
      next =>
        obtain ⟨_, hlater, heq⟩ := Option.map_eq_some_iff.mp hput
        cases heq
        exact cons_perm_of_rest id node children (ihr hlater)

/-! ## New identities -/

@[simp] theorem size_relabel (next : NodeId) (f : Forest) : (f.relabel next).size = f.size := by
  induction f generalizing next with
  | nil => rfl
  | cons id node children rest ihc ihr => simp [relabel, size, ihc, ihr]

/-- New identities are counted in document order. -/
theorem ids_relabel (next : NodeId) (f : Forest) :
    (f.relabel next).ids = List.range' next f.size := by
  induction f generalizing next with
  | nil => rfl
  | cons id node children rest ihc ihr =>
    rw [relabel, ids_cons, ihc, ihr, size, List.range'_succ, ← List.range'_append_1]

/-- New identities change no payload. -/
theorem payloads_relabel (next : NodeId) (f : Forest) :
    (f.relabel next).nodes.map Prod.snd = f.nodes.map Prod.snd := by
  induction f generalizing next with
  | nil => rfl
  | cons id node children rest ihc ihr => simp [relabel, nodes, ihc, ihr]

theorem text_relabel (next : NodeId) (f : Forest) : (f.relabel next).text = f.text := by
  induction f generalizing next with
  | nil => rfl
  | cons id node children rest ihc ihr => simp [relabel, text, ihc, ihr]

/-- New identities change nothing that is written. -/
theorem markup_relabel (next : NodeId) (f : Forest) : (f.relabel next).markup = f.markup := by
  induction f generalizing next with
  | nil => rfl
  | cons id node children rest ihc ihr =>
    cases node with
    | text content => simp [relabel, markup, ihr]
    | cdata content => simp [relabel, markup, ihr]
    | element tag =>
      cases children with
      | nil => simp [relabel, markup, ihr]
      | cons id' node' children' rest' =>
        have hchildren := ihc (next + 1)
        simp only [relabel] at hchildren ⊢
        simp only [markup, hchildren, ihr]

end MailMerge.Xml.Forest
