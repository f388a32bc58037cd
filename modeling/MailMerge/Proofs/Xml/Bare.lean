import MailMerge.Proofs.Xml.Parse

/-!
# Rows without identities

Identities tell nodes apart but are never written. Two rows are the same markup when they are equal
without them.
-/

namespace MailMerge.Xml.Forest

variable {f g : Forest}

/-- The row with all identities forgotten. -/
def bare : Forest → Forest
  | nil => nil
  | cons _ node children rest => cons 0 node children.bare rest.bare

@[simp] theorem bare_nil : nil.bare = nil := rfl

@[simp] theorem bare_cons (id : NodeId) (node : Node) (children rest : Forest) :
    (cons id node children rest).bare = cons 0 node children.bare rest.bare := rfl

@[simp] theorem bare_single (id : NodeId) (node : Node) (children : Forest) :
    (single id node children).bare = single 0 node children.bare := rfl

@[simp] theorem bare_append (f g : Forest) : (f ++ g).bare = f.bare ++ g.bare := by
  induction f with
  | nil => rfl
  | cons id node children rest _ ih => simp [ih]

@[simp] theorem bare_bare (f : Forest) : f.bare.bare = f.bare := by
  induction f with
  | nil => rfl
  | cons id node children rest ihc ihr => simp [ihc, ihr]

@[simp] theorem bare_relabel (next : NodeId) (f : Forest) : (f.relabel next).bare = f.bare := by
  induction f generalizing next with
  | nil => rfl
  | cons id node children rest ihc ihr => simp [relabel, ihc, ihr]

/-- Rows one after the other. -/
def join : List Forest → Forest
  | [] => nil
  | row :: rows => row ++ join rows

@[simp] theorem join_append (rows more : List Forest) :
    join (rows ++ more) = join rows ++ join more := by
  induction rows with
  | nil => rfl
  | cons row rows ih => rw [List.cons_append, join, join, ih, append_assoc]

theorem nodes_join (rows : List Forest) : (join rows).nodes = rows.flatMap nodes := by
  induction rows with
  | nil => rfl
  | cons row rows ih => rw [join, nodes_append, List.flatMap_cons, ih]

theorem ids_join (rows : List Forest) : (join rows).ids = rows.flatMap ids := by
  induction rows with
  | nil => rfl
  | cons row rows ih => rw [join, ids_append, List.flatMap_cons, ih]

theorem bare_join (rows : List Forest) : (join rows).bare = join (rows.map bare) := by
  induction rows with
  | nil => rfl
  | cons row rows ih => rw [join, bare_append, ih, List.map_cons, join]

/-! ## The parts of a row that is the same markup as another -/

theorem eq_nil_of_bare (h : f.bare = nil) : f = nil := by
  cases f with
  | nil => rfl
  | cons id node children rest => cases h

theorem exists_cons_of_bare {id : NodeId} {node : Node} {children rest : Forest}
    (h : f.bare = (cons id node children rest).bare) :
    ∃ x c r, f = cons x node c r ∧ c.bare = children.bare ∧ r.bare = rest.bare := by
  cases f with
  | nil => cases h
  | cons x n c r =>
    simp only [bare_cons, cons.injEq, true_and] at h
    obtain ⟨rfl, hc, hr⟩ := h
    exact ⟨x, c, r, rfl, hc, hr⟩

theorem exists_single_append_of_bare {id : NodeId} {node : Node} {children : Forest}
    (h : f.bare = (single id node children ++ g).bare) :
    ∃ x c r, f = cons x node c r ∧ c.bare = children.bare ∧ r.bare = g.bare :=
  exists_cons_of_bare h

theorem exists_append_of_bare {h : Forest} (heq : f.bare = (g ++ h).bare) :
    ∃ g' h', f = g' ++ h' ∧ g'.bare = g.bare ∧ h'.bare = h.bare := by
  induction g generalizing f with
  | nil => exact ⟨nil, f, rfl, rfl, heq⟩
  | cons id node children rest _ ih =>
    obtain ⟨x, c, r, rfl, hc, hr⟩ := exists_cons_of_bare heq
    obtain ⟨g', h', rfl, hg, hh⟩ := ih hr
    exact ⟨cons x node c g', h', rfl, by rw [bare_cons, bare_cons, hc, hg], hh⟩

/-! ## What does not depend on identities -/

theorem payloads_bare (f : Forest) : f.bare.nodes.map Prod.snd = f.nodes.map Prod.snd := by
  induction f with
  | nil => rfl
  | cons id node children rest ihc ihr => simp [nodes, ihc, ihr]

theorem payloads_eq_of_bare (h : f.bare = g.bare) :
    f.nodes.map Prod.snd = g.nodes.map Prod.snd := by
  rw [← payloads_bare f, h, payloads_bare]

theorem top_payloads_bare (f : Forest) : f.bare.tops.map Prod.snd = f.tops.map Prod.snd := by
  induction f with
  | nil => rfl
  | cons id node children rest _ ih => simp [tops, ih]

theorem all_tops_of_bare {p : Node → Bool} (h : f.bare = g.bare) :
    f.tops.all (fun entry => p entry.2) = g.tops.all (fun entry => p entry.2) := by
  have hall : ∀ k : Forest, k.tops.all (fun entry => p entry.2) =
      (k.bare.tops.map Prod.snd).all p := by
    intro k
    rw [top_payloads_bare, List.all_map]
    rfl
  rw [hall f, hall g, h]

theorem text_bare (f : Forest) : f.bare.text = f.text := by
  induction f with
  | nil => rfl
  | cons id node children rest ihc ihr => simp [text, ihc, ihr]

/-- Identities are never written. -/
theorem markup_bare (f : Forest) : f.bare.markup = f.markup := by
  induction f with
  | nil => rfl
  | cons id node children rest ihc ihr =>
    cases node with
    | text content => simp [markup, ihr]
    | cdata content => simp [markup, ihr]
    | element tag =>
      cases children with
      | nil => simp [markup, ihr]
      | cons id' node' children' rest' =>
        simp only [bare_cons] at ihc ⊢
        simp only [markup, ihc, ihr]

end MailMerge.Xml.Forest
