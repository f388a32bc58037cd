import MailMerge.Proofs.Xml.Unambiguous

/-!
# Attributes that edits leave

Making, moving and taking out nodes writes no attribute, and writing one leaves the others. So each
edit keeps all nodes of a document with the values of any attribute that it does not write (`Keeps`).
-/

namespace MailMerge.Xml.Document

open Forest

variable {c d e : Document} {x target : NodeId} {name : String}

/-- All nodes are still there, with their values of an attribute. -/
def Keeps (name : String) (d e : Document) : Prop :=
  d.Distinct → e.Distinct ∧ ∀ x ∈ d.ids, x ∈ e.ids ∧ e.attribute? x name = d.attribute? x name

theorem Keeps.refl (name : String) (d : Document) : d.Keeps name d :=
  fun hd => ⟨hd, fun _ hx => ⟨hx, rfl⟩⟩

theorem Keeps.trans (h : c.Keeps name d) (h' : d.Keeps name e) : c.Keeps name e := by
  intro hc
  obtain ⟨hd, hfirst⟩ := h hc
  obtain ⟨he, hsecond⟩ := h' hd
  refine ⟨he, fun x hx => ?_⟩
  obtain ⟨hin, hsame⟩ := hfirst x hx
  exact ⟨(hsecond x hin).1, (hsecond x hin).2.trans hsame⟩

/-- What an edit does when it is made, and nothing else, is to be told of one that may be refused. -/
theorem keeps_getD {result? : Option Document} (h : ∀ e, result? = some e → d.Keeps name e) :
    d.Keeps name (result?.getD d) := by
  cases result? with
  | none => exact .refl name d
  | some e => exact h e rfl

theorem Distinct.node?_of_mem (hd : d.Distinct) {n : Node} (h : (x, n) ∈ d.nodes) :
    d.node? x = some n := by
  have hx : x ∈ d.ids := ids_eq_map_nodes d ▸ List.mem_map_of_mem h
  obtain ⟨m, hm⟩ := Option.isSome_iff_exists.1 (isSome_node?_iff.2 hx)
  have hnodup : (d.nodes.map Prod.fst).Nodup := ids_eq_map_nodes d ▸ hd.nodup
  cases List.inj_on_of_nodup_map hnodup (mem_nodes_of_node? hm) h rfl
  exact hm

/-- Nodes that stay with what they hold keep their attributes. -/
theorem keeps_of_subset (he : d.Distinct → e.Distinct) (h : d.nodes ⊆ e.nodes) :
    d.Keeps name e := by
  refine fun hd => ⟨he hd, fun x hx => ?_⟩
  obtain ⟨n, hn⟩ := Option.isSome_iff_exists.1 (isSome_node?_iff.2 hx)
  have hn' := (he hd).node?_of_mem (h (mem_nodes_of_node? hn))
  refine ⟨isSome_node?_iff.1 (by rw [hn']; rfl), ?_⟩
  rw [attribute?, attribute?, hn', hn]

theorem keeps_of_perm (hperm : e.nodes.Perm d.nodes) (hnext : e.next = d.next) :
    d.Keeps name e :=
  keeps_of_subset (fun hd => hd.of_perm hperm hnext) hperm.symm.subset

/-! ## New nodes -/

theorem keeps_create (d : Document) (node : Node) : d.Keeps name (d.create node).2 :=
  keeps_of_subset (fun hd => hd.create node) (List.subset_append_right _ _)

theorem keeps_copy (d : Document) (x : NodeId) : d.Keeps name (d.copy x).2 :=
  keeps_of_subset (fun hd => hd.copy x) (nodes_adopt d _ _ ▸ List.subset_append_right _ _)

theorem keeps_parseFragment {text : String} {nodes : List NodeId}
    (h : d.parseFragment text = .ok (nodes, e)) : d.Keeps name e := by
  refine keeps_of_subset (fun hd => (hd.apart.parseFragment h).1.apart.distinct) ?_
  rw [parseFragment] at h
  split at h
  next => cases h
  next =>
    cases h
    exact nodes_adopt d _ _ ▸ List.subset_append_right _ _

/-! ## Moves -/

theorem keeps_detach (d : Document) (x : NodeId) : d.Keeps name (d.detach x) :=
  keeps_of_perm (detach_perm d x) (detach_sameFrame d x).next

theorem keeps_detachAll (d : Document) (xs : List NodeId) : d.Keeps name (d.detachAll xs) :=
  keeps_of_perm (detachAll_perm d xs) (detachAll_sameFrame d xs).next

theorem keeps_unwrap (d : Document) (x : NodeId) : d.Keeps name (d.unwrap x) :=
  keeps_of_perm (unwrap_perm d x) (unwrap_sameFrame d x).next

theorem keeps_move {place : Forest → Forest → Option Forest}
    (hplace : ∀ tree row new, place tree row = some new → new.nodes.Perm (tree.nodes ++ row.nodes))
    (h : d.move place target x = some e) : d.Keeps name e := by
  unfold move at h
  split at h
  next => cases h
  next tree left hleft =>
    split at h
    next => cases h
    next =>
      have htaken := takeOut_perm (fun _ _ _ h => extract?_perm h) hleft
      refine keeps_of_perm ((change_perm (hplace tree) h).trans htaken.symm) ?_
      rw [(change_sameFrame h).next, (takeOut_sameFrame hleft).next]

theorem keeps_insertAfter (h : d.insertAfter target x = some e) : d.Keeps name e :=
  keeps_move (fun _ _ _ h => insertAfter?_perm h) h

theorem keeps_insertBefore (h : d.insertBefore target x = some e) : d.Keeps name e :=
  keeps_move (fun _ _ _ h => insertBefore?_perm h) h

theorem keeps_appendChild (h : d.appendChild target x = some e) : d.Keeps name e :=
  keeps_move (fun _ _ _ h => appendChild?_perm h) h

/-! ## What nodes hold -/

theorem keeps_setAttribute {written : String} (hne : written ≠ name) (d : Document) (x : NodeId)
    (value : String) : d.Keeps name (d.setAttribute x written value) := fun hd =>
  ⟨hd.update x _, fun _ hy => ⟨update_ids d x _ ▸ hy, attribute?_setAttribute_of_ne hne _⟩⟩

/-- A node that cannot have a text keeps none, and the number of the text is used up. -/
theorem keeps_setText (d : Document) (x : NodeId) (content : String) :
    d.Keeps name (d.setText x content) := by
  refine (keeps_detachAll d (d.children x)).trans ?_
  rw [setText, clearChildren]
  generalize d.detachAll (d.children x) = left
  cases hchange : left.change (appendChild? x (single left.next (.text content) .nil)) with
  | none =>
    refine keeps_of_subset (fun hd => ⟨hd.nodup, fun y hy => ?_⟩) (List.Subset.refl _)
    exact Nat.lt_succ_of_lt (hd.numbered y hy)
  | some new =>
    have hperm := change_perm (fun _ _ h => appendChild?_perm h) hchange
    rw [Option.getD_some]
    refine keeps_of_subset (fun hd => hd.of_added (n := 1) ?_ rfl) fun y hy => ?_
    · have hids := hperm.map Prod.fst
      rwa [List.map_append, ← ids_eq_map_nodes, ← ids_eq_map_nodes] at hids
    · exact hperm.mem_iff.2 (List.mem_append_right _ hy)

end MailMerge.Xml.Document
