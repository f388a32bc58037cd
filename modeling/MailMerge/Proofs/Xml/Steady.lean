import MailMerge.Proofs.Rendering.Session
import MailMerge.Proofs.Xml.Still

/-!
# Documents that take in new nodes

An edit that takes in new nodes, takes nodes out and dissolves some leaves each old node below no
other nodes than before. Where it keeps away from what follows given nodes, the same follows these
afterwards, or nothing if they have been taken out themselves (`Steady`).
-/

namespace MailMerge.Xml.Document

open Forest

variable {c d e e' : Document} {f x y z : NodeId} {xs : List NodeId} {p q : NodeId → Prop}
variable {r : NodeId → Node → Prop}

/-- In a later document, the given nodes are followed by what followed them or by nothing, and nodes
have come below no others than before. -/
structure Steady (p : NodeId → Prop) (d e : Document) : Prop extends Whole p d e where
  below : ∀ z ∈ d.ids, ∀ y, z ∈ e.descendants y → z ∈ d.descendants y

/-- A node does not follow any of the given nodes. -/
def Off (p : NodeId → Prop) (d : Document) (x : NodeId) : Prop :=
  x ∈ d.ids → ∀ f, p f → x ∉ (d.following f).ids

/-- Old nodes are found below no other nodes than before where new nodes alone are added. -/
theorem Bounds.descendants_subset {old : List NodeId} (h : Bounds old r d e) (hold : old ⊆ d.ids)
    (hnew : ∀ z ∈ old, ∀ n, ¬r z n) (hz : z ∈ old) (hin : z ∈ e.descendants y) :
    z ∈ d.descendants y := by
  by_cases hy : y ∈ old
  · exact h.mem_descendants hold hy hin (hnew z hz)
  · exact h.closed y hy z hz hin

/-- What encloses a node that follows another one follows it too, or encloses both. -/
theorem Distinct.mem_following_of_below (hd : d.Distinct) (hz : z ∈ d.descendants y)
    (hy : y ∈ (d.following f).ids) : z ∈ (d.following f).ids := by
  have hrow := (hd.shows_following f).has
  obtain ⟨s, hs, hbelow⟩ := (hrow.mem_ids_iff (hd.nodup_following f)).1 hy
  exact (hrow.mem_ids_iff (hd.nodup_following f)).2 ⟨s, hs, hd.mem_descendants_trans hz hbelow⟩

namespace Steady

theorem refl (hd : d.Distinct) : Steady p d d := ⟨.refl hd, fun _ _ _ hin => hin⟩

theorem imp (h : Steady q d e) (hpq : ∀ f, p f → q f) : Steady p d e :=
  ⟨h.toWhole.imp hpq, h.below⟩

theorem trans (h : Steady p c d) (h' : Steady p d e) : Steady p c e :=
  ⟨h.toWhole.trans h'.toWhole, fun z hz y hin => h.below z hz y (h'.below z (h.ids hz) y hin)⟩

theorem of_bounds (h : Steady p d e) (hb : Bounds d.ids r e e') (hnew : ∀ z ∈ d.ids, ∀ n, ¬r z n)
    (hfollowing : ∀ f, p f → e'.following f = .nil ∨ e'.following f = e.following f) :
    Steady p d e' where
  distinct := hb.distinct
  ids := List.Subset.trans h.ids hb.ids
  following f hf := by
    rcases hfollowing f hf with hnone | hsame
    · exact .inl hnone
    · exact hsame ▸ h.following f hf
  below z hz y hin := h.below z hz y (hb.descendants_subset h.ids hnew hz hin)

/-- What did not follow the given nodes does not come to follow them. -/
theorem notMem_following (h : Steady p d e) (hx : d.Off p x) (hf : p f) :
    x ∉ (e.following f).ids := fun hin =>
  have hin := h.toWhole.subset hf hin
  hx (mem_ids_of_mem_following hin) f hf hin

theorem elsewhere (h : Steady p d e) (hf : p f) (hx : d.Elsewhere x f) : e.Elsewhere x f where
  mem := h.ids hx.mem
  out hin := hx.out (h.below f hx.mem x hin)
  after hin := hx.after (h.toWhole.subset hf hin)

/-! ## Edits -/

section Edits

variable (h : Steady p d e) (hp : ∀ f, p f → f ∈ d.ids)

include h hp

theorem spares (hspares : e.Spares e.allRows e') : Steady p d e' := by
  have hgains : Gains e.ids (fun z _ => z ∉ e.ids) e e' :=
    hspares.gains h.distinct.apart (List.Subset.refl _) fun z hz _ hnew => hnew hz
  have hb := hgains.bounds (List.Subset.refl e.ids)
  refine ⟨⟨hb.distinct, List.Subset.trans h.ids hb.ids, fun f hf => ?_⟩, fun z hz y hin => ?_⟩
  · rw [hspares.apart.following_eq h.distinct.apart (h.ids (hp f hf))]
    exact h.following f hf
  · exact h.below z hz y (hb.descendants_subset (List.Subset.refl e.ids)
      (fun z hz _ hnew => hnew hz) (h.ids hz) hin)

/-- A new node is put after one that follows none of the given nodes. -/
theorem insertAfter {anchor : NodeId} (hmove : e.insertAfter anchor x = some e') (hx : x ∉ d.ids)
    (hoff : d.Off p anchor) (hne : ∀ f, p f → f ≠ anchor) : Steady p d e' := by
  have hout : ∀ z ∈ d.ids, z ∉ e.descendants x := fun z hz hin =>
    hx (mem_ids_of_descendants (h.below z hz x hin))
  obtain ⟨s, t, hmoved⟩ := h.distinct.movedAfter hmove
  refine h.of_bounds (hmoved.bounds h.distinct h.ids hout) (fun z hz _ hnew => hnew hz)
    fun f hf => .inr ?_
  refine h.distinct.following_insertAfter hmove (hout f (hp f hf)) ?_ (hne f hf)
    (h.notMem_following hoff hf)
  exact h.notMem_following (fun hin => absurd hin hx) hf

end Edits

/-- A node is taken out that follows none of the given nodes but perhaps is one of them. -/
theorem detach (h : Steady (fun f => p f ∧ f ≠ x) d e) (hoff : d.Off (fun f => p f ∧ f ≠ x) x) :
    Steady p d (e.detach x) := by
  have hb : Bounds d.ids (fun _ _ => False) e (e.detach x) := h.distinct.detach_bounds x
  refine ⟨⟨hb.distinct, List.Subset.trans h.ids hb.ids, fun f hf => ?_⟩, fun z hz y hin => ?_⟩
  · by_cases hfx : f = x
    · exact .inl (hfx ▸ h.distinct.following_detach_self)
    · rw [h.distinct.following_detach hfx (h.notMem_following hoff ⟨hf, hfx⟩)]
      exact h.following f ⟨hf, hfx⟩
  · exact h.below z hz y (hb.descendants_subset h.ids (fun _ _ _ hn => hn) hz hin)

/-- Nodes are taken out together with those of the given nodes that they follow. -/
theorem detachAll (h : Steady (fun f => p f ∧ f ∉ xs) d e)
    (hoff : ∀ x ∈ xs, d.Off (fun f => p f ∧ f ∉ xs) x) : Steady p d (e.detachAll xs) := by
  have hb : Bounds d.ids (fun _ _ => False) e (e.detachAll xs) := h.distinct.detachAll_bounds xs
  have hstill : Still (fun f => p f ∧ f ∉ xs) e (e.detachAll xs) := by
    refine h.distinct.still_detachAll fun f hf x hx => ⟨fun heq => hf.2 (heq ▸ hx), ?_⟩
    exact h.notMem_following (hoff x hx) hf
  refine ⟨⟨hb.distinct, List.Subset.trans h.ids hb.ids, fun f hf => ?_⟩, fun z hz y hin => ?_⟩
  · by_cases hin : f ∈ xs
    · exact .inl (h.distinct.following_detachAll hin)
    · rw [hstill.following f ⟨hf, hin⟩]
      exact h.following f ⟨hf, hin⟩
  · exact h.below z hz y (hb.descendants_subset h.ids (fun _ _ _ hn => hn) hz hin)

/-- A node is unwrapped that is elsewhere than the given nodes. -/
theorem unwrap (h : Steady p d e) (hx : x ∈ d.ids) (hout : ∀ f, p f → d.Elsewhere x f) :
    Steady p d (e.unwrap x) := by
  have hstill : Still p e (e.unwrap x) :=
    h.distinct.still_unwrap (h.ids hx) fun f hf => h.elsewhere hf (hout f hf)
  refine ⟨h.toWhole.trans hstill.whole, fun z hz y hin => h.below z hz y ?_⟩
  cases hparent : e.parent? x with
  | none =>
    rw [Document.unwrap, hparent] at hin
    exact (h.distinct.mem_descendants_detach.1 hin).1
  | some parent =>
    exact (h.distinct.unwrap_melts (by rw [hparent]; rfl)).mem_descendants hin

/-- The attributes of a node change that follows none of the given nodes. -/
theorem update (h : Steady p d e) (hoff : d.Off p x) (change : Node → Node) :
    Steady p d (e.update x change) := by
  refine ⟨⟨h.distinct.update x change, ?_, fun f hf => ?_⟩, fun z hz y hin => h.below z hz y ?_⟩
  · rw [update_ids]
    exact h.ids
  · have hout := h.notMem_following hoff hf
    have hsame : (e.update x change).following f = e.following f := by
      rw [following_eq_site?, following_eq_site?, site?_update]
      rw [following_eq_site?] at hout
      cases hs : e.site? f with
      | none => rfl
      | some s =>
        rw [hs] at hout
        exact update_of_notMem hout
    rw [hsame]
    exact h.following f hf
  · obtain ⟨s, hs, hzs⟩ := mem_descendants_iff.1 hin
    rw [site?_update] at hs
    obtain ⟨t, ht, rfl⟩ := Option.map_eq_some_iff.1 hs
    refine mem_descendants_iff.2 ⟨t, ht, hzs.imp_right fun hin => ?_⟩
    rwa [ids_update] at hin

end Steady

end MailMerge.Xml.Document
