import MailMerge.Proofs.Xml.ChildLists

/-!
# What encloses what encloses

The nodes that enclose a node are told the nearest first, so that behind each of them come those that
enclose it in turn (`Distinct.enclosing_of_append`).
-/

namespace MailMerge.Xml

variable {a x y z : NodeId} {n : Node} {before after : List (NodeId × Node)}

namespace Forest

variable {f : Forest}

theorem ancestors?_of_append (hf : f.ids.Nodup)
    (h : f.ancestors? x = some (before ++ (a, n) :: after)) : f.ancestors? a = some after := by
  induction f generalizing after with
  | nil => cases h
  | cons id node children rest ihc ihr =>
    obtain ⟨-, hidr, hc, hr, hdisj⟩ := nodup_cons_iff.1 hf
    rw [ancestors?] at h ⊢
    split at h
    · simp at h
    · rcases Option.or_eq_some_iff.1 h with hin | ⟨-, hin⟩
      · obtain ⟨above, habove, heq⟩ := Option.map_eq_some_iff.1 hin
        -- The node is the one around the children, or it encloses within them.
        rcases List.eq_nil_or_concat after with rfl | ⟨inner, last, rfl⟩
        · obtain ⟨-, hlast⟩ := List.append_inj' heq rfl
          rw [if_pos (Prod.mk.inj (List.cons.inj hlast).1).1]
        · rw [List.concat_eq_append, ← List.cons_append, ← List.append_assoc] at heq
          obtain ⟨rfl, hlast⟩ := List.append_inj' heq rfl
          cases hlast
          have ha := ihc hc habove
          have hne : id ≠ a := fun heq => (nodup_cons_iff.1 hf).1 (heq ▸ by
            by_contra hout
            rw [ancestors?_eq_none_iff.2 hout] at ha
            cases ha)
          rw [if_neg hne, ha, Option.map_some, Option.some_or, List.concat_eq_append]
      · have ha := ihr hr hin
        have hmem : a ∈ rest.ids := by
          by_contra hout
          rw [ancestors?_eq_none_iff.2 hout] at ha
          cases ha
        have hne : id ≠ a := fun heq => hidr (heq ▸ hmem)
        rw [if_neg hne, ancestors?_eq_none_iff.2 fun hin => hdisj a hin hmem, Option.map_none,
          Option.none_or, ha]

end Forest

namespace Document

open Forest

variable {d : Document}

theorem Distinct.enclosing_of_append (hd : d.Distinct)
    (h : d.enclosing x = before ++ (a, n) :: after) : d.enclosing a = after := by
  obtain ⟨row, hrow, above, habove, heq⟩ := exists_row_of_mem_enclosing
    (h ▸ List.mem_append_right before List.mem_cons_self : (a, n) ∈ d.enclosing x)
  have ha := ancestors?_of_append (hd.nodup_row hrow) (habove.trans (by rw [← heq, h]))
  have hmem : a ∈ row.ids := by
    by_contra hout
    rw [ancestors?_eq_none_iff.2 hout] at ha
    cases ha
  rw [hd.enclosing_of_row hrow hmem, ha]
  rfl

/-- What encloses a child is its parent and what encloses that. -/
theorem Distinct.enclosing_of_parent? (hd : d.Distinct) (h : d.parent? y = some x) :
    ∃ n, d.node? x = some n ∧ d.enclosing y = (x, n) :: d.enclosing x := by
  rw [parent?, ancestors] at h
  cases henclosing : d.enclosing y with
  | nil => simp [henclosing] at h
  | cons entry above =>
    obtain ⟨z, n⟩ := entry
    rw [henclosing, List.map_cons, List.head?_cons, Option.some.injEq] at h
    subst h
    refine ⟨n, hd.node?_of_mem_enclosing (henclosing ▸ List.mem_cons_self), ?_⟩
    have happend : d.enclosing y = [] ++ (z, n) :: above := henclosing
    rw [hd.enclosing_of_append happend]

theorem mem_ancestors_iff_below (hd : d.Distinct) : a ∈ d.ancestors x ↔ x ∈ (d.below a).ids := by
  rw [hd.mem_ancestors_iff, below_eq_site?]
  cases d.site? a with
  | none => simp
  | some s => simp

end Document

end MailMerge.Xml
