import MailMerge.Keyed

/-!
# Entries of tables

The entries of a table are those that were put in, and its keys are theirs.
-/

namespace MailMerge.Keyed

variable {α : Type _} {key wanted : String} {value : α} {table : Keyed α} {entry : String × α}

/-! ## Entries -/

theorem mem_of_mem_insert {key : String} {value : α} {table : Keyed α}
    (h : entry ∈ insert key value table) : entry = (key, value) ∨ entry ∈ table := by
  induction table with
  | nil => exact .inl (List.mem_singleton.1 h)
  | cons first rest ih =>
    rw [insert] at h
    split at h
    next => exact List.mem_cons.1 h
    next =>
      split at h
      next =>
        rcases List.mem_cons.1 h with heq | hrest
        · exact .inl heq
        · exact .inr (List.mem_cons_of_mem _ hrest)
      next =>
        rcases List.mem_cons.1 h with rfl | hrest
        · exact .inr List.mem_cons_self
        · exact (ih hrest).imp_right (List.mem_cons_of_mem _)

theorem mem_of_mem_foldl {entries : List (String × α)} {table : Keyed α}
    (h : entry ∈ entries.foldl (fun table (key, value) => insert key value table) table) :
    entry ∈ table ∨ entry ∈ entries := by
  induction entries generalizing table with
  | nil => exact .inl h
  | cons first rest ih =>
    rcases ih h with hmem | hmem
    · rcases mem_of_mem_insert hmem with rfl | hmem
      · exact .inr List.mem_cons_self
      · exact .inl hmem
    · exact .inr (List.mem_cons_of_mem _ hmem)

theorem mem_of_mem_ofList {entries : List (String × α)} (h : entry ∈ ofList entries) :
    entry ∈ entries := by
  rcases mem_of_mem_foldl h with hnone | hmem
  · cases hnone
  · exact hmem

theorem exists_mem_of_find? {key : String} {value : α} {table : Keyed α}
    (h : find? key table = some value) : ∃ k, (k, value) ∈ table := by
  obtain ⟨⟨k, v⟩, hfound, rfl⟩ := Option.map_eq_some_iff.1 h
  exact ⟨k, List.mem_of_find?_eq_some hfound⟩

/-- An entry with a new key is added to the others. -/
theorem insert_perm (h : key ∉ table.map Prod.fst) :
    (insert key value table).Perm ((key, value) :: table) := by
  induction table with
  | nil => exact .refl _
  | cons first rest ih =>
    obtain ⟨k, v⟩ := first
    rw [List.map_cons, List.mem_cons, not_or] at h
    rw [insert]
    split
    next => exact .refl _
    next =>
      rw [if_neg h.1]
      exact ((ih h.2).cons _).trans (.swap _ _ _)

/-! ## Keys -/

theorem mem_keys_insert :
    wanted ∈ (insert key value table).map Prod.fst ↔ wanted = key ∨ wanted ∈ table.map Prod.fst := by
  induction table with
  | nil => simp [insert]
  | cons entry rest ih =>
    obtain ⟨k, v⟩ := entry
    rw [insert]
    split
    next => simp
    next =>
      split
      next heq => simp [heq]
      next =>
        simp only [List.map_cons, List.mem_cons, ih]
        exact or_left_comm

theorem find?_eq_none_iff : find? wanted table = none ↔ wanted ∉ table.map Prod.fst := by
  rw [find?, Option.map_eq_none_iff, List.find?_eq_none, List.mem_map]
  constructor
  · rintro h ⟨entry, hentry, rfl⟩
    exact h entry hentry (beq_self_eq_true _)
  · intro h entry hentry heq
    exact h ⟨entry, hentry, eq_of_beq heq⟩

/-- The keys of a table are those of its entries. -/
theorem mem_keys_ofList {entries : List (String × α)} :
    wanted ∈ (ofList entries).map Prod.fst ↔ wanted ∈ entries.map Prod.fst := by
  have hfold : ∀ table : Keyed α,
      wanted ∈ (entries.foldl (fun table (key, value) => insert key value table) table).map
        Prod.fst ↔ wanted ∈ entries.map Prod.fst ∨ wanted ∈ table.map Prod.fst := by
    induction entries with
    | nil => simp
    | cons first rest ih =>
      intro table
      rw [List.foldl_cons, ih, mem_keys_insert, List.map_cons, List.mem_cons, or_left_comm, or_assoc]
  simpa [ofList] using hfold []

end MailMerge.Keyed
