/-!
# Entries in the order of their keys

A table with one entry for each key, kept in ascending order of the keys. Texts are compared
character by character.
-/

namespace MailMerge

/-- Entries with ascending keys. -/
abbrev Keyed (α : Type _) := List (String × α)

namespace Keyed

variable {α : Type _}

/-- Adds an entry, or overwrites the one of the same key. -/
def insert (key : String) (value : α) : Keyed α → Keyed α
  | [] => [(key, value)]
  | (k, v) :: rest =>
    if key < k then (key, value) :: (k, v) :: rest
    else if key = k then (key, value) :: rest
    else (k, v) :: insert key value rest

/-- The entry of a key. -/
def find? (key : String) (table : Keyed α) : Option α :=
  (List.find? (·.1 == key) table).map Prod.snd

/-- An added entry is found under its key, and every other key has the entry that it had. -/
theorem find?_insert (key wanted : String) (value : α) (table : Keyed α) :
    find? wanted (insert key value table) =
      if key = wanted then some value else find? wanted table := by
  induction table with
  | nil => by_cases h : key = wanted <;> simp [insert, find?, h]
  | cons entry rest ih =>
    obtain ⟨k, v⟩ := entry
    rw [insert]
    split
    next => by_cases h : key = wanted <;> simp [find?, h]
    next =>
      split
      next heq => by_cases h : key = wanted <;> simp [find?, h, ← heq]
      next hne =>
        by_cases h : k = wanted
        · simp [find?, h, show key ≠ wanted from h ▸ hne]
        · simpa [find?, h] using ih

/-- The table of the given entries; of several with one key the last counts. -/
def ofList (entries : List (String × α)) : Keyed α :=
  entries.foldl (fun table (key, value) => insert key value table) []

end Keyed

end MailMerge
