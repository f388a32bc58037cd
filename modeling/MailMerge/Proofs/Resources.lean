import MailMerge.Numbering
import MailMerge.Proofs.Decimal
import MailMerge.Proofs.Keyed
import MailMerge.Resources

/-!
# Fresh identifiers and numbers

The identifier of a new image is written with one more than the highest number that can be read from
the identifiers in use, and the number of a new list definition is one more than all numbers in use.
Neither is in use, whatever other identifiers there are, and neither is handed out when the number
would be too large.
-/

namespace MailMerge

theorem foldl_max_le_iff {start bound : Nat} {numbers : List Nat} :
    numbers.foldl max start ≤ bound ↔ start ≤ bound ∧ ∀ n ∈ numbers, n ≤ bound := by
  induction numbers generalizing start with
  | nil => simp
  | cons n rest ih => rw [List.foldl_cons, ih, Nat.max_le, List.forall_mem_cons, and_assoc]

namespace Resources

variable {resources after : Resources} {picture : Picture} {id : String} {bound n : Nat}

theorem toList_idOf (n : Nat) : (idOf n).toList = 'r' :: 'I' :: 'd' :: Nat.toDigits 10 n := by
  simp [idOf, toString, Nat.repr]

/-- The number of an identifier is read back if it fits a word. -/
theorem number?_idOf (h : n < Decimal.endOfWords) : number? (idOf n) = some n := by
  simp [number?, toList_idOf, Decimal.natural?_toDigits, h]

theorem idOf_injective {m n : Nat} (h : idOf m = idOf n) : m = n := by
  have hlists := congrArg String.toList h
  rw [toList_idOf, toList_idOf] at hlists
  exact Decimal.toDigits_injective (by simpa using hlists)

theorem highest_le_iff : resources.highest ≤ bound ↔
    ∀ id ∈ resources.map Prod.fst, ∀ n, number? id = some n → n ≤ bound := by
  simp only [highest, foldl_max_le_iff, Nat.zero_le, true_and, List.mem_filterMap, List.mem_map]
  constructor
  · rintro h id ⟨entry, hentry, rfl⟩ n hn
    exact h n ⟨entry, hentry, hn⟩
  · rintro h n ⟨entry, hentry, hn⟩
    exact h entry.1 ⟨entry, hentry, rfl⟩ n hn

theorem le_highest (hid : id ∈ resources.map Prod.fst) (hn : number? id = some n) :
    n ≤ resources.highest :=
  highest_le_iff.1 (Nat.le_refl _) id hid n hn

theorem nextId?_eq_some_iff : resources.nextId? = some id ↔
    resources.highest + 1 < Decimal.endOfWords ∧ idOf (resources.highest + 1) = id := by
  rw [nextId?, Option.ite_none_right_eq_some, Option.some_inj]

/-- What it takes to add an image, and what is there afterwards. -/
theorem addImage?_eq_some_iff : resources.addImage? picture = some (id, after) ↔
    resources.highest + 1 < Decimal.endOfWords ∧ idOf (resources.highest + 1) = id ∧
      Keyed.insert id (.image picture) resources = after := by
  rw [addImage?, Option.map_eq_some_iff]
  constructor
  · rintro ⟨id', hid, heq⟩
    obtain ⟨rfl, rfl⟩ := Prod.mk.inj heq
    obtain ⟨hroom, rfl⟩ := nextId?_eq_some_iff.1 hid
    exact ⟨hroom, rfl, rfl⟩
  · rintro ⟨hroom, rfl, rfl⟩
    exact ⟨_, nextId?_eq_some_iff.2 ⟨hroom, rfl⟩, rfl⟩

/-- The identifier of a new image is not in use, whatever the identifiers in use look like. -/
theorem nextId?_notMem (h : resources.nextId? = some id) : id ∉ resources.map Prod.fst := by
  obtain ⟨hroom, rfl⟩ := nextId?_eq_some_iff.1 h
  intro hmem
  have hle := le_highest hmem (number?_idOf hroom)
  omega

theorem addImage?_notMem (h : resources.addImage? picture = some (id, after)) :
    id ∉ resources.map Prod.fst := by
  obtain ⟨hroom, hid, -⟩ := addImage?_eq_some_iff.1 h
  exact nextId?_notMem (nextId?_eq_some_iff.2 ⟨hroom, hid⟩)

theorem highest_addImage? (h : resources.addImage? picture = some (id, after)) :
    after.highest = resources.highest + 1 := by
  obtain ⟨hroom, rfl, rfl⟩ := addImage?_eq_some_iff.1 h
  apply Nat.le_antisymm
  · rw [highest_le_iff]
    intro id hid n hn
    rcases Keyed.mem_keys_insert.1 hid with rfl | hid
    · rw [number?_idOf hroom] at hn
      exact Nat.le_of_eq (Option.some.inj hn).symm
    · exact Nat.le_succ_of_le (le_highest hid hn)
  · exact le_highest (Keyed.mem_keys_insert.2 (.inl rfl)) (number?_idOf hroom)

end Resources

/-- An image of one pixel. -/
def onePixel : Picture where
  bytes := [0x47, 0x49, 0x46, 0x38, 0x39, 0x61, 1, 0, 1, 0, 0, 0, 0, 0x2C, 0]
  format := .gif
  recognised := by decide

namespace Numbering

variable {numbering after : Numbering} {definition : Definition} {style : String} {bound : Nat}

theorem highest_le_iff : numbering.highest ≤ bound ↔
    numbering.reserved ≤ bound ∧ ∀ definition ∈ numbering.definitions, definition.number ≤ bound := by
  simp [highest, foldl_max_le_iff]

theorem reserved_le_highest (numbering : Numbering) : numbering.reserved ≤ numbering.highest :=
  (highest_le_iff.1 (Nat.le_refl _)).1

theorem le_reserved {numbers : List Nat} {n : Nat} (h : n ∈ numbers) :
    n ≤ (ofReserved numbers).reserved :=
  (foldl_max_le_iff.1 (Nat.le_refl _)).2 n h

/-- What it takes to make a definition, what it is, and what is there afterwards. -/
theorem register?_eq_some_iff : numbering.register? style = some (definition, after) ↔
    numbering.highest + 1 < endOfNumbers ∧ ⟨numbering.highest + 1, style⟩ = definition ∧
      { numbering with definitions := numbering.definitions ++ [definition] } = after := by
  rw [register?, Option.ite_none_right_eq_some, Option.some_inj, Prod.mk.injEq]
  constructor
  · rintro ⟨hroom, rfl, rfl⟩
    exact ⟨hroom, rfl, rfl⟩
  · rintro ⟨hroom, rfl, rfl⟩
    exact ⟨hroom, rfl, rfl⟩

theorem highest_register? (h : numbering.register? style = some (definition, after)) :
    after.highest = numbering.highest + 1 := by
  obtain ⟨-, rfl, rfl⟩ := register?_eq_some_iff.1 h
  simp only [highest, List.map_append, List.map_cons, List.map_nil, List.foldl_append,
    List.foldl_cons, List.foldl_nil]
  omega

end Numbering

end MailMerge
