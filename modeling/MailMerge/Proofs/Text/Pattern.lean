import MailMerge.Text.Pattern

/-!
# Forms of texts

What a pattern finds is a way to cut the text into the words and runs of the pattern
(`Form.of_matchParts?`), and something is found whenever there is such a way
(`Form.isSome_matchParts?`). Of all runs that a pattern can begin with, the longest is found.
-/

namespace MailMerge.Text

variable {α : Type} {member : Char → Bool} {next : List Char → Option α} {parts : List Part}
variable {cs run longer rest : List Char} {found : List (List Char)} {a : α} {c : Char}

/-! ## Runs -/

theorem run?_eq_none (h : ∀ s, s.length < cs.length → s <:+ cs → next s = none) :
    run? member next cs = none := by
  induction cs with
  | nil => rfl
  | cons c cs ih =>
    have hself : next cs = none := h cs (by simp) (List.suffix_cons c cs)
    have hlater : run? member next cs = none := by
      refine ih fun s hlength hs => h s ?_ (hs.trans (List.suffix_cons c cs))
      rw [List.length_cons]
      omega
    rw [run?, hlater, hself]
    split <;> rfl

/-- A run goes up to where it is stopped, if what comes next is not found before. -/
theorem run?_append (hne : run ≠ []) (hrun : ∀ c ∈ run, member c = true)
    (hrest : run? member next rest = none)
    (hinside : ∀ c s, c :: s <:+ run → next (c :: s ++ rest) = none) :
    run? member next (run ++ rest) = (next rest).map (run, ·) := by
  induction run with
  | nil => exact absurd rfl hne
  | cons c run ih =>
    rw [List.cons_append, run?, if_pos (hrun c List.mem_cons_self)]
    cases run with
    | nil => cases hnext : next rest <;> simp [hrest, hnext, extendRun]
    | cons c' run =>
      rw [hinside c' run (List.suffix_cons c _), Option.map_none, Option.or_none,
        ih (by simp) (fun c hc => hrun c (List.mem_cons_of_mem _ hc))
          fun c s hs => hinside c s (hs.trans (List.suffix_cons _ _))]
      cases next rest <;> rfl

theorem run?_of_stop (h : ∀ c ∈ cs.head?, member c = false) : run? member next cs = none := by
  cases cs with
  | nil => rfl
  | cons c cs => simp [run?, h c rfl]

/-- A single character before one that stops the run. -/
theorem run?_cons_of_stop (hc : member c = true) (hstop : ∀ c ∈ cs.head?, member c = false) :
    run? member next (c :: cs) = (next cs).map ([c], ·) := by
  rw [run?, if_pos hc, run?_of_stop hstop, Option.none_or, Option.map_map]
  rfl

/-- A run that is found stands in front of what comes next. -/
theorem run?_eq_some (h : run? member next cs = some (run, a)) :
    run ≠ [] ∧ (∀ c ∈ run, member c = true) ∧ ∃ rest, cs = run ++ rest ∧ next rest = some a := by
  induction cs generalizing run with
  | nil => cases h
  | cons c cs ih =>
    rw [run?] at h
    split at h
    next hc =>
      obtain ⟨⟨more, b⟩, hor, heq⟩ := Option.map_eq_some_iff.1 h
      obtain ⟨rfl, rfl⟩ := Prod.mk.inj heq
      refine ⟨List.cons_ne_nil _ _, ?_⟩
      rcases Option.or_eq_some_iff.1 hor with hlater | ⟨-, hhere⟩
      · obtain ⟨-, hmore, rest, rfl, hrest⟩ := ih hlater
        exact ⟨List.forall_mem_cons.2 ⟨hc, hmore⟩, rest, rfl, hrest⟩
      · obtain ⟨b, hb, heq⟩ := Option.map_eq_some_iff.1 hhere
        obtain ⟨rfl, rfl⟩ := Prod.mk.inj heq
        exact ⟨by simpa using hc, cs, rfl, hb⟩
    next => cases h

/-- A run is found wherever there is one, and none is longer than the one that is found. -/
theorem exists_run?_of_append (hne : longer ≠ []) (hlonger : ∀ c ∈ longer, member c = true)
    (hrest : (next rest).isSome) :
    ∃ run a, run? member next (longer ++ rest) = some (run, a) ∧ longer.length ≤ run.length := by
  induction longer with
  | nil => exact absurd rfl hne
  | cons c longer ih =>
    have hmore : ∃ more b, (run? member next (longer ++ rest)).or
        ((next (longer ++ rest)).map ([], ·)) = some (more, b) ∧ longer.length ≤ more.length := by
      by_cases hnil : longer = []
      · subst hnil
        obtain ⟨b, hb⟩ := Option.isSome_iff_exists.1 hrest
        cases hlater : run? member next rest with
        | none => exact ⟨[], b, by simp [hlater, hb], Nat.zero_le _⟩
        | some entry => exact ⟨entry.1, entry.2, by simp [hlater], Nat.zero_le _⟩
      · obtain ⟨more, b, hlater, hle⟩ := ih hnil fun c hc => hlonger c (List.mem_cons_of_mem _ hc)
        exact ⟨more, b, by rw [hlater, Option.some_or], hle⟩
    obtain ⟨more, b, hor, hle⟩ := hmore
    refine ⟨c :: more, b, ?_, Nat.succ_le_succ hle⟩
    rw [List.cons_append, run?, if_pos (hlonger c List.mem_cons_self), hor]
    rfl

/-! ## Forms -/

/-- A text can be cut into the parts of a pattern; the kept runs are the given ones. -/
inductive Form : List Part → List Char → List (List Char) → Prop where
  | nil : Form [] [] []
  | word {parts : List Part} {cs : List Char} {found : List (List Char)} (w : List Char)
    (h : Form parts cs found) : Form (.word w :: parts) (w ++ cs) found
  | run {parts : List Part} {cs : List Char} {found : List (List Char)} {kept optional : Bool}
    {member : Char → Bool} {run : List Char} (hrun : ∀ c ∈ run, member c = true)
    (hne : optional = false → run ≠ []) (h : Form parts cs found) :
    Form (.run kept optional member :: parts) (run ++ cs) (keepRun kept (run, found))

theorem Form.of_matchParts? (h : matchParts? parts cs = some found) : Form parts cs found := by
  induction parts generalizing cs found with
  | nil =>
    rw [matchParts?] at h
    split at h
    next hempty =>
      obtain rfl := List.isEmpty_iff.1 hempty
      cases h
      exact .nil
    next => cases h
  | cons part parts ih =>
    cases part with
    | word w =>
      rw [matchParts?] at h
      split at h
      next hbegins =>
        obtain ⟨rest, rfl⟩ := List.isPrefixOf_iff_prefix.1 hbegins
        rw [List.drop_left] at h
        exact .word w (ih h)
      next => cases h
    | run kept optional member =>
      rw [matchParts?] at h
      obtain ⟨⟨run, found⟩, hfound, rfl⟩ := Option.map_eq_some_iff.1 h
      -- A run that may be empty is tried as a run that is not, and then left out.
      have hlong : run? member (matchParts? parts) cs = some (run, found) →
          Form (.run kept optional member :: parts) cs (keepRun kept (run, found)) := by
        intro hrun
        obtain ⟨hne, hmember, rest, rfl, hrest⟩ := run?_eq_some hrun
        exact .run hmember (fun _ => hne) (ih hrest)
      cases optional with
      | false => exact hlong hfound
      | true =>
        rcases Option.or_eq_some_iff.1 hfound with hrun | ⟨-, hnone⟩
        · exact hlong hrun
        · obtain ⟨more, hmore, heq⟩ := Option.map_eq_some_iff.1 hnone
          obtain ⟨rfl, rfl⟩ := Prod.mk.inj heq
          have hempty : Form (.run kept true member :: parts) ([] ++ cs) (keepRun kept ([], more)) :=
            .run (by simp) (by simp) (ih hmore)
          exact hempty

theorem Form.isSome_matchParts? (h : Form parts cs found) : (matchParts? parts cs).isSome := by
  induction h with
  | nil => rfl
  | word w _ ih => rwa [matchParts?, if_pos (by simp), List.drop_left]
  | @run parts cs found kept optional member run hrun hne h ih =>
    rw [matchParts?, Option.isSome_map]
    by_cases hnil : run = []
    · subst hnil
      cases optional with
      | false => exact absurd rfl (hne rfl)
      | true =>
        rw [if_pos rfl, Option.isSome_or, Option.isSome_map, List.nil_append, ih, Bool.or_true]
    · obtain ⟨longest, a, hfound, -⟩ := exists_run?_of_append hnil hrun ih
      cases optional <;> simp [hfound]

/-- What a part takes up is answered. -/
def Part.isKept : Part → Bool
  | .word _ => false
  | .run kept _ _ => kept

theorem Form.length_found (h : Form parts cs found) : found.length = parts.countP Part.isKept := by
  induction h with
  | nil => rfl
  | word w _ ih => simpa [Part.isKept] using ih
  | @run _ _ _ kept _ _ _ _ _ _ ih =>
    cases kept <;> simp [keepRun, Part.isKept, List.countP_cons, ih]

/-- A character that a part can take up. -/
def Part.Admits (c : Char) : Part → Prop
  | .word w => c ∈ w
  | .run _ _ member => member c = true

/-- A text has no characters but those that some part of its form takes up. -/
theorem Form.admits (h : Form parts cs found) (hc : c ∈ cs) :
    ∃ part ∈ parts, part.Admits c := by
  induction h with
  | nil => cases hc
  | word w _ ih =>
    rcases List.mem_append.1 hc with hw | hrest
    · exact ⟨_, List.mem_cons_self, hw⟩
    · obtain ⟨part, hpart, hadmits⟩ := ih hrest
      exact ⟨part, List.mem_cons_of_mem _ hpart, hadmits⟩
  | run hrun _ _ ih =>
    rcases List.mem_append.1 hc with hin | hrest
    · exact ⟨_, List.mem_cons_self, hrun c hin⟩
    · obtain ⟨part, hpart, hadmits⟩ := ih hrest
      exact ⟨part, List.mem_cons_of_mem _ hpart, hadmits⟩

/-- A pattern finds nothing in a text with a character that none of its parts takes up. -/
theorem matchParts?_eq_none (hc : c ∈ cs) (h : ∀ part ∈ parts, ¬part.Admits c) :
    matchParts? parts cs = none := by
  cases hfound : matchParts? parts cs with
  | none => rfl
  | some found =>
    obtain ⟨part, hpart, hadmits⟩ := (Form.of_matchParts? hfound).admits hc
    exact absurd hadmits (h part hpart)

/-! ## Words -/

theorem matchParts?_keep (parts : List Part) (cs : List Char) :
    matchParts? (.keep member :: parts) cs =
      (run? member (matchParts? parts) cs).map (keepRun true) := rfl

/-- Of all runs with which a text can begin, the longest one is kept. -/
theorem matchParts?_keep_eq_some_iff : matchParts? (.keep member :: parts) cs = some found ↔
    ∃ run rest more, cs = run ++ rest ∧ run ≠ [] ∧ (∀ c ∈ run, member c = true) ∧
      matchParts? parts rest = some more ∧ found = run :: more ∧
      ∀ longer later, cs = longer ++ later → (∀ c ∈ longer, member c = true) →
        (matchParts? parts later).isSome → longer.length ≤ run.length := by
  rw [matchParts?_keep, Option.map_eq_some_iff]
  constructor
  · rintro ⟨⟨run, more⟩, hrun, rfl⟩
    obtain ⟨hne, hmember, rest, rfl, hrest⟩ := run?_eq_some hrun
    refine ⟨run, rest, more, rfl, hne, hmember, hrest, rfl, fun longer later heq hlonger hlater => ?_⟩
    by_cases hnil : longer = []
    · simp [hnil]
    · obtain ⟨run', a, hrun', hle⟩ := exists_run?_of_append hnil hlonger hlater
      rw [← heq, hrun] at hrun'
      cases hrun'
      exact hle
  · rintro ⟨run, rest, more, rfl, hne, hmember, hrest, rfl, hlongest⟩
    obtain ⟨run', a, hrun, hle⟩ :=
      exists_run?_of_append hne hmember (Option.isSome_iff_exists.2 ⟨more, hrest⟩)
    obtain ⟨-, hmember', rest', heq, hrest'⟩ := run?_eq_some hrun
    have hge := hlongest run' rest' heq hmember' (Option.isSome_iff_exists.2 ⟨a, hrest'⟩)
    -- Both runs are as long as the other one, and so they are the same.
    obtain ⟨rfl, rfl⟩ := List.append_inj heq (Nat.le_antisymm hle hge)
    rw [hrest] at hrest'
    cases hrest'
    exact ⟨_, hrun, rfl⟩

theorem matchParts?_exactly_eq_some_iff {w : String} :
    matchParts? [.exactly w] cs = some found ↔ cs = w.toList ∧ found = [] := by
  constructor
  · intro h
    cases Form.of_matchParts? h with
    | word _ hform =>
      cases hform
      simp
  · rintro ⟨rfl, rfl⟩
    simp [matchParts?, Part.exactly]

/-- What stands in brackets after a word is kept. -/
theorem matchParts?_bracketed_eq_some_iff {w : String} {optional : Bool} :
    matchParts? [.exactly w, .run true optional member, .exactly ")"] cs = some found ↔
      ∃ run, cs = w.toList ++ (run ++ [')']) ∧ (optional = false → run ≠ []) ∧
        (∀ c ∈ run, member c = true) ∧ found = [run] := by
  have hcut : ∀ {found : List (List Char)},
      Form [.exactly w, .run true optional member, .exactly ")"] cs found →
        ∃ run, cs = w.toList ++ (run ++ [')']) ∧ (optional = false → run ≠ []) ∧
          (∀ c ∈ run, member c = true) ∧ found = [run] := fun hform => by
    cases hform with
    | word _ hform =>
      cases hform with
      | run hrun hne hform =>
        cases hform with
        | word _ hform =>
          cases hform
          exact ⟨_, by simp, hne, hrun, rfl⟩
  constructor
  · exact fun h => hcut (Form.of_matchParts? h)
  · rintro ⟨run, rfl, hne, hrun, rfl⟩
    have hform : Form [.exactly w, .run true optional member, .exactly ")"]
        (w.toList ++ (run ++ [')'])) [run] :=
      .word _ (.run hrun hne (.word [')'] .nil))
    obtain ⟨found, hfound⟩ := Option.isSome_iff_exists.1 hform.isSome_matchParts?
    obtain ⟨run', heq, -, -, rfl⟩ := hcut (Form.of_matchParts? hfound)
    rw [List.append_cancel_left_eq, List.append_cancel_right_eq] at heq
    rw [hfound, heq]

/-- A run that may be empty is as long as it can be. -/
theorem matchParts?_keepAny (h : matchParts? (.keep member :: parts) cs = some found) :
    matchParts? (.keepAny member :: parts) cs = some found := by
  rw [matchParts?_keep] at h
  obtain ⟨entry, hrun, hfound⟩ := Option.map_eq_some_iff.1 h
  simp [Part.keepAny, matchParts?, hrun, hfound]

/-- A word is not found in front of another character than its first one. -/
theorem matchParts?_word_ne {w : List Char} {c' : Char} (hc : c ≠ c') :
    matchParts? (.word (c :: w) :: parts) (c' :: cs) = none := by
  simp [matchParts?, List.isPrefixOf, hc]

theorem matchParts?_word_eq_none {w : List Char} (h : ¬w <+: cs) :
    matchParts? (.word w :: parts) cs = none := by
  rw [matchParts?, if_neg]
  simpa using h

end MailMerge.Text
