import MailMerge.Field
import MailMerge.Proofs.Xml.Bare
import MailMerge.Proofs.Xml.Site

/-!
# The two shapes of a text field

A field that displays one run is written as a simple field around that run, or as a row of runs: one
begins the field, some hold the pieces of its instruction, one separates these from the displayed
run, and one ends the field. Two rows can be the same but for the shapes of such fields (`Reshaped`).
-/

namespace MailMerge.Field

open Xml Xml.Forest

/-- The names of the elements that are looked for in a part. -/
def landmarks : List String :=
  ["w:fldSimple", "w:fldChar", "w:instrText", "w:t", "w:drawing", "wp:extent", "a:xfrm", "a:ext",
    "a:blip", "pic:cNvPr", "w:tc"]

/-- Nothing in a row is ever looked for. -/
def idle (f : Forest) : Bool := f.nodes.all fun entry => landmarks.all fun name => !entry.2.isNamed name

/-- A node is part of the markup of a field. -/
def isMarkup (node : Node) : Bool :=
  node.isNamed "w:fldSimple" || node.isNamed "w:fldChar" || node.isNamed "w:instrText"

/-- A run that holds a row, with nothing else in it than formatting. -/
inductive Run (item : Forest) : Forest → Prop where
  | mk {x : NodeId} {tag : Element} {before after : Forest} (name : tag.name = "w:r")
      (idle_before : idle before = true) (idle_after : idle after = true) :
    Run item (single x (.element tag) (before ++ (item ++ after)))

/-- A run that holds a field marker of the given type. -/
inductive MarkerRun (kind : String) : Forest → Prop where
  | mk {m : NodeId} {node : Node} {inner run : Forest} (marker : isMarker kind node = true)
      (idle_inner : idle inner = true) (holds : Run (single m node inner) run) : MarkerRun kind run

/-- Runs that hold the pieces of an instruction. -/
inductive InstructionRuns : String → Forest → Prop where
  | last {m : NodeId} {node : Node} {inner run : Forest} (name : node.isNamed "w:instrText" = true)
      (idle_inner : idle inner = true) (holds : Run (single m node inner) run) :
    InstructionRuns inner.text run
  | cons {m : NodeId} {node : Node} {inner run runs : Forest} {instruction : String}
      (name : node.isNamed "w:instrText" = true) (idle_inner : idle inner = true)
      (holds : Run (single m node inner) run) (later : InstructionRuns instruction runs) :
    InstructionRuns (inner.text ++ instruction) (run ++ runs)

/-- What stands before and after the displayed run of a complex field. -/
inductive Frame (instruction : String) : Forest → Forest → Prop where
  | mk {first pieces separator last : Forest} (begins : MarkerRun "begin" first)
      (instructs : InstructionRuns instruction pieces) (separates : MarkerRun "separate" separator)
      (ends : MarkerRun "end" last) : Frame instruction (first ++ (pieces ++ separator)) last

/-- A run with exactly one text and without markup of fields. -/
inductive Display : Forest → Prop where
  | mk {x : NodeId} {tag : Element} {inner : Forest} (name : tag.name = "w:r")
      (text : (inner.nodes.countP fun entry => entry.2.isNamed "w:t") = 1)
      (pure : ∀ entry ∈ inner.nodes, isMarkup entry.2 = false) :
    Display (single x (.element tag) inner)

/-- A complex field with the given frame says the same as a simple field at a node. -/
structure Fits (node : Node) (before after : Forest) : Prop where
  name : node.isNamed "w:fldSimple" = true
  frame : ∃ instruction, node.attribute? "w:instr" = some instruction ∧
    Frame instruction before after

/-- A row is a field in one of two shapes: it is simple, with the given node, or complex and says the
same. -/
inductive Spelled (node : Node) (display : Forest) : Forest → Prop where
  | simple {x : NodeId} (name : node.isNamed "w:fldSimple" = true) :
    Spelled node display (single x node display)
  | complex {before after : Forest} (fits : Fits node before after) :
    Spelled node display (before ++ (display ++ after))

/-- Two rows are the same, identities apart, but for the shapes of some of their fields. None of these
fields is inside another. The nodes outside of them have the given property. -/
inductive Reshaped (plain : Node → Prop) : Forest → Forest → Prop where
  | nil : Reshaped plain nil nil
  | node {x y : NodeId} {node : Node} {children children' rest rest' : Forest} (outside : plain node)
      (below : Reshaped plain children children') (later : Reshaped plain rest rest') :
    Reshaped plain (cons x node children rest) (cons y node children' rest')
  | field {node : Node} {display display' row row' rest rest' : Forest} (displays : Display display)
      (same : display'.bare = display.bare) (spelled : Spelled node display row)
      (spelled' : Spelled node display' row') (later : Reshaped plain rest rest') :
    Reshaped plain (row ++ rest) (row' ++ rest')

/-- A node neither is a simple field nor marks a complex one. -/
def Unmarked (node : Node) : Prop :=
  node.isNamed "w:fldSimple" = false ∧ node.isNamed "w:fldChar" = false

/-! ## What frames are made of -/

variable {item inner run f before after : Forest} {kind instruction name : String} {node : Node}
variable {entry : NodeId × Node}

theorem isNamed_of_idle (h : idle f = true) (hentry : entry ∈ f.nodes) (hname : name ∈ landmarks) :
    entry.2.isNamed name = false := by
  rw [idle, List.all_eq_true] at h
  simpa using List.all_eq_true.1 (h entry hentry) name hname

theorem name_eq_of_isNamed {other : String} (h : node.isNamed name = true)
    (h' : node.isNamed other = true) : name = other := by
  rw [Node.isNamed, beq_iff_eq] at h h'
  exact Option.some.inj (h.symm.trans h')

theorem isNamed_of_ne {other : String} (h : node.isNamed name = true) (hne : name ≠ other) :
    node.isNamed other = false :=
  Bool.eq_false_iff.2 fun h' => hne (name_eq_of_isNamed h h')

theorem isNamed_of_isMarker (h : isMarker kind node = true) : node.isNamed "w:fldChar" = true :=
  (Bool.and_eq_true_iff.1 h).1

/-- The names that occur in frames, besides those that are never looked for. -/
def frameNames : List String := ["w:r", "w:fldChar", "w:instrText"]

/-- A row has no nodes of names that are looked for, but for those of frames. -/
def Discreet (f : Forest) : Prop :=
  ∀ entry ∈ f.nodes, ∀ name ∈ landmarks, name ∉ frameNames → entry.2.isNamed name = false

/-- All nodes of the row itself are runs. -/
def AllRuns (f : Forest) : Prop := ∀ entry ∈ f.tops, entry.2.isNamed "w:r" = true

theorem discreet_append (hf : Discreet before) (hg : Discreet after) : Discreet (before ++ after) := by
  intro entry hentry
  rw [nodes_append, List.mem_append] at hentry
  exact hentry.elim (hf entry) (hg entry)

theorem discreet_of_idle (h : idle f = true) : Discreet f :=
  fun _ hentry _ hname _ => isNamed_of_idle h hentry hname

theorem discreet_single {m : NodeId} (h : node.isNamed name = true) (hname : name ∈ frameNames)
    (hinner : Discreet inner) : Discreet (single m node inner) := by
  intro entry hentry other hother hout
  rw [single, Forest.nodes, List.mem_cons, List.mem_append] at hentry
  rcases hentry with rfl | hentry | hentry
  · exact isNamed_of_ne h fun heq => hout (heq ▸ hname)
  · exact hinner entry hentry other hother hout
  · cases hentry

theorem allRuns_append (hf : AllRuns before) (hg : AllRuns after) : AllRuns (before ++ after) := by
  intro entry hentry
  rw [tops_append, List.mem_append] at hentry
  exact hentry.elim (hf entry) (hg entry)

theorem isNamed_run {tag : Element} (h : tag.name = "w:r") :
    (Node.element tag).isNamed "w:r" = true := by
  rw [← h]
  exact beq_self_eq_true _

theorem Run.ne_nil (h : Run item run) : run ≠ nil := by
  cases h
  exact fun heq => nomatch heq

theorem Run.allRuns (h : Run item run) : AllRuns run := by
  cases h with
  | mk name =>
    intro entry hentry
    cases List.mem_singleton.1 hentry
    exact isNamed_run name

theorem Run.discreet (h : Run item run) (hitem : Discreet item) : Discreet run := by
  cases h with
  | mk name hbefore hafter =>
    exact discreet_single (isNamed_run name) (by simp [frameNames])
      (discreet_append (discreet_of_idle hbefore)
        (discreet_append hitem (discreet_of_idle hafter)))

theorem MarkerRun.discreet (h : MarkerRun kind run) : Discreet run := by
  cases h with
  | mk marker hinner holds =>
    exact holds.discreet (discreet_single (isNamed_of_isMarker marker) (by simp [frameNames])
      (discreet_of_idle hinner))

theorem MarkerRun.allRuns (h : MarkerRun kind run) : AllRuns run := by
  cases h with
  | mk _ _ holds => exact holds.allRuns

theorem InstructionRuns.discreet (h : InstructionRuns instruction f) : Discreet f := by
  have hpiece : ∀ {m : NodeId} {node : Node} {inner run : Forest},
      node.isNamed "w:instrText" = true → idle inner = true → Run (single m node inner) run →
        Discreet run := fun hname hinner holds =>
    holds.discreet (discreet_single hname (by simp [frameNames]) (discreet_of_idle hinner))
  induction h with
  | last hname hinner holds => exact hpiece hname hinner holds
  | cons hname hinner holds _ ih => exact discreet_append (hpiece hname hinner holds) ih

theorem InstructionRuns.allRuns (h : InstructionRuns instruction f) : AllRuns f := by
  induction h with
  | last _ _ holds => exact holds.allRuns
  | cons _ _ holds _ ih => exact allRuns_append holds.allRuns ih

namespace Frame

theorem before_ne_nil (h : Frame instruction before after) : before ≠ nil := by
  cases h with
  | mk begins =>
    cases begins with
    | mk _ _ holds =>
      cases holds
      exact fun heq => nomatch heq

theorem after_ne_nil (h : Frame instruction before after) : after ≠ nil := by
  cases h with
  | mk _ _ _ ends =>
    cases ends with
    | mk _ _ holds => exact holds.ne_nil

theorem discreet (h : Frame instruction before after) : Discreet before ∧ Discreet after := by
  cases h with
  | mk begins instructs separates ends =>
    exact ⟨discreet_append begins.discreet (discreet_append instructs.discreet separates.discreet),
      ends.discreet⟩

theorem allRuns (h : Frame instruction before after) : AllRuns before ∧ AllRuns after := by
  cases h with
  | mk begins instructs separates ends =>
    exact ⟨allRuns_append begins.allRuns (allRuns_append instructs.allRuns separates.allRuns),
      ends.allRuns⟩

end Frame

namespace Fits

theorem before_ne_nil (h : Fits node before after) : before ≠ nil := by
  obtain ⟨_, _, hframe⟩ := h.frame
  exact hframe.before_ne_nil

theorem after_ne_nil (h : Fits node before after) : after ≠ nil := by
  obtain ⟨_, _, hframe⟩ := h.frame
  exact hframe.after_ne_nil

theorem discreet (h : Fits node before after) : Discreet before ∧ Discreet after := by
  obtain ⟨_, _, hframe⟩ := h.frame
  exact hframe.discreet

theorem allRuns (h : Fits node before after) : AllRuns before ∧ AllRuns after := by
  obtain ⟨_, _, hframe⟩ := h.frame
  exact hframe.allRuns

end Fits

end MailMerge.Field
