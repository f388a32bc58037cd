import MailMerge.Part
import MailMerge.Proofs.Cache.Entry
import MailMerge.Proofs.Cache.Folder

/-!
# The cache cannot be seen

Parts are read, changed and rendered at a desk, with a cache or without one. Main statement: a desk
with a cache that was empty at first shows what a desk without a cache shows
(`seen_eq_without_cache`). A cache only ever holds entries that describe the fields of the text
under whose key they stand, and a part only knows its text while its document is what that text
says.
-/

namespace MailMerge

open Xml

/-! ## Desks -/

/-- Parts at work, with the registries that they share, and the cache if there is one. -/
structure Desk where
  parts : List Part := []
  resources : Resources := []
  numbering : Numbering := {}
  cache? : Option FieldCache := none

/-- What can be done at a desk. -/
inductive Act where
  /-- The fields of a document that is read from a text are asked for. -/
  | discover (source : String)
  /-- A part is read and added. -/
  | read (kind : PartKind) (source : String)
  /-- The fields of a part are asked for. -/
  | ask (part : Nat)
  /-- The document of a part is changed. -/
  | edit (part : Nat) (change : Document → Document)
  /-- A part is rendered. -/
  | render (part : Nat) (host : Host) (context : Context) (startPage? : Option Nat)

/-- What is seen of an act. -/
inductive Seen where
  /-- There is nothing to see. -/
  | nothing
  /-- Fields. -/
  | found (fields : List Field)
  /-- How a rendering ends, with all that it leaves behind. -/
  | rendered (fault? : Option MergeError) (document : Document) (resources : Resources)
      (numbering : Numbering)

namespace Act

/-- The text that an act reads. -/
def source? : Act → Option String
  | discover source | read _ source => some source
  | _ => none

/-- Asks for the fields of a document that was read from a text. -/
def lookUp (source : String) (d : Document) (desk : Desk) : Seen × Desk :=
  match desk.cache? with
  | none => (.found (Field.discover d d.root), desk)
  | some cache =>
    let (fields, cache) := cache.discover source d
    (.found fields, { desk with cache? := some cache })

/-- Renders the part that has a position. -/
def renderPart (host : Host) (context : Context) (startPage? : Option Nat) (position : Nat)
    (part : Part) (desk : Desk) : Seen × Desk :=
  let finish (fault? : Option MergeError) (s : Session) : Seen × Desk :=
    (.rendered fault? s.part.document s.resources s.numbering,
      ⟨desk.parts.set position s.part, s.resources, s.numbering, s.cache?⟩)
  match Session.render host context startPage?
      ⟨part, desk.resources, desk.numbering, desk.cache?⟩ with
  | .ok () s => finish none s
  | .error e s => finish (some e) s

/-- Does something at a desk. -/
def run (desk : Desk) : Act → Seen × Desk
  | discover source =>
    match Document.parse source with
    | .error _ => (.nothing, desk)
    | .ok d => lookUp source d desk
  | read kind source =>
    match Part.parse kind source with
    | .error _ => (.nothing, desk)
    | .ok part => (.nothing, { desk with parts := desk.parts ++ [part] })
  | ask position =>
    match desk.parts[position]? with
    | none => (.nothing, desk)
    | some part =>
      let (fields, cache?) := part.fields desk.cache?
      (.found fields, { desk with cache? })
  | edit position change =>
    let changed (part : Part) : Part := { part.touched with document := change part.document }
    (.nothing, { desk with parts := desk.parts.modify position changed })
  | render position host context startPage? =>
    match desk.parts[position]? with
    | none => (.nothing, desk)
    | some part => renderPart host context startPage? position part desk

/-- Does one thing after the other. -/
def runAll (desk : Desk) : List Act → List Seen × Desk
  | [] => ([], desk)
  | act :: acts =>
    let (seen, desk) := act.run desk
    let (later, desk) := runAll desk acts
    (seen :: later, desk)

/-- The texts that acts read. -/
def sources (acts : List Act) : List String := acts.filterMap source?

end Act

/-! ## What holds at every desk -/

/-- A text is the entry for the fields of one of the given texts, under the key of that text. -/
def IsEntry (sources : List String) (key text : String) : Prop :=
  ∃ source ∈ sources, key = FieldCache.fingerprint source ∧ ∃ d rs,
    Document.parse source = .ok d ∧
      (Field.discover d d.root).mapM (FieldRecord.ofField? d) = some rs ∧ text = entryText rs

/-- No two of the given texts have one key. -/
def Separate (sources : List String) : Prop :=
  ∀ s ∈ sources, ∀ t ∈ sources, FieldCache.fingerprint s = FieldCache.fingerprint t → s = t

/-- A part that still knows its text holds the document of that text. -/
def Part.Faithful (sources : List String) (part : Part) : Prop :=
  ∀ source, part.source? = some source → source ∈ sources ∧ Document.parse source = .ok part.document

namespace Desk

/-- All parts are faithful, and all entries of the cache are those of texts that were read. -/
structure Sound (sources : List String) (desk : Desk) : Prop where
  parts : ∀ part ∈ desk.parts, part.Faithful sources
  cache : ∀ cache, desk.cache? = some cache → cache.Entries (IsEntry sources)

/-- The desk without its cache. -/
def bare (desk : Desk) : Desk := { desk with cache? := none }

end Desk

variable {sources : List String} {source : String} {d : Document} {cache : FieldCache}
variable {desk : Desk} {part : Part}

/-- A cache answers the fields of a document that was read, and stays as it should be. -/
theorem FieldCache.discover_of_entries (hseparate : Separate sources) (hsource : source ∈ sources)
    (hparse : Document.parse source = .ok d) (hc : cache.Entries (IsEntry sources)) :
    (cache.discover source d).1 = Field.discover d d.root ∧
      (cache.discover source d).2.Entries (IsEntry sources) := by
  refine discover_eq hc ?_ ?_
  · intro rs hrs
    exact ⟨source, hsource, rfl, d, rs, hparse, hrs, rfl⟩
  · rintro text found ⟨other, hother, hkey, e, rs, hother', hrs, rfl⟩ hfound
    obtain rfl := hseparate source hsource other hother hkey
    rw [hparse] at hother'
    cases hother'
    exact entryFields?_entryText hrs hfound

/-- The fields of a part are those of its document, with a cache or without one. -/
theorem Part.fields_of_faithful (hseparate : Separate sources) (hpart : part.Faithful sources)
    {cache? : Option FieldCache}
    (hc : ∀ cache, cache? = some cache → cache.Entries (IsEntry sources)) :
    (part.fields cache?).1 = Field.discover part.document part.document.root ∧
      ∀ cache, (part.fields cache?).2 = some cache → cache.Entries (IsEntry sources) := by
  unfold Part.fields
  split
  next cache source hsource =>
    obtain ⟨hmem, hparse⟩ := hpart source hsource
    obtain ⟨hfound, hentries⟩ :=
      FieldCache.discover_of_entries hseparate hmem hparse (hc cache rfl)
    refine ⟨hfound, fun left hleft => ?_⟩
    cases hleft
    exact hentries
  next => exact ⟨rfl, hc⟩

/-! ## With a cache and without one -/

theorem Part.fields_none (part : Part) :
    part.fields none = (Field.discover part.document part.document.root, none) := rfl

/-- A session with a cache and one without render a part alike. -/
theorem Session.render_without_cache (host : Host) (context : Context) (startPage? : Option Nat)
    (s : Session)
    (hfields : (s.part.fields s.cache?).1 = Field.discover s.part.document s.part.document.root) :
    Session.render host context startPage? { s with cache? := none } =
      match Session.render host context startPage? s with
      | .ok () t => .ok () { t with cache? := none }
      | .error e t => .error e { t with cache? := none } := by
  unfold Session.render
  simp only [Part.fields_none]
  rw [← hfields]
  generalize s.part.fields s.cache? = found
  obtain ⟨fields, cache?⟩ := found
  simp only
  split <;> rfl

/-- After rendering a part does not know a text any more, and the cache is the one that was left
when the fields were asked for. -/
theorem Session.render_leaves (host : Host) (context : Context) (startPage? : Option Nat)
    (s : Session) :
    ∃ w, Session.render host context startPage? s = .ok () (s.after (s.part.fields s.cache?).2 w) ∨
      ∃ e, Session.render host context startPage? s =
        .error e (s.after (s.part.fields s.cache?).2 w) := by
  unfold Session.render
  generalize s.part.fields s.cache? = found
  obtain ⟨fields, cache?⟩ := found
  simp only
  split
  next w _ => exact ⟨w, .inl rfl⟩
  next e w _ => exact ⟨w, .inr ⟨e, rfl⟩⟩

namespace Act

/-- What an act does at a desk without its cache is what it does at the desk, but for the cache. -/
structure Alike (sources : List String) (act : Act) (desk : Desk) : Prop where
  seen : (act.run desk).1 = (act.run desk.bare).1
  left : (act.run desk).2.bare = (act.run desk.bare).2
  sound : (act.run desk).2.Sound sources

theorem alike_discover (hseparate : Separate sources) (hdesk : desk.Sound sources)
    (hsource : source ∈ sources) : (discover source).Alike sources desk := by
  cases hparse : Document.parse source with
  | error e => constructor <;> simp only [run, hparse, hdesk, Desk.bare]
  | ok d =>
    cases hc : desk.cache? with
    | none =>
      have hbare : desk.bare = desk := by rw [Desk.bare, ← hc]
      have hrun : run desk (discover source) = (.found (Field.discover d d.root), desk) := by
        simp only [run, hparse, lookUp, hc]
      constructor <;> simp only [hbare, hrun, hdesk]
    | some cache =>
      obtain ⟨hfound, hentries⟩ :=
        FieldCache.discover_of_entries hseparate hsource hparse (hdesk.cache cache hc)
      constructor
      · simp only [run, hparse, lookUp, Desk.bare, hc, hfound]
      · simp only [run, hparse, lookUp, Desk.bare, hc]
      · simp only [run, hparse, lookUp, hc]
        refine ⟨hdesk.parts, fun left hleft => ?_⟩
        cases hleft
        exact hentries

theorem alike_read {kind : PartKind} (hdesk : desk.Sound sources) (hsource : source ∈ sources) :
    (read kind source).Alike sources desk := by
  cases hparse : Document.parse source with
  | error e => constructor <;> simp only [run, Part.parse, hparse, hdesk, Desk.bare]
  | ok d =>
    constructor
    · simp only [run, Part.parse, hparse]
    · simp only [run, Part.parse, hparse, Desk.bare]
    · simp only [run, Part.parse, hparse]
      refine ⟨fun part hpart => ?_, hdesk.cache⟩
      rcases List.mem_append.1 hpart with hpart | hpart
      · exact hdesk.parts part hpart
      · rw [List.mem_singleton.1 hpart]
        intro text htext
        cases htext
        exact ⟨hsource, hparse⟩

theorem alike_ask {position : Nat} (hseparate : Separate sources) (hdesk : desk.Sound sources) :
    (ask position).Alike sources desk := by
  cases hpart : desk.parts[position]? with
  | none => constructor <;> simp only [run, hpart, hdesk, Desk.bare]
  | some part =>
    obtain ⟨hfound, hentries⟩ := Part.fields_of_faithful hseparate
      (hdesk.parts part (List.mem_of_getElem? hpart)) hdesk.cache
    constructor
    · simp only [run, hpart, Desk.bare, Part.fields_none, hfound]
    · simp only [run, hpart, Desk.bare, Part.fields_none]
    · simp only [run, hpart]
      exact ⟨hdesk.parts, hentries⟩

theorem alike_edit {position : Nat} {change : Document → Document} (hdesk : desk.Sound sources) :
    (edit position change).Alike sources desk := by
  refine ⟨rfl, rfl, fun part hpart => ?_, hdesk.cache⟩
  simp only [run] at hpart
  obtain ⟨n, hn, rfl⟩ := List.mem_iff_getElem.1 hpart
  rw [List.getElem_modify]
  split
  · intro source hsource
    cases hsource
  · exact hdesk.parts _ (List.getElem_mem _)

theorem alike_render {position : Nat} {host : Host} {context : Context} {startPage? : Option Nat}
    (hseparate : Separate sources) (hdesk : desk.Sound sources) :
    (render position host context startPage?).Alike sources desk := by
  cases hpart : desk.parts[position]? with
  | none => constructor <;> simp only [run, hpart, hdesk, Desk.bare]
  | some part =>
    let s : Session := ⟨part, desk.resources, desk.numbering, desk.cache?⟩
    obtain ⟨hfound, hentries⟩ := Part.fields_of_faithful hseparate
      (hdesk.parts part (List.mem_of_getElem? hpart)) hdesk.cache
    have hbare := Session.render_without_cache host context startPage? s hfound
    have hparts : ∀ w : Workspace, ∀ p ∈ desk.parts.set position (s.after desk.cache? w).part,
        p.Faithful sources := by
      intro w p hp
      rcases List.mem_or_eq_of_mem_set hp with hp | rfl
      · exact hdesk.parts p hp
      · intro source hsource
        cases hsource
    obtain ⟨w, h | ⟨e, h⟩⟩ := Session.render_leaves host context startPage? s <;>
    · rw [h] at hbare
      simp only [s] at h hbare
      constructor
      · simp only [run, hpart, Desk.bare, renderPart, h, hbare]
      · simp only [run, hpart, Desk.bare, renderPart, h, hbare]
      · simp only [run, hpart, renderPart, h]
        exact ⟨hparts w, hentries⟩

/-- Each act shows the same with the cache and without it, and keeps parts and entries sound. -/
theorem alike (hseparate : Separate sources) (hdesk : desk.Sound sources) (act : Act)
    (hsource : ∀ source, act.source? = some source → source ∈ sources) :
    act.Alike sources desk := by
  cases act with
  | discover source => exact alike_discover hseparate hdesk (hsource source rfl)
  | read kind source => exact alike_read hdesk (hsource source rfl)
  | ask position => exact alike_ask hseparate hdesk
  | edit position change => exact alike_edit hdesk
  | render position host context startPage? => exact alike_render hseparate hdesk

/-- Whole runs show the same with the cache and without it. -/
theorem runAll_alike (hseparate : Separate sources) (hdesk : desk.Sound sources) (acts : List Act)
    (hsources : ∀ source ∈ Act.sources acts, source ∈ sources) :
    (runAll desk acts).1 = (runAll desk.bare acts).1 ∧ (runAll desk acts).2.Sound sources := by
  induction acts generalizing desk with
  | nil => exact ⟨rfl, hdesk⟩
  | cons act acts ih =>
    have hhead : ∀ source, act.source? = some source → source ∈ sources :=
      fun source h => hsources source (List.mem_filterMap.2 ⟨act, List.mem_cons_self, h⟩)
    have htail : ∀ source ∈ Act.sources acts, source ∈ sources := by
      intro source h
      obtain ⟨later, hlater, h⟩ := List.mem_filterMap.1 h
      exact hsources source (List.mem_filterMap.2 ⟨later, List.mem_cons_of_mem _ hlater, h⟩)
    obtain ⟨hseen, hleft, hsound⟩ := alike hseparate hdesk act hhead
    obtain ⟨hlater, hend⟩ := ih hsound htail
    simp only [runAll]
    rw [hseen, hlater, hleft]
    exact ⟨rfl, hend⟩

end Act

/-- Nothing stands in the folder of a cache. -/
def FieldCache.Vacant (cache : FieldCache) : Prop :=
  ∀ name, cache.files.item? (cache.place ++ [name]) = none

theorem FieldCache.Vacant.entries (h : cache.Vacant) (right : String → String → Prop) :
    cache.Entries right := by
  intro key text hitem
  rw [h] at hitem
  cases hitem

/-- What is done at a desk with a cache that is empty at first shows what it shows at a desk without
one, provided that no two of the texts that are read have one key. At the end, and so at any time,
the cache answers for every part the fields of its document as it is then. -/
theorem seen_eq_without_cache (acts : List Act) (resources : Resources) (numbering : Numbering)
    (cache : FieldCache) (hvacant : cache.Vacant) (hseparate : Separate (Act.sources acts)) :
    let left := Act.runAll ⟨[], resources, numbering, some cache⟩ acts
    left.1 = (Act.runAll ⟨[], resources, numbering, none⟩ acts).1 ∧
      ∀ part ∈ left.2.parts,
        (part.fields left.2.cache?).1 = Field.discover part.document part.document.root := by
  have hdesk : Desk.Sound (Act.sources acts) ⟨[], resources, numbering, some cache⟩ := by
    refine ⟨fun part hpart => absurd hpart List.not_mem_nil, fun c hc => ?_⟩
    cases hc
    exact hvacant.entries _
  obtain ⟨hseen, hsound⟩ := Act.runAll_alike hseparate hdesk acts fun _ h => h
  refine ⟨hseen, fun part hpart => ?_⟩
  exact (Part.fields_of_faithful hseparate (hsound.parts part hpart) hsound.cache).1

theorem FieldCache.empty_vacant : empty.Vacant := by
  intro name
  have hplace : empty.place = ["tmp", "work", "cache"] := by decide +kernel
  rw [hplace]
  simp [empty, FileTree.item?, FileTree.empty, FileTree.devices, FileTree.outermost]

/-- A part that is read, asked for its fields twice, rendered and asked again. -/
def askAndRender : List Act :=
  [.read .headerFooter "<p><w:fldSimple w:instr=\"MERGEFIELD =x \\* MERGEFORMAT\"/></p>", .ask 0,
    .ask 0, .render 0 {} {} none, .ask 0]

theorem askAndRender_seen :
    (Act.runAll ⟨[], [], {}, some .empty⟩ askAndRender).1 =
      (Act.runAll ⟨[], [], {}, none⟩ askAndRender).1 :=
  (seen_eq_without_cache askAndRender [] {} .empty FieldCache.empty_vacant
    (by simp [Separate, Act.sources, askAndRender, Act.source?])).1

end MailMerge
