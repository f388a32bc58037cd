import MailMerge.Field.Replacement
import MailMerge.Proofs.Merge
import MailMerge.Proofs.Resources
import MailMerge.Proofs.Xml.Unambiguous

/-!
# Images in the place of pictures

An image is placed by writing a few attributes below a drawing, and at most one rectangle is added.
What is written is told for each node by the attributes' names (`Places`): the rest of the document, and
all resources but the new image, stay as they were (`Field.replace_image`). There is no image without
a number for it.
-/

namespace MailMerge

open Xml Xml.Document

/-- The sides of an image with what is cut off, by the attributes that tell it. -/
def Crop.sides (crop : Crop) : List (String × Int) :=
  [("l", crop.left), ("t", crop.top), ("r", crop.right), ("b", crop.bottom)]

namespace Placement

variable {names : NodeId → List String} {d e base : Document} {b drawing r x : NodeId}
variable {frame : Extent} {size : ImageSize}

/-! ## What is written where -/

/-- The frame of an image: what the first extent below a drawing declares. -/
def frame? (d : Document) (drawing : NodeId) : Option Extent :=
  (d.find? drawing "wp:extent").bind (declaredExtent? d)

/-- The element for the extent in the first transformation below a drawing. -/
def transformed? (d : Document) (drawing : NodeId) : Option NodeId :=
  (d.find? drawing "a:xfrm").bind (d.find? · "a:ext")

/-- The identifier of an image is written to the first image reference. -/
def linkNames (d : Document) (drawing x : NodeId) : List String :=
  if d.find? drawing "a:blip" = some x then ["r:embed"] else []

/-- The extent of an image is written where it is declared and to the transformation. -/
def sizeNames (d : Document) (drawing x : NodeId) : List String :=
  if d.find? drawing "wp:extent" = some x ∨ transformed? d drawing = some x then ["cx", "cy"] else []

/-- What is cut off is written to the rectangle. -/
def sideNames (r x : NodeId) : List String := if x = r then ["l", "t", "r", "b"] else []

/-- A rectangle follows an image reference, in the given document or, if there is none, in this
document with a new one. -/
inductive Supplied (d : Document) (b r : NodeId) : Document → Prop
  | found (hnext : d.nextElement? b = some r) (hname : d.isNamed r "a:srcRect" = true) :
    Supplied d b r d
  | added {base : Document} (hnone : (d.nextElement? b).filter (d.isNamed · "a:srcRect") = none)
    (hadded : d.AddedAfter b r "a:srcRect" base) : Supplied d b r base

/-- A rectangle tells what is cut off: at two opposite sides at most, and never as zero. -/
structure Cropped (crop : Crop) (r : NodeId) (e : Document) : Prop where
  sides : ∀ side ∈ crop.sides, e.attribute? r side.1 =
    if side.2 = 0 then none else some (toString side.2)
  nonzero : ∀ name ∈ ["l", "t", "r", "b"], e.attribute? r name ≠ some "0"
  opposite : (∀ name ∈ ["t", "b"], e.attribute? r name = none) ∨
    ∀ name ∈ ["l", "r"], e.attribute? r name = none

/-! ## The link -/

/-- Writes the identifier of an image to the first image reference below a drawing. -/
def link (id : String) (d : Document) (drawing : NodeId) : Document :=
  match d.find? drawing "a:blip" with
  | none => d
  | some blip => d.setAttribute blip "r:embed" id

theorem link_writes (id : String) (d : Document) (drawing : NodeId) :
    Writes (linkNames d drawing) d (link id d drawing) := by
  unfold link
  cases hblip : d.find? drawing "a:blip" with
  | none => exact .refl
  | some blip => exact Writes.setAttribute .refl (by simp [linkNames, hblip]) id

theorem link_attribute? (hd : d.Distinct) (hb : d.find? drawing "a:blip" = some b) (id : String) :
    (link id d drawing).attribute? b "r:embed" = some id := by
  obtain ⟨tag, htag⟩ := exists_element_of_isNamed (hd.of_find? hb).1
  rw [link, hb]
  exact attribute?_setAttribute htag "r:embed" id

/-! ## The extent -/

/-- An extent is written to an element. -/
structure Sized (placed : Extent) (e : Document) (x : NodeId) : Prop where
  cx : e.attribute? x "cx" = some (toString placed.cx)
  cy : e.attribute? x "cy" = some (toString placed.cy)

variable {placed : Extent}

theorem sized_writeExtent {name : String} (h : d.isNamed x name = true) :
    Sized placed (writeExtent placed d x) x := by
  obtain ⟨tag, htag⟩ := exists_element_of_isNamed h
  have hwidth : Writes (fun _ => ["cx"]) d (d.setAttribute x "cx" (toString placed.cx)) :=
    Writes.setAttribute .refl (by simp) _
  obtain ⟨tag', htag'⟩ := exists_element_of_isNamed ((hwidth.isNamed x name).trans h)
  refine ⟨?_, attribute?_setAttribute htag' "cy" _⟩
  rw [writeExtent, attribute?_setAttribute_of_ne (by decide)]
  exact attribute?_setAttribute htag "cx" _

theorem Sized.writeExtent (h : Sized placed d x) (y : NodeId) :
    Sized placed (writeExtent placed d y) x where
  cx := by
    rw [Placement.writeExtent, attribute?_setAttribute_of_ne (by decide)]
    exact attribute?_setAttribute_same h.cx
  cy := by
    apply attribute?_setAttribute_same
    rw [attribute?_setAttribute_of_ne (by decide)]
    exact h.cy

theorem writeExtent_writes (h : Writes names d e) (hnames : names x = ["cx", "cy"]) :
    Writes names d (writeExtent placed e x) :=
  (h.setAttribute (by simp [hnames]) _).setAttribute (by simp [hnames]) _

/-- In a frame the extent of an image is written to all elements that are to have it. -/
theorem exists_apply (hd : d.Distinct) (h : frame? d drawing = some frame) (size : ImageSize) :
    ∃ sized, Writes (sizeNames d drawing) d sized ∧
      (∀ x, d.find? drawing "wp:extent" = some x ∨ transformed? d drawing = some x →
        Sized (extent frame size (sizing d drawing)) sized x) ∧
      apply d drawing size = match sizing d drawing with
        | .rect horizontal vertical =>
          writeCrop (crop frame size horizontal vertical) sized drawing
        | _ => sized := by
  obtain ⟨x, hx, hdeclared⟩ := Option.bind_eq_some_iff.1 h
  unfold apply
  rw [hx]
  dsimp only
  rw [hdeclared]
  dsimp only
  generalize extent frame size (sizing d drawing) = placed
  have hwrites : Writes (sizeNames d drawing) d (writeExtent placed d x) :=
    writeExtent_writes .refl (by simp [sizeNames, hx])
  have hsized : Sized placed (writeExtent placed d x) x := sized_writeExtent (hd.of_find? hx).1
  -- What has been written so far moves no element, so the transformation is found as before.
  have htarget : ((writeExtent placed d x).find? drawing "a:xfrm").bind
      ((writeExtent placed d x).find? · "a:ext") = transformed? d drawing := by
    simp only [transformed?, hwrites.find?]
  rw [htarget]
  cases hext : transformed? d drawing with
  | none =>
    refine ⟨_, hwrites, fun y hy => ?_, rfl⟩
    obtain rfl : x = y := by simpa using hy
    exact hsized
  | some ext =>
    obtain ⟨y, -, hfound⟩ := Option.bind_eq_some_iff.1 hext
    have hnamed : (writeExtent placed d x).isNamed ext "a:ext" = true :=
      (hwrites.isNamed ext _).trans (hd.of_find? hfound).1
    refine ⟨_, writeExtent_writes hwrites (by simp [sizeNames, hext]), fun z hz => ?_, rfl⟩
    rcases hz with hz | hz
    · obtain rfl : x = z := by simpa using hz
      exact hsized.writeExtent ext
    · obtain rfl : ext = z := by simpa using hz
      exact sized_writeExtent hnamed

/-! ## The rectangle -/

theorem rectangle_supplied (hd : d.Distinct) (hb : b ∈ d.ids) :
    Supplied d b (rectangle d b).1 (rectangle d b).2 ∧ (rectangle d b).2.Distinct := by
  unfold rectangle
  cases hnext : (d.nextElement? b).filter (d.isNamed · "a:srcRect") with
  | some x =>
    obtain ⟨hsome, hnamed⟩ := Option.filter_eq_some_iff.1 hnext
    exact ⟨.found hsome hnamed, hd⟩
  | none =>
    obtain ⟨e, hinsert, he, hadded⟩ := hd.exists_addedAfter hb "a:srcRect"
    have hplaced : (d.createElement "a:srcRect").2.insertAfter b (d.createElement "a:srcRect").1 =
      some e := hinsert
    simp only [hplaced, Option.getD_some]
    exact ⟨.added hnext hadded, he⟩

theorem Supplied.nextElement? (h : Supplied d b r e) : e.nextElement? b = some r := by
  cases h with
  | found hnext => exact hnext
  | added _ hadded => exact hadded.nextElement?

theorem Supplied.isNamed (h : Supplied d b r e) : e.isNamed r "a:srcRect" = true := by
  cases h with
  | found _ hname => exact hname
  | added _ hadded =>
    rw [Document.isNamed, name?, hadded.node, if_pos rfl]
    rfl

/-- A new rectangle has no attributes. -/
theorem Supplied.attribute? (h : Supplied d b r e) (x : NodeId) (name : String) :
    e.attribute? x name = d.attribute? x name := by
  cases h with
  | found => rfl
  | added _ hadded =>
    rw [Document.attribute?, hadded.node, Document.attribute?]
    split
    next heq =>
      have hnone : d.node? x = none := by
        rw [node?_eq_site?, site?_eq_none_iff.2 (heq ▸ hadded.fresh)]
        rfl
      rw [hnone]
      rfl
    next => rfl

theorem Supplied.isSome_node? (h : Supplied d b r e) (hx : (d.node? x).isSome) :
    (e.node? x).isSome := by
  cases h with
  | found => exact hx
  | added _ hadded =>
    rw [hadded.node]
    split
    next => rfl
    next => exact hx

theorem Supplied.unambiguousAt (h : Supplied d b r e) (hr : d.UnambiguousAt r) :
    e.UnambiguousAt r := by
  cases h with
  | found => exact hr
  | added _ hadded =>
    intro tag htag
    rw [hadded.node, if_pos rfl] at htag
    cases htag
    exact List.nodup_nil

/-- The same rectangle is supplied where attributes have been written. -/
theorem rectangle_rewritten (h : Writes names d e) (hd : d.Distinct) (hb : b ∈ d.ids) :
    (rectangle e b).1 = (rectangle d b).1 ∧
      Rewritten names (rectangle d b).2 (rectangle e b).2 := by
  have he := h.distinct hd
  have hsame : (e.nextElement? b).filter (e.isNamed · "a:srcRect") =
      (d.nextElement? b).filter (d.isNamed · "a:srcRect") := by
    simp only [h.nextElement?, h.isNamed]
  unfold rectangle
  rw [hsame]
  cases (d.nextElement? b).filter (d.isNamed · "a:srcRect") with
  | some x => exact ⟨rfl, h.rewritten⟩
  | none =>
    -- Both documents have the same next identity, so that the new element is the same node.
    obtain ⟨d', hd', -, haddedd⟩ := hd.exists_addedAfter hb "a:srcRect"
    obtain ⟨e', he', -, haddede⟩ := he.exists_addedAfter (h.ids ▸ hb) "a:srcRect"
    have hplacedd : (d.createElement "a:srcRect").2.insertAfter b (d.createElement "a:srcRect").1 =
      some d' := hd'
    have hplacede : (e.createElement "a:srcRect").2.insertAfter b (e.createElement "a:srcRect").1 =
      some e' := he'
    simp only [hplacedd, hplacede, Option.getD_some]
    rw [h.next] at haddede
    exact ⟨h.next, h.rewritten.addedAfter haddedd haddede⟩

/-! ## What is cut off -/

variable {side : String × Int} {sides : List (String × Int)}

theorem writeSide_writes (h : Writes names d e) (hname : side.1 ∈ names x) :
    Writes names d (writeSide e x side) := by
  unfold writeSide
  split
  next => exact h.removeAttribute hname
  next => exact h.setAttribute hname _

theorem writeSides_writes (hnames : ∀ side ∈ sides, side.1 ∈ names x) (h : Writes names d e) :
    Writes names d (sides.foldl (writeSide · x) e) := by
  induction sides generalizing e with
  | nil => exact h
  | cons side rest ih =>
    rw [List.forall_mem_cons] at hnames
    exact ih hnames.2 (writeSide_writes h hnames.1)

theorem writeSide_attribute? {name : String} (hx : d.isNamed x name = true)
    (h : d.UnambiguousAt x) (side : String × Int) :
    (writeSide d x side).attribute? x side.1 =
      if side.2 = 0 then none else some (toString side.2) := by
  obtain ⟨tag, htag⟩ := exists_element_of_isNamed hx
  unfold writeSide
  split
  next => exact attribute?_removeAttribute htag (h tag htag) side.1
  next => exact attribute?_setAttribute htag side.1 _

/-- Each side is told at last as it was written, for the later ones are told elsewhere. -/
theorem writeSides_attribute? {name : String} (hnodup : (sides.map Prod.fst).Nodup)
    (hx : d.isNamed x name = true) (h : d.UnambiguousAt x) :
    ∀ side ∈ sides, (sides.foldl (writeSide · x) d).attribute? x side.1 =
      if side.2 = 0 then none else some (toString side.2) := by
  induction sides generalizing d with
  | nil => exact nofun
  | cons side rest ih =>
    rw [List.map_cons, List.nodup_cons] at hnodup
    have hfirst : Writes (fun _ => [side.1]) d (writeSide d x side) :=
      writeSide_writes .refl List.mem_cons_self
    have hrest : Writes (fun _ => rest.map Prod.fst) (writeSide d x side)
        (rest.foldl (writeSide · x) (writeSide d x side)) :=
      writeSides_writes (fun side hside => List.mem_map_of_mem hside) .refl
    rw [List.foldl_cons, List.forall_mem_cons]
    constructor
    · rw [hrest.attribute? hnodup.1]
      exact writeSide_attribute? hx h side
    · exact ih hnodup.2 ((hfirst.isNamed x name).trans hx) (hfirst.unambiguousAt h)

theorem crop_opposite (frame : Extent) (size : ImageSize) (horizontal vertical : Align) :
    ((crop frame size horizontal vertical).top = 0 ∧ (crop frame size horizontal vertical).bottom = 0) ∨
      (crop frame size horizontal vertical).left = 0 ∧
        (crop frame size horizontal vertical).right = 0 := by
  unfold crop
  split
  next => exact .inl ⟨rfl, rfl⟩
  next =>
    dsimp only
    split
    next => exact .inl ⟨rfl, rfl⟩
    next =>
      split
      next => exact .inr ⟨rfl, rfl⟩
      next => exact .inl ⟨rfl, rfl⟩

theorem toString_ne_zero {n : Int} (h : n ≠ 0) : toString n ≠ "0" := by
  intro hzero
  have hdigits := congrArg String.toList hzero
  cases n with
  | ofNat m =>
    rw [Decimal.toList_toString_ofNat] at hdigits
    have hm : m = 0 := Decimal.toDigits_injective hdigits
    exact h (congrArg Int.ofNat hm)
  | negSucc m =>
    rw [Decimal.toList_toString_negSucc] at hdigits
    cases hdigits

theorem cropped_of_sides {crop : Crop}
    (hsides : ∀ side ∈ crop.sides, e.attribute? r side.1 =
      if side.2 = 0 then none else some (toString side.2))
    (hopposite : (crop.top = 0 ∧ crop.bottom = 0) ∨ (crop.left = 0 ∧ crop.right = 0)) :
    Cropped crop r e := by
  have hnonzero : ∀ side ∈ crop.sides, e.attribute? r side.1 ≠ some "0" := by
    intro side hside hzero
    rw [hsides side hside] at hzero
    split at hzero
    next => cases hzero
    next hne => exact toString_ne_zero hne (Option.some.inj hzero)
  have hnone : ∀ side ∈ crop.sides, side.2 = 0 → e.attribute? r side.1 = none := by
    intro side hside hzero
    rw [hsides side hside, if_pos hzero]
  simp only [Crop.sides, List.forall_mem_cons] at hnonzero hnone
  refine ⟨hsides, ?_, ?_⟩
  · simpa using hnonzero
  · rcases hopposite with ⟨htop, hbottom⟩ | ⟨hleft, hright⟩
    · exact .inl (by simp [hnone.2.1 htop, hnone.2.2.2.1 hbottom])
    · exact .inr (by simp [hnone.1 hleft, hnone.2.2.1 hright])

theorem writeCrop_eq (hb : d.find? drawing "a:blip" = some b) (crop : Crop) :
    writeCrop crop d drawing =
      crop.sides.foldl (writeSide · (rectangle d b).1) (rectangle d b).2 := by
  rw [writeCrop, hb]
  rfl

/-! ## The whole placement -/

/-- What becomes of a document when an image of a size is placed in a drawing under an identifier.
The sides of a rectangle are told for one that names no attribute twice, as all elements do that are
read from markup (`Document.unambiguous_of_parse`). -/
structure Places (d : Document) (drawing : NodeId) (id : String) (size : ImageSize) (e : Document) :
    Prop where
  distinct : e.Distinct
  linked : ∀ b, d.find? drawing "a:blip" = some b → e.attribute? b "r:embed" = some id
  unframed : frame? d drawing = none → Rewritten (linkNames d drawing) d e
  sized : ∀ frame, frame? d drawing = some frame →
    ∀ x, d.find? drawing "wp:extent" = some x ∨ transformed? d drawing = some x →
      Sized (extent frame size (sizing d drawing)) e x
  uncropped : ∀ frame, frame? d drawing = some frame →
    (∀ horizontal vertical, sizing d drawing = .rect horizontal vertical →
      d.find? drawing "a:blip" = none) →
    Rewritten (fun x => linkNames d drawing x ++ sizeNames d drawing x) d e
  cropped : ∀ frame horizontal vertical b, frame? d drawing = some frame →
    sizing d drawing = .rect horizontal vertical → d.find? drawing "a:blip" = some b →
    ∃ r base, Supplied d b r base ∧
      Rewritten (fun x => linkNames d drawing x ++ sizeNames d drawing x ++ sideNames r x) base e ∧
      e.nextElement? b = some r ∧ e.isNamed r "a:srcRect" = true ∧
      (d.UnambiguousAt r → Cropped (crop frame size horizontal vertical) r e)

theorem notMem_linkNames {name : String} (hne : name ≠ "r:embed") (x : NodeId) :
    name ∉ linkNames d drawing x := by
  unfold linkNames
  split <;> simp [hne]

theorem notMem_sizeNames {name : String} (hcx : name ≠ "cx") (hcy : name ≠ "cy") (x : NodeId) :
    name ∉ sizeNames d drawing x := by
  unfold sizeNames
  split <;> simp [hcx, hcy]

theorem notMem_sideNames {name : String} (hname : name ∉ ["l", "t", "r", "b"]) (x : NodeId) :
    name ∉ sideNames r x := by
  unfold sideNames
  split
  next => exact hname
  next => exact List.not_mem_nil

section Linked

variable (h : Writes (linkNames d drawing) d e)
include h

/-- The link of an image is read neither for its frame nor for its sizing. -/
theorem frame?_of_linked : frame? e drawing = frame? d drawing := by
  have hdeclared : declaredExtent? e = declaredExtent? d := by
    funext x
    rw [declaredExtent?, declaredExtent?, h.attribute? (notMem_linkNames (by decide) x),
      h.attribute? (notMem_linkNames (by decide) x)]
  rw [frame?, frame?, h.find?, hdeclared]

theorem transformed?_of_linked : transformed? e drawing = transformed? d drawing := by
  simp only [transformed?, h.find?]

theorem sizeNames_of_linked : sizeNames e drawing = sizeNames d drawing := by
  funext x
  rw [sizeNames, sizeNames, h.find?, transformed?_of_linked h]

theorem sizing_of_linked : sizing e drawing = sizing d drawing := by
  have hdescription : ∀ y, e.attribute? y "descr" = d.attribute? y "descr" :=
    fun y => h.attribute? (notMem_linkNames (by decide) y)
  unfold sizing
  rw [h.find?]
  simp only [hdescription]

end Linked

theorem apply_of_unframed (h : frame? d drawing = none) (size : ImageSize) :
    apply d drawing size = d := by
  unfold apply
  rw [frame?] at h
  cases hx : d.find? drawing "wp:extent" with
  | none => rfl
  | some x =>
    rw [hx, Option.bind_some] at h
    dsimp only
    rw [h]

/-- A document in which the link and the extent of an image have been written. -/
structure Framed (d : Document) (drawing : NodeId) (id : String) (size : ImageSize) (frame : Extent)
    (e : Document) : Prop where
  given : frame? d drawing = some frame
  writes : Writes (fun x => linkNames d drawing x ++ sizeNames d drawing x) d e
  linked : ∀ b, d.find? drawing "a:blip" = some b → e.attribute? b "r:embed" = some id
  sized : ∀ x, d.find? drawing "wp:extent" = some x ∨ transformed? d drawing = some x →
    Sized (extent frame size (sizing d drawing)) e x

namespace Framed

variable {id : String}

theorem places (h : Framed d drawing id size frame e) (hd : d.Distinct)
    (hwhole : ∀ horizontal vertical, sizing d drawing = .rect horizontal vertical →
      d.find? drawing "a:blip" = none) : Places d drawing id size e where
  distinct := h.writes.distinct hd
  linked := h.linked
  unframed hnone := by
    rw [h.given] at hnone
    cases hnone
  sized frame' hframe := by
    rw [h.given] at hframe
    cases hframe
    exact h.sized
  uncropped _ _ _ := h.writes.rewritten
  cropped _ horizontal vertical b _ hsizing hb := by
    rw [hwhole horizontal vertical hsizing] at hb
    cases hb

theorem places_writeCrop {horizontal vertical : Align} (h : Framed d drawing id size frame e)
    (hd : d.Distinct) (hsizing : sizing d drawing = .rect horizontal vertical)
    (hb : d.find? drawing "a:blip" = some b) :
    Places d drawing id size (writeCrop (crop frame size horizontal vertical) e drawing) := by
  have hmem : b ∈ d.ids := mem_ids_of_isNamed (hd.of_find? hb).1
  have he := h.writes.distinct hd
  obtain ⟨hsupplied, -⟩ := rectangle_supplied hd hmem
  obtain ⟨hsupplied', hdistinct⟩ := rectangle_supplied he (h.writes.ids ▸ hmem)
  have hwritten : Writes (fun x => linkNames d drawing x ++ sizeNames d drawing x ++
      sideNames (rectangle d b).1 x) d e := h.writes.mono fun x => List.subset_append_left _ _
  obtain ⟨hsame, hrewritten⟩ := rectangle_rewritten hwritten hd hmem
  rw [writeCrop_eq ((h.writes.find? _ _).trans hb), hsame]
  rw [hsame] at hsupplied'
  generalize (rectangle d b).1 = r at *
  generalize (rectangle d b).2 = base at *
  generalize (rectangle e b).2 = c at *
  -- The sides are named apart from all that has been written before.
  have hsides : Writes (sideNames r) c
      ((crop frame size horizontal vertical).sides.foldl (writeSide · r) c) :=
    writeSides_writes (by simp [Crop.sides, sideNames]) .refl
  have hkept : ∀ x, ∀ name ∉ ["l", "t", "r", "b"],
      ((crop frame size horizontal vertical).sides.foldl (writeSide · r) c).attribute? x name =
        e.attribute? x name := by
    intro x name hname
    rw [hsides.attribute? (notMem_sideNames hname x), hsupplied'.attribute?]
  constructor
  · exact hsides.distinct hdistinct
  · intro b hb
    rw [hkept b "r:embed" (by decide)]
    exact h.linked b hb
  · intro hnone
    rw [h.given] at hnone
    cases hnone
  · intro frame' hframe x hx
    rw [h.given] at hframe
    cases hframe
    obtain ⟨hcx, hcy⟩ := h.sized x hx
    exact ⟨(hkept x "cx" (by decide)).trans hcx, (hkept x "cy" (by decide)).trans hcy⟩
  · intro _ _ hwhole
    rw [hwhole horizontal vertical hsizing] at hb
    cases hb
  · intro frame' horizontal' vertical' b' hframe hsizing' hb'
    rw [h.given] at hframe
    rw [hsizing] at hsizing'
    rw [hb] at hb'
    cases hframe
    cases hsizing'
    cases hb'
    refine ⟨r, base, hsupplied, ?_, ?_, ?_, fun hr => ?_⟩
    · exact hrewritten.trans (hsides.mono fun x => List.subset_append_right _ _).rewritten
    · rw [hsides.nextElement?, hsupplied'.nextElement?]
    · rw [hsides.isNamed, hsupplied'.isNamed]
    · apply cropped_of_sides _ (crop_opposite frame size horizontal vertical)
      exact writeSides_attribute? (show ["l", "t", "r", "b"].Nodup by decide) hsupplied'.isNamed
        (hsupplied'.unambiguousAt (h.writes.unambiguousAt hr))

end Framed

theorem places_apply (hd : d.Distinct) (drawing : NodeId) (id : String) (size : ImageSize) :
    Places d drawing id size (apply (link id d drawing) drawing size) := by
  have hlink : Writes (linkNames d drawing) d (link id d drawing) := link_writes id d drawing
  have hid : ∀ b, d.find? drawing "a:blip" = some b →
      (link id d drawing).attribute? b "r:embed" = some id := fun b hb => link_attribute? hd hb id
  generalize link id d drawing = c at hlink hid
  have hframe : frame? c drawing = frame? d drawing := frame?_of_linked hlink
  cases hgiven : frame? d drawing with
  | none =>
    rw [apply_of_unframed (hframe.trans hgiven)]
    refine ⟨hlink.distinct hd, hid, fun _ => hlink.rewritten, ?_, ?_, ?_⟩ <;> simp [hgiven]
  | some frame =>
    obtain ⟨e, hwrites, hsized, happly⟩ :=
      exists_apply (hlink.distinct hd) (hframe.trans hgiven) size
    -- The extent is placed in the linked document, but told by the document as it was given.
    rw [sizeNames_of_linked hlink] at hwrites
    rw [sizing_of_linked hlink, hlink.find?, transformed?_of_linked hlink] at hsized
    rw [sizing_of_linked hlink] at happly
    have hframed : Framed d drawing id size frame e := by
      refine ⟨hgiven, ?_, fun b hb => ?_, hsized⟩
      · exact (hlink.mono fun x => List.subset_append_left _ _).trans
          (hwrites.mono fun x => List.subset_append_right _ _)
      · rw [hwrites.attribute? (notMem_sizeNames (by decide) (by decide) b)]
        exact hid b hb
    rw [happly]
    cases hsizing : sizing d drawing with
    | fit => exact hframed.places hd (by simp [hsizing])
    | auto => exact hframed.places hd (by simp [hsizing])
    | rect horizontal vertical =>
      cases hb : d.find? drawing "a:blip" with
      | some b => exact hframed.places_writeCrop hd hsizing hb
      | none =>
        have hnone : e.find? drawing "a:blip" = none := (hframed.writes.find? _ _).trans hb
        dsimp only
        rw [writeCrop, hnone]
        exact hframed.places hd fun _ _ _ => hb

/-- No image reference but the first one below the drawing is written. -/
theorem Places.keeps {id : String} (h : Places d drawing id size e) (hx : x ∈ d.ids)
    (hne : d.find? drawing "a:blip" ≠ some x) :
    x ∈ e.ids ∧ e.attribute? x "r:embed" = d.attribute? x "r:embed" := by
  have hlink : "r:embed" ∉ linkNames d drawing x := by simp [linkNames, hne]
  have hsize : "r:embed" ∉ sizeNames d drawing x := notMem_sizeNames (by decide) (by decide) x
  have hkept : ∀ {names : NodeId → List String} {base : Document}, Rewritten names base e →
      "r:embed" ∉ names x → (base.node? x).isSome →
      base.attribute? x "r:embed" = d.attribute? x "r:embed" →
      x ∈ e.ids ∧ e.attribute? x "r:embed" = d.attribute? x "r:embed" := fun hrewritten hout hin heq =>
    ⟨isSome_node?_iff.1 ((hrewritten.isSome_node?_eq x).trans hin),
      (hrewritten.attribute?_eq hout).trans heq⟩
  have hsome := isSome_node?_iff.2 hx
  cases hframe : frame? d drawing with
  | none => exact hkept (h.unframed hframe) hlink hsome rfl
  | some frame =>
    by_cases hwhole : ∀ horizontal vertical, sizing d drawing = .rect horizontal vertical →
        d.find? drawing "a:blip" = none
    · exact hkept (h.uncropped frame hframe hwhole) (by simp [hlink, hsize]) hsome rfl
    · push Not at hwhole
      obtain ⟨horizontal, vertical, hsizing, hblip⟩ := hwhole
      obtain ⟨b, hb⟩ := Option.ne_none_iff_exists'.1 hblip
      obtain ⟨r, base, hsupplied, hrewritten, -⟩ := h.cropped frame _ _ b hframe hsizing hb
      have hside : "r:embed" ∉ sideNames r x := notMem_sideNames (by decide) x
      exact hkept hrewritten (by simp [hlink, hsize, hside]) (hsupplied.isSome_node? hsome)
        (hsupplied.attribute? x _)

end Placement

/-- In a document that is read and then edited, whatever rectangle is supplied tells what is cut off. -/
theorem Placement.Places.cropped_of_revised {text : String} {d₀ d e : Document}
    {drawing b : NodeId} {id : String} {size : ImageSize} {frame : Extent}
    {horizontal vertical : Align} (h : Places d drawing id size e) (hparse : parse text = .ok d₀)
    (hrevised : Revised d₀ d) (hframe : frame? d drawing = some frame)
    (hsizing : sizing d drawing = .rect horizontal vertical)
    (hb : d.find? drawing "a:blip" = some b) :
    ∃ r, e.nextElement? b = some r ∧ e.isNamed r "a:srcRect" = true ∧
      Cropped (crop frame size horizontal vertical) r e := by
  have hd₀ : d₀.WellFormed := (proper_of_parse hparse).toWellFormed
  have hd : d.Unambiguous := (unambiguous_of_parse hparse).revised hd₀ hrevised
  obtain ⟨r, -, -, -, hnext, hname, hcropped⟩ := h.cropped _ _ _ b hframe hsizing hb
  exact ⟨r, hnext, hname, hcropped (hd.unambiguousAt r)⟩

/-- An image has been added under a new identifier, and all other entries are what they were. -/
structure Resources.Added (before : Resources) (id : String) (picture : Picture) (after : Resources) :
    Prop where
  found : Keyed.find? id after = some (.image picture)
  kept : ∀ key, key ≠ id → Keyed.find? key after = Keyed.find? key before
  fresh : id ∉ before.map Prod.fst
  one : after.Perm ((id, .image picture) :: before)

theorem Resources.added_of_addImage? {before after : Resources} {id : String} {picture : Picture}
    (h : before.addImage? picture = some (id, after)) : before.Added id picture after := by
  have hfresh := addImage?_notMem h
  obtain ⟨-, -, rfl⟩ := addImage?_eq_some_iff.1 h
  exact ⟨by rw [Keyed.find?_insert, if_pos rfl],
    fun key hne => by rw [Keyed.find?_insert, if_neg (Ne.symm hne)], hfresh,
    Keyed.insert_perm hfresh⟩

namespace Field

variable {field : Field} {drawing : NodeId} {w w' : Workspace} {picture : Picture} {size : ImageSize}
  {id : String} {e : MergeError}

/-! ## The steps of a placement -/

theorem placeImage_unreadable (h : picture.size = .error e) :
    placeImage drawing picture w = .error e w := by
  rw [placeImage, h]
  rfl

theorem placeImage_full (hsize : picture.size = .ok size) (h : w.resources.nextId? = none) :
    placeImage drawing picture w = .error .overflow w := by
  have hadd : w.resources.addImage? picture = none := by
    rw [Resources.addImage?, h]
    rfl
  rw [placeImage, hsize]
  exact (Merge.bind_ok (Merge.ofExcept_ok size w)).trans
    (Merge.bind_error (Merge.addImage_error hadd))

theorem placeImage_added {resources : Resources} (hsize : picture.size = .ok size)
    (h : w.resources.addImage? picture = some (id, resources)) :
    placeImage drawing picture w = .ok () { w with
      resources
      document := Placement.apply (Placement.link id w.document drawing) drawing size } := by
  rw [placeImage, hsize]
  exact (Merge.bind_ok (Merge.ofExcept_ok size w)).trans (Merge.bind_ok (Merge.addImage_ok h))

/-- A placement succeeds when the image can be read and there is a number for it. -/
theorem exists_of_placeImage_ok (h : placeImage drawing picture w = .ok () w') :
    ∃ size id resources, picture.size = .ok size ∧
      w.resources.addImage? picture = some (id, resources) ∧
      w' = { w with
        resources
        document := Placement.apply (Placement.link id w.document drawing) drawing size } := by
  cases hsize : picture.size with
  | error e =>
    rw [placeImage_unreadable hsize] at h
    cases h
  | ok size =>
    cases hadd : w.resources.addImage? picture with
    | none =>
      rw [placeImage_full hsize (Option.map_eq_none_iff.1 hadd)] at h
      cases h
    | some added =>
      obtain ⟨id, resources⟩ := added
      rw [placeImage_added hsize hadd] at h
      cases h
      exact ⟨size, id, resources, rfl, rfl, rfl⟩

theorem placeImage_error (h : placeImage drawing picture w = .error e w') : w' = w := by
  cases hsize : picture.size with
  | error e' =>
    rw [placeImage_unreadable hsize] at h
    cases h
    rfl
  | ok size =>
    cases hadd : w.resources.addImage? picture with
    | none =>
      rw [placeImage_full hsize (Option.map_eq_none_iff.1 hadd)] at h
      cases h
      rfl
    | some added =>
      rw [placeImage_added hsize hadd] at h
      cases h

/-! ## The field -/

/-- An image that can be read is added to the resources and placed in the drawing of an image field,
and nothing else is changed. An image that cannot be read changes nothing, nor does one for which
there is no number. In a document that is read and then edited, the rectangle of a cropped image tells
the sides that are cut off and no others. -/
theorem replace_image (hshape : field.shape = .image drawing) (hd : w.document.Distinct)
    (convert? : Option Converter) (picture : Picture) :
    (∀ error, picture.size = .error error →
      field.replace convert? (.image picture) w = .error error w) ∧
    ∀ size, picture.size = .ok size →
      (w.resources.nextId? = none →
        field.replace convert? (.image picture) w = .error .overflow w) ∧
      ∀ id, w.resources.nextId? = some id → ∃ w',
        field.replace convert? (.image picture) w = .ok () w' ∧
        w'.numbering = w.numbering ∧ w.resources.Added id picture w'.resources ∧
        Placement.Places w.document drawing id size w'.document ∧
        ∀ text d₀, parse text = .ok d₀ → Revised d₀ w.document →
          ∀ frame horizontal vertical b, Placement.frame? w.document drawing = some frame →
            Placement.sizing w.document drawing = .rect horizontal vertical →
            w.document.find? drawing "a:blip" = some b →
            ∃ r, w'.document.nextElement? b = some r ∧ w'.document.isNamed r "a:srcRect" = true ∧
              Placement.Cropped (Placement.crop frame size horizontal vertical) r w'.document := by
  have hplace : field.replace convert? (.image picture) = placeImage drawing picture := by
    rw [replace, hshape]
  rw [hplace]
  refine ⟨fun error => placeImage_unreadable, fun size hsize => ⟨placeImage_full hsize, ?_⟩⟩
  intro id hid
  have hadd : w.resources.addImage? picture =
      some (id, Keyed.insert id (.image picture) w.resources) := by
    rw [Resources.addImage?, hid]
    rfl
  have hplaces := Placement.places_apply hd drawing id size
  refine ⟨_, placeImage_added hsize hadd, rfl, Resources.added_of_addImage? hadd, hplaces, ?_⟩
  intro text d₀ hparse hrevised frame horizontal vertical b hframe hsizing hb
  exact hplaces.cropped_of_revised hparse hrevised hframe hsizing hb

/-- A drawing with a frame that is to be filled, and with an image reference that is not set. -/
def framedDrawing : Document where
  rows := [.single 0 (.element ⟨"w:drawing", []⟩)
    (.single 1 (.element ⟨"wp:extent", [⟨"cx", "4"⟩, ⟨"cy", "2"⟩]⟩) .nil ++
      .single 2 (.element ⟨"pic:cNvPr", [⟨"name", "=x"⟩, ⟨"descr", "rect"⟩]⟩) .nil ++
      .single 3 (.element ⟨"a:blip", []⟩) .nil)]
  aside := []
  root := 0
  next := 4
  declaration := none

/-- The drawing as it is written. -/
def framedText : String :=
  "<w:drawing><wp:extent cx=\"4\" cy=\"2\"/><pic:cNvPr name=\"=x\" descr=\"rect\"/><a:blip/></w:drawing>"

/-- A part with the drawing, and with an identifier that is written with leading zeros. -/
def framedWorkspace : Workspace where
  document := framedDrawing
  resources := [("rId007", .relationship "image" "media/old.gif")]
  numbering := .ofReserved []

/-- The image gets the identifier after that one, and a rectangle comes after the image reference. -/
theorem replace_image_framed : ∃ w',
    replace none ⟨.image 0, "=x", "x"⟩ (.image onePixel) framedWorkspace = .ok () w' ∧
      w'.resources.Perm
        [("rId8", .image onePixel), ("rId007", .relationship "image" "media/old.gif")] ∧
      w'.document.attribute? 3 "r:embed" = some "rId8" ∧
      w'.document.attribute? 1 "cx" = some "4" ∧
      ∃ r, w'.document.nextElement? 3 = some r ∧ w'.document.isNamed r "a:srcRect" = true ∧
        ∀ name ∈ ["l", "t", "r", "b"], w'.document.attribute? r name ≠ some "0" := by
  have hshape : (⟨.image 0, "=x", "x"⟩ : Field).shape = .image 0 := rfl
  have hd : framedWorkspace.document.Distinct := ⟨by decide, by decide⟩
  have hsize : onePixel.size = .ok ⟨1, 1⟩ := rfl
  have hframe : Placement.frame? framedDrawing 0 = some ⟨4, 2⟩ := rfl
  have hsizing : Placement.sizing framedDrawing 0 = .rect .center .center := by decide +kernel
  have hid : framedWorkspace.resources.nextId? = some "rId8" := by decide +kernel
  have hparse : parse framedText = .ok framedDrawing := rfl
  obtain ⟨w', hrun, -, hadded, hplaces, hcropped⟩ :=
    ((replace_image hshape hd none onePixel).2 _ hsize).2 _ hid
  have hextent : Placement.extent ⟨4, 2⟩ ⟨1, 1⟩ (.rect .center .center) = ⟨4, 2⟩ := rfl
  have hsized := hplaces.sized _ hframe 1 (.inl rfl)
  obtain ⟨r, hnext, hname, htold⟩ := hcropped _ _ hparse .refl _ _ _ 3 hframe hsizing rfl
  have hcx := hsized.cx
  refine ⟨w', hrun, hadded.one, hplaces.linked 3 rfl, ?_, r, hnext, hname, htold.nonzero⟩
  rw [show framedWorkspace.document = framedDrawing from rfl, hsizing, hextent] at hcx
  exact hcx

/-- A part with the drawing, and with an identifier that has the last number of all. -/
def fullWorkspace : Workspace where
  document := framedDrawing
  resources := [("rId18446744073709551615", .relationship "image" "media/old.gif")]
  numbering := .ofReserved []

/-- After the last number of all there is none for an image, so that none can be placed. -/
theorem replace_full : onePixel.size = .ok ⟨1, 1⟩ ∧
    replace none ⟨.image 0, "=x", "x"⟩ (.image onePixel) fullWorkspace =
      .error .overflow fullWorkspace := by
  have hsize : onePixel.size = .ok ⟨1, 1⟩ := rfl
  exact ⟨hsize, placeImage_full hsize (by decide +kernel)⟩

end Field

end MailMerge
