import MailMerge.Proofs.Field.Replacing

/-!
# Pictures in documents with unfolded fields

An image is placed in a drawing in both of two documents that are unfoldings of one another. The
elements that are written are looked up below the drawing, where runs of fields are never found
instead of them. The documents stay unfoldings of one another (`placeImage_abreast`).
-/

namespace MailMerge

open Xml Xml.Forest Xml.Document

variable {c d e d' e' : Document} {u v : Unfolding} {q p : NodeId → Prop} {w w' : Workspace}
variable {a f x y z : NodeId} {row : Forest} {change : Node → Node}

namespace Field

/-- An element that is the same in both documents, and that a picture may be written to. -/
structure Writable (v : Unfolding) (d : Document) (x : NodeId) : Prop where
  mem : x ∈ d.ids
  frame : v.frame? x = none
  name : ∃ name ∈ placed, d.isNamed x name = true

theorem Writable.later (h : Writable u c x) (hc : Continues c u q p v d e) : Writable v d x where
  mem := hc.lasts.ids h.mem
  frame := (hc.agrees.frame x h.mem).trans h.frame
  name := by
    obtain ⟨name, hname, hx⟩ := h.name
    exact ⟨name, hname, (hc.lasts.isNamed h.mem name).trans hx⟩

/-- What is found below a drawing is writable, if a picture is written to elements of its name. -/
theorem Writable.of_find? (h : d.Unfolds v e) {name : String} (hname : name ∈ placed)
    (hx : d.find? y name = some x) : Writable v d x := by
  have hsimple : name ≠ "w:fldSimple" := by
    rintro rfl
    revert hname
    decide
  obtain ⟨hmem, hframe⟩ := h.of_find? hsimple hx
  exact ⟨hmem, hframe, name, hname, (h.distinct.of_find? hx).1⟩

/-! ## Attributes -/

section Update

variable (h : Since c u q p v d e) (hx : Writable v d x)
include h hx

theorem update_since (hchange : ∀ n name, (change n).isNamed name = n.isNamed name) :
    Since c u q p v (d.update x change) (e.update (v.name x) change) where
  agrees := h.agrees
  unfolds := h.unfolds.update hx.mem hx.frame change
  lasts := h.lasts.update hchange hx.name
  plain z hz hout := by
    refine h.plain z ?_ hout
    have hsite := d.site?_update x change z
    rw [← Document.isSome_site?_iff] at hz ⊢
    rwa [hsite, Option.isSome_map] at hz

theorem setAttribute_since (name value : String) :
    Since c u q p v (d.setAttribute x name value) (e.setAttribute (v.name x) name value) :=
  update_since h hx (Node.isNamed_mapElement fun _ => rfl)

theorem removeAttribute_since (name : String) :
    Since c u q p v (d.removeAttribute x name) (e.removeAttribute (v.name x) name) :=
  update_since h hx (Node.isNamed_mapElement fun _ => rfl)

/-- What has been written to can be written to again. -/
theorem writable_update (hy : Writable v d y)
    (hchange : ∀ n name, (change n).isNamed name = n.isNamed name) :
    Writable v (d.update x change) y :=
  hy.later (update_since (.refl h.unfolds q p) hx hchange).toContinues

end Update

end Field

namespace Placement

open Field

section Write

variable (h : Since c u q p v d e) (hx : Writable v d x)
include h hx

theorem writeExtent_since (extent : Extent) :
    Since c u q p v (writeExtent extent d x) (writeExtent extent e (v.name x)) := by
  have hwidth := setAttribute_since h hx "cx" (toString extent.cx)
  have hx' : Writable v (d.setAttribute x "cx" (toString extent.cx)) x :=
    writable_update h hx hx (Node.isNamed_mapElement fun _ => rfl)
  exact setAttribute_since hwidth hx' "cy" (toString extent.cy)

theorem writeSide_since (side : String × Int) :
    Since c u q p v (writeSide d x side) (writeSide e (v.name x) side) ∧
      Writable v (writeSide d x side) x := by
  unfold writeSide
  split
  next =>
    exact ⟨removeAttribute_since h hx side.1, writable_update h hx hx (Node.isNamed_mapElement fun _ => rfl)⟩
  next =>
    exact ⟨setAttribute_since h hx side.1 _, writable_update h hx hx (Node.isNamed_mapElement fun _ => rfl)⟩

end Write

theorem writeSides_since (sides : List (String × Int)) (h : Since c u q p v d e)
    (hx : Writable v d x) :
    Since c u q p v (sides.foldl (writeSide · x) d) (sides.foldl (writeSide · (v.name x)) e) := by
  induction sides generalizing d e with
  | nil => exact h
  | cons side sides ih =>
    obtain ⟨h', hx'⟩ := writeSide_since h hx side
    exact ih h' hx'

/-! ## The rectangle -/

/-- The first element of a row, if it has the given name. -/
def leading? (name : String) (f : Forest) : Option NodeId :=
  ((f.tops.find? (·.2.isElement)).filter (·.2.isNamed name)).map Prod.fst

/-- A run of a field never leads a row instead of what stands in the other document. -/
theorem leading?_unfold {name : String} (hrun : name ≠ "w:r") (hsimple : name ≠ "w:fldSimple")
    (hfits : v.FitsIn row) : leading? name (row.unfold v) = (leading? name row).map v.name := by
  induction row with
  | nil => rfl
  | cons y n children rest _ ih =>
    rw [unfold_cons]
    cases hframe : v.frame? y with
    | none =>
      rw [Unfolding.slot_of_none hframe, single, cons_append, nil_append]
      cases helement : n.isElement with
      | true => cases hname : n.isNamed name <;> simp [leading?, tops, helement, hname, Option.filter]
      | false =>
        have hlater := ih hfits.of_cons.2
        simpa [leading?, tops, helement] using hlater
    | some frame =>
      obtain ⟨before, after⟩ := frame
      have hfit := hfits (y, n) List.mem_cons_self before after hframe
      rw [Unfolding.slot_of_some hframe]
      cases before with
      | nil => exact absurd rfl hfit.before_ne_nil
      | cons z m inner more =>
        have hm := hfit.allRuns.1 (z, m) List.mem_cons_self
        have hmname : m.isNamed name = false := isNamed_of_ne hm (Ne.symm hrun)
        have hnname : n.isNamed name = false := isNamed_of_ne hfit.name (Ne.symm hsimple)
        simp [leading?, tops, isElement_of_isNamed hm, isElement_of_isNamed hfit.name, hmname, hnname,
          Option.filter]

theorem filter_nextElement? (hd : d.Distinct) (x : NodeId) (name : String) :
    (d.nextElement? x).filter (d.isNamed · name) = leading? name (d.following x) := by
  have hshows := hd.shows_following x
  have hname : ∀ entry ∈ (d.following x).tops, d.isNamed entry.1 name = entry.2.isNamed name :=
    fun entry hentry => by
      rw [isNamed, name?, hshows.node? ((tops_sublist _).subset hentry)]
      rfl
  rw [nextElement?, followingElements, List.head?_map, List.head?_filter, leading?]
  cases hfound : (d.following x).tops.find? (·.2.isElement) with
  | none => rfl
  | some entry =>
    have hentry := hname entry (List.mem_of_find?_eq_some hfound)
    cases hnamed : entry.2.isNamed name <;> simp [Option.filter, hentry, hnamed]

section Rectangle

variable {b : NodeId} (hq : ∀ y, q y → y ∈ c.ids) (hp : ∀ f, p f → f ∈ c.ids ∧ f ≠ b)
include hq hp

/-- A new rectangle is put after an image reference in both documents. It may stand in a run that a
field displays, as it is no text. -/
theorem insertRectangle_since {rest : List Forest} (h : Since c u q p v d e)
    (hrows : d.allRows.Perm (single x (.element ⟨"a:srcRect", []⟩) .nil :: rest))
    (hold : c.ids ⊆ rest.flatMap Forest.ids) (hx : v.frame? x = none)
    (hb : b ∈ rest.flatMap Forest.ids) (hframe : v.frame? b = none)
    (hname : d.isNamed b "a:blip" = true) :
    ∃ d' e', d.insertAfter b x = some d' ∧ e.insertAfter (v.name b) (v.name x) = some e' ∧
      Since c u q p v d' e' ∧ Writable v d' x := by
  have hd := h.unfolds.distinct
  have hunfolds₀ : (⟨d, [], {}⟩ : Workspace).document.Unfolds v (⟨e, [], {}⟩ : Workspace).document :=
    h.unfolds
  have htrees : d.allRows.Perm ((single x (.element ⟨"a:srcRect", []⟩) nil).trees ++ rest) := hrows
  obtain ⟨d', e', hm, hm', hplanted, hunfolds⟩ := hunfolds₀.insertTrees htrees
    (fun t ht => by rwa [List.mem_singleton.1 ht]) hb (.inl hframe)
  -- A single node is put as a list of one is, so that the law for rows of trees applies.
  have hone : ∀ a x, Merge.insertAllAfter a [x] = Merge.move (·.insertAfter a x) := fun a x => by
    rw [Merge.insertAllAfter_cons]
    exact pure_bind _ _
  rw [Unfolding.stop_of_none hframe, unfold_single, Unfolding.slot_of_none hx] at hm'
  obtain ⟨_, hd', hw⟩ := Merge.exists_of_move_ok ((congrFun (hone b x) _).symm.trans hm)
  obtain ⟨_, he', hw'⟩ := Merge.exists_of_move_ok ((congrFun (hone _ _) _).symm.trans hm')
  cases hw
  cases hw'
  have hnamed : ∀ name, d.isNamed x name = (Node.element ⟨"a:srcRect", []⟩).isNamed name := by
    intro name
    have hsite := hd.site?_of_row (hrows.mem_iff.2 List.mem_cons_self)
      (show x ∈ (single x (.element ⟨"a:srcRect", []⟩) .nil).ids from List.mem_cons_self)
    rw [single, Forest.site?, if_pos rfl] at hsite
    rw [isNamed, name?, node?_eq_site?, hsite]
    rfl
  have hbrun : d.isNamed b "w:r" = false := isNamed_of_ne hname (by decide)
  refine ⟨d', e', hd', he', ⟨⟨h.agrees, hunfolds, h.lasts.plant_of hplanted ?_ hq
    (fun f hf => (hp f hf).1) (fun f hf => (hp f hf).2) ?_ ?_⟩, ?_⟩, ?_, hx, "a:srcRect", by decide, ?_⟩
  · intro z hz hin
    obtain rfl : z = x := by simpa [single, trees] using hz
    have hids := (hrows.flatMap_right Forest.ids).nodup_iff.1 hd.nodup
    exact (List.nodup_append.1 hids).2.2 z List.mem_cons_self z (hold hin) rfl
  · intro y hy hsimple hin hdisplay
    apply hdisplay.graftAfter (hd.shows_below y).nodup (hdisplay.notMem_children hd hbrun)
    intro entry hentry
    obtain rfl := List.mem_singleton.1 hentry
    exact ⟨rfl, rfl⟩
  · intro f hf hin z hz
    obtain rfl := List.mem_singleton.1 hz
    rw [hnamed, hnamed]
    exact ⟨rfl, rfl⟩
  · intro z hz hout
    rw [ids_eq_map_nodes, (hplanted.moved.perm.map Prod.fst).mem_iff, ← ids_eq_map_nodes] at hz
    exact h.plain z hz hout
  · rw [ids_eq_map_nodes, (hplanted.moved.perm.map Prod.fst).mem_iff, ← ids_eq_map_nodes,
      Document.ids, (hrows.flatMap_right Forest.ids).mem_iff]
    exact List.mem_cons_self
  · rw [isNamed, name?, hd.node?_of_perm hplanted.moved.perm]
    exact hnamed "a:srcRect"

/-- The rectangle after an image reference is found in both documents, or added to both. -/
theorem rectangle_since (h : Since c u q p v d e) (hb : Writable v d b)
    (hname : d.isNamed b "a:blip" = true) (hclear : ∀ z, d.parent? b = some z → v.frame? z = none) :
    ∃ v', Since c u q p v' (rectangle d b).2 (rectangle e (v.name b)).2 ∧
      (rectangle e (v.name b)).1 = v'.name (rectangle d b).1 ∧
      Writable v' (rectangle d b).2 (rectangle d b).1 := by
  have hd := h.unfolds.distinct
  have hfound : (e.nextElement? (v.name b)).filter (e.isNamed · "a:srcRect") =
      ((d.nextElement? b).filter (d.isNamed · "a:srcRect")).map v.name := by
    obtain ⟨s, hs⟩ := Document.exists_site? hb.mem
    obtain ⟨r, hs', hr⟩ := h.unfolds.exists_site? hs hb.frame
    have hfits : v.FitsIn (d.following b) := fun entry hentry => by
      have hshown := (hd.shows_following b).node? hentry
      exact h.unfolds.fits entry (mem_nodes_of_node? hshown)
    rw [filter_nextElement? h.unfolds.distinct', filter_nextElement? hd,
      ← leading?_unfold (by decide) (by decide) hfits, following_eq_site?, following_eq_site?, hs,
      hs', Option.map_some, Option.map_some, hr hclear]
    rfl
  unfold rectangle
  rw [hfound]
  cases hnext : (d.nextElement? b).filter (d.isNamed · "a:srcRect") with
  | some x =>
    obtain ⟨hsome, hnamed⟩ := Option.filter_eq_some_iff.1 hnext
    have hx := mem_ids_of_isNamed hnamed
    refine ⟨v, h, rfl, hx, ?_, "a:srcRect", by decide, hnamed⟩
    by_contra hframe
    have hother := isNamed_of_ne (h.unfolds.isNamed_of_unfolded hx hframe)
      (show "w:fldSimple" ≠ "a:srcRect" by decide)
    rw [hnamed] at hother
    cases hother
  | none =>
    have hspares : d.Spares d.allRows (d.createElement "a:srcRect").2 := hd.apart.create _
    obtain ⟨v₁, hext, hunfold, hnew, h₁⟩ := h.grow hq (fun f hf => (hp f hf).1) hspares
      (h.unfolds.distinct'.apart.create (.element ⟨"a:srcRect", []⟩))
      (f := single d.next (.element ⟨"a:srcRect", []⟩) .nil)
      (g := single e.next (.element ⟨"a:srcRect", []⟩) .nil) (.refl _) (.refl _) rfl
    have hx : v₁.frame? d.next = none := hnew _ List.mem_cons_self
    rw [unfold_single, Unfolding.slot_of_none hx] at hunfold
    have hxname : v₁.name d.next = e.next := (cons.inj hunfold).1
    have hname₁ : (d.createElement "a:srcRect").2.isNamed b "a:blip" = true := by
      refine (isNamed_of_name? ?_).trans hname
      rw [name?, name?, node?_eq_site?, node?_eq_site?, ← hd.apart.site?_eq hspares.apart hb.mem]
    obtain ⟨d', e', hd', he', hsince, hwritable⟩ := insertRectangle_since hq hp h₁ (.refl _)
      h.lasts.ids hx hb.mem ((hext.frame b hb.mem).trans hb.frame) hname₁
    rw [hext.name b hb.mem, hxname] at he'
    have hd'' : (d.createElement "a:srcRect").2.insertAfter b (d.createElement "a:srcRect").1 =
      some d' := hd'
    have he'' : (e.createElement "a:srcRect").2.insertAfter (v.name b)
      (e.createElement "a:srcRect").1 = some e' := he'
    simp only [Option.map_none, hd'', he'', Option.getD_some]
    exact ⟨v₁, hsince, hxname.symm, hwritable⟩

end Rectangle

/-! ## The image -/

section Image

variable (hc : c.Distinct) (hshown : Shown u c) (hx : x ∈ c.ids) (hframe : u.frame? x = none)
  (hq : ∀ y, q y ↔ c.isNamed y "w:fldSimple" = true)
  (hp : ∀ f, p f → f ∈ c.ids ∧ (f ∈ (c.below x).ids → c.isNamed f "a:blip" = false))
include hc hshown hx hframe hq hp

theorem writeCrop_since (h : Since c u q p v d e) (crop : Crop) :
    ∃ v', Since c u q p v' (writeCrop crop d x) (writeCrop crop e (v.name x)) := by
  have hmem := h.lasts.ids hx
  have hnone := h.frame? hx hframe
  unfold writeCrop
  rw [h.unfolds.find?_eq hmem hnone (by decide) (by decide) (by decide)]
  cases hfound : d.find? x "a:blip" with
  | none => exact ⟨v, h⟩
  | some b =>
    have hb := Writable.of_find? h.unfolds (by decide) hfound
    obtain ⟨hname, hbelow⟩ := h.unfolds.distinct.of_find? hfound
    have hrun : d.isNamed b "w:r" = false := isNamed_of_ne hname (by decide)
    have hlater : Shown v d := h.shown hc hshown fun z hz => .inl ((hq z).2 hz)
    obtain ⟨v', h', hsame, hwritable⟩ := rectangle_since (fun y hy => mem_ids_of_isNamed ((hq y).1 hy))
      (fun f hf => ⟨(hp f hf).1, fun heq => by
        have hinner := h.lasts.inner (hp f hf).1 (heq ▸ hbelow)
        have hother := (hp f hf).2 hinner
        rw [← h.lasts.isNamed (hp f hf).1, heq, hname] at hother
        cases hother⟩) h hb hname (hlater.clear h.unfolds.distinct hnone hbelow hrun)
    simp only [Option.map_some]
    rw [hsame]
    exact ⟨v', writeSides_since _ h' hwritable⟩

/-- An image is placed in a drawing in both documents. -/
theorem apply_since (h : Since c u q p v d e) (size : ImageSize) :
    ∃ v', Since c u q p v' (apply d x size) (apply e (v.name x) size) := by
  have hmem := h.lasts.ids hx
  have hnone := h.frame? hx hframe
  have hfind : ∀ {v d e} {y : NodeId} {name : String}, Since c u q p v d e → y ∈ d.ids →
      v.frame? y = none → name ∈ landmarks → name ∉ frameNames → name ≠ "w:fldSimple" →
      e.find? (v.name y) name = (d.find? y name).map v.name :=
    fun h hy hframe hname hframes hsimple => h.unfolds.find?_eq hy hframe hname hframes hsimple
  unfold apply
  rw [hfind h hmem hnone (by decide) (by decide) (by decide)]
  cases hfound : d.find? x "wp:extent" with
  | none => exact ⟨v, h⟩
  | some a =>
    have ha := Writable.of_find? h.unfolds (by decide) hfound
    have hdeclared : declaredExtent? e (v.name a) = declaredExtent? d a := by
      simp only [declaredExtent?, h.unfolds.attribute?_eq ha.mem ha.frame]
    have hsizing : sizing e (v.name x) = sizing d x := by
      unfold sizing
      rw [hfind h hmem hnone (by decide) (by decide) (by decide)]
      cases hpicture : d.find? x "pic:cNvPr" with
      | none => rfl
      | some y =>
        obtain ⟨hy, hframe'⟩ := h.unfolds.of_find? (by decide) hpicture
        simp only [Option.map_some, Option.bind_some, h.unfolds.attribute?_eq hy hframe']
    simp only [Option.map_some, hdeclared, hsizing]
    cases declaredExtent? d a with
    | none => exact ⟨v, h⟩
    | some frame =>
      simp only []
      generalize extent frame size (sizing d x) = placed
      have h₁ := writeExtent_since h ha placed
      generalize writeExtent placed d a = d₁ at h₁ ⊢
      generalize writeExtent placed e (v.name a) = e₁ at h₁ ⊢
      have hmem₁ := h₁.lasts.ids hx
      have hnone₁ := h₁.frame? hx hframe
      -- The transformation is searched after the extent has been written, in both documents.
      have htarget : (e₁.find? (v.name x) "a:xfrm").bind (e₁.find? · "a:ext") =
          ((d₁.find? x "a:xfrm").bind (d₁.find? · "a:ext")).map v.name := by
        rw [hfind h₁ hmem₁ hnone₁ (by decide) (by decide) (by decide)]
        cases htransform : d₁.find? x "a:xfrm" with
        | none => rfl
        | some y =>
          obtain ⟨hy, hframe'⟩ := h₁.unfolds.of_find? (by decide) htransform
          exact hfind h₁ hy hframe' (by decide) (by decide) (by decide)
      cases hext : (d₁.find? x "a:xfrm").bind (d₁.find? · "a:ext") with
      | none =>
        rw [hext, Option.map_none] at htarget
        simp only [htarget]
        cases sizing d x with
        | rect horizontal vertical => exact writeCrop_since hc hshown hx hframe hq hp h₁ _
        | fit => exact ⟨v, h₁⟩
        | auto => exact ⟨v, h₁⟩
      | some ext =>
        obtain ⟨y, -, hfound'⟩ := Option.bind_eq_some_iff.1 hext
        have h₂ := writeExtent_since h₁ (.of_find? h₁.unfolds (by decide) hfound') placed
        rw [hext, Option.map_some] at htarget
        simp only [htarget]
        cases sizing d x with
        | rect horizontal vertical => exact writeCrop_since hc hshown hx hframe hq hp h₂ _
        | fit => exact ⟨v, h₂⟩
        | auto => exact ⟨v, h₂⟩

end Image

end Placement

namespace Field

/-- An image is placed in a drawing in both documents, under the same identifier. -/
theorem placeImage_abreast (h : w.document.Unfolds v w'.document) (hsame : Merge.SameRegistries w w')
    (hshown : Shown v w.document) (hx : x ∈ w.document.ids) (hframe : v.frame? x = none)
    (hp : ∀ f, p f → f ∈ w.document.ids ∧
      (f ∈ (w.document.below x).ids → w.document.isNamed f "a:blip" = false)) (picture : Picture) :
    Abreast w.document v (fun y => w.document.isNamed y "w:fldSimple" = true) p
      (placeImage x picture) (placeImage (v.name x) picture) w w' fun _ _ _ _ => True := by
  have h₀ := Since.refl h (fun y => w.document.isNamed y "w:fldSimple" = true) p
  unfold placeImage
  have hsize : Merge.Lockstep (ofExcept picture.size) (ofExcept picture.size) w w'
      fun size size' d e => size' = size ∧ d = w.document ∧ e = w'.document :=
    Merge.lockstep_ofExcept hsame fun _ => ⟨rfl, rfl, rfl⟩
  refine hsize.bind ?_
  rintro _ w₁ size w₁' - hsame₁ ⟨rfl, hd₁, he₁⟩
  have hid : Merge.Lockstep (Merge.addImage picture) (Merge.addImage picture) w₁ w₁'
      fun id id' d e => id' = id ∧ d = w.document ∧ e = w'.document :=
    Merge.lockstep_addImage hsame₁ picture fun _ => ⟨rfl, hd₁, he₁⟩
  refine hid.bind ?_
  rintro _ w₂ id w₂' - hsame₂ ⟨rfl, hd₂, he₂⟩
  refine Merge.lockstep_edit hsame₂ ?_
  rw [hd₂, he₂, h.find?_eq hx hframe (by decide) (by decide) (by decide)]
  cases hfound : w.document.find? x "a:blip" with
  | none =>
    obtain ⟨v', h'⟩ := Placement.apply_since h.distinct hshown hx hframe (fun _ => .rfl) hp h₀ size
    exact ⟨v', h', trivial⟩
  | some b =>
    have hlinked := setAttribute_since h₀ (.of_find? h (by decide) hfound) "r:embed" id
    obtain ⟨v', h'⟩ :=
      Placement.apply_since h.distinct hshown hx hframe (fun _ => .rfl) hp hlinked size
    exact ⟨v', h', trivial⟩

end Field

end MailMerge
