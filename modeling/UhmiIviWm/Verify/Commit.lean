import UhmiIviWm.Verify.Narrowing

/-!
# What an add commits

`parse_add_properties` reads its ten fields into a copy of the destination and
copies back only where all of them were read. `parse_layer_properties` and
`parse_surface_properties` do the same around it, but for one thing: they do not
look at its result. And no read refuses an integer that does not fit. So an add is
all or nothing where the ten fields are there and their integers fit, and for a
layer also where one of `width` and `height`, whose results are looked at, is not
there (`add_all_or_nothing`).
-/

namespace UhmiIviWm

/-! ## Fields -/

/-- The integer fields of a layout. -/
def layoutIntegerKeys : List String :=
  [jsonKeySrcx, jsonKeySrcy, jsonKeySrcw, jsonKeySrch, jsonKeyDstx, jsonKeyDsty, jsonKeyDstw,
    jsonKeyDsth, jsonKeyVisibility]

/-- The object has all fields of a layout, with types the code accepts. -/
def Json.HasLayout (obj : Json) : Prop :=
  (∀ key ∈ layoutIntegerKeys, (getJsonIntegerValue (some obj) key).isSome = true) ∧
    (getJsonRealValue (some obj) jsonKeyOpacity).isSome = true

/-- The object has the two fields of a layer besides its layout. -/
def Json.HasSize (obj : Json) : Prop :=
  (getJsonIntegerValue (some obj) jsonKeyWidth).isSome = true ∧
    (getJsonIntegerValue (some obj) jsonKeyHeight).isSome = true

instance (obj : Json) : Decidable obj.HasLayout :=
  inferInstanceAs (Decidable (_ ∧ _))

instance (obj : Json) : Decidable obj.HasSize :=
  inferInstanceAs (Decidable (_ ∧ _))

/-- The integers of the layout fit. -/
def Json.LayoutInRange (obj : Json) : Prop :=
  ∀ key ∈ layoutIntegerKeys, ∀ n, integerAt obj key = some n → InRange n

/-- The integers of the two fields besides fit. -/
def Json.SizeInRange (obj : Json) : Prop :=
  ∀ key ∈ [jsonKeyWidth, jsonKeyHeight], ∀ n, integerAt obj key = some n → InRange n

/-- Every field is what the code makes of the object's value for it. -/
structure LayoutProperties.TakenFrom (lp : LayoutProperties) (obj : Json) : Prop where
  srcX : getJsonIntegerValue (some obj) jsonKeySrcx = some lp.srcX
  srcY : getJsonIntegerValue (some obj) jsonKeySrcy = some lp.srcY
  srcW : getJsonIntegerValue (some obj) jsonKeySrcw = some lp.srcW
  srcH : getJsonIntegerValue (some obj) jsonKeySrch = some lp.srcH
  dstX : getJsonIntegerValue (some obj) jsonKeyDstx = some lp.dstX
  dstY : getJsonIntegerValue (some obj) jsonKeyDsty = some lp.dstY
  dstW : getJsonIntegerValue (some obj) jsonKeyDstw = some lp.dstW
  dstH : getJsonIntegerValue (some obj) jsonKeyDsth = some lp.dstH
  opacity : getJsonRealValue (some obj) jsonKeyOpacity = some lp.opacity
  visibility : getJsonIntegerValue (some obj) jsonKeyVisibility = some lp.visibility

/-- So for a layer, with its size. -/
structure LayerProperties.Describes (prop : LayerProperties) (obj : Json) : Prop where
  width : HasInteger obj jsonKeyWidth prop.width
  height : HasInteger obj jsonKeyHeight prop.height
  lp : prop.lp.Describes obj

section Reads

variable {obj : Json}

theorem mem_layoutIntegerKeys {key : String} :
    key ∈ layoutIntegerKeys ↔ key ∈ layoutFields.map Prod.fst := Iff.rfl

theorem LayoutProperties.TakenFrom.field {lp : LayoutProperties} (h : lp.TakenFrom obj) :
    ∀ field ∈ layoutFields, getJsonIntegerValue (some obj) field.1 = some (field.2 lp) := by
  intro field hfield
  simp only [layoutFields, List.mem_cons, List.not_mem_nil, or_false] at hfield
  rcases hfield with rfl | rfl | rfl | rfl | rfl | rfl | rfl | rfl | rfl
  · exact h.srcX
  · exact h.srcY
  · exact h.srcW
  · exact h.srcH
  · exact h.dstX
  · exact h.dstY
  · exact h.dstW
  · exact h.dstH
  · exact h.visibility

theorem LayoutProperties.TakenFrom.hasLayout {lp : LayoutProperties} (h : lp.TakenFrom obj) :
    obj.HasLayout := by
  refine ⟨fun key hkey => ?_, by rw [h.opacity]; rfl⟩
  obtain ⟨field, hfield, rfl⟩ := List.mem_map.mp (mem_layoutIntegerKeys.mp hkey)
  rw [h.field field hfield]
  rfl

theorem LayoutProperties.TakenFrom.describes_iff {lp : LayoutProperties} (h : lp.TakenFrom obj) :
    lp.Describes obj ↔ obj.LayoutInRange := by
  rw [UhmiIviWm.describes_iff, and_iff_left (hasNumber_iff.mpr h.opacity)]
  constructor
  · intro hgives key hkey
    obtain ⟨field, hfield, rfl⟩ := List.mem_map.mp (mem_layoutIntegerKeys.mp hkey)
    exact (hasInteger_iff (h.field field hfield)).mp (hgives field hfield)
  · refine fun hrange field hfield => (hasInteger_iff (h.field field hfield)).mpr ?_
    exact hrange field.1 (mem_layoutIntegerKeys.mpr (List.mem_map_of_mem hfield))

theorem LayoutProperties.TakenFrom.read {lp : LayoutProperties} (h : lp.TakenFrom obj) :
    readAddProperties (some obj) = some lp := by
  simp only [readAddProperties, h.srcX, h.srcY, h.srcW, h.srcH, h.dstX, h.dstY, h.dstW, h.dstH,
    h.opacity, h.visibility]
  rfl

/-- An object with all fields of a layout has a layout. -/
theorem Json.HasLayout.exists_takenFrom (h : obj.HasLayout) :
    ∃ lp : LayoutProperties, lp.TakenFrom obj := by
  have hinteger : ∀ key ∈ layoutIntegerKeys, ∃ v, getJsonIntegerValue (some obj) key = some v :=
    fun key hkey => Option.isSome_iff_exists.mp (h.1 key hkey)
  obtain ⟨srcX, hsrcX⟩ := hinteger jsonKeySrcx (by decide)
  obtain ⟨srcY, hsrcY⟩ := hinteger jsonKeySrcy (by decide)
  obtain ⟨srcW, hsrcW⟩ := hinteger jsonKeySrcw (by decide)
  obtain ⟨srcH, hsrcH⟩ := hinteger jsonKeySrch (by decide)
  obtain ⟨dstX, hdstX⟩ := hinteger jsonKeyDstx (by decide)
  obtain ⟨dstY, hdstY⟩ := hinteger jsonKeyDsty (by decide)
  obtain ⟨dstW, hdstW⟩ := hinteger jsonKeyDstw (by decide)
  obtain ⟨dstH, hdstH⟩ := hinteger jsonKeyDsth (by decide)
  obtain ⟨opacity, hopacity⟩ := Option.isSome_iff_exists.mp h.2
  obtain ⟨visibility, hvisibility⟩ := hinteger jsonKeyVisibility (by decide)
  exact ⟨⟨srcX, srcY, srcW, srcH, dstX, dstY, dstW, dstH, opacity, visibility⟩,
    ⟨hsrcX, hsrcY, hsrcW, hsrcH, hdstX, hdstY, hdstW, hdstH, hopacity, hvisibility⟩⟩

/-- `parse_add_properties` itself is all or nothing. -/
theorem parseAddProperties_cases (dst : LayoutProperties) (obj : Json) :
    (∃ lp : LayoutProperties, lp.TakenFrom obj ∧ parseAddProperties dst (some obj) = (0, lp)) ∨
      ¬ obj.HasLayout ∧ parseAddProperties dst (some obj) = (-1, dst) := by
  by_cases h : obj.HasLayout
  · obtain ⟨lp, hlp⟩ := h.exists_takenFrom
    refine .inl ⟨lp, hlp, ?_⟩
    rw [parseAddProperties, hlp.read]
  · refine .inr ⟨h, ?_⟩
    cases hread : readAddProperties (some obj) with
    | none => rw [parseAddProperties, hread]
    | some lp =>
      -- a read that succeeds has read every field
      refine absurd ?_ h
      simp only [readAddProperties, bind, pure, Option.bind_eq_some_iff] at hread
      obtain ⟨srcX, hsrcX, srcY, hsrcY, srcW, hsrcW, srcH, hsrcH, dstX, hdstX, dstY, hdstY, dstW,
        hdstW, dstH, hdstH, opacity, hopacity, visibility, hvisibility, -⟩ := hread
      have hlp : LayoutProperties.TakenFrom ⟨srcX, srcY, srcW, srcH, dstX, dstY, dstW, dstH,
          opacity, visibility⟩ obj :=
        ⟨hsrcX, hsrcY, hsrcW, hsrcH, hdstX, hdstY, hdstW, hdstH, hopacity, hvisibility⟩
      exact hlp.hasLayout

end Reads

/-! ## All or nothing -/

/-- A parse either reports success, for a complete object, having read it into the
destination, or reports failure, for an incomplete one, leaving the destination alone. -/
def AllOrNothing {P : Type} (result : Int × P) (dst : P) (complete : Prop) (read : P → Prop) :
    Prop :=
  result.1 = 0 ∧ complete ∧ read result.2 ∨ result.1 = -1 ∧ ¬ complete ∧ result.2 = dst

/-- Parsing the properties of a layer that is added. -/
def LayerAllOrNothing (dst : LayerProperties) (obj : Json) : Prop :=
  AllOrNothing (parseLayerProperties dst (some obj) .add) dst (obj.HasSize ∧ obj.HasLayout)
    (·.Describes obj)

/-- Parsing the properties of a surface that is added. -/
def SurfaceAllOrNothing (dst : SurfaceProperties) (obj : Json) : Prop :=
  AllOrNothing (parseSurfaceProperties dst (some obj) .add) dst obj.HasLayout
    fun prop => prop.referredCnt = dst.referredCnt ∧ prop.lp.Describes obj

section Laws

variable {obj : Json}

theorem parseLayerProperties_of_not_hasSize (dst : LayerProperties) (h : ¬ obj.HasSize) :
    parseLayerProperties dst (some obj) .add = (-1, dst) := by
  simp only [parseLayerProperties, if_true]
  cases hwidth : getJsonIntegerValue (some obj) jsonKeyWidth with
  | none => rfl
  | some width =>
    cases hheight : getJsonIntegerValue (some obj) jsonKeyHeight with
    | none => rfl
    | some height =>
      exact absurd ⟨by rw [hwidth]; rfl, by rw [hheight]; rfl⟩ h

theorem layer_allOrNothing (dst : LayerProperties) :
    LayerAllOrNothing dst obj ↔
      obj.HasLayout ∧ obj.LayoutInRange ∧ obj.SizeInRange ∨ ¬ obj.HasSize := by
  by_cases hsize : obj.HasSize
  · obtain ⟨width, hwidth⟩ := Option.isSome_iff_exists.mp hsize.1
    obtain ⟨height, hheight⟩ := Option.isSome_iff_exists.mp hsize.2
    have hparse : parseLayerProperties dst (some obj) .add =
        (0, ⟨width, height, (parseAddProperties dst.lp (some obj)).2⟩) := by
      simp only [parseLayerProperties, if_true, hwidth, hheight]
    have hkeys : obj.SizeInRange ↔
        HasInteger obj jsonKeyWidth width ∧ HasInteger obj jsonKeyHeight height := by
      rw [hasInteger_iff hwidth, hasInteger_iff hheight]
      exact List.forall_mem_cons.trans (and_congr_right' List.forall_mem_singleton)
    rw [LayerAllOrNothing, hparse, or_iff_left (not_not_intro hsize)]
    rcases parseAddProperties_cases dst.lp obj with ⟨lp, hlp, hadd⟩ | ⟨hlayout, -⟩
    · rw [hadd, hkeys, ← hlp.describes_iff]
      constructor
      · rintro (⟨-, -, hread⟩ | ⟨hret, -⟩)
        · exact ⟨hlp.hasLayout, hread.lp, hread.width, hread.height⟩
        · exact absurd hret (by decide : (0 : Int) ≠ -1)
      · rintro ⟨hlayout, hread, hw, hh⟩
        exact .inl ⟨rfl, ⟨hsize, hlayout⟩, hw, hh, hread⟩
    · -- success is reported, the layout not being there
      refine iff_of_false ?_ fun h => hlayout h.1
      rintro (⟨-, ⟨-, h⟩, -⟩ | ⟨h, -⟩)
      · exact hlayout h
      · exact absurd h (by decide : (0 : Int) ≠ -1)
  · refine iff_of_true (.inr ?_) (.inr hsize)
    rw [parseLayerProperties_of_not_hasSize dst hsize]
    exact ⟨rfl, fun h => hsize h.1, rfl⟩

theorem surface_allOrNothing (dst : SurfaceProperties) :
    SurfaceAllOrNothing dst obj ↔ obj.HasLayout ∧ obj.LayoutInRange := by
  have hparse : parseSurfaceProperties dst (some obj) .add =
      (0, { dst with lp := (parseAddProperties dst.lp (some obj)).2 }) := by
    simp only [parseSurfaceProperties, if_true]
  rw [SurfaceAllOrNothing, hparse]
  rcases parseAddProperties_cases dst.lp obj with ⟨lp, hlp, hadd⟩ | ⟨hlayout, -⟩
  · rw [hadd, ← hlp.describes_iff]
    constructor
    · rintro (⟨-, -, -, hread⟩ | ⟨hret, -⟩)
      · exact ⟨hlp.hasLayout, hread⟩
      · exact absurd hret (by decide : (0 : Int) ≠ -1)
    · exact fun ⟨hlayout, hread⟩ => .inl ⟨rfl, hlayout, rfl, hread⟩
  · refine iff_of_false ?_ fun h => hlayout h.1
    rintro (⟨-, h, -⟩ | ⟨h, -⟩)
    · exact hlayout h
    · exact absurd h (by decide : (0 : Int) ≠ -1)

end Laws

/-- What it takes for the parse of an added element to be all or nothing. -/
theorem add_all_or_nothing (obj : Json) :
    (∀ dst, LayerAllOrNothing dst obj ↔
      obj.HasLayout ∧ obj.LayoutInRange ∧ obj.SizeInRange ∨ ¬ obj.HasSize) ∧
      ∀ dst, SurfaceAllOrNothing dst obj ↔ obj.HasLayout ∧ obj.LayoutInRange :=
  ⟨layer_allOrNothing, surface_allOrNothing⟩

/-- A layer object with `width` and `height` alone: its parse reports success and keeps the old
layout. -/
theorem add_half_done :
    ¬ ∀ obj, (∀ dst, LayerAllOrNothing dst obj) ∧ ∀ dst, SurfaceAllOrNothing dst obj := by
  intro h
  have hlayer := (h (.object [(jsonKeyWidth, .integer 800), (jsonKeyHeight, .integer 600)])).1 .zero
  rcases hlayer with ⟨-, ⟨-, hlayout⟩, -⟩ | ⟨hret, -⟩
  · exact absurd hlayout (by decide)
  · exact absurd hret (by decide)

end UhmiIviWm
