import UhmiIviWm.Verify.Calls
import UhmiIviWm.Verify.Tree

/-!
# What each call does to the layout

The effect of each call in closed form, in the tree and in the property store.
A put takes the element out and inserts it, whether it was there before or not;
so a surface put is one write to its layer (`reinsert`), and a layer put one
write to its screen.

The store is read through `record`, the properties held for a surface.
-/

namespace UhmiIviWm

open Lib.KeyedList

/-! ## Surfaces in the tree -/

/-- Takes a surface out of a layer. -/
def dropSurface (surfaceId : Id) (e : LayerElm) : LayerElm :=
  { e with listHead := e.listHead.eraseP (·.id == surfaceId) }

/-- Takes a surface out of a layer, if it is there, and inserts it. -/
def reinsert (surfaceId : Id) (info : InsertInfo) (e : LayerElm) : LayerElm :=
  { e with listHead :=
      insertListElement (e.listHead.eraseP (·.id == surfaceId)) ⟨surfaceId, (), []⟩ info }

@[simp] theorem dropSurface_id (surfaceId : Id) (e : LayerElm) :
    (dropSurface surfaceId e).id = e.id := rfl

@[simp] theorem dropSurface_prop (surfaceId : Id) (e : LayerElm) :
    (dropSurface surfaceId e).prop = e.prop := rfl

@[simp] theorem reinsert_id (surfaceId : Id) (info : InsertInfo) (e : LayerElm) :
    (reinsert surfaceId info e).id = e.id := rfl

@[simp] theorem reinsert_prop (surfaceId : Id) (info : InsertInfo) (e : LayerElm) :
    (reinsert surfaceId info e).prop = e.prop := rfl

section Surfaces

variable {t : List ScreenElm} {layerElm surfaceId : Id} {info : InsertInfo} {e : LayerElm}

theorem mem_ids_dropSurface {x : Id} (nd : (ids e.listHead).Nodup) :
    x ∈ ids (dropSurface surfaceId e).listHead ↔ x ∈ ids e.listHead ∧ x ≠ surfaceId := by
  rw [dropSurface, ids_eraseP, nd.mem_erase_iff, and_comm]

theorem mem_ids_reinsert {x : Id} (nd : (ids e.listHead).Nodup) :
    x ∈ ids (reinsert surfaceId info e).listHead ↔
      info.order ≠ .none ∧ x = surfaceId ∨ x ∈ ids e.listHead ∧ x ≠ surfaceId := by
  rw [reinsert, mem_ids_insertListElement, ids_eraseP, nd.mem_erase_iff, and_comm (a := x ≠ _)]

theorem nodup_dropSurface (nd : (ids e.listHead).Nodup) :
    (ids (dropSurface surfaceId e).listHead).Nodup := by
  rw [dropSurface, ids_eraseP]
  exact nd.erase surfaceId

theorem nodup_reinsert (nd : (ids e.listHead).Nodup) :
    (ids (reinsert surfaceId info e).listHead).Nodup := by
  refine nodup_insertListElement (nodup_dropSurface nd) ?_
  rw [ids_eraseP]
  exact nd.not_mem_erase

/-- An element of a surface list is its id. -/
theorem surfaceElm_eq {x : SurfaceElm} (h : x.id = surfaceId) : x = ⟨surfaceId, (), []⟩ := by
  obtain ⟨id, prop, listHead⟩ := x
  cases listHead with
  | nil => rw [← h]
  | cons y _ => exact nomatch y

theorem getSurface_eq_none :
    getSurface t layerElm surfaceId = none ↔
      ∀ e, getLayer t layerElm = some e → surfaceId ∉ ids e.listHead := by
  simp only [getSurface, Option.bind_eq_none_iff, getListElement_eq_none]

theorem getSurface_isSome :
    (getSurface t layerElm surfaceId).isSome = true ↔
      ∃ e, getLayer t layerElm = some e ∧ surfaceId ∈ ids e.listHead := by
  simp only [getSurface, Option.isSome_bind, Option.any_eq_true, getListElement_isSome]

/-- Popping a surface that is not there does nothing. -/
theorem popSurface_of_none (h : getSurface t layerElm surfaceId = none) :
    (popSurface t layerElm surfaceId).2 = t := by
  refine updateLayer_id fun e he => ?_
  have hnot := getSurface_eq_none.mp h e he
  have hlist : e.listHead.eraseP (·.id == surfaceId) = e.listHead :=
    eraseP_key_of_find?_none (getListElement_eq_none.mpr hnot)
  simp only [popListElement, hlist]

theorem popSurface_snd :
    (popSurface t layerElm surfaceId).2 = updateLayer t layerElm (dropSurface surfaceId) := rfl

theorem screenHead_removeSurface (wm : Wm) :
    ((Call.removeSurface layerElm surfaceId).layout wm).screenHead =
      updateLayer wm.screenHead layerElm (dropSurface surfaceId) := by
  simp only [Call.layout, removeSurface]
  cases h : getSurface wm.screenHead layerElm surfaceId with
  | none =>
    have hp : popSurface wm.screenHead layerElm surfaceId = (none, wm.screenHead) :=
      Prod.ext h (popSurface_of_none h)
    rw [hp, ← popSurface_snd, popSurface_of_none h]
  | some x =>
    have hp : popSurface wm.screenHead layerElm surfaceId =
        (some x, updateLayer wm.screenHead layerElm (dropSurface surfaceId)) := Prod.ext h rfl
    rw [hp]

theorem surfacePropertiesHead_removeSurface (wm : Wm) :
    ((Call.removeSurface layerElm surfaceId).layout wm).surfacePropertiesHead =
      if (getSurface wm.screenHead layerElm surfaceId).isSome then
        removeSurfaceProperties wm.surfacePropertiesHead surfaceId
      else wm.surfacePropertiesHead := by
  simp only [Call.layout, removeSurface]
  cases h : getSurface wm.screenHead layerElm surfaceId with
  | none =>
    have hp : popSurface wm.screenHead layerElm surfaceId = (none, wm.screenHead) :=
      Prod.ext h (popSurface_of_none h)
    simp [hp]
  | some x =>
    have hp : popSurface wm.screenHead layerElm surfaceId =
        (some x, updateLayer wm.screenHead layerElm (dropSurface surfaceId)) := Prod.ext h rfl
    simp [hp]

theorem screenHead_putSurface {wm : Wm} {obj : Json} {prop : SurfaceProperties}
    (h : wm.surfaceToPut layerElm obj surfaceId = some prop) :
    ((Call.putSurface layerElm obj surfaceId info).layout wm).screenHead =
      updateLayer wm.screenHead layerElm (reinsert surfaceId info) := by
  simp only [Call.layout, h]
  cases hs : getSurface wm.screenHead layerElm surfaceId with
  | none =>
    refine updateLayer_congr fun e he => ?_
    have hnot := getSurface_eq_none.mp hs e he
    rw [reinsert, eraseP_key_of_find?_none (getListElement_eq_none.mpr hnot)]
  | some x =>
    have hx : x = ⟨surfaceId, (), []⟩ := by
      obtain ⟨e, -, hx⟩ := Option.bind_eq_some_iff.mp hs
      exact surfaceElm_eq (mem_of_getListElement hx).2
    dsimp only
    rw [popSurface_snd, updateLayer_updateLayer (dropSurface_id surfaceId), hx]
    rfl

theorem surfacePropertiesHead_putSurface {wm : Wm} {obj : Json} {prop : SurfaceProperties}
    (h : wm.surfaceToPut layerElm obj surfaceId = some prop) :
    ((Call.putSurface layerElm obj surfaceId info).layout wm).surfacePropertiesHead =
      if (getSurface wm.screenHead layerElm surfaceId).isSome then
        updateSurfaceProperties wm.surfacePropertiesHead surfaceId prop
      else (addSurfaceProperties wm.surfacePropertiesHead prop surfaceId).2 := by
  simp only [Call.layout, h]
  cases hs : getSurface wm.screenHead layerElm surfaceId <;> rfl

end Surfaces

/-! ## Layers in the tree -/

def insertLayer (e : LayerElm) (info : InsertInfo) (s : ScreenElm) : ScreenElm :=
  { s with listHead := insertListElement s.listHead e info }

@[simp] theorem insertLayer_id (e : LayerElm) (info : InsertInfo) (s : ScreenElm) :
    (insertLayer e info s).id = s.id := rfl

@[simp] theorem layerToPut_id (wm : Wm) (obj : Json) (layerId : Id) :
    (wm.layerToPut obj layerId).id = layerId := by
  unfold Wm.layerToPut
  cases h : getLayer wm.screenHead layerId with
  | none => rfl
  | some e => exact (mem_of_getLayer h).2

section Layers

variable {t : List ScreenElm} {screenElm layerId : Id} {info : InsertInfo} {e x : LayerElm}

theorem mem_layersOf_popLayer (nd : (ids (layersOf t)).Nodup) :
    x ∈ layersOf (popLayer t layerId).2 ↔ x ∈ layersOf t ∧ x.id ≠ layerId := by
  rw [layersOf_popLayer]
  exact mem_eraseP_key nd

/-- A layer is inserted on a screen of the tree under an order the code knows. -/
def Inserts (t : List ScreenElm) (screenElm : Id) (info : InsertInfo) : Prop :=
  info.order ≠ .none ∧ screenElm ∈ ids t

instance : Decidable (Inserts t screenElm info) :=
  inferInstanceAs (Decidable (info.order ≠ .none ∧ screenElm ∈ ids t))

theorem inserts_popLayer :
    Inserts (popLayer t layerId).2 screenElm info ↔ Inserts t screenElm info := by
  rw [Inserts, Inserts, ids_popLayer]

theorem updateScreen_insertLayer_of_not (h : ¬ Inserts t screenElm info) :
    updateScreen t screenElm (insertLayer e info) = t := by
  by_cases hs : screenElm ∈ ids t
  · have horder : info.order = .none := by
      by_contra ho
      exact h ⟨ho, hs⟩
    refine updateFirst_id fun s _ => ?_
    rw [insertLayer, insertListElement_none horder]
  · exact updateScreen_of_notMem hs

theorem layersOf_insertLayer_perm (h : Inserts t screenElm info) :
    (layersOf (updateScreen t screenElm (insertLayer e info))).Perm (e :: layersOf t) :=
  layersOf_updateScreen_perm h.2 h.1

theorem mem_layersOf_insertLayer :
    x ∈ layersOf (updateScreen t screenElm (insertLayer e info)) ↔
      Inserts t screenElm info ∧ x = e ∨ x ∈ layersOf t := by
  by_cases h : Inserts t screenElm info
  · rw [(layersOf_insertLayer_perm h).mem_iff, List.mem_cons]
    simp only [h, true_and]
  · rw [updateScreen_insertLayer_of_not h]
    simp only [h, false_and, false_or]

theorem screenHead_putLayer (wm : Wm) (obj : Json) :
    ((Call.putLayer screenElm obj layerId info).layout wm).screenHead =
      updateScreen (popLayer wm.screenHead layerId).2 screenElm
        (insertLayer (wm.layerToPut obj layerId) info) := by
  simp only [Call.layout]
  cases getLayer wm.screenHead layerId <;> rfl

theorem surfacePropertiesHead_putLayer (wm : Wm) (obj : Json) :
    ((Call.putLayer screenElm obj layerId info).layout wm).surfacePropertiesHead =
      wm.surfacePropertiesHead := by
  simp only [Call.layout]
  cases getLayer wm.screenHead layerId <;> rfl

theorem popLayer_eq (t : List ScreenElm) (layerId : Id) :
    popLayer t layerId = (getLayer t layerId, (popLayer t layerId).2) :=
  Prod.ext (popLayer_fst t layerId) rfl

theorem screenHead_removeLayer (wm : Wm) :
    ((Call.removeLayer layerId).layout wm).screenHead = (popLayer wm.screenHead layerId).2 := by
  simp only [Call.layout, removeLayer]
  rw [popLayer_eq]
  cases h : getLayer wm.screenHead layerId with
  | none => exact (popLayer_of_none h).symm
  | some e => rfl

theorem surfacePropertiesHead_removeLayer (wm : Wm) :
    ((Call.removeLayer layerId).layout wm).surfacePropertiesHead =
      match getLayer wm.screenHead layerId with
      | none => wm.surfacePropertiesHead
      | some e => removeAllSurface wm.surfacePropertiesHead e := by
  simp only [Call.layout, removeLayer]
  rw [popLayer_eq]
  cases getLayer wm.screenHead layerId <;> rfl

theorem screenHead_addScreen (wm : Wm) (screenId : Id) :
    (addScreen wm screenId).screenHead = wm.screenHead ++ [⟨screenId, (), []⟩] := rfl

theorem layersOf_addScreen (wm : Wm) (screenId : Id) :
    layersOf (addScreen wm screenId).screenHead = layersOf wm.screenHead := by
  rw [screenHead_addScreen, layersOf, List.flatMap_append]
  exact List.append_nil _

end Layers

/-! ## Records -/

/-- The properties a store holds for a surface. -/
def record (store : List SurfacePropertiesElm) (surfaceId : Id) : Option SurfaceProperties :=
  (getListElement store surfaceId).map (·.prop)

/-- What `remove_surface_properties` makes of a record: one reference fewer, or
nothing where none is left. -/
def release (prop : SurfaceProperties) : Option SurfaceProperties :=
  if prop.referredCnt - 1 = 0 then none
  else some { prop with referredCnt := prop.referredCnt - 1 }

section Records

variable {store : List SurfacePropertiesElm} {surfaceId : Id} {prop : SurfaceProperties}

theorem record_isSome : (record store surfaceId).isSome = true ↔ surfaceId ∈ ids store := by
  rw [record, Option.isSome_map, getListElement_isSome]

theorem record_eq_none : record store surfaceId = none ↔ surfaceId ∉ ids store := by
  rw [record, Option.map_eq_none_iff, getListElement_eq_none]

theorem ids_updateSurfaceProperties :
    ids (updateSurfaceProperties store surfaceId prop) = ids store :=
  ids_updateFirst fun _ => by rfl

theorem record_updateSurfaceProperties (x : Id) :
    record (updateSurfaceProperties store surfaceId prop) x =
      if x = surfaceId then (record store x).map fun _ => prop else record store x := by
  have hfind : getListElement (updateSurfaceProperties store surfaceId prop) x =
      if x = surfaceId then (getListElement store x).map fun e => { e with prop }
      else getListElement store x := find?_updateFirst (fun _ => by rfl) x
  rw [record, record, hfind]
  split
  · rw [Option.map_map, Option.map_map]
    rfl
  · rfl

theorem record_addSurfaceProperties (x : Id) :
    record (addSurfaceProperties store prop surfaceId).2 x =
      if x = surfaceId then some { prop with referredCnt := prop.referredCnt + 1 }
      else record store x := by
  simp only [addSurfaceProperties]
  rw [record_updateSurfaceProperties]
  cases h : getListElement store surfaceId with
  | some e =>
    split
    · rename_i hx
      rw [hx, record, h]
      rfl
    · rfl
  | none =>
    simp only [insertListElement, insertInfoDefault, record, getListElement, List.find?_append]
    split
    · rename_i hx
      subst hx
      have hnone : store.find? (·.id == x) = none := h
      simp [hnone]
    · rename_i hx
      have hne : (surfaceId == x) = false := by simpa using fun e => hx e.symm
      simp [hne]

theorem nodup_addSurfaceProperties (nd : (ids store).Nodup) :
    (ids (addSurfaceProperties store prop surfaceId).2).Nodup := by
  simp only [addSurfaceProperties]
  rw [ids_updateSurfaceProperties]
  cases h : getListElement store surfaceId with
  | some e => exact nd
  | none => exact nodup_insertListElement nd (getListElement_eq_none.mp h)

theorem removeSurfaceProperties_eq :
    removeSurfaceProperties store surfaceId =
      match (record store surfaceId).bind release with
      | none => store.eraseP (·.id == surfaceId)
      | some prop => updateSurfaceProperties store surfaceId prop := by
  unfold removeSurfaceProperties
  cases h : getListElement store surfaceId with
  | none =>
    simp only [record, h, Option.map_none, Option.bind_none]
    exact (eraseP_key_of_find?_none h).symm
  | some e =>
    simp only [record, h, Option.map_some, Option.bind_some, release]
    split <;> rfl

theorem nodup_removeSurfaceProperties (nd : (ids store).Nodup) :
    (ids (removeSurfaceProperties store surfaceId)).Nodup := by
  rw [removeSurfaceProperties_eq]
  split
  · rw [ids_eraseP]
    exact nd.erase surfaceId
  · rwa [ids_updateSurfaceProperties]

theorem record_removeSurfaceProperties (nd : (ids store).Nodup) (x : Id) :
    record (removeSurfaceProperties store surfaceId) x =
      if x = surfaceId then (record store x).bind release else record store x := by
  rw [removeSurfaceProperties_eq]
  by_cases hx : x = surfaceId
  · subst hx
    rw [if_pos rfl]
    cases h : (record store x).bind release with
    | none =>
      rw [record_eq_none, ids_eraseP]
      exact nd.not_mem_erase
    | some prop =>
      obtain ⟨r, hr, -⟩ := Option.bind_eq_some_iff.mp h
      rw [record_updateSurfaceProperties, if_pos rfl, hr, Option.map_some]
  · rw [if_neg hx]
    split
    · rw [record, record]
      exact congrArg _ (find?_eraseP_of_ne hx)
    · rw [record_updateSurfaceProperties, if_neg hx]

theorem nodup_removeAllSurface {e : LayerElm} (nd : (ids store).Nodup) :
    (ids (removeAllSurface store e)).Nodup := by
  unfold removeAllSurface
  induction e.listHead generalizing store with
  | nil => exact nd
  | cons s rest ih => exact ih (nodup_removeSurfaceProperties nd)

/-- `remove_all` releases the surfaces of all layers, one layer after the other. -/
theorem surfacePropertiesHead_removeAll (wm : Wm) :
    (removeAll wm).surfacePropertiesHead =
      (layersOf wm.screenHead).foldl removeAllSurface wm.surfacePropertiesHead := by
  rw [layersOf, List.foldl_flatMap]
  rfl

theorem nodup_removeAll {wm : Wm} (nd : (ids wm.surfacePropertiesHead).Nodup) :
    (ids (removeAll wm).surfacePropertiesHead).Nodup := by
  rw [surfacePropertiesHead_removeAll]
  generalize wm.surfacePropertiesHead = store at nd
  induction layersOf wm.screenHead generalizing store with
  | nil => exact nd
  | cons e rest ih => exact ih _ (nodup_removeAllSurface nd)

theorem record_removeAllSurface {e : LayerElm} (nd : (ids store).Nodup)
    (ndS : (ids e.listHead).Nodup) (x : Id) :
    record (removeAllSurface store e) x =
      if x ∈ ids e.listHead then (record store x).bind release else record store x := by
  unfold removeAllSurface
  generalize e.listHead = l at ndS ⊢
  induction l generalizing store with
  | nil => simp
  | cons s rest ih =>
    rw [ids_cons, List.nodup_cons] at ndS
    rw [List.foldl_cons, ih (nodup_removeSurfaceProperties nd) ndS.2,
      record_removeSurfaceProperties nd, ids_cons]
    by_cases hx : x = s.id
    · subst hx
      simp [ndS.1]
    · simp [hx]

end Records

end UhmiIviWm
