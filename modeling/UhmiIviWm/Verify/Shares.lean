import UhmiIviWm.Lib.Noninterference
import UhmiIviWm.Verify.Merge
import UhmiIviWm.Verify.Scope

/-!
# The layers and surfaces of one client

What there is of the layout within a share (`Wm.part`) is left alone by the calls that
name nothing of it, and what a call that stays within it makes of it can be told from it
alone (`unwinds_calls`). For that a layer and the surfaces in it have to be on the same
side, and what the locals of `decide_add_or_update_layer` and
`decide_add_or_update_surface` hold must be the same each time, since a call of somebody
else's moves on what is found there (`Wm.Divided`).
-/

namespace UhmiIviWm

open Lib.KeyedList Lib.Noninterference

/-- The layers and surfaces of one client. -/
structure Share where
  layers : Id → Bool
  surfaces : Id → Bool

namespace Share

def own (k : Share) : Scope := ⟨fun l => k.layers l = true, fun s => k.surfaces s = true⟩

def rest (k : Share) : Scope := ⟨fun l => k.layers l = false, fun s => k.surfaces s = false⟩

/-- A screen with the layers of the share alone. -/
def screen (k : Share) (s : ScreenElm) : ScreenElm :=
  { s with listHead := s.listHead.filter fun e => k.layers e.id }

/-- The records of the share. -/
def store (k : Share) (store : List SurfacePropertiesElm) : List SurfacePropertiesElm :=
  store.filter fun e => k.surfaces e.id

end Share

/-- What there is of the share, on all the screens. -/
def Wm.part (k : Share) (wm : Wm) : Wm :=
  { wm with
    screenHead := wm.screenHead.map k.screen
    surfacePropertiesHead := k.store wm.surfacePropertiesHead }

/-- The surfaces in a layer are on its side. -/
def LayerElm.OneSided (k : Share) (e : LayerElm) : Prop :=
  ∀ s ∈ ids e.listHead, k.surfaces s = k.layers e.id

/-- No layer has surfaces of both sides, and the locals hold the same each time. -/
structure Wm.Divided (k : Share) (wm : Wm) : Prop where
  layers : ∀ e ∈ layersOf wm.screenHead, LayerElm.OneSided k e
  uninit : ∀ n, wm.uninit n = wm.uninit 0

variable {k : Share}

/-! ## Layers -/

section Layers

variable {t : List ScreenElm} {layerId surfaceId : Id}

@[simp] theorem screen_id (s : ScreenElm) : (k.screen s).id = s.id := rfl

theorem getLayer_part (hl : k.layers layerId = true) :
    getLayer (t.map k.screen) layerId = getLayer t layerId := by
  rw [getLayer, getLayer, List.findSome?_map]
  congr 1
  funext s
  exact find?_filter_key hl

theorem getSurface_part (hl : k.layers layerId = true) :
    getSurface (t.map k.screen) layerId surfaceId = getSurface t layerId surfaceId := by
  rw [getSurface, getSurface, getLayer_part hl]

theorem popLayer_part (hl : k.layers layerId = true) :
    (popLayer (t.map k.screen) layerId).2 = (popLayer t layerId).2.map k.screen := by
  induction t with
  | nil => rfl
  | cons s t ih =>
    have hfind : (k.screen s).listHead.find? (·.id == layerId) =
        s.listHead.find? (·.id == layerId) := find?_filter_key hl
    have herase : (s.listHead.eraseP (·.id == layerId)).filter (fun e => k.layers e.id) =
        (s.listHead.filter fun e => k.layers e.id).eraseP (·.id == layerId) := filter_eraseP_key hl
    simp only [List.map_cons, popLayer, popListElement, hfind]
    cases s.listHead.find? (·.id == layerId) with
    | none => exact congrArg (k.screen s :: ·) ih
    | some e => simp only [List.map_cons, Share.screen, herase]

theorem popLayer_spared (hl : k.layers layerId = false) :
    (popLayer t layerId).2.map k.screen = t.map k.screen := by
  induction t with
  | nil => rfl
  | cons s t ih =>
    have herase : (s.listHead.eraseP (·.id == layerId)).filter (fun e => k.layers e.id) =
        s.listHead.filter fun e => k.layers e.id := filter_eraseP_key_of_not hl
    simp only [popLayer, popListElement]
    cases s.listHead.find? (·.id == layerId) with
    | none => exact congrArg (k.screen s :: ·) ih
    | some e => simp only [List.map_cons, Share.screen, herase]

variable {f : LayerElm → LayerElm}

theorem updateLayer_part (hl : k.layers layerId = true) (hf : ∀ e, (f e).id = e.id) :
    (updateLayer t layerId f).map k.screen = updateLayer (t.map k.screen) layerId f := by
  refine updateFirst_map (fun s _ => any_filter_key hl) fun s => ?_
  have hlist : (updateFirst (·.id == layerId) f s.listHead).filter (fun e => k.layers e.id) =
      updateFirst (·.id == layerId) f (s.listHead.filter fun e => k.layers e.id) :=
    filter_updateFirst_key hf hl
  simp only [Share.screen, hlist]

theorem updateLayer_spared (hl : k.layers layerId = false) (hf : ∀ e, (f e).id = e.id) :
    (updateLayer t layerId f).map k.screen = t.map k.screen := by
  refine map_updateFirst fun s _ => ?_
  have hlist : (updateFirst (·.id == layerId) f s.listHead).filter (fun e => k.layers e.id) =
      s.listHead.filter fun e => k.layers e.id := filter_updateFirst_key_of_not hf hl
  simp only [Share.screen, hlist]

/-! ### Insertions -/

section Lists

variable {P C : Type} {q : Id → Bool} {l : List (ListElement P C)} {e : ListElement P C}
  {info : InsertInfo}

theorem filter_insertListElement (he : q e.id = true)
    (hinfo : info.order = .before ∨ info.order = .after → q info.refid = true) :
    (insertListElement l e info).filter (fun e => q e.id) =
      insertListElement (l.filter fun e => q e.id) e info := by
  obtain ⟨order, refid⟩ := info
  cases order with
  | none => rfl
  | prepend => exact List.filter_cons_of_pos he
  | append => simp [insertListElement, he]
  | before => exact filter_insertBefore_key (hinfo (.inl rfl)) he
  | after => exact filter_insertAfter_key (hinfo (.inr rfl)) he

theorem filter_insertListElement_of_not (he : q e.id = false) :
    (insertListElement l e info).filter (fun e => q e.id) = l.filter fun e => q e.id := by
  unfold insertListElement
  split
  · simp [he]
  · simp [he]
  · exact filter_insertBefore_key_of_not he
  · exact filter_insertAfter_key_of_not he
  · rfl

end Lists

/-- The insertion is next to a layer of the share, if it is next to any. -/
def InsertInfo.Beside (k : Share) (info : InsertInfo) : Prop :=
  info.order = .before ∨ info.order = .after → k.layers info.refid = true

variable {e : LayerElm} {info : InsertInfo} {screenElm : Id}

theorem screen_insertLayer (he : k.layers e.id = true) (hinfo : info.Beside k) (s : ScreenElm) :
    k.screen (insertLayer e info s) = insertLayer e info (k.screen s) := by
  rw [Share.screen, insertLayer, filter_insertListElement he hinfo]
  rfl

theorem screen_insertLayer_spared (he : k.layers e.id = false) (s : ScreenElm) :
    k.screen (insertLayer e info s) = k.screen s := by
  rw [Share.screen, insertLayer, filter_insertListElement_of_not he]
  rfl

theorem updateScreen_part (he : k.layers e.id = true) (hinfo : info.Beside k) :
    (updateScreen t screenElm (insertLayer e info)).map k.screen =
      updateScreen (t.map k.screen) screenElm (insertLayer e info) :=
  updateFirst_map (fun _ _ => rfl) (screen_insertLayer he hinfo)

theorem updateScreen_spared (he : k.layers e.id = false) :
    (updateScreen t screenElm (insertLayer e info)).map k.screen = t.map k.screen :=
  map_updateFirst fun s _ => screen_insertLayer_spared he s

end Layers

/-! ## Records -/

section Records

variable {store : List SurfacePropertiesElm} {surfaceId : Id} {prop : SurfaceProperties}

theorem getListElement_store (hs : k.surfaces surfaceId = true) :
    getListElement (k.store store) surfaceId = getListElement store surfaceId :=
  find?_filter_key hs

theorem updateSurfaceProperties_part (hs : k.surfaces surfaceId = true) :
    k.store (updateSurfaceProperties store surfaceId prop) =
      updateSurfaceProperties (k.store store) surfaceId prop :=
  filter_updateFirst_key (fun _ => rfl) hs

theorem updateSurfaceProperties_spared (hs : k.surfaces surfaceId = false) :
    k.store (updateSurfaceProperties store surfaceId prop) = k.store store :=
  filter_updateFirst_key_of_not (fun _ => rfl) hs

theorem addSurfaceProperties_part (hs : k.surfaces surfaceId = true) :
    k.store (addSurfaceProperties store prop surfaceId).2 =
      (addSurfaceProperties (k.store store) prop surfaceId).2 := by
  simp only [addSurfaceProperties, updateSurfaceProperties_part hs, getListElement_store hs]
  cases getListElement store surfaceId with
  | some e => rfl
  | none => simp [insertListElement, insertInfoDefault, Share.store, hs]

theorem addSurfaceProperties_spared (hs : k.surfaces surfaceId = false) :
    k.store (addSurfaceProperties store prop surfaceId).2 = k.store store := by
  simp only [addSurfaceProperties, updateSurfaceProperties_spared hs]
  cases getListElement store surfaceId with
  | some e => rfl
  | none => simp [insertListElement, insertInfoDefault, Share.store, hs]

theorem removeSurfaceProperties_part (hs : k.surfaces surfaceId = true) :
    k.store (removeSurfaceProperties store surfaceId) =
      removeSurfaceProperties (k.store store) surfaceId := by
  rw [removeSurfaceProperties_eq, removeSurfaceProperties_eq, record, record,
    getListElement_store hs]
  split
  · exact filter_eraseP_key hs
  · exact updateSurfaceProperties_part hs

theorem removeSurfaceProperties_spared (hs : k.surfaces surfaceId = false) :
    k.store (removeSurfaceProperties store surfaceId) = k.store store := by
  rw [removeSurfaceProperties_eq]
  split
  · exact filter_eraseP_key_of_not hs
  · exact updateSurfaceProperties_spared hs

variable {e : LayerElm}

theorem removeAllSurface_part (he : LayerElm.OneSided k e) (hl : k.layers e.id = true) :
    k.store (removeAllSurface store e) = removeAllSurface (k.store store) e := by
  have hsurfaces : ∀ s ∈ e.listHead, k.surfaces s.id = true := fun s hs =>
    (he s.id (mem_ids_of_mem hs)).trans hl
  unfold removeAllSurface
  generalize e.listHead = l at hsurfaces
  induction l generalizing store with
  | nil => rfl
  | cons s rest ih =>
    obtain ⟨hs, hrest⟩ := List.forall_mem_cons.mp hsurfaces
    rw [List.foldl_cons, List.foldl_cons, ih hrest, removeSurfaceProperties_part hs]

theorem removeAllSurface_spared (he : LayerElm.OneSided k e) (hl : k.layers e.id = false) :
    k.store (removeAllSurface store e) = k.store store := by
  have hsurfaces : ∀ s ∈ e.listHead, k.surfaces s.id = false := fun s hs =>
    (he s.id (mem_ids_of_mem hs)).trans hl
  unfold removeAllSurface
  generalize e.listHead = l at hsurfaces
  induction l generalizing store with
  | nil => rfl
  | cons s rest ih =>
    obtain ⟨hs, hrest⟩ := List.forall_mem_cons.mp hsurfaces
    rw [List.foldl_cons, ih hrest, removeSurfaceProperties_spared hs]

theorem layersOf_part (t : List ScreenElm) :
    layersOf (t.map k.screen) = (layersOf t).filter fun e => k.layers e.id := by
  rw [layersOf, layersOf, List.flatMap_map, List.filter_flatMap]
  rfl

/-- Of the layers that are taken away, those of the share count. -/
theorem store_removeLayers {layers : List LayerElm} (h : ∀ e ∈ layers, LayerElm.OneSided k e) :
    k.store (layers.foldl removeAllSurface store) =
      (layers.filter fun e => k.layers e.id).foldl removeAllSurface (k.store store) := by
  induction layers generalizing store with
  | nil => rfl
  | cons e rest ih =>
    obtain ⟨he, hrest⟩ := List.forall_mem_cons.mp h
    rw [List.foldl_cons, ih hrest]
    cases hl : k.layers e.id with
    | true => simp only [hl, List.filter_cons_of_pos, List.foldl_cons, removeAllSurface_part he hl]
    | false => simp [hl, removeAllSurface_spared he hl]

end Records

/-! ## Calls -/

/-- The layers and surfaces that a call names are in the scope. -/
def Call.Names (k : Scope) : Call → Prop
  | .putSurface layerElm _ surfaceId _ => k.layers layerElm ∧ k.surfaces surfaceId
  | call => call.Within k

/-- A layer that the call puts is put next to one of the share, if next to any. -/
def Call.Beside (k : Share) : Call → Prop
  | .putLayer _ _ _ info => info.Beside k
  | _ => True

/-- The screens of the tree stay the same. -/
def Call.keepsScreens : Call → Prop
  | .removeAll | .openScreen _ | .addScreen _ => False
  | _ => True

section Calls

variable {wm : Wm} {call : Call}

theorem uninit_layout (h : ∀ n, wm.uninit n = wm.uninit 0) :
    (call.layout wm).uninit = wm.uninit := by
  have hleave : wm.leaveFrame.uninit = wm.uninit := funext fun n => (h (n + 1)).trans (h n).symm
  cases call with
  | putLayer =>
    simp only [Call.layout]
    split
    · exact hleave
    · rfl
  | putSurface =>
    simp only [Call.layout]
    split
    · rfl
    · split
      · exact hleave
      · rfl
  | removeLayer =>
    simp only [Call.layout, UhmiIviWm.removeLayer]
    split <;> rfl
  | removeSurface =>
    simp only [Call.layout, UhmiIviWm.removeSurface]
    split <;> rfl
  | modifyLayer | modifySurface | openScreen =>
    simp only [Call.layout]
    split <;> rfl
  | _ => rfl

theorem layerToPut_part {obj : Json} {layerId : Id} (hl : k.layers layerId = true) :
    (wm.part k).layerToPut obj layerId = wm.layerToPut obj layerId := by
  simp only [Wm.layerToPut, Wm.part, getLayer_part hl]

theorem surfaceToPut_part {obj : Json} {layerElm surfaceId : Id}
    (hl : k.layers layerElm = true) (hs : k.surfaces surfaceId = true) :
    (wm.part k).surfaceToPut layerElm obj surfaceId = wm.surfaceToPut layerElm obj surfaceId := by
  simp only [Wm.surfaceToPut, Wm.part, getSurface_part hl, getListElement_store hs]

/-- What a call of the share makes of the tree, it makes of the part. -/
theorem screenHead_part (hnames : call.Names k.own) (hbeside : call.Beside k) :
    (call.layout wm).screenHead.map k.screen = (call.layout (wm.part k)).screenHead := by
  cases call with
  | putLayer screenElm obj layerId info =>
    have he : k.layers (wm.layerToPut obj layerId).id = true := by
      rw [layerToPut_id]
      exact hnames
    rw [screenHead_putLayer, screenHead_putLayer, updateScreen_part he hbeside,
      ← popLayer_part hnames, layerToPut_part hnames]
    rfl
  | putSurface layerElm obj surfaceId info =>
    obtain ⟨hl, hs⟩ := hnames
    have hput : (wm.part k).surfaceToPut layerElm obj surfaceId =
        wm.surfaceToPut layerElm obj surfaceId := surfaceToPut_part hl hs
    cases h : wm.surfaceToPut layerElm obj surfaceId with
    | none => simp only [Call.layout, hput.trans h, h]; rfl
    | some prop =>
      rw [screenHead_putSurface h, screenHead_putSurface (hput.trans h)]
      exact updateLayer_part hl (reinsert_id surfaceId info)
  | removeLayer layerId =>
    rw [screenHead_removeLayer, screenHead_removeLayer, ← popLayer_part hnames]
    rfl
  | removeSurface layerElm surfaceId =>
    rw [screenHead_removeSurface, screenHead_removeSurface]
    exact updateLayer_part hnames.1 (dropSurface_id surfaceId)
  | modifyLayer layerId obj =>
    simp only [Call.layout, Wm.part, getLayer_part (t := wm.screenHead) hnames]
    cases getLayer wm.screenHead layerId with
    | none => rfl
    | some e => exact updateLayer_part hnames fun _ => rfl
  | modifySurface surfaceId obj =>
    rw [screenHead_modifySurface, screenHead_modifySurface]
    rfl
  | removeAll => rfl
  | openScreen screenId =>
    have hfind : getListElement (wm.screenHead.map k.screen) screenId =
        (getListElement wm.screenHead screenId).map k.screen := by
      rw [getListElement, getListElement, List.find?_map]
      rfl
    simp only [Call.layout, Wm.part, hfind]
    cases getListElement wm.screenHead screenId with
    | none => exact List.map_append
    | some s => rfl
  | addScreen screenId => exact List.map_append
  | _ => rfl

/-- So with the records. -/
theorem store_part (h : wm.Divided k) (hnames : call.Names k.own) :
    k.store (call.layout wm).surfacePropertiesHead =
      (call.layout (wm.part k)).surfacePropertiesHead := by
  cases call with
  | putLayer => rw [surfacePropertiesHead_putLayer, surfacePropertiesHead_putLayer]; rfl
  | putSurface layerElm obj surfaceId info =>
    obtain ⟨hl, hs⟩ := hnames
    have hput : (wm.part k).surfaceToPut layerElm obj surfaceId =
        wm.surfaceToPut layerElm obj surfaceId := surfaceToPut_part hl hs
    have hfind : getSurface (wm.part k).screenHead layerElm surfaceId =
        getSurface wm.screenHead layerElm surfaceId := getSurface_part hl
    cases hprop : wm.surfaceToPut layerElm obj surfaceId with
    | none => simp only [Call.layout, hput.trans hprop, hprop]; rfl
    | some prop =>
      rw [surfacePropertiesHead_putSurface hprop,
        surfacePropertiesHead_putSurface (hput.trans hprop), hfind]
      split
      · exact updateSurfaceProperties_part hs
      · exact addSurfaceProperties_part hs
  | removeLayer layerId =>
    have hfind : getLayer (wm.part k).screenHead layerId = getLayer wm.screenHead layerId :=
      getLayer_part hnames
    rw [surfacePropertiesHead_removeLayer, surfacePropertiesHead_removeLayer, hfind]
    cases hlayer : getLayer wm.screenHead layerId with
    | none => rfl
    | some e =>
      obtain ⟨hmem, rfl⟩ := mem_of_getLayer hlayer
      exact removeAllSurface_part (h.layers e hmem) hnames
  | removeSurface layerElm surfaceId =>
    have hfind : getSurface (wm.part k).screenHead layerElm surfaceId =
        getSurface wm.screenHead layerElm surfaceId := getSurface_part hnames.1
    rw [surfacePropertiesHead_removeSurface, surfacePropertiesHead_removeSurface, hfind]
    split
    · exact removeSurfaceProperties_part hnames.2
    · rfl
  | modifyLayer => rw [surfacePropertiesHead_modifyLayer, surfacePropertiesHead_modifyLayer]; rfl
  | modifySurface surfaceId obj =>
    have hfind : getListElement (wm.part k).surfacePropertiesHead surfaceId =
        getListElement wm.surfacePropertiesHead surfaceId := getListElement_store hnames
    simp only [Call.layout, hfind]
    cases getListElement wm.surfacePropertiesHead surfaceId with
    | none => rfl
    | some r => exact updateSurfaceProperties_part hnames
  | removeAll =>
    simp only [Call.layout, surfacePropertiesHead_removeAll]
    refine (store_removeLayers h.layers).trans ?_
    rw [← layersOf_part]
    rfl
  | openScreen screenId =>
    simp only [Call.layout]
    split <;> split <;> rfl
  | _ => rfl

/-- A call of others leaves the tree of the share as it is. -/
theorem screenHead_spared (hnames : call.Names k.rest) (hscreens : call.keepsScreens) :
    (call.layout wm).screenHead.map k.screen = wm.screenHead.map k.screen := by
  cases call with
  | putLayer screenElm obj layerId info =>
    have he : k.layers (wm.layerToPut obj layerId).id = false := by
      rw [layerToPut_id]
      exact hnames
    rw [screenHead_putLayer, updateScreen_spared he, popLayer_spared hnames]
  | putSurface layerElm obj surfaceId info =>
    cases h : wm.surfaceToPut layerElm obj surfaceId with
    | none => simp only [Call.layout, h]
    | some prop =>
      rw [screenHead_putSurface h]
      exact updateLayer_spared hnames.1 (reinsert_id surfaceId info)
  | removeLayer layerId => rw [screenHead_removeLayer, popLayer_spared hnames]
  | removeSurface layerElm surfaceId =>
    rw [screenHead_removeSurface]
    exact updateLayer_spared hnames.1 (dropSurface_id surfaceId)
  | modifyLayer layerId obj =>
    simp only [Call.layout]
    cases getLayer wm.screenHead layerId with
    | none => rfl
    | some e => exact updateLayer_spared hnames fun _ => rfl
  | modifySurface surfaceId obj => rw [screenHead_modifySurface]
  | removeAll | openScreen | addScreen => exact hscreens.elim
  | _ => rfl

theorem store_spared (h : wm.Divided k) (hnames : call.Names k.rest)
    (hscreens : call.keepsScreens) :
    k.store (call.layout wm).surfacePropertiesHead = k.store wm.surfacePropertiesHead := by
  cases call with
  | putLayer => rw [surfacePropertiesHead_putLayer]
  | putSurface layerElm obj surfaceId info =>
    cases hprop : wm.surfaceToPut layerElm obj surfaceId with
    | none => simp only [Call.layout, hprop]
    | some prop =>
      rw [surfacePropertiesHead_putSurface hprop]
      split
      · exact updateSurfaceProperties_spared hnames.2
      · exact addSurfaceProperties_spared hnames.2
  | removeLayer layerId =>
    rw [surfacePropertiesHead_removeLayer]
    cases hlayer : getLayer wm.screenHead layerId with
    | none => rfl
    | some e =>
      obtain ⟨hmem, rfl⟩ := mem_of_getLayer hlayer
      exact removeAllSurface_spared (h.layers e hmem) hnames
  | removeSurface layerElm surfaceId =>
    rw [surfacePropertiesHead_removeSurface]
    split
    · exact removeSurfaceProperties_spared hnames.2
    · rfl
  | modifyLayer => rw [surfacePropertiesHead_modifyLayer]
  | modifySurface surfaceId obj =>
    simp only [Call.layout]
    cases getListElement wm.surfacePropertiesHead surfaceId with
    | none => rfl
    | some r => exact updateSurfaceProperties_spared hnames
  | removeAll | openScreen | addScreen => exact hscreens.elim
  | _ => rfl

/-- What a call of the share makes of the layout within it can be told from that. -/
theorem part_own (h : wm.Divided k) (hnames : call.Names k.own) (hbeside : call.Beside k) :
    (call.layout wm).part k = call.layout (wm.part k) := by
  have huninit : (call.layout (wm.part k)).uninit = wm.uninit := uninit_layout h.uninit
  rw [Wm.part, screenHead_part hnames hbeside, store_part h hnames, uninit_layout h.uninit,
    ← huninit]

/-- A call of others leaves it alone. -/
theorem part_spared (h : wm.Divided k) (hnames : call.Names k.rest)
    (hscreens : call.keepsScreens) : (call.layout wm).part k = wm.part k := by
  rw [Wm.part, screenHead_spared hnames hscreens, store_spared h hnames hscreens,
    uninit_layout h.uninit]
  rfl

/-! ### The sides stay apart -/

theorem LayerElm.OneSided.drop {e : LayerElm} (h : LayerElm.OneSided k e) (surfaceId : Id) :
    LayerElm.OneSided k (dropSurface surfaceId e) := by
  intro s hs
  rw [dropSurface, ids_eraseP] at hs
  exact h s (List.mem_of_mem_erase hs)

theorem LayerElm.OneSided.put {e : LayerElm} {surfaceId : Id} (h : LayerElm.OneSided k e)
    (hs : k.surfaces surfaceId = k.layers e.id) (info : InsertInfo) :
    LayerElm.OneSided k (reinsert surfaceId info e) := by
  intro s hmem
  rw [reinsert, mem_ids_insertListElement, ids_eraseP] at hmem
  rcases hmem with ⟨-, rfl⟩ | hmem
  · exact hs
  · exact h s (List.mem_of_mem_erase hmem)

theorem oneSided_updateLayer {layerElm : Id} {f : LayerElm → LayerElm} (h : wm.Divided k)
    (hf : ∀ e, e.id = layerElm → LayerElm.OneSided k e → LayerElm.OneSided k (f e)) :
    ∀ e ∈ layersOf (updateLayer wm.screenHead layerElm f), LayerElm.OneSided k e := by
  intro e he
  rw [layersOf_updateLayer] at he
  rcases mem_updateFirst he with he | ⟨e', he', hid, rfl⟩
  · exact h.layers e he
  · exact hf e' (beq_iff_eq.mp hid) (h.layers e' he')

theorem Wm.Divided.after_call (h : wm.Divided k)
    (hnames : call.Names k.own ∨ call.Names k.rest) : (call.layout wm).Divided k := by
  refine ⟨?_, fun n => by rw [uninit_layout h.uninit, h.uninit n]⟩
  have hpopped : ∀ layerId : Id, ∀ e ∈ layersOf (popLayer wm.screenHead layerId).2,
      LayerElm.OneSided k e := by
    intro layerId e he
    rw [layersOf_popLayer] at he
    exact h.layers e (List.mem_of_mem_eraseP he)
  cases call with
  | putLayer screenElm obj layerId info =>
    intro e he
    rw [screenHead_putLayer, mem_layersOf_insertLayer] at he
    rcases he with ⟨-, rfl⟩ | he
    · unfold Wm.layerToPut
      split
      · exact fun _ hs => absurd hs List.not_mem_nil
      · rename_i e he
        exact h.layers e (mem_of_getLayer he).1
    · exact hpopped layerId e he
  | putSurface layerElm obj surfaceId info =>
    have hpair : k.surfaces surfaceId = k.layers layerElm := by
      rcases hnames with ⟨hl, hs⟩ | ⟨hl, hs⟩ <;> exact hs.trans hl.symm
    cases hput : wm.surfaceToPut layerElm obj surfaceId with
    | none =>
      simp only [Call.layout, hput]
      exact h.layers
    | some prop =>
      rw [screenHead_putSurface hput]
      refine oneSided_updateLayer h fun e hid he => he.put ?_ info
      rw [hpair, hid]
  | removeLayer layerId =>
    rw [screenHead_removeLayer]
    exact hpopped layerId
  | removeSurface layerElm surfaceId =>
    rw [screenHead_removeSurface]
    exact oneSided_updateLayer h fun e _ he => he.drop surfaceId
  | modifyLayer layerId obj =>
    simp only [Call.layout]
    split
    · exact h.layers
    · exact oneSided_updateLayer h fun e _ he => he
  | modifySurface surfaceId obj =>
    rw [screenHead_modifySurface]
    exact h.layers
  | removeAll => exact fun _ he => absurd he List.not_mem_nil
  | openScreen screenId =>
    simp only [Call.layout]
    split
    · rw [layersOf_addScreen]
      exact h.layers
    · exact h.layers
  | addScreen screenId =>
    simp only [Call.layout]
    rw [layersOf_addScreen]
    exact h.layers
  | _ => exact h.layers

/-- What the share sees of the layout, call by call. -/
theorem unwinds_calls (k : Share) : Unwinds (fun wm call => Call.layout call wm) (Wm.part k)
    (Wm.Divided k) (fun call => call.Names k.own ∧ call.Beside k)
    (fun call => call.Names k.rest ∧ call.keepsScreens) where
  kept _ _ hcall h := h.after_call (hcall.imp And.left And.left)
  follows wm wm' call hcall h h' hview := by
    rw [part_own h hcall.1 hcall.2, part_own h' hcall.1 hcall.2, hview]
  spares _ _ hcall h := part_spared h hcall.1 hcall.2

end Calls

end UhmiIviWm
