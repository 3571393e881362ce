import UhmiIviWm.Model.EventLoop

/-!
# The calls a handler makes

Every handler is a sequence of calls of a few functions, each of which changes
the layout and then talks to ilm. `Call` lists them and `Call.sem` says what each
does, in the model's own functions. `Call.sem_eq` splits a call in two: its
effect on the layout (`Call.layout`) reads nothing of ilm, and its conversation
with ilm (`Call.talk`) reads the layout as it was before the call.

So the layout after any list of calls that does not abort is a fold
(`runCalls_wm`), whatever ilm answers.
-/

namespace UhmiIviWm

open Lib.CallPlan Lib.KeyedList

/-- The calls, the ids in them being the pointers the handler holds. -/
inductive Call where
  | putLayer (screenElm : Id) (obj : Json) (layerId : Id) (insertInfo : InsertInfo)
  | putSurface (layerElm : Id) (obj : Json) (surfaceId : Id) (insertInfo : InsertInfo)
  | pushScreen (screenElm : Id)
  | pushLayer (layerElm : Id)
  | removeLayer (layerId : Id)
  | removeSurface (layerElm surfaceId : Id)
  | modifyLayer (layerId : Id) (obj : Json)
  | modifySurface (surfaceId : Id) (obj : Json)
  | removeAll
  | findScreen (screenId : Id)
  | openScreen (screenId : Id)
  | addScreen (screenId : Id)
  | askScreenIds
  | place (surfaceId : Id)
  | register (surfaceId : Id)
  | setCallback

variable {σ : Type} (ilm : Ilm σ)

/-- What the model does for a call. -/
def Call.sem : Call → WmM σ Unit
  | .putLayer screenElm obj layerId insertInfo => do
    let _ ← decideAddOrUpdateLayer ilm screenElm obj layerId .add insertInfo
  | .putSurface layerElm obj surfaceId insertInfo => do
    let _ ← decideAddOrUpdateSurface ilm layerElm obj surfaceId .add insertInfo
  | .pushScreen screenElm => addLayersToScreenAt ilm screenElm
  | .pushLayer layerElm => addExistsSurfacesToLayerAt ilm layerElm
  | .removeLayer layerId => do
    modifyWm fun wm => (UhmiIviWm.removeLayer wm layerId).2
    onIlm (wrapIlmRemoveLayer ilm layerId)
  | .removeSurface layerElm surfaceId => do
    modifyWm fun wm => (UhmiIviWm.removeSurface wm layerElm surfaceId).2
    onIlm (wrapIlmRemoveSurface ilm layerElm surfaceId)
  | .modifyLayer layerId obj => do
    match ← readWm (getLayer ·.screenHead layerId) with
    | none => return ()
    | some layerElm =>
      let prop := (parseLayerProperties layerElm.prop (some obj) .mod).2
      modifyWm fun wm => { wm with
        screenHead := updateLayer wm.screenHead layerId fun e => { e with prop } }
      onIlm (wrapIlmSetLayer ilm prop layerId)
  | .modifySurface surfaceId obj => do
    match ← readWm (getListElement ·.surfacePropertiesHead surfaceId) with
    | none => return ()
    | some surfacePropertiesElm =>
      let prop := (parseSurfaceProperties surfacePropertiesElm.prop (some obj) .mod).2
      modifyWm fun wm => { wm with
        surfacePropertiesHead := updateSurfaceProperties wm.surfacePropertiesHead surfaceId prop }
      onIlm (wrapIlmSetSurface ilm prop surfaceId)
  | .removeAll => modifyWm UhmiIviWm.removeAll
  | .findScreen screenId => do
    let _ ← onIlm (wrapIlmScreenExists ilm screenId)
  | .openScreen screenId => do
    match ← readWm (getListElement ·.screenHead screenId) with
    | none => modifyWm (UhmiIviWm.addScreen · screenId)
    | some _ => pure ()
  | .addScreen screenId => modifyWm (UhmiIviWm.addScreen · screenId)
  | .askScreenIds => do
    let _ ← onIlm (wrapIlmGetScreenIds ilm)
  | .place surfaceId => do
    let _ ← parserAddIviSurfaceByEventNotification ilm surfaceId
  | .register surfaceId => do
    let registered ← readWm (parserCheckRegisteredSurfaceInListTree · surfaceId)
    onIlm (wrapIlmSetSurfaceAddNotification ilm registered surfaceId)
  | .setCallback => onIlm (wrapIlmSetNotificationCallback ilm)

/-! ## The layout half -/

/-- The layer element `decide_add_or_update_layer` puts into the list: the one
found anywhere in the tree, or a new one, with the properties just parsed. -/
def Wm.layerToPut (wm : Wm) (obj : Json) (layerId : Id) : LayerElm :=
  match getLayer wm.screenHead layerId with
  | none => ⟨layerId, (parseLayerProperties (wm.uninit 0).layerProp (some obj) .add).2, []⟩
  | some e => { e with prop := (parseLayerProperties e.prop (some obj) .add).2 }

/-- The surface element `surfaceId` in the list of the layer pointed to. -/
def getSurface (screenHead : List ScreenElm) (layerElm surfaceId : Id) : Option SurfaceElm :=
  (getLayer screenHead layerElm).bind fun e => getListElement e.listHead surfaceId

/-- The properties `decide_add_or_update_surface` stores, before they are
counted: parsed over the uninitialised local for a surface that is new to the
layer, over the stored record otherwise. -/
def Wm.surfaceToPut (wm : Wm) (layerElm : Id) (obj : Json) (surfaceId : Id) :
    Option SurfaceProperties :=
  match getSurface wm.screenHead layerElm surfaceId with
  | none => some (parseSurfaceProperties (wm.uninit 0).surfaceProp (some obj) .add).2
  | some _ => (getListElement wm.surfacePropertiesHead surfaceId).map fun e =>
      (parseSurfaceProperties e.prop (some obj) .add).2

/-- The frames left after one has been entered. -/
def Wm.leaveFrame (wm : Wm) : Wm := { wm with uninit := fun n => wm.uninit (n + 1) }

/-- The effect of a call on the layout, should it not abort. -/
def Call.layout : Call → Wm → Wm
  | .putLayer screenElm obj layerId insertInfo, wm =>
    let put (wm' : Wm) : Wm := { wm' with
      screenHead := updateScreen (popLayer wm.screenHead layerId).2 screenElm fun s =>
        { s with listHead := insertListElement s.listHead (wm.layerToPut obj layerId) insertInfo } }
    match getLayer wm.screenHead layerId with
    | none => put wm.leaveFrame
    | some _ => put wm
  | .putSurface layerElm obj surfaceId insertInfo, wm =>
    match wm.surfaceToPut layerElm obj surfaceId with
    | none => wm
    | some prop =>
      match getSurface wm.screenHead layerElm surfaceId with
      | none => (addSurface wm.leaveFrame layerElm prop surfaceId insertInfo).2
      | some surfaceElm => { wm with
          surfacePropertiesHead := updateSurfaceProperties wm.surfacePropertiesHead surfaceId prop
          screenHead := updateLayer (popSurface wm.screenHead layerElm surfaceId).2 layerElm
            fun e => { e with listHead := insertListElement e.listHead surfaceElm insertInfo } }
  | .removeLayer layerId, wm => (UhmiIviWm.removeLayer wm layerId).2
  | .removeSurface layerElm surfaceId, wm => (UhmiIviWm.removeSurface wm layerElm surfaceId).2
  | .modifyLayer layerId obj, wm =>
    match getLayer wm.screenHead layerId with
    | none => wm
    | some e => { wm with
        screenHead := updateLayer wm.screenHead layerId fun e' =>
          { e' with prop := (parseLayerProperties e.prop (some obj) .mod).2 } }
  | .modifySurface surfaceId obj, wm =>
    match getListElement wm.surfacePropertiesHead surfaceId with
    | none => wm
    | some e => { wm with
        surfacePropertiesHead := updateSurfaceProperties wm.surfacePropertiesHead surfaceId
          (parseSurfaceProperties e.prop (some obj) .mod).2 }
  | .removeAll, wm => UhmiIviWm.removeAll wm
  | .openScreen screenId, wm =>
    match getListElement wm.screenHead screenId with
    | none => UhmiIviWm.addScreen wm screenId
    | some _ => wm
  | .addScreen screenId, wm => UhmiIviWm.addScreen wm screenId
  | _, wm => wm

/-! ## The ilm half -/

/-- What a call says to ilm, given the layout it finds. -/
def Call.talk : Call → Wm → IlmM σ Unit
  | .putLayer _ obj layerId _, wm => wrapIlmSetLayer ilm (wm.layerToPut obj layerId).prop layerId
  | .putSurface layerElm obj surfaceId _, wm =>
    match wm.surfaceToPut layerElm obj surfaceId with
    | none => throw .nullDeref
    | some prop => wrapIlmSetSurface ilm prop surfaceId
  | .pushScreen screenElm, wm =>
    match getListElement wm.screenHead screenElm with
    | none => pure ()
    | some screenElm => addLayersToScreen ilm screenElm
  | .pushLayer layerElm, wm =>
    match getLayer wm.screenHead layerElm with
    | none => pure ()
    | some layerElm => addExistsSurfacesToLayer ilm layerElm
  | .removeLayer layerId, _ => wrapIlmRemoveLayer ilm layerId
  | .removeSurface layerElm surfaceId, _ => wrapIlmRemoveSurface ilm layerElm surfaceId
  | .modifyLayer layerId obj, wm =>
    match getLayer wm.screenHead layerId with
    | none => pure ()
    | some e => wrapIlmSetLayer ilm (parseLayerProperties e.prop (some obj) .mod).2 layerId
  | .modifySurface surfaceId obj, wm =>
    match getListElement wm.surfacePropertiesHead surfaceId with
    | none => pure ()
    | some e => wrapIlmSetSurface ilm (parseSurfaceProperties e.prop (some obj) .mod).2 surfaceId
  | .findScreen screenId, _ => do let _ ← wrapIlmScreenExists ilm screenId
  | .askScreenIds, _ => do let _ ← wrapIlmGetScreenIds ilm
  | .place surfaceId, wm =>
    placeSurfaceInScreens ilm wm.surfacePropertiesHead surfaceId wm.screenHead
  | .register surfaceId, wm =>
    wrapIlmSetSurfaceAddNotification ilm (parserCheckRegisteredSurfaceInListTree wm surfaceId)
      surfaceId
  | .setCallback, _ => wrapIlmSetNotificationCallback ilm
  | _, _ => pure ()

/-! ## The two halves make the call -/

theorem popLayer_fst (screenHead : List ScreenElm) (layerId : Id) :
    (popLayer screenHead layerId).1 = getLayer screenHead layerId := by
  induction screenHead with
  | nil => rfl
  | cons s rest ih =>
    unfold popLayer getLayer
    simp only [popListElement, List.findSome?_cons, getListElement]
    cases h : s.listHead.find? (·.id == layerId) with
    | some e => rfl
    | none => exact ih

theorem popLayer_of_none {screenHead : List ScreenElm} {layerId : Id}
    (h : getLayer screenHead layerId = none) : (popLayer screenHead layerId).2 = screenHead := by
  induction screenHead with
  | nil => rfl
  | cons s rest ih =>
    unfold getLayer at h
    simp only [List.findSome?_cons, getListElement] at h
    cases hs : s.listHead.find? (·.id == layerId) with
    | some e => rw [hs] at h; cases h
    | none =>
      rw [hs] at h
      simp only [popLayer, popListElement, hs]
      rw [ih h]

theorem popSurface_fst (screenHead : List ScreenElm) (layerElm surfaceId : Id) :
    (popSurface screenHead layerElm surfaceId).1 = getSurface screenHead layerElm surfaceId := rfl

/-- A call is its talk with ilm about the layout it finds, and its effect on
that layout. -/
theorem Call.sem_eq (call : Call) (w : World σ) :
    call.sem ilm w = match call.talk ilm w.wm w.ilm with
      | .ok (_, c) => .ok ((), ⟨call.layout w.wm, c⟩)
      | .error e => .error e := by
  cases call with
  | putLayer screenElm obj layerId insertInfo =>
    have hpop := popLayer_fst w.wm.screenHead layerId
    simp only [Call.sem, Call.talk, Call.layout, decideAddOrUpdateLayer, Wm.layerToPut,
      Comp.bind_apply, readWm, Comp.reads]
    cases hg : getLayer w.wm.screenHead layerId with
    | none =>
      have hrest := popLayer_of_none hg
      rw [hg] at hpop
      simp only [hpop, hrest, Comp.bind_apply, enterFrame, modifyWm, onIlm, addLayer,
        Wm.leaveFrame]
      cases wrapIlmSetLayer ilm _ layerId w.ilm <;> rfl
    | some e =>
      rw [hg] at hpop
      simp only [hpop, Comp.bind_apply, modifyWm, onIlm]
      cases wrapIlmSetLayer ilm _ layerId w.ilm <;> rfl
  | putSurface layerElm obj surfaceId insertInfo =>
    simp only [Call.sem, Call.talk, Call.layout, decideAddOrUpdateSurface, Wm.surfaceToPut,
      Comp.bind_apply, readWm, Comp.reads, popSurface_fst]
    cases hg : getSurface w.wm.screenHead layerElm surfaceId with
    | none =>
      simp only [Comp.bind_apply, enterFrame, modifyWm, onIlm, Wm.leaveFrame]
      cases wrapIlmSetSurface ilm _ surfaceId w.ilm <;> rfl
    | some e =>
      simp only [Comp.bind_apply, Comp.reads]
      cases getListElement w.wm.surfacePropertiesHead surfaceId with
      | none => rfl
      | some r =>
        simp only [Comp.bind_apply, modifyWm, onIlm, Option.map_some]
        cases wrapIlmSetSurface ilm _ surfaceId w.ilm <;> rfl
  | pushScreen screenElm =>
    simp only [Call.sem, Call.talk, Call.layout, addLayersToScreenAt, Comp.bind_apply, readWm,
      Comp.reads]
    cases getListElement w.wm.screenHead screenElm with
    | none => rfl
    | some s =>
      simp only [onIlm]
      cases addLayersToScreen ilm s w.ilm <;> rfl
  | pushLayer layerElm =>
    simp only [Call.sem, Call.talk, Call.layout, addExistsSurfacesToLayerAt, Comp.bind_apply,
      readWm, Comp.reads]
    cases getLayer w.wm.screenHead layerElm with
    | none => rfl
    | some e =>
      simp only [onIlm]
      cases addExistsSurfacesToLayer ilm e w.ilm <;> rfl
  | removeLayer layerId =>
    simp only [Call.sem, Call.talk, Call.layout, Comp.bind_apply, modifyWm, onIlm]
    cases wrapIlmRemoveLayer ilm layerId w.ilm <;> rfl
  | removeSurface layerElm surfaceId =>
    simp only [Call.sem, Call.talk, Call.layout, Comp.bind_apply, modifyWm, onIlm]
    cases wrapIlmRemoveSurface ilm layerElm surfaceId w.ilm <;> rfl
  | modifyLayer layerId obj =>
    simp only [Call.sem, Call.talk, Call.layout, Comp.bind_apply, readWm, Comp.reads]
    cases getLayer w.wm.screenHead layerId with
    | none => rfl
    | some e =>
      simp only [Comp.bind_apply, modifyWm, onIlm]
      cases wrapIlmSetLayer ilm _ layerId w.ilm <;> rfl
  | modifySurface surfaceId obj =>
    simp only [Call.sem, Call.talk, Call.layout, Comp.bind_apply, readWm, Comp.reads]
    cases getListElement w.wm.surfacePropertiesHead surfaceId with
    | none => rfl
    | some e =>
      simp only [Comp.bind_apply, modifyWm, onIlm]
      cases wrapIlmSetSurface ilm _ surfaceId w.ilm <;> rfl
  | removeAll => rfl
  | findScreen screenId => rfl
  | openScreen screenId =>
    simp only [Call.sem, Call.talk, Call.layout, Comp.bind_apply, readWm, Comp.reads]
    cases getListElement w.wm.screenHead screenId <;> rfl
  | addScreen screenId => rfl
  | askScreenIds =>
    simp only [Call.sem, Call.talk, Call.layout, Comp.bind_apply, onIlm]
    cases wrapIlmGetScreenIds ilm w.ilm <;> rfl
  | place surfaceId =>
    simp only [Call.sem, Call.talk, Call.layout, parserAddIviSurfaceByEventNotification,
      Comp.bind_apply, readWm, Comp.reads, onIlm, id_eq]
    cases placeSurfaceInScreens ilm _ surfaceId w.wm.screenHead w.ilm <;> rfl
  | register surfaceId =>
    simp only [Call.sem, Call.talk, Call.layout, Comp.bind_apply, readWm, Comp.reads, onIlm]
    cases wrapIlmSetSurfaceAddNotification ilm _ surfaceId w.ilm <;> rfl
  | setCallback =>
    simp only [Call.sem, Call.talk, Call.layout, onIlm]
    cases wrapIlmSetNotificationCallback ilm w.ilm <;> rfl

variable {ilm}

theorem Call.sem_eq_ok {call : Call} {w w' : World σ} :
    call.sem ilm w = .ok ((), w') ↔
      call.talk ilm w.wm w.ilm = .ok ((), w'.ilm) ∧ w'.wm = call.layout w.wm := by
  rw [Call.sem_eq]
  cases call.talk ilm w.wm w.ilm with
  | ok r =>
    obtain ⟨u, c⟩ := r
    constructor
    · intro h
      cases h
      exact ⟨rfl, rfl⟩
    · rintro ⟨hc, hw⟩
      cases w'
      cases hc
      cases hw
      rfl
  | error e => simp

theorem Call.sem_eq_error {call : Call} {w : World σ} {e : Abort} :
    call.sem ilm w = .error e ↔ call.talk ilm w.wm w.ilm = .error e := by
  rw [Call.sem_eq]
  cases call.talk ilm w.wm w.ilm <;> simp

/-- The layout after a list of calls does not depend on what ilm answers. -/
theorem runCalls_wm {calls : List Call} {w w' : World σ}
    (h : runCalls (Call.sem ilm) calls w = .ok ((), w')) :
    w'.wm = calls.foldl (fun wm call => call.layout wm) w.wm := by
  induction calls generalizing w with
  | nil => cases h; rfl
  | cons call calls ih =>
    obtain ⟨t, hcall, hrest⟩ := runCalls_cons_ok.mp h
    rw [ih hrest, (Call.sem_eq_ok.mp hcall).2, List.foldl_cons]

end UhmiIviWm
