import UhmiIviWm.Lib.CallPlan
import UhmiIviWm.Model.Types

/-!
# The ilm wrappers

`ilm_control_wrapper.c`. The ilm library is a parameter (`Ilm`): a state `σ`
nothing is known about, the answers it gives and what it makes of each call. Its
answers may differ from one call to the next, so that other clients of the
compositor are covered as well.

A wrapper checks the result of most calls and leaves through `wrap_ilm_exit` on
a failure (`checked`); some results are assigned and never looked at
(`unchecked`).
-/

namespace UhmiIviWm

open Lib.CallPlan

/-- The calls that change something, with their arguments. -/
inductive IlmCall where
  | layerCreateWithDimension (id : Id) (width height : TIlmUint)
  | layerSetDestinationRectangle (id : Id) (x y w h : TIlmUint)
  | layerSetSourceRectangle (id : Id) (x y w h : TIlmUint)
  | layerSetOpacity (id : Id) (opacity : TIlmFloat)
  | layerSetVisibility (id : Id) (visibility : TIlmBool)
  | layerRemoveNotification (id : Id)
  | layerSetRenderOrder (id : Id) (surfaces : List Id)
  | layerRemove (id : Id)
  | layerRemoveSurface (layerId surfaceId : Id)
  | displaySetRenderOrder (id : Id) (layers : List Id)
  | surfaceSetDestinationRectangle (id : Id) (x y w h : TIlmUint)
  | surfaceSetSourceRectangle (id : Id) (x y w h : TIlmUint)
  | surfaceSetOpacity (id : Id) (opacity : TIlmFloat)
  | surfaceSetVisibility (id : Id) (visibility : TIlmBool)
  | surfaceRemoveNotification (id : Id)
  | surfaceAddNotification (id : Id)
  | getPropertiesOfSurface (id : Id)
  | registerNotification
  | commitChanges

/-- The ilm library: whether a call returns `ILM_SUCCESS`, and the answers to
the queries. -/
structure Ilm (σ : Type) where
  call : IlmCall → σ → Bool × σ
  getSurfaceIDs : σ → List Id × σ
  getLayerIDs : σ → List Id × σ
  getPropertiesOfScreen : Id → σ → Bool × σ
  getScreenIDs : σ → Option (List Id) × σ

/-- What the wrappers run in: the ilm state, and the exit. -/
abbrev IlmM (σ : Type) := Comp σ Abort

variable {σ : Type} (ilm : Ilm σ)

/-- A query. -/
def ask {α : Type} (query : σ → α × σ) : IlmM σ α := fun c => .ok (query c)

/-- A call whose result is not looked at. -/
def unchecked (call : IlmCall) : IlmM σ Unit := fun c => .ok ((), (ilm.call call c).2)

def wrapIlmExit {α : Type} : IlmM σ α := throw .ilmExit

/-- `callResult = ..; if (ILM_SUCCESS != callResult) wrap_ilm_exit(callResult);` -/
def checked (call : IlmCall) : IlmM σ Unit := do
  let success ← ask (ilm.call call)
  if success then pure () else wrapIlmExit

inductive IlmObjectType where
  | surface
  | layer
deriving DecidableEq

def wrapIlmModuleExists (type : IlmObjectType) (id : Id) : IlmM σ Bool := do
  let ids ← match type with
    | .surface => ask ilm.getSurfaceIDs
    | .layer => ask ilm.getLayerIDs
  return ids.contains id

def wrapIlmLayerExists (id : Id) : IlmM σ Bool := wrapIlmModuleExists ilm .layer id

def wrapIlmSurfaceExists (id : Id) : IlmM σ Bool := wrapIlmModuleExists ilm .surface id

def wrapIlmScreenExists (id : Id) : IlmM σ Bool := ask (ilm.getPropertiesOfScreen id)

def wrapIlmGetScreenIds : IlmM σ (List Id) := do
  match ← ask ilm.getScreenIDs with
  | some ids => return ids
  | none => wrapIlmExit

/-! ## Layers -/

def wrapIlmCreateLayer (prop : LayerProperties) (id : Id) : IlmM σ Unit := do
  checked ilm (.layerCreateWithDimension id prop.width prop.height)
  unchecked ilm .commitChanges

def wrapIlmSetLayer (layerProp : LayerProperties) (id : Id) : IlmM σ Unit := do
  if (← wrapIlmLayerExists ilm id) = false then
    wrapIlmCreateLayer ilm layerProp id
  let prop := layerProp.lp
  checked ilm (.layerSetDestinationRectangle id prop.dstX prop.dstY prop.dstW prop.dstH)
  checked ilm (.layerSetSourceRectangle id prop.srcX prop.srcY prop.srcW prop.srcH)
  checked ilm (.layerSetOpacity id prop.opacity)
  checked ilm (.layerSetVisibility id prop.visibility)
  unchecked ilm (.layerRemoveNotification id)
  unchecked ilm .commitChanges

def wrapIlmAddLayerToScreen (id : Id) (layers : List Id) : IlmM σ Unit := do
  checked ilm (.displaySetRenderOrder id layers)
  unchecked ilm .commitChanges

def wrapIlmRemoveLayer (layerId : Id) : IlmM σ Unit := do
  if (← wrapIlmLayerExists ilm layerId) = false then
    return ()
  checked ilm (.layerRemove layerId)
  unchecked ilm (.layerRemoveNotification layerId)
  unchecked ilm .commitChanges

/-! ## Surfaces -/

def wrapIlmSetSurface (surfaceProp : SurfaceProperties) (id : Id) : IlmM σ Unit := do
  if (← wrapIlmSurfaceExists ilm id) = false then
    return ()
  let prop := surfaceProp.lp
  checked ilm (.surfaceSetDestinationRectangle id prop.dstX prop.dstY prop.dstW prop.dstH)
  checked ilm (.surfaceSetSourceRectangle id prop.srcX prop.srcY prop.srcW prop.srcH)
  checked ilm (.surfaceSetOpacity id prop.opacity)
  checked ilm (.surfaceSetVisibility id prop.visibility)
  unchecked ilm (.surfaceRemoveNotification id)
  unchecked ilm .commitChanges

def wrapIlmAddSurfaceToLayer (id : Id) (surfaces : List Id) : IlmM σ Unit := do
  checked ilm (.layerSetRenderOrder id surfaces)
  unchecked ilm .commitChanges

def wrapIlmRemoveSurface (layerId surfaceId : Id) : IlmM σ Unit := do
  if (← wrapIlmSurfaceExists ilm surfaceId) = false then
    return ()
  checked ilm (.layerRemoveSurface layerId surfaceId)
  unchecked ilm (.surfaceRemoveNotification surfaceId)
  unchecked ilm .commitChanges

/-! ## Notifications -/

inductive NtfType where
  | creationDelection
  | surfacePropChange
deriving DecidableEq

/-- One record on the pipe. -/
structure Cbdata where
  type : NtfType
  id : Id
deriving DecidableEq

/-- The record a surface notification writes, `configured` telling whether its
mask has `ILM_NOTIFICATION_CONFIGURED`. -/
def surfaceNotificationCallback (surfaceId : Id) (configured : Bool) : List Cbdata :=
  if configured then [⟨.surfacePropChange, surfaceId⟩] else []

/-- The record the creation or destruction of an object writes. -/
def notificationCallback (object : IlmObjectType) (id : Id) (created : Bool) : List Cbdata :=
  if object = .surface then
    if created then [⟨.creationDelection, id⟩] else []
  else []

/-- `registered` is what `parser_check_registered_surface_in_list_tree` says. -/
def wrapIlmSetSurfaceAddNotification (registered : Int) (id : Id) : IlmM σ Unit := do
  if registered = 0 then
    return ()
  unchecked ilm (.surfaceAddNotification id)
  unchecked ilm .commitChanges
  unchecked ilm (.getPropertiesOfSurface id)

def wrapIlmSetNotificationCallback : IlmM σ Unit :=
  unchecked ilm .registerNotification

end UhmiIviWm
