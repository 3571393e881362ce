import UhmiIviWm.Lib.KeyedList
import UhmiIviWm.Model.Types

/-!
# The screen tree and the surface property store

The list functions of `comm_parser.c` and the functions that maintain its two
static lists, `screen_head` (screens, their layers, the surfaces of each layer)
and `surface_properties_head` (one reference-counted record per surface).

The code passes pointers to screen and layer elements around. Here such a
pointer is the element's id and is followed by the lookup the code itself makes
(`getListElement`, `getLayer`): the code obtains every one of them from such a
lookup, or has just put the element in, and holds it only while no other element
of that id is added. `updateScreen` and `updateLayer` write through one.
-/

namespace UhmiIviWm

open Lib.KeyedList

/-- The static data of `comm_parser.c`, and what its uninitialised locals hold:
`uninit n` is the frame the `n`-th call from now finds. -/
structure Wm where
  screenHead : List ScreenElm
  surfacePropertiesHead : List SurfacePropertiesElm
  uninit : Nat → Frame

/-! ## Lists -/

section Lists

variable {P C : Type}

def popListElement (listHead : List (ListElement P C)) (id : Id) :
    Option (ListElement P C) × List (ListElement P C) :=
  (listHead.find? (·.id == id), listHead.eraseP (·.id == id))

def getListElement (listHead : List (ListElement P C)) (id : Id) : Option (ListElement P C) :=
  listHead.find? (·.id == id)

/-- A reference element that is not in the list turns `before` and `after` into
an append; any other order than the four inserts nothing. -/
def insertListElement (listHead : List (ListElement P C)) (targetElm : ListElement P C)
    (insertInfo : InsertInfo) : List (ListElement P C) :=
  match insertInfo.order with
  | .prepend => targetElm :: listHead
  | .append => listHead ++ [targetElm]
  | .before => insertBefore (·.id) insertInfo.refid targetElm listHead
  | .after => insertAfter (·.id) insertInfo.refid targetElm listHead
  | .none => listHead

end Lists

/-- Writes through a pointer to a screen element. -/
def updateScreen (screenHead : List ScreenElm) (screenElm : Id) (f : ScreenElm → ScreenElm) :
    List ScreenElm :=
  updateFirst (·.id == screenElm) f screenHead

/-- Writes through a pointer to a layer element. -/
def updateLayer (screenHead : List ScreenElm) (layerElm : Id) (f : LayerElm → LayerElm) :
    List ScreenElm :=
  updateFirst (fun s => s.listHead.any (·.id == layerElm))
    (fun s => { s with listHead := updateFirst (·.id == layerElm) f s.listHead }) screenHead

/-- Writes through a pointer to an entry of the property store. -/
def updateSurfaceProperties (store : List SurfacePropertiesElm) (surfaceId : Id)
    (prop : SurfaceProperties) : List SurfacePropertiesElm :=
  updateFirst (·.id == surfaceId) (fun e => { e with prop }) store

/-! ## Surface properties -/

/-- The caller's struct is counted up before it is copied, so it is returned too. -/
def addSurfaceProperties (store : List SurfacePropertiesElm) (prop : SurfaceProperties)
    (surfaceId : Id) : SurfaceProperties × List SurfacePropertiesElm :=
  let store := match getListElement store surfaceId with
    | none => insertListElement store ⟨surfaceId, .zero, []⟩ insertInfoDefault
    | some _ => store
  let prop := { prop with referredCnt := prop.referredCnt + 1 }
  (prop, updateSurfaceProperties store surfaceId prop)

def removeSurfaceProperties (store : List SurfacePropertiesElm) (surfaceId : Id) :
    List SurfacePropertiesElm :=
  match getListElement store surfaceId with
  | none => store
  | some surfacePropertiesElm =>
    let prop := { surfacePropertiesElm.prop with
      referredCnt := surfacePropertiesElm.prop.referredCnt - 1 }
    if prop.referredCnt = 0 then (popListElement store surfaceId).2
    else updateSurfaceProperties store surfaceId prop

/-! ## Surfaces -/

def addSurface (wm : Wm) (layerElm : Id) (prop : SurfaceProperties) (surfaceId : Id)
    (insertInfo : InsertInfo) : SurfaceProperties × Wm :=
  let surfaceElm : SurfaceElm := ⟨surfaceId, (), []⟩
  let (prop, store) := addSurfaceProperties wm.surfacePropertiesHead prop surfaceId
  (prop, { wm with
    surfacePropertiesHead := store
    screenHead := updateLayer wm.screenHead layerElm fun e =>
      { e with listHead := insertListElement e.listHead surfaceElm insertInfo } })

def getLayer (screenHead : List ScreenElm) (layerId : Id) : Option LayerElm :=
  screenHead.findSome? fun screenElm => getListElement screenElm.listHead layerId

/-- `pop_list_element` on the list of the layer pointed to. -/
def popSurface (screenHead : List ScreenElm) (layerElm surfaceId : Id) :
    Option SurfaceElm × List ScreenElm :=
  ((getLayer screenHead layerElm).bind fun e => (popListElement e.listHead surfaceId).1,
    updateLayer screenHead layerElm fun e =>
      { e with listHead := (popListElement e.listHead surfaceId).2 })

def removeSurface (wm : Wm) (layerElm surfaceId : Id) : Int × Wm :=
  match popSurface wm.screenHead layerElm surfaceId with
  | (some _, screenHead) =>
    (1, { wm with
      screenHead
      surfacePropertiesHead := removeSurfaceProperties wm.surfacePropertiesHead surfaceId })
  | (none, _) => (0, wm)

/-- Takes the surfaces off one by one; what is left of the layer is freed by the
caller. -/
def removeAllSurface (store : List SurfacePropertiesElm) (layerElm : LayerElm) :
    List SurfacePropertiesElm :=
  layerElm.listHead.foldl (fun store s => removeSurfaceProperties store s.id) store

/-! ## Layers and screens -/

def addLayer (wm : Wm) (screenElm : Id) (prop : LayerProperties) (layerId : Id)
    (insertInfo : InsertInfo) : Wm :=
  { wm with screenHead := updateScreen wm.screenHead screenElm fun s =>
      { s with listHead := insertListElement s.listHead ⟨layerId, prop, []⟩ insertInfo } }

def popLayer : List ScreenElm → Id → Option LayerElm × List ScreenElm
  | [], _ => (none, [])
  | screenElm :: rest, layerId =>
    match popListElement screenElm.listHead layerId with
    | (some layerElm, listHead) => (some layerElm, { screenElm with listHead } :: rest)
    | (none, _) =>
      let (layerElm, rest) := popLayer rest layerId
      (layerElm, screenElm :: rest)

def removeLayer (wm : Wm) (layerId : Id) : Int × Wm :=
  match popLayer wm.screenHead layerId with
  | (some layerElm, screenHead) =>
    (1, { wm with
      screenHead
      surfacePropertiesHead := removeAllSurface wm.surfacePropertiesHead layerElm })
  | (none, _) => (0, wm)

def addScreen (wm : Wm) (screenId : Id) : Wm :=
  { wm with screenHead := insertListElement wm.screenHead ⟨screenId, (), []⟩ insertInfoDefault }

def removeAll (wm : Wm) : Wm :=
  { wm with
    screenHead := []
    surfacePropertiesHead := wm.screenHead.foldl
      (fun store s => s.listHead.foldl removeAllSurface store) wm.surfacePropertiesHead }

def parserCheckRegisteredSurfaceInListTree (wm : Wm) (surfaceId : Id) : Int :=
  match getListElement wm.surfacePropertiesHead surfaceId with
  | some _ => 1
  | none => 0

end UhmiIviWm
