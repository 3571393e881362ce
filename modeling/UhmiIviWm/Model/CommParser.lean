import UhmiIviWm.Model.IlmControlWrapper
import UhmiIviWm.Model.Layout
import UhmiIviWm.Model.ParseJson

/-!
# The command handlers

The rest of `comm_parser.c`: the functions that change the layout and drive ilm,
the handlers of the seven commands, and `parser_init`. They run in `WmM`, a
state of the layout (`Wm`) and the ilm library, and may abort.

`json_array_foreach` with its early returns is `forEach`; an array that could not
be fetched is `NULL` and has no elements.
-/

namespace UhmiIviWm

open Lib.CallPlan

structure World (σ : Type) where
  wm : Wm
  ilm : σ

abbrev WmM (σ : Type) := Comp (World σ) Abort

variable {σ : Type}

/-! ## Access to the two halves of the state -/

def readWm {α : Type} (g : Wm → α) : WmM σ α := Comp.reads fun w => g w.wm

def modifyWm (f : Wm → Wm) : WmM σ Unit := fun w => .ok ((), { w with wm := f w.wm })

/-- Runs an ilm wrapper. -/
def onIlm {α : Type} (m : IlmM σ α) : WmM σ α := fun w =>
  match m w.ilm with
  | .ok (a, c) => .ok (a, { w with ilm := c })
  | .error e => .error e

/-- A read that may run out of its buffer. -/
def ofParse {α : Type} (r : Except Abort α) : WmM σ α := fun w =>
  match r with
  | .ok a => .ok (a, w)
  | .error e => .error e

/-- Enters a function with uninitialised locals. -/
def enterFrame : WmM σ Frame := fun w =>
  .ok (w.wm.uninit 0, { w with wm := { w.wm with uninit := fun n => w.wm.uninit (n + 1) } })

variable (ilm : Ilm σ)

/-! ## Pushing the layout to ilm -/

/-- The surfaces of the list that exist, each looked up on its own. -/
def existsSurfaces : List SurfaceElm → IlmM σ (List Id)
  | [] => return []
  | surfaceElm :: rest => do
    let found ← wrapIlmSurfaceExists ilm surfaceElm.id
    let surfaces ← existsSurfaces rest
    return if found then surfaceElm.id :: surfaces else surfaces

def addExistsSurfacesToLayer (layerElm : LayerElm) : IlmM σ Unit := do
  let surfaces ← existsSurfaces ilm layerElm.listHead
  wrapIlmAddSurfaceToLayer ilm layerElm.id surfaces

/-- Pushes each layer with its surfaces. -/
def setLayers : List LayerElm → IlmM σ Unit
  | [] => return ()
  | layerElm :: rest => do
    wrapIlmSetLayer ilm layerElm.prop layerElm.id
    addExistsSurfacesToLayer ilm layerElm
    setLayers rest

def addLayersToScreen (screenElm : ScreenElm) : IlmM σ Unit := do
  setLayers ilm screenElm.listHead
  wrapIlmAddLayerToScreen ilm screenElm.id (screenElm.listHead.map (·.id))

/-- `add_exists_surfaces_to_layer` on the layer pointed to. -/
def addExistsSurfacesToLayerAt (layerElm : Id) : WmM σ Unit := do
  match ← readWm (getLayer ·.screenHead layerElm) with
  | none => return ()
  | some layerElm => onIlm (addExistsSurfacesToLayer ilm layerElm)

/-- `add_layers_to_screen` on the screen pointed to. -/
def addLayersToScreenAt (screenElm : Id) : WmM σ Unit := do
  match ← readWm (getListElement ·.screenHead screenElm) with
  | none => return ()
  | some screenElm => onIlm (addLayersToScreen ilm screenElm)

/-! ## Surface notifications -/

/-- The innermost loop of `parser_add_ivi_surface_by_event_notification`: one
round for each occurrence of the surface in the layer. -/
def placeSurface (store : List SurfacePropertiesElm) (surfaceId : Id) (layerElm : LayerElm) :
    List SurfaceElm → IlmM σ Unit
  | [] => return ()
  | refSurfaceElm :: rest => do
    if surfaceId = refSurfaceElm.id then
      match getListElement store surfaceId with
      | none => throw .nullDeref
      | some surfacePropertiesElm =>
        wrapIlmSetSurface ilm surfacePropertiesElm.prop surfaceId
        addExistsSurfacesToLayer ilm layerElm
    placeSurface store surfaceId layerElm rest

def placeSurfaceInLayers (store : List SurfacePropertiesElm) (surfaceId : Id) :
    List LayerElm → IlmM σ Unit
  | [] => return ()
  | layerElm :: rest => do
    placeSurface ilm store surfaceId layerElm layerElm.listHead
    placeSurfaceInLayers store surfaceId rest

def placeSurfaceInScreens (store : List SurfacePropertiesElm) (surfaceId : Id) :
    List ScreenElm → IlmM σ Unit
  | [] => return ()
  | screenElm :: rest => do
    placeSurfaceInLayers ilm store surfaceId screenElm.listHead
    placeSurfaceInScreens store surfaceId rest

def parserAddIviSurfaceByEventNotification (surfaceId : Id) : WmM σ Int := do
  let wm ← readWm id
  onIlm (placeSurfaceInScreens ilm wm.surfacePropertiesHead surfaceId wm.screenHead)
  return 0

/-! ## Adding and updating elements -/

/-- Returns a pointer to the layer. -/
def decideAddOrUpdateLayer (screenElm : Id) (layerJobj : Json) (layerId : Id)
    (type : CmdType) (insertInfo : InsertInfo) : WmM σ Id := do
  let (popped, screenHead) ← readWm (popLayer ·.screenHead layerId)
  match popped with
  | none =>
    let frame ← enterFrame
    let layerProp := (parseLayerProperties frame.layerProp (some layerJobj) type).2
    modifyWm (addLayer · screenElm layerProp layerId insertInfo)
    onIlm (wrapIlmSetLayer ilm layerProp layerId)
  | some layerElm =>
    let layerElm := { layerElm with
      prop := (parseLayerProperties layerElm.prop (some layerJobj) type).2 }
    modifyWm fun wm => { wm with
      screenHead := updateScreen screenHead screenElm fun s =>
        { s with listHead := insertListElement s.listHead layerElm insertInfo } }
    onIlm (wrapIlmSetLayer ilm layerElm.prop layerId)
  return layerId

/-- Returns a pointer to the surface. -/
def decideAddOrUpdateSurface (layerElm : Id) (surfaceJobj : Json) (surfaceId : Id)
    (type : CmdType) (insertInfo : InsertInfo) : WmM σ Id := do
  let (popped, screenHead) ← readWm (popSurface ·.screenHead layerElm surfaceId)
  match popped with
  | none =>
    let frame ← enterFrame
    let surfaceProp := (parseSurfaceProperties frame.surfaceProp (some surfaceJobj) type).2
    modifyWm fun wm => (addSurface wm layerElm surfaceProp surfaceId insertInfo).2
    onIlm (wrapIlmSetSurface ilm surfaceProp surfaceId)
  | some surfaceElm =>
    match ← readWm (getListElement ·.surfacePropertiesHead surfaceId) with
    | none => throw .nullDeref
    | some surfacePropertiesElm =>
      let prop := (parseSurfaceProperties surfacePropertiesElm.prop (some surfaceJobj) type).2
      modifyWm fun wm => { wm with
        surfacePropertiesHead := updateSurfaceProperties wm.surfacePropertiesHead surfaceId prop
        screenHead := updateLayer screenHead layerElm fun e =>
          { e with listHead := insertListElement e.listHead surfaceElm insertInfo } }
      onIlm (wrapIlmSetSurface ilm prop surfaceId)
  return surfaceId

/-! ## Configuration and layout documents -/

def addScreens : List Id → WmM σ Unit
  | [] => return ()
  | screenId :: rest => do
    modifyWm (addScreen · screenId)
    addScreens rest

def initDefaultConfig : WmM σ Int := do
  let screenArray ← onIlm (wrapIlmGetScreenIds ilm)
  addScreens screenArray
  return 0

/-- The screens array of a document, from the top. -/
def parseScreenObjects (screenAry : List Json) : WmM σ Int :=
  forEach screenAry fun screenJobj => do
    let screenId := (parseId (some screenJobj)).getD 0
    if (← onIlm (wrapIlmScreenExists ilm screenId)) = false then
      return -1
    match ← readWm (getListElement ·.screenHead screenId) with
    | none => modifyWm (addScreen · screenId)
    | some _ => pure ()
    let layerAry := (parseLayers (some screenJobj)).getD []
    let _ ← forEach layerAry fun layerJobj => do
      let layerId := (parseId (some layerJobj)).getD 0
      let layerElm ← decideAddOrUpdateLayer ilm screenId layerJobj layerId .add insertInfoDefault
      let surfaceAry := (parseSurfaces (some layerJobj)).getD []
      forEach surfaceAry fun surfaceJobj => do
        let surfaceId := (parseId (some surfaceJobj)).getD 0
        let _ ← decideAddOrUpdateSurface ilm layerElm surfaceJobj surfaceId .add insertInfoDefault
        return 0
    addLayersToScreenAt ilm screenId
    return 0

def parseAllInScreen (jobject : Option Json) : WmM σ Int :=
  parseScreenObjects ilm ((parseScreens jobject).getD [])

/-- What `main` and the system hand to `parser_init`: the host name, and the
configuration path, of which `json_load_file` makes a document or `NULL`. -/
structure Boot where
  localHostname : String
  config : Option (Option Json)

def parseInitJsonConfig (localHostname : String) (file : Option Json) : WmM σ Int := do
  match file with
  | none => return -1
  | some rootJobj =>
    let _ ← ofParse (parseVersion (some rootJobj))
    forEach ((parseTarget (some rootJobj)).getD []) fun targetJobj => do
      if (← ofParse (parseHostname localHostname (some targetJobj))) < 0 then
        return 0
      if (← parseAllInScreen ilm (some targetJobj)) < 0 then
        return -1
      return 0

def parserInit (boot : Boot) : WmM σ Unit := do
  modifyWm fun wm => { wm with screenHead := [], surfacePropertiesHead := [] }
  match boot.config with
  | some file => do
    let _ ← parseInitJsonConfig ilm boot.localHostname file
  | none => pure ()
  if (← readWm (·.screenHead.isEmpty)) then
    let _ ← initDefaultConfig ilm
  onIlm (wrapIlmSetNotificationCallback ilm)

/-! ## Layer commands -/

def parseAddLayerCommand (jobject : Option Json) : WmM σ Int := do
  match parseScreens jobject with
  | none => return -1
  | some screenAry =>
    forEach screenAry fun screenJobj => do
      let screenId := (parseId (some screenJobj)).getD 0
      let (_, insertInfo) ← ofParse (parseInsertInfo (some screenJobj) insertInfoDefault)
      match ← readWm fun wm => (getListElement wm.screenHead screenId).isSome with
      | false => return 0
      | true =>
        match parseLayers (some screenJobj) with
        | none => return -1
        | some layerAry =>
          let ret ← forEach layerAry fun layerJobj => do
            match parseId (some layerJobj) with
            | none => return -1
            | some layerId =>
              let _ ← decideAddOrUpdateLayer ilm screenId layerJobj layerId .add insertInfo
              return 0
          if ret < 0 then return ret
          addLayersToScreenAt ilm screenId
          return 0

def parseRemoveLayerCommand (jobject : Option Json) : WmM σ Int := do
  match parseLayers jobject with
  | none => return -1
  | some layerAry =>
    forEach layerAry fun layerJobj => do
      match parseId (some layerJobj) with
      | none => return -1
      | some layerId =>
        modifyWm fun wm => (removeLayer wm layerId).2
        onIlm (wrapIlmRemoveLayer ilm layerId)
        return 0

def parseModifyLayerCommand (jobject : Option Json) : WmM σ Int := do
  match parseLayers jobject with
  | none => return -1
  | some layerAry =>
    forEach layerAry fun layerJobj => do
      match parseId (some layerJobj) with
      | none => return -1
      | some layerId =>
        match ← readWm (getLayer ·.screenHead layerId) with
        | none => return 0
        | some layerElm =>
          let prop := (parseLayerProperties layerElm.prop (some layerJobj) .mod).2
          modifyWm fun wm => { wm with
            screenHead := updateLayer wm.screenHead layerId fun e => { e with prop } }
          onIlm (wrapIlmSetLayer ilm prop layerId)
          return 0

/-! ## Surface commands -/

def parseAddSurfaceCommand (jobject : Option Json) : WmM σ Int := do
  match parseScreens jobject with
  | none => return -1
  | some screenAry =>
    forEach screenAry fun screenJobj => do
      let (_, insertInfo) ← ofParse (parseInsertInfo (some screenJobj) insertInfoDefault)
      match parseLayers (some screenJobj) with
      | none => return -1
      | some layerAry =>
        forEach layerAry fun layerJobj => do
          let layerId := (parseId (some layerJobj)).getD 0
          match ← readWm fun wm => (getLayer wm.screenHead layerId).isSome with
          | false => return 0
          | true =>
            match parseSurfaces (some layerJobj) with
            | none => return -1
            | some surfaceAry =>
              let ret ← forEach surfaceAry fun surfaceJobj => do
                match parseId (some surfaceJobj) with
                | none => return -1
                | some surfaceId =>
                  let _ ← decideAddOrUpdateSurface ilm layerId surfaceJobj surfaceId .add
                    insertInfo
                  return 0
              if ret < 0 then return ret
              addExistsSurfacesToLayerAt ilm layerId
              return 0

def parseRemoveSurfaceCommand (jobject : Option Json) : WmM σ Int := do
  match parseLayers jobject with
  | none => return -1
  | some layerAry =>
    forEach layerAry fun layerJobj => do
      match parseId (some layerJobj) with
      | none => return -1
      | some layerId =>
        match ← readWm fun wm => (getLayer wm.screenHead layerId).isSome with
        | false => return 0
        | true =>
          match parseSurfaces (some layerJobj) with
          | none => return -1
          | some surfaceAry =>
            forEach surfaceAry fun surfaceJobj => do
              match parseId (some surfaceJobj) with
              | none => return -1
              | some surfaceId =>
                modifyWm fun wm => (removeSurface wm layerId surfaceId).2
                onIlm (wrapIlmRemoveSurface ilm layerId surfaceId)
                return 0

def parseModifySurfaceCommand (jobject : Option Json) : WmM σ Int := do
  match parseSurfaces jobject with
  | none => return -1
  | some surfaceAry =>
    forEach surfaceAry fun surfaceJobj => do
      match parseId (some surfaceJobj) with
      | none => return -1
      | some surfaceId =>
        match ← readWm (getListElement ·.surfacePropertiesHead surfaceId) with
        | none => return -1
        | some surfacePropertiesElm =>
          let prop := (parseSurfaceProperties surfacePropertiesElm.prop (some surfaceJobj) .mod).2
          modifyWm fun wm => { wm with
            surfacePropertiesHead :=
              updateSurfaceProperties wm.surfacePropertiesHead surfaceId prop }
          onIlm (wrapIlmSetSurface ilm prop surfaceId)
          return 0

/-! ## Dispatch -/

def parseInitScreenCommand (jobject : Option Json) : WmM σ Int := do
  let _ ← ofParse (parseVersion jobject)
  modifyWm removeAll
  if (← parseAllInScreen ilm jobject) < 0 then
    return -1
  onIlm (wrapIlmSetNotificationCallback ilm)
  return 0

/-- The seven commands. -/
inductive Command where
  | addSurface
  | removeSurface
  | modifySurface
  | addLayer
  | removeLayer
  | modifyLayer
  | initialScreen
deriving DecidableEq

/-- The chain of `strcmp`s on the command name. -/
def commandOfName (cmdName : String) : Option Command :=
  if "add_surface" = cmdName then some .addSurface
  else if "remove_surface" = cmdName then some .removeSurface
  else if "modify_surface" = cmdName then some .modifySurface
  else if "add_layer" = cmdName then some .addLayer
  else if "remove_layer" = cmdName then some .removeLayer
  else if "modify_layer" = cmdName then some .modifyLayer
  else if "initial_screen" = cmdName then some .initialScreen
  else none

/-- The handler of a command. -/
def Command.handler : Command → Option Json → WmM σ Int
  | .addSurface => parseAddSurfaceCommand ilm
  | .removeSurface => parseRemoveSurfaceCommand ilm
  | .modifySurface => parseModifySurfaceCommand ilm
  | .addLayer => parseAddLayerCommand ilm
  | .removeLayer => parseRemoveLayerCommand ilm
  | .modifyLayer => parseModifyLayerCommand ilm
  | .initialScreen => parseInitScreenCommand ilm

/-- `msg` is what `json_loads` makes of the message. The result of the handler
is not looked at. -/
def parserParseRecvCommand (msg : Option Json) : WmM σ Int := do
  let _ ← ofParse (parseVersion msg)
  match ← ofParse (parseCommand msg) with
  | none => pure ()
  | some cmdName =>
    match commandOfName cmdName with
    | none => pure ()
    | some command =>
      let _ ← command.handler ilm msg
  return 0

end UhmiIviWm
