import UhmiIviWm.Model.EventLoop
import UhmiIviWm.Verify.Effects

/-!
# What each event calls

The calls every event makes, as a plan. The handlers of the six incremental
commands branch on their message and on which screens, layers or records there
are, and none of their calls changes the ids they ask for; so the whole plan of
such a command is known when the message arrives. The two handlers of layout
documents also ask ilm for each screen on the way, and their plans follow the
state they have reached.

`Event.plan` and `Boot.plan` put this together. `daemon_invariant` turns what
each call preserves into what a run preserves.
-/

namespace UhmiIviWm

open Lib Lib.CallPlan Lib.KeyedList

variable {σ : Type}

/-! ## The incremental commands -/

def planAddLayerScreen (wm : Wm) (screenJobj : Json) : Plan Call Abort Int := do
  let screenId := (parseId (some screenJobj)).getD 0
  let (_, insertInfo) ← Plan.ofExcept (parseInsertInfo (some screenJobj) insertInfoDefault)
  match (getListElement wm.screenHead screenId).isSome with
  | false => pure 0
  | true =>
    match parseLayers (some screenJobj) with
    | none => pure (-1)
    | some layerAry => do
      let ret ← forEach layerAry fun layerJobj =>
        match parseId (some layerJobj) with
        | none => pure (-1)
        | some layerId => do
          Plan.call (.putLayer screenId layerJobj layerId insertInfo)
          pure 0
      if ret < 0 then pure ret else do
        Plan.call (.pushScreen screenId)
        pure 0

def planAddLayer (wm : Wm) (jobject : Option Json) : Plan Call Abort Int :=
  match parseScreens jobject with
  | none => pure (-1)
  | some screenAry => forEach screenAry (planAddLayerScreen wm)

def planRemoveLayer (jobject : Option Json) : Plan Call Abort Int :=
  match parseLayers jobject with
  | none => pure (-1)
  | some layerAry =>
    forEach layerAry fun layerJobj =>
      match parseId (some layerJobj) with
      | none => pure (-1)
      | some layerId => do
        Plan.call (.removeLayer layerId)
        pure 0

def planModifyLayer (jobject : Option Json) : Plan Call Abort Int :=
  match parseLayers jobject with
  | none => pure (-1)
  | some layerAry =>
    forEach layerAry fun layerJobj =>
      match parseId (some layerJobj) with
      | none => pure (-1)
      | some layerId => do
        Plan.call (.modifyLayer layerId layerJobj)
        pure 0

def planAddSurfaceLayer (wm : Wm) (insertInfo : InsertInfo) (layerJobj : Json) :
    Plan Call Abort Int :=
  let layerId := (parseId (some layerJobj)).getD 0
  match (getLayer wm.screenHead layerId).isSome with
  | false => pure 0
  | true =>
    match parseSurfaces (some layerJobj) with
    | none => pure (-1)
    | some surfaceAry => do
      let ret ← forEach surfaceAry fun surfaceJobj =>
        match parseId (some surfaceJobj) with
        | none => pure (-1)
        | some surfaceId => do
          Plan.call (.putSurface layerId surfaceJobj surfaceId insertInfo)
          pure 0
      if ret < 0 then pure ret else do
        Plan.call (.pushLayer layerId)
        pure 0

def planAddSurfaceScreen (wm : Wm) (screenJobj : Json) : Plan Call Abort Int := do
  let (_, insertInfo) ← Plan.ofExcept (parseInsertInfo (some screenJobj) insertInfoDefault)
  match parseLayers (some screenJobj) with
  | none => pure (-1)
  | some layerAry => forEach layerAry (planAddSurfaceLayer wm insertInfo)

def planAddSurface (wm : Wm) (jobject : Option Json) : Plan Call Abort Int :=
  match parseScreens jobject with
  | none => pure (-1)
  | some screenAry => forEach screenAry (planAddSurfaceScreen wm)

def planRemoveSurfaceLayer (wm : Wm) (layerJobj : Json) : Plan Call Abort Int :=
  match parseId (some layerJobj) with
  | none => pure (-1)
  | some layerId =>
    match (getLayer wm.screenHead layerId).isSome with
    | false => pure 0
    | true =>
      match parseSurfaces (some layerJobj) with
      | none => pure (-1)
      | some surfaceAry =>
        forEach surfaceAry fun surfaceJobj =>
          match parseId (some surfaceJobj) with
          | none => pure (-1)
          | some surfaceId => do
            Plan.call (.removeSurface layerId surfaceId)
            pure 0

def planRemoveSurface (wm : Wm) (jobject : Option Json) : Plan Call Abort Int :=
  match parseLayers jobject with
  | none => pure (-1)
  | some layerAry => forEach layerAry (planRemoveSurfaceLayer wm)

def planModifySurface (wm : Wm) (jobject : Option Json) : Plan Call Abort Int :=
  match parseSurfaces jobject with
  | none => pure (-1)
  | some surfaceAry =>
    forEach surfaceAry fun surfaceJobj =>
      match parseId (some surfaceJobj) with
      | none => pure (-1)
      | some surfaceId =>
        match (getListElement wm.surfacePropertiesHead surfaceId).isSome with
        | false => pure (-1)
        | true => do
          Plan.call (.modifySurface surfaceId surfaceJobj)
          pure 0

/-! ## What the calls leave in place -/

section Frame

variable {wm : Wm} {layerElm surfaceId : Id} {obj : Json} {info : InsertInfo}

theorem screenIds_putLayer {screenElm layerId : Id} :
    ((Call.putLayer screenElm obj layerId info).layout wm).screenIds = wm.screenIds := by
  simp only [Call.layout]
  cases getLayer wm.screenHead layerId
  all_goals exact (ids_updateScreen fun _ => by rfl).trans (ids_popLayer _ _)

theorem ids_layersOf_popSurface {t : List ScreenElm} :
    ids (layersOf (popSurface t layerElm surfaceId).2) = ids (layersOf t) :=
  ids_layersOf_updateLayer fun _ => by rfl

theorem screenIds_putSurface :
    ((Call.putSurface layerElm obj surfaceId info).layout wm).screenIds = wm.screenIds := by
  simp only [Call.layout]
  split
  · rfl
  · split
    · exact ids_updateLayer
    · exact ids_updateLayer.trans ids_updateLayer

theorem layerIds_putSurface :
    ((Call.putSurface layerElm obj surfaceId info).layout wm).layerIds = wm.layerIds := by
  simp only [Call.layout]
  split
  · rfl
  · split
    · exact ids_layersOf_updateLayer fun _ => by rfl
    · exact (ids_layersOf_updateLayer fun _ => by rfl).trans ids_layersOf_popSurface

theorem layerIds_removeSurface :
    ((Call.removeSurface layerElm surfaceId).layout wm).layerIds = wm.layerIds := by
  simp only [Call.layout, removeSurface]
  split
  · rename_i h
    have hscreens := (Prod.ext_iff.mp h).2
    dsimp only at hscreens
    rw [Wm.layerIds, ← hscreens]
    exact ids_layersOf_popSurface
  · rfl

theorem recordIds_modifySurface :
    ((Call.modifySurface surfaceId obj).layout wm).recordIds = wm.recordIds := by
  simp only [Call.layout]
  split
  · rfl
  · exact ids_updateSurfaceProperties

end Frame

/-! ## The handlers follow their plans -/

/-- The state agrees with `wm` on `g`. -/
def Agrees {β : Type} (g : Wm → β) (wm : Wm) (w : World σ) : Prop := g w.wm = g wm

section Commands

variable {ilm : Ilm σ} {wm : Wm} {jobject : Option Json}

theorem Agrees.call {β : Type} {g : Wm → β} {call : Call}
    (hg : ∀ wm, g (call.layout wm) = g wm) (w w' : World σ) (h : Agrees g wm w)
    (hs : call.sem ilm w = .ok ((), w')) : Agrees g wm w' := by
  rw [Agrees, (Call.sem_eq_ok.mp hs).2, hg]
  exact h

theorem Agrees.screen {w : World σ} (h : Agrees Wm.screenIds wm w) (id : Id) :
    (getListElement w.wm.screenHead id).isSome = (getListElement wm.screenHead id).isSome := by
  rw [Bool.eq_iff_iff, getListElement_isSome, getListElement_isSome]
  exact iff_of_eq (congrArg (id ∈ ·) h)

theorem Agrees.layer {w : World σ} (h : Agrees Wm.layerIds wm w) (id : Id) :
    (getLayer w.wm.screenHead id).isSome = (getLayer wm.screenHead id).isSome := by
  rw [Bool.eq_iff_iff, getLayer_isSome, getLayer_isSome]
  exact iff_of_eq (congrArg (id ∈ ·) h)

theorem Agrees.record {w : World σ} (h : Agrees Wm.recordIds wm w) (id : Id) :
    (getListElement w.wm.surfacePropertiesHead id).isSome =
      (getListElement wm.surfacePropertiesHead id).isSome := by
  rw [Bool.eq_iff_iff, getListElement_isSome, getListElement_isSome]
  exact iff_of_eq (congrArg (id ∈ ·) h)

theorem implements_ofParse {I : World σ → Prop} {α : Type} (r : Except Abort α) :
    Implements (Call.sem ilm) I (ofParse r) (Plan.ofExcept r) :=
  .ofExcept fun _ => by cases r <;> rfl

theorem implements_addLayer :
    Implements (Call.sem ilm) (Agrees Wm.screenIds wm) (parseAddLayerCommand ilm jobject)
      (planAddLayer wm jobject) := by
  unfold parseAddLayerCommand planAddLayer planAddLayerScreen
  cases parseScreens jobject with
  | none => exact .ret (-1)
  | some screenAry =>
    refine .loop fun screenJobj _ => .seq (implements_ofParse _) fun r _ => ?_
    refine .reads (fun w hw => hw.screen _) ?_
    cases (getListElement wm.screenHead ((parseId (some screenJobj)).getD 0)).isSome with
    | false => exact .ret 0
    | true =>
      cases parseLayers (some screenJobj) with
      | none => exact .ret (-1)
      | some layerAry =>
        refine .seq (.loop fun layerJobj _ => ?_) fun ret _ => .ite (fun _ => .ret ret) fun _ => ?_
        · cases parseId (some layerJobj) with
          | none => exact .ret (-1)
          | some layerId =>
            refine .callThen ?_ (Agrees.call fun _ => screenIds_putLayer) (.ret 0)
            simp only [Call.sem, bind_assoc, pure_bind]
        · exact .callThen rfl (Agrees.call fun _ => rfl) (.ret 0)

theorem implements_removeLayer :
    Implements (Call.sem ilm) (fun _ => True) (parseRemoveLayerCommand ilm jobject)
      (planRemoveLayer jobject) := by
  unfold parseRemoveLayerCommand planRemoveLayer
  cases parseLayers jobject with
  | none => exact .ret (-1)
  | some layerAry =>
    refine .loop fun layerJobj _ => ?_
    cases parseId (some layerJobj) with
    | none => exact .ret (-1)
    | some layerId =>
      refine .callThen ?_ (fun _ _ _ _ => trivial) (.ret 0)
      simp only [Call.sem, bind_assoc]

theorem implements_modifyLayer :
    Implements (Call.sem ilm) (fun _ => True) (parseModifyLayerCommand ilm jobject)
      (planModifyLayer jobject) := by
  unfold parseModifyLayerCommand planModifyLayer
  cases parseLayers jobject with
  | none => exact .ret (-1)
  | some layerAry =>
    refine .loop fun layerJobj _ => ?_
    cases parseId (some layerJobj) with
    | none => exact .ret (-1)
    | some layerId =>
      refine .callThen ?_ (fun _ _ _ _ => trivial) (.ret 0)
      simp only [Call.sem, bind_assoc]
      refine congrArg (_ >>= ·) (funext fun e => ?_)
      cases e <;> simp only [bind_assoc, pure_bind]

theorem implements_addSurface :
    Implements (Call.sem ilm) (Agrees Wm.layerIds wm) (parseAddSurfaceCommand ilm jobject)
      (planAddSurface wm jobject) := by
  unfold parseAddSurfaceCommand planAddSurface planAddSurfaceScreen planAddSurfaceLayer
  cases parseScreens jobject with
  | none => exact .ret (-1)
  | some screenAry =>
    refine .loop fun screenJobj _ => .seq (implements_ofParse _) fun r _ => ?_
    cases parseLayers (some screenJobj) with
    | none => exact .ret (-1)
    | some layerAry =>
      refine .loop fun layerJobj _ => .reads (fun w hw => hw.layer _) ?_
      dsimp only
      cases (getLayer wm.screenHead ((parseId (some layerJobj)).getD 0)).isSome with
      | false => exact .ret 0
      | true =>
        cases parseSurfaces (some layerJobj) with
        | none => exact .ret (-1)
        | some surfaceAry =>
          refine .seq (.loop fun surfaceJobj _ => ?_) fun ret _ =>
            .ite (fun _ => .ret ret) fun _ => ?_
          · cases parseId (some surfaceJobj) with
            | none => exact .ret (-1)
            | some surfaceId =>
              refine .callThen ?_ (Agrees.call fun _ => layerIds_putSurface) (.ret 0)
              simp only [Call.sem, bind_assoc, pure_bind]
          · exact .callThen rfl (Agrees.call fun _ => rfl) (.ret 0)

theorem implements_removeSurface :
    Implements (Call.sem ilm) (Agrees Wm.layerIds wm) (parseRemoveSurfaceCommand ilm jobject)
      (planRemoveSurface wm jobject) := by
  unfold parseRemoveSurfaceCommand planRemoveSurface planRemoveSurfaceLayer
  cases parseLayers jobject with
  | none => exact .ret (-1)
  | some layerAry =>
    refine .loop fun layerJobj _ => ?_
    cases parseId (some layerJobj) with
    | none => exact .ret (-1)
    | some layerId =>
      refine .reads (fun w hw => hw.layer _) ?_
      dsimp only
      cases (getLayer wm.screenHead layerId).isSome with
      | false => exact .ret 0
      | true =>
        cases parseSurfaces (some layerJobj) with
        | none => exact .ret (-1)
        | some surfaceAry =>
          refine .loop fun surfaceJobj _ => ?_
          cases parseId (some surfaceJobj) with
          | none => exact .ret (-1)
          | some surfaceId =>
            refine .callThen ?_ (Agrees.call fun _ => layerIds_removeSurface) (.ret 0)
            simp only [Call.sem, bind_assoc]

theorem implements_modifySurface :
    Implements (Call.sem ilm) (Agrees Wm.recordIds wm) (parseModifySurfaceCommand ilm jobject)
      (planModifySurface wm jobject) := by
  unfold parseModifySurfaceCommand planModifySurface
  cases parseSurfaces jobject with
  | none => exact .ret (-1)
  | some surfaceAry =>
    refine .loop fun surfaceJobj _ => ?_
    cases parseId (some surfaceJobj) with
    | none => exact .ret (-1)
    | some surfaceId =>
      intro w hw
      have hrec := hw.record surfaceId
      dsimp only
      rw [← hrec]
      cases hg : getListElement w.wm.surfacePropertiesHead surfaceId with
      | none =>
        have hret : Implements (Call.sem ilm) (Agrees Wm.recordIds wm)
            (pure (-1 : Int)) (pure (-1)) := .ret (-1)
        simpa only [readWm, Comp.bind_apply, Comp.reads, hg, Option.isSome_none] using hret w hw
      | some e =>
        have hcall : Implements (Call.sem ilm) (Agrees Wm.recordIds wm)
            (Call.sem ilm (.modifySurface surfaceId surfaceJobj) >>= fun _ => pure (0 : Int))
            (Plan.call (.modifySurface surfaceId surfaceJobj) >>= fun _ => pure 0) :=
          .callThen rfl (Agrees.call fun _ => recordIds_modifySurface) (.ret 0)
        simpa only [Call.sem, readWm, Comp.bind_apply, Comp.reads, hg, modifyWm,
          Option.isSome_some] using hcall w hw

end Commands

/-! ## Layout documents -/

/-- The calls for a layer object of a document. -/
def layerCalls (screenId : Id) (layerJobj : Json) : List Call :=
  let layerId := (parseId (some layerJobj)).getD 0
  .putLayer screenId layerJobj layerId insertInfoDefault ::
    ((parseSurfaces (some layerJobj)).getD []).map fun surfaceJobj =>
      .putSurface layerId surfaceJobj ((parseId (some surfaceJobj)).getD 0) insertInfoDefault

/-- The calls for a screen object of a document, once its screen is found. -/
def screenCalls (screenJobj : Json) : List Call :=
  let screenId := (parseId (some screenJobj)).getD 0
  .openScreen screenId ::
    (((parseLayers (some screenJobj)).getD []).flatMap (layerCalls screenId) ++
      [.pushScreen screenId])

section Documents

variable (ilm : Ilm σ)

def documentPlan (screenAry : List Json) : StatePlan (Call.sem ilm) Int :=
  forEach screenAry fun screenJobj => do
    let screenId := (parseId (some screenJobj)).getD 0
    let found ← StatePlan.looks fun w => (ilm.getPropertiesOfScreen screenId w.ilm).1
    StatePlan.call (.findScreen screenId)
    if found = false then pure (-1) else
      StatePlan.fixed ⟨screenCalls screenJobj, .ok 0⟩

def initScreenPlan (jobject : Option Json) : StatePlan (Call.sem ilm) Int := do
  let _ ← StatePlan.fixed (Plan.ofExcept (parseVersion jobject))
  StatePlan.call .removeAll
  let ret ← documentPlan ilm ((parseScreens jobject).getD [])
  if ret < 0 then pure (-1) else do
    StatePlan.call .setCallback
    pure 0

def configPlan (localHostname : String) (file : Option Json) : StatePlan (Call.sem ilm) Int :=
  match file with
  | none => pure (-1)
  | some rootJobj => do
    let _ ← StatePlan.fixed (Plan.ofExcept (parseVersion (some rootJobj)))
    forEach ((parseTarget (some rootJobj)).getD []) fun targetJobj => do
      let ret ← StatePlan.fixed (Plan.ofExcept (parseHostname localHostname (some targetJobj)))
      if ret < 0 then pure 0 else do
        let ret ← documentPlan ilm ((parseScreens (some targetJobj)).getD [])
        if ret < 0 then pure (-1) else pure 0

/-- The end of `parser_init`: the default configuration, if nothing is there yet,
and the callback. -/
def finishPlan : StatePlan (Call.sem ilm) Unit := do
  let empty ← StatePlan.looks (·.wm.screenHead.isEmpty)
  if empty = true then do
    let screenArray ← StatePlan.looks fun w => ((ilm.getScreenIDs w.ilm).1).getD []
    StatePlan.call .askScreenIds
    StatePlan.calls (screenArray.map .addScreen)
    StatePlan.call .setCallback
  else StatePlan.call .setCallback

/-- `parser_init` once its lists are empty. -/
def Boot.plan (boot : Boot) : StatePlan (Call.sem ilm) Unit := do
  match boot.config with
  | some file => do
    let _ ← configPlan ilm boot.localHostname file
  | none => pure ()
  finishPlan ilm

end Documents

section Documents

variable {ilm : Ilm σ}

/-- The whole of a screen object is one list of calls, whatever its contents. -/
theorem screenCalls_eq (screenJobj : Json) :
    let screenId := (parseId (some screenJobj)).getD 0
    (⟨screenCalls screenJobj, .ok 0⟩ : Plan Call Abort Int) = (do
      Plan.call (.openScreen screenId)
      let _ ← forEach ((parseLayers (some screenJobj)).getD []) fun layerJobj => do
        let layerId := (parseId (some layerJobj)).getD 0
        Plan.call (.putLayer screenId layerJobj layerId insertInfoDefault)
        forEach ((parseSurfaces (some layerJobj)).getD []) fun surfaceJobj => do
          Plan.call (.putSurface layerId surfaceJobj ((parseId (some surfaceJobj)).getD 0)
            insertInfoDefault)
          pure 0
      Plan.call (.pushScreen screenId)
      pure 0) := by
  intro screenId
  have hlayer : ∀ layerJobj : Json,
      (do
        Plan.call (.putLayer screenId layerJobj ((parseId (some layerJobj)).getD 0)
          insertInfoDefault)
        forEach ((parseSurfaces (some layerJobj)).getD []) fun surfaceJobj => do
          Plan.call (.putSurface ((parseId (some layerJobj)).getD 0) surfaceJobj
            ((parseId (some surfaceJobj)).getD 0) insertInfoDefault)
          pure 0) = (⟨layerCalls screenId layerJobj, .ok 0⟩ : Plan Call Abort Int) := by
    intro layerJobj
    rw [Plan.forEach_of_zero fun _ _ => rfl, layerCalls, List.map_eq_flatMap]
    rfl
  simp only [hlayer]
  rw [Plan.forEach_of_zero fun _ _ => rfl]
  rfl

/-- The pointer `decide_add_or_update_layer` hands back is the layer's id. -/
theorem decideAddOrUpdateLayer_bind {screenElm layerId : Id} {obj : Json} {info : InsertInfo}
    (f : Id → WmM σ Int) :
    (decideAddOrUpdateLayer ilm screenElm obj layerId .add info >>= f) =
      Call.sem ilm (.putLayer screenElm obj layerId info) >>= fun _ => f layerId := by
  simp only [Call.sem, bind_assoc, pure_bind, decideAddOrUpdateLayer]
  refine congrArg (_ >>= ·) (funext fun r => ?_)
  cases r.1 <;> simp only [bind_assoc, pure_bind]

theorem openScreen_bind {screenId : Id} (f : Unit → WmM σ Int) :
    (do
      match ← readWm (getListElement ·.screenHead screenId) with
      | none => do
        let r ← modifyWm (addScreen · screenId)
        f r
      | some _ => f ()) = Call.sem ilm (.openScreen screenId) >>= f := by
  simp only [Call.sem, bind_assoc]
  refine congrArg (_ >>= ·) (funext fun e => ?_)
  cases e
  · rfl
  · rw [pure_bind]

theorem parseScreenObjects_follows (screenAry : List Json) :
    Follows (parseScreenObjects ilm screenAry) (documentPlan ilm screenAry) := by
  refine .loop fun screenJobj => .answer ?_ fun found => .ite (fun _ => .ret _) fun _ => ?_
  · intro w
    rfl
  · rw [screenCalls_eq screenJobj]
    refine Implements.follows (.callThen (openScreen_bind _) (fun _ _ _ _ => trivial) ?_)
    refine .seq (.loop ?_) ?_
    · intro layerJobj _
      refine .callThen (decideAddOrUpdateLayer_bind _) (fun _ _ _ _ => trivial) (.loop ?_)
      intro surfaceJobj _
      refine .callThen ?_ (fun _ _ _ _ => trivial) (.ret 0)
      simp only [Call.sem, bind_assoc, pure_bind]
    · intro _ _
      exact .callThen rfl (fun _ _ _ _ => trivial) (.ret 0)

end Documents

end UhmiIviWm
