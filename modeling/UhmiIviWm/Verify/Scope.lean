import UhmiIviWm.Verify.Merge
import UhmiIviWm.Verify.Records
import UhmiIviWm.Verify.Strays
import UhmiIviWm.Verify.Wrappers

/-!
# The daemon keeps to what it has been told of

A scope says which layers and which surfaces the configuration and the messages name
(`Scope`). What is in the tree and on record stays within it (`Wm.Within`), a notification
of a surface that is not on record leads to nothing, and so every call the daemon ever
makes names layers and surfaces of the scope only (`calls_within_scope`). Whatever other
programs have in the compositor is left as it is (`outsiders_untouched`).
-/

namespace UhmiIviWm

open Lib Lib.CallPlan Lib.KeyedList Lib.TransitionSystem

variable {σ : Type} {ilm : Ilm σ}

/-- Layers and surfaces that may be spoken of. -/
structure Scope where
  layers : Id → Prop
  surfaces : Id → Prop

/-- The layers and surfaces a call names are in the scope. -/
def IlmCall.Within (k : Scope) : IlmCall → Prop
  | .layerCreateWithDimension id _ _ => k.layers id
  | .layerSetDestinationRectangle id _ _ _ _ => k.layers id
  | .layerSetSourceRectangle id _ _ _ _ => k.layers id
  | .layerSetOpacity id _ => k.layers id
  | .layerSetVisibility id _ => k.layers id
  | .layerRemoveNotification id => k.layers id
  | .layerSetRenderOrder id surfaces => k.layers id ∧ ∀ s ∈ surfaces, k.surfaces s
  | .layerRemove id => k.layers id
  | .layerRemoveSurface layerId surfaceId => k.layers layerId ∧ k.surfaces surfaceId
  | .displaySetRenderOrder _ layers => ∀ l ∈ layers, k.layers l
  | .surfaceSetDestinationRectangle id _ _ _ _ => k.surfaces id
  | .surfaceSetSourceRectangle id _ _ _ _ => k.surfaces id
  | .surfaceSetOpacity id _ => k.surfaces id
  | .surfaceSetVisibility id _ => k.surfaces id
  | .surfaceRemoveNotification id => k.surfaces id
  | .surfaceAddNotification id => k.surfaces id
  | .getPropertiesOfSurface id => k.surfaces id
  | .registerNotification => True
  | .commitChanges => True

/-! ## Messages -/

section Messages

variable (k : Scope) (reads : Json → Option Id)

/-- The ids in a layer object, as they are read, are in the scope. -/
structure Scope.Layer (layerJobj : Json) : Prop where
  layer : ∀ id, reads layerJobj = some id → k.layers id
  surfaces : ∀ surfaceJobj ∈ surfaceObjects (some layerJobj), ∀ id, reads surfaceJobj = some id →
    k.surfaces id

/-- So are those in a document. -/
structure Scope.Body (body : Option Json) : Prop where
  screens : ∀ screenJobj ∈ screenObjects body, ∀ layerJobj ∈ layerObjects (some screenJobj),
    k.Layer reads layerJobj
  layers : ∀ layerJobj ∈ layerObjects body, k.Layer reads layerJobj
  surfaces : ∀ surfaceJobj ∈ surfaceObjects body, ∀ id, reads surfaceJobj = some id → k.surfaces id

end Messages

/-- A layout document takes an object without an id for one with the id 0. -/
def readsDocument (obj : Json) : Option Id := some (idOf obj)

def Command.reads : Command → Json → Option Id
  | .initialScreen => readsDocument
  | _ => fun obj => parseId (some obj)

/-- A message names nothing outside the scope; notifications may be of any surface. -/
def Scope.Admits (k : Scope) : Action → Prop
  | .event (.message body) => ∀ command, commandOf body = some command → k.Body command.reads body
  | .event (.record _) => True
  | .env => True

/-- Neither does the configuration, in any of its targets. -/
def Scope.Configures (k : Scope) (boot : Boot) : Prop :=
  ∀ file rootJobj, boot.config = some file → file = some rootJobj →
    ∀ targetJobj ∈ (parseTarget (some rootJobj)).getD [],
      k.Body readsDocument (some targetJobj)

/-! ## Calls -/

section Calls

variable {k : Scope} {wm : Wm}

/-- The layers and surfaces a call brings in. -/
def Call.Within (k : Scope) : Call → Prop
  | .putLayer _ _ layerId _ => k.layers layerId
  | .putSurface _ _ surfaceId _ => k.surfaces surfaceId
  | .removeLayer layerId => k.layers layerId
  | .removeSurface layerElm surfaceId => k.layers layerElm ∧ k.surfaces surfaceId
  | .modifyLayer layerId _ => k.layers layerId
  | .modifySurface surfaceId _ => k.surfaces surfaceId
  | _ => True

/-- All calls of a plan, which may abort. -/
abbrev Scope.Plans {α : Type} (k : Scope) (p : Plan Call Abort α) : Prop :=
  p.Within (Call.Within k) fun _ => True

/-- A round for each object with an id. -/
theorem plans_objects {objs : List Json} {op : Json → Id → Call}
    (h : ∀ obj ∈ objs, ∀ id, parseId (some obj) = some id → (op obj id).Within k) :
    k.Plans (forEach objs fun obj =>
      match parseId (some obj) with
      | none => pure (-1)
      | some id => do
        Plan.call (op obj id)
        pure 0) := by
  refine .loop fun obj hobj => ?_
  split
  · exact .ret _
  · rename_i id hid
    exact .seq (.call (h obj hobj id hid)) fun _ => .ret _

theorem plans_addLayer {body : Option Json} (h : k.Body (fun obj => parseId (some obj)) body) :
    k.Plans (planAddLayer wm body) := by
  unfold planAddLayer
  split
  · exact .ret _
  · rename_i screenAry hscreens
    refine .loop fun screenJobj hscreen => .seq (.ofExcept fun _ _ => trivial) fun r => ?_
    have hlayers := h.screens screenJobj (by rwa [screenObjects, hscreens])
    dsimp only
    split
    · exact .ret _
    · split
      · exact .ret _
      · rename_i layerAry hary
        rw [layerObjects, hary] at hlayers
        refine .seq (plans_objects fun layerJobj hlayer => (hlayers layerJobj hlayer).layer) ?_
        exact fun ret => .ite (.ret _) (.seq (.call trivial) fun _ => .ret _)

theorem plans_removeLayer {body : Option Json} (h : k.Body (fun obj => parseId (some obj)) body) :
    k.Plans (planRemoveLayer body) := by
  unfold planRemoveLayer
  split
  · exact .ret _
  · rename_i layerAry hary
    have hlayers := h.layers
    rw [layerObjects, hary] at hlayers
    exact plans_objects fun layerJobj hlayer => (hlayers layerJobj hlayer).layer

theorem plans_modifyLayer {body : Option Json} (h : k.Body (fun obj => parseId (some obj)) body) :
    k.Plans (planModifyLayer body) := by
  unfold planModifyLayer
  split
  · exact .ret _
  · rename_i layerAry hary
    have hlayers := h.layers
    rw [layerObjects, hary] at hlayers
    exact plans_objects fun layerJobj hlayer => (hlayers layerJobj hlayer).layer

/-- The layer of an `add_surface` message is looked up, so it brings in none. -/
theorem plans_addSurface {body : Option Json} (h : k.Body (fun obj => parseId (some obj)) body) :
    k.Plans (planAddSurface wm body) := by
  unfold planAddSurface
  split
  · exact .ret _
  · rename_i screenAry hscreens
    refine .loop fun screenJobj hscreen => .seq (.ofExcept fun _ _ => trivial) fun r => ?_
    have hlayers := h.screens screenJobj (by rwa [screenObjects, hscreens])
    dsimp only
    split
    · exact .ret _
    · rename_i layerAry hary
      rw [layerObjects, hary] at hlayers
      refine .loop fun layerJobj hlayer => ?_
      have hsurfaces := (hlayers layerJobj hlayer).surfaces
      unfold planAddSurfaceLayer
      dsimp only
      split
      · exact .ret _
      · split
        · exact .ret _
        · rename_i surfaceAry hary
          rw [surfaceObjects, hary] at hsurfaces
          exact .seq (plans_objects hsurfaces) fun ret =>
            .ite (.ret _) (.seq (.call trivial) fun _ => .ret _)

theorem plans_removeSurface {body : Option Json} (h : k.Body (fun obj => parseId (some obj)) body) :
    k.Plans (planRemoveSurface wm body) := by
  unfold planRemoveSurface
  split
  · exact .ret _
  · rename_i layerAry hary
    have hlayers := h.layers
    rw [layerObjects, hary] at hlayers
    refine .loop fun layerJobj hlayer => ?_
    obtain ⟨hlayer, hsurfaces⟩ := hlayers layerJobj hlayer
    unfold planRemoveSurfaceLayer
    split
    · exact .ret _
    · rename_i layerId hid
      split
      · exact .ret _
      · split
        · exact .ret _
        · rename_i surfaceAry hary
          rw [surfaceObjects, hary] at hsurfaces
          exact plans_objects fun surfaceJobj hsurface surfaceId hsurfaceId =>
            ⟨hlayer layerId hid, hsurfaces surfaceJobj hsurface surfaceId hsurfaceId⟩

theorem plans_modifySurface {body : Option Json} (h : k.Body (fun obj => parseId (some obj)) body) :
    k.Plans (planModifySurface wm body) := by
  unfold planModifySurface
  split
  · exact .ret _
  · rename_i surfaceAry hary
    have hsurfaces := h.surfaces
    rw [surfaceObjects, hary] at hsurfaces
    refine .loop fun surfaceJobj hsurface => ?_
    split
    · exact .ret _
    · rename_i surfaceId hid
      split
      · exact .ret _
      · exact .seq (.call (hsurfaces surfaceJobj hsurface surfaceId hid)) fun _ => .ret _

theorem plans_document {screenAry : List Json}
    (h : ∀ screenJobj ∈ screenAry, ∀ layerJobj ∈ layerObjects (some screenJobj),
      k.Layer readsDocument layerJobj) :
    (documentPlan ilm screenAry).Within (Call.Within k) fun _ => True := by
  refine .loop fun screenJobj hscreen => .seq (.looks _) fun found => .seq (.call trivial) fun _ =>
    .ite (.ret _) (.fixed ⟨fun call hcall => ?_, nofun⟩)
  simp only [screenCalls, layerCalls, List.mem_cons, List.mem_append, List.mem_flatMap,
    List.mem_map, List.not_mem_nil, or_false] at hcall
  rcases hcall with rfl | ⟨layerJobj, hlayer, rfl | ⟨surfaceJobj, hsurface, rfl⟩⟩ | rfl
  · trivial
  · exact (h screenJobj hscreen layerJobj hlayer).layer _ rfl
  · exact (h screenJobj hscreen layerJobj hlayer).surfaces surfaceJobj hsurface _ rfl
  · trivial

theorem Scope.Admits.calls {body : Option Json} (h : k.Admits (.event (.message body)))
    (w : World σ) : ∀ call ∈ (Event.message body).calls ilm w, call.Within k := by
  rw [calls_message]
  split
  · rename_i command _ hcommand
    have hbody := h command hcommand
    cases command with
    | addSurface => exact (plans_addSurface hbody).calls
    | removeSurface => exact (plans_removeSurface hbody).calls
    | modifySurface => exact (plans_modifySurface hbody).calls
    | addLayer => exact (plans_addLayer hbody).calls
    | removeLayer => exact (plans_removeLayer hbody).calls
    | modifyLayer => exact (plans_modifyLayer hbody).calls
    | initialScreen =>
      have hplan : (initScreenPlan ilm body).Within (Call.Within k) fun _ => True :=
        .seq (.fixed (.ofExcept fun _ _ => trivial)) fun _ => .seq (.call trivial) fun _ =>
          .seq (plans_document hbody.screens) fun _ => .ite (.ret _) (.seq (.call trivial) fun _ =>
            .ret _)
      exact hplan.calls w
  · exact nofun

theorem Scope.Configures.calls {boot : Boot} (h : k.Configures boot) (w : World σ) :
    ∀ call ∈ boot.calls ilm w, call.Within k := by
  have hfinish : (finishPlan ilm).Within (Call.Within k) fun _ => True := by
    refine .seq (.looks _) fun empty => .ite ?_ (.call trivial)
    refine .seq (.looks _) fun ids => .seq (.call trivial) fun _ =>
      .seq (.calls_of fun call hcall => ?_) fun _ => .call trivial
    obtain ⟨id, -, rfl⟩ := List.mem_map.mp hcall
    trivial
  have hconfig : ∀ file, boot.config = some file →
      (configPlan ilm boot.localHostname file).Within (Call.Within k) fun _ => True := by
    intro file hfile
    unfold configPlan
    split
    · exact .ret _
    · rename_i rootJobj
      refine .seq (.fixed (.ofExcept fun _ _ => trivial)) fun _ =>
        .loop fun targetJobj htarget => .seq (.fixed (.ofExcept fun _ _ => trivial)) fun ret =>
          .ite (.ret _) ?_
      exact .seq (plans_document (h _ rootJobj hfile rfl targetJobj htarget).screens) fun ret =>
        .ite (.ret _) (.ret _)
  have hplan : (boot.plan ilm).Within (Call.Within k) fun _ => True := by
    unfold Boot.plan
    split
    · rename_i file hfile
      exact .seq (hconfig file hfile) fun _ => hfinish
    · exact hfinish
  exact hplan.calls w.cleared

end Calls

/-! ## The layout -/

section Layout

variable {k : Scope} {wm : Wm} {store : List SurfacePropertiesElm}

def LayerElm.Within (k : Scope) (e : LayerElm) : Prop :=
  k.layers e.id ∧ ∀ s ∈ ids e.listHead, k.surfaces s

/-- The layers and surfaces of the tree and the surfaces on record are in the scope. -/
structure Wm.Within (k : Scope) (wm : Wm) : Prop where
  layers : ∀ e ∈ layersOf wm.screenHead, LayerElm.Within k e
  records : ∀ s ∈ wm.recordIds, k.surfaces s

theorem ids_removeSurfaceProperties_subset (surfaceId : Id) :
    ids (removeSurfaceProperties store surfaceId) ⊆ ids store := by
  rw [removeSurfaceProperties_eq]
  split
  · rw [ids_eraseP]
    exact List.erase_subset
  · rw [ids_updateSurfaceProperties]
    exact List.Subset.refl _

theorem ids_removeAllSurface_subset (e : LayerElm) :
    ids (removeAllSurface store e) ⊆ ids store :=
  List.foldlRecOn (motive := fun store' => ids store' ⊆ ids store) e.listHead _
    (List.Subset.refl _) fun _ h s _ =>
      List.Subset.trans (ids_removeSurfaceProperties_subset s.id) h

theorem layerToPut_within {obj : Json} {layerId : Id} (h : wm.Within k) (hid : k.layers layerId) :
    LayerElm.Within k (wm.layerToPut obj layerId) := by
  unfold Wm.layerToPut
  split
  · exact ⟨hid, nofun⟩
  · rename_i e he
    exact h.layers e (mem_of_getLayer he).1

theorem Wm.Within.putSurface {layerElm surfaceId : Id} {obj : Json} {info : InsertInfo}
    (h : wm.Within k) (hu : Unique wm) (hid : k.surfaces surfaceId) :
    ((Call.putSurface layerElm obj surfaceId info).layout wm).Within k := by
  cases hput : wm.surfaceToPut layerElm obj surfaceId with
  | none =>
    simp only [Call.layout, hput]
    exact h
  | some prop =>
    constructor
    · intro e he
      rw [screenHead_putSurface hput, layersOf_updateLayer, updateFirst_eq_map hu.layers] at he
      obtain ⟨e, hmem, rfl⟩ := List.mem_map.mp he
      obtain ⟨hlayer, hsurfaces⟩ := h.layers e hmem
      split
      · refine ⟨hlayer, fun s hs => ?_⟩
        rcases (mem_ids_reinsert (hu.surfaces e hmem)).mp hs with ⟨-, rfl⟩ | ⟨hs, -⟩
        · exact hid
        · exact hsurfaces s hs
      · exact ⟨hlayer, hsurfaces⟩
    · intro s hs
      rw [Wm.recordIds, surfacePropertiesHead_putSurface hput] at hs
      split at hs
      · rw [ids_updateSurfaceProperties] at hs
        exact h.records s hs
      · rw [← record_isSome, record_addSurfaceProperties] at hs
        split at hs
        · rename_i heq
          rw [heq]
          exact hid
        · exact h.records s (record_isSome.mp hs)

theorem Wm.Within.after_call {call : Call} (h : wm.Within k) (hu : Unique wm)
    (hcall : call.Within k) : (call.layout wm).Within k := by
  cases call with
  | putLayer screenElm obj layerId info =>
    refine ⟨fun e he => ?_, fun s hs => ?_⟩
    · rw [screenHead_putLayer, mem_layersOf_insertLayer] at he
      rcases he with ⟨-, rfl⟩ | he
      · exact layerToPut_within h hcall
      · exact h.layers e ((mem_layersOf_popLayer hu.layers).mp he).1
    · rw [Wm.recordIds, surfacePropertiesHead_putLayer] at hs
      exact h.records s hs
  | putSurface => exact h.putSurface hu hcall
  | removeLayer layerId =>
    refine ⟨fun e he => ?_, fun s hs => ?_⟩
    · rw [screenHead_removeLayer, mem_layersOf_popLayer hu.layers] at he
      exact h.layers e he.1
    · rw [Wm.recordIds, surfacePropertiesHead_removeLayer] at hs
      split at hs
      · exact h.records s hs
      · exact h.records s (ids_removeAllSurface_subset _ hs)
  | removeSurface layerElm surfaceId =>
    refine ⟨fun e he => ?_, fun s hs => ?_⟩
    · rw [screenHead_removeSurface, layersOf_updateLayer, updateFirst_eq_map hu.layers] at he
      obtain ⟨e, hmem, rfl⟩ := List.mem_map.mp he
      obtain ⟨hlayer, hsurfaces⟩ := h.layers e hmem
      split
      · exact ⟨hlayer, fun s hs =>
          hsurfaces s ((mem_ids_dropSurface (hu.surfaces e hmem)).mp hs).1⟩
      · exact ⟨hlayer, hsurfaces⟩
    · rw [Wm.recordIds, surfacePropertiesHead_removeSurface] at hs
      split at hs
      · exact h.records s (ids_removeSurfaceProperties_subset _ hs)
      · exact h.records s hs
  | modifyLayer layerId obj =>
    simp only [Call.layout]
    split
    · exact h
    · refine ⟨fun e he => ?_, h.records⟩
      rw [layersOf_updateLayer, updateFirst_eq_map hu.layers] at he
      obtain ⟨e, hmem, rfl⟩ := List.mem_map.mp he
      split
      · exact h.layers e hmem
      · exact h.layers e hmem
  | modifySurface surfaceId obj =>
    refine ⟨fun e he => ?_, fun s hs => ?_⟩
    · rw [screenHead_modifySurface] at he
      exact h.layers e he
    · rw [recordIds_modifySurface] at hs
      exact h.records s hs
  | removeAll =>
    refine ⟨fun _ he => absurd he List.not_mem_nil, fun s hs => h.records s ?_⟩
    rw [Call.layout, Wm.recordIds, surfacePropertiesHead_removeAll] at hs
    exact List.foldlRecOn (motive := fun store => s ∈ ids store → s ∈ wm.recordIds) _ _ id
      (fun _ hsub e _ hs => hsub (ids_removeAllSurface_subset e hs)) hs
  | openScreen screenId =>
    simp only [Call.layout]
    split
    · exact ⟨fun e he => h.layers e (layersOf_addScreen wm screenId ▸ he), h.records⟩
    · exact h
  | addScreen screenId =>
    exact ⟨fun e he => h.layers e (layersOf_addScreen wm screenId ▸ he), h.records⟩
  | _ => exact h

end Layout

/-! ## The wrappers -/

/-- Calls within the scope and queries keep a fact about the ilm state. -/
structure Ilm.Spares (ilm : Ilm σ) (k : Scope) (I : σ → Prop) : Prop where
  call : ∀ op c, op.Within k → I c → I (ilm.call op c).2
  surfaceIDs : ∀ c, I c → I (ilm.getSurfaceIDs c).2
  layerIDs : ∀ c, I c → I (ilm.getLayerIDs c).2
  screenProperties : ∀ id c, I c → I (ilm.getPropertiesOfScreen id c).2
  screenIDs : ∀ c, I c → I (ilm.getScreenIDs c).2

namespace Ilm.Spares

variable {k : Scope} {I : σ → Prop} {wm : Wm}

/-- Whatever becomes of it, the program keeps the fact. -/
abbrev Safe {α : Type} (I : σ → Prop) (m : IlmM σ α) : Prop := Comp.Keeps I (fun _ => True) m

theorem unchecked (hI : ilm.Spares k I) {op : IlmCall} (hop : op.Within k) :
    Safe I (unchecked ilm op) :=
  fun c hc => hI.call op c hop hc

theorem checked (hI : ilm.Spares k I) {op : IlmCall} (hop : op.Within k) :
    Safe I (checked ilm op) := by
  refine .seq (m := ask (ilm.call op)) (fun c hc => hI.call op c hop hc) fun success => ?_
  exact .ite (fun _ => .ret _) fun _ => .throw trivial

theorem moduleExists (hI : ilm.Spares k I) (type : IlmObjectType) (id : Id) :
    Safe I (wrapIlmModuleExists ilm type id) := by
  cases type
  · exact .seq (fun c => hI.surfaceIDs c) fun _ => .ret _
  · exact .seq (fun c => hI.layerIDs c) fun _ => .ret _

theorem setLayer (hI : ilm.Spares k I) (prop : LayerProperties) {id : Id} (hid : k.layers id) :
    Safe I (wrapIlmSetLayer ilm prop id) := by
  refine .seq (hI.moduleExists .layer id) fun found => ?_
  have hset : Safe I (do
      UhmiIviWm.checked ilm (.layerSetDestinationRectangle id prop.lp.dstX prop.lp.dstY
        prop.lp.dstW prop.lp.dstH)
      UhmiIviWm.checked ilm (.layerSetSourceRectangle id prop.lp.srcX prop.lp.srcY prop.lp.srcW
        prop.lp.srcH)
      UhmiIviWm.checked ilm (.layerSetOpacity id prop.lp.opacity)
      UhmiIviWm.checked ilm (.layerSetVisibility id prop.lp.visibility)
      UhmiIviWm.unchecked ilm (.layerRemoveNotification id)
      UhmiIviWm.unchecked ilm .commitChanges : IlmM σ Unit) :=
    .seq (hI.checked hid) fun _ => .seq (hI.checked hid) fun _ => .seq (hI.checked hid) fun _ =>
      .seq (hI.checked hid) fun _ => .seq (hI.unchecked hid) fun _ => hI.unchecked trivial
  cases found with
  | true => exact hset
  | false => exact .seq (.seq (hI.checked hid) fun _ => hI.unchecked trivial) fun _ => hset

theorem setSurface (hI : ilm.Spares k I) (prop : SurfaceProperties) {id : Id}
    (hid : k.surfaces id) : Safe I (wrapIlmSetSurface ilm prop id) :=
  .seq (hI.moduleExists .surface id) fun _ => .ite (fun _ => .ret _) fun _ =>
    .seq (hI.checked hid) fun _ => .seq (hI.checked hid) fun _ => .seq (hI.checked hid) fun _ =>
      .seq (hI.checked hid) fun _ => .seq (hI.unchecked hid) fun _ => hI.unchecked trivial

theorem removeLayer (hI : ilm.Spares k I) {id : Id} (hid : k.layers id) :
    Safe I (wrapIlmRemoveLayer ilm id) :=
  .seq (hI.moduleExists .layer id) fun _ => .ite (fun _ => .ret _) fun _ =>
    .seq (hI.checked hid) fun _ => .seq (hI.unchecked hid) fun _ => hI.unchecked trivial

theorem removeSurface (hI : ilm.Spares k I) {layerId surfaceId : Id} (hlayer : k.layers layerId)
    (hsurface : k.surfaces surfaceId) : Safe I (wrapIlmRemoveSurface ilm layerId surfaceId) :=
  .seq (hI.moduleExists .surface surfaceId) fun _ => .ite (fun _ => .ret _) fun _ =>
    .seq (hI.checked ⟨hlayer, hsurface⟩) fun _ => .seq (hI.unchecked hsurface) fun _ =>
      hI.unchecked trivial

/-- The surfaces found to exist are surfaces of the list. -/
theorem existsSurfaces (hI : ilm.Spares k I) {l : List SurfaceElm} {c c' : σ} {surfaces : List Id}
    (hc : I c) (h : existsSurfaces ilm l c = .ok (surfaces, c')) :
    I c' ∧ ∀ s ∈ surfaces, s ∈ ids l := by
  induction l generalizing c c' surfaces with
  | nil =>
    cases h
    exact ⟨hc, nofun⟩
  | cons x rest ih =>
    obtain ⟨found, c₁, hfound, h⟩ := Comp.bind_eq_ok.mp h
    obtain ⟨surfaces', c₂, hrest, h⟩ := Comp.bind_eq_ok.mp h
    obtain ⟨hc₂, hmem⟩ := ih ((hI.moduleExists .surface x.id).of_ok hc hfound) hrest
    cases h
    refine ⟨hc₂, fun s hs => ?_⟩
    split at hs
    · exact (List.mem_cons.mp hs).elim (fun h => h ▸ List.mem_cons_self)
        fun hs => List.mem_cons_of_mem _ (hmem s hs)
    · exact List.mem_cons_of_mem _ (hmem s hs)

theorem addExistsSurfacesToLayer (hI : ilm.Spares k I) {e : LayerElm} (he : LayerElm.Within k e) :
    Safe I (addExistsSurfacesToLayer ilm e) := by
  intro c hc
  rw [UhmiIviWm.addExistsSurfacesToLayer, Comp.bind_apply]
  cases h : UhmiIviWm.existsSurfaces ilm e.listHead c with
  | error a => trivial
  | ok r =>
    obtain ⟨hr, hmem⟩ := hI.existsSurfaces hc h
    have hpush : Safe I (wrapIlmAddSurfaceToLayer ilm e.id r.1) :=
      .seq (hI.checked ⟨he.1, fun s hs => he.2 s (hmem s hs)⟩) fun _ => hI.unchecked trivial
    exact hpush r.2 hr

theorem setLayers (hI : ilm.Spares k I) {l : List LayerElm} (hl : ∀ e ∈ l, LayerElm.Within k e) :
    Safe I (setLayers ilm l) := by
  induction l with
  | nil => exact .ret _
  | cons e rest ih =>
    obtain ⟨he, hrest⟩ := List.forall_mem_cons.mp hl
    exact .seq (hI.setLayer e.prop he.1) fun _ => .seq (hI.addExistsSurfacesToLayer he) fun _ =>
      ih hrest

theorem placeSurface (hI : ilm.Spares k I) {store : List SurfacePropertiesElm} {surfaceId : Id}
    {e : LayerElm} (he : LayerElm.Within k e) {l : List SurfaceElm}
    (hl : ∀ s ∈ ids l, k.surfaces s) : Safe I (placeSurface ilm store surfaceId e l) := by
  induction l with
  | nil => exact .ret _
  | cons x rest ih =>
    rw [ids_cons, List.forall_mem_cons] at hl
    have hrest := ih hl.2
    by_cases hx : surfaceId = x.id
    · simp only [UhmiIviWm.placeSurface, if_pos hx]
      cases getListElement store surfaceId with
      | none => exact .seq (.throw trivial) fun _ => hrest
      | some r =>
        exact .seq (hI.setSurface r.prop (hx ▸ hl.1)) fun _ =>
          .seq (hI.addExistsSurfacesToLayer he) fun _ => hrest
    · simp only [UhmiIviWm.placeSurface, if_neg hx]
      exact hrest

/-- A surface is placed in the layers of the tree that list it, if any. -/
theorem placeSurfaceInScreens (hI : ilm.Spares k I) {store : List SurfacePropertiesElm}
    {surfaceId : Id} {t : List ScreenElm} (ht : ∀ e ∈ layersOf t, LayerElm.Within k e) :
    Safe I (placeSurfaceInScreens ilm store surfaceId t) := by
  have hlayers : ∀ l : List LayerElm, (∀ e ∈ l, LayerElm.Within k e) →
      Safe I (placeSurfaceInLayers ilm store surfaceId l) := by
    intro l
    induction l with
    | nil => exact fun _ => .ret _
    | cons e rest ih =>
      intro hl
      obtain ⟨he, hrest⟩ := List.forall_mem_cons.mp hl
      exact .seq (hI.placeSurface he he.2) fun _ => ih hrest
  induction t with
  | nil => exact .ret _
  | cons s rest ih =>
    rw [layersOf_cons, List.forall_mem_append] at ht
    exact .seq (hlayers _ ht.1) fun _ => ih ht.2

theorem talk (hI : ilm.Spares k I) (hwm : wm.Within k) {call : Call} (hcall : call.Within k) :
    Safe I (call.talk ilm wm) := by
  cases call with
  | putLayer => exact hI.setLayer _ hcall
  | putSurface layerElm obj surfaceId info =>
    simp only [Call.talk]
    split
    · exact .throw trivial
    · exact hI.setSurface _ hcall
  | pushScreen screenElm =>
    simp only [Call.talk]
    split
    · exact .ret _
    · rename_i s hs
      have hlayers : ∀ e ∈ s.listHead, LayerElm.Within k e := fun e he =>
        hwm.layers e (mem_layersOf.mpr ⟨s, (mem_of_getListElement hs).1, he⟩)
      refine .seq (hI.setLayers hlayers) fun _ => .seq (hI.checked fun l hl => ?_) fun _ =>
        hI.unchecked trivial
      obtain ⟨e, he, rfl⟩ := List.mem_map.mp hl
      exact (hlayers e he).1
  | pushLayer layerElm =>
    simp only [Call.talk]
    split
    · exact .ret _
    · rename_i e he
      exact hI.addExistsSurfacesToLayer (hwm.layers e (mem_of_getLayer he).1)
  | removeLayer => exact hI.removeLayer hcall
  | removeSurface => exact hI.removeSurface hcall.1 hcall.2
  | modifyLayer layerId obj =>
    simp only [Call.talk]
    split
    · exact .ret _
    · exact hI.setLayer _ hcall
  | modifySurface surfaceId obj =>
    simp only [Call.talk]
    split
    · exact .ret _
    · exact hI.setSurface _ hcall
  | findScreen screenId => exact .seq (fun c => hI.screenProperties screenId c) fun _ => .ret _
  | askScreenIds =>
    refine .seq (.seq (fun c => hI.screenIDs c) fun screenIds => ?_) fun _ => .ret _
    cases screenIds with
    | none => exact .throw trivial
    | some screenIds => exact .ret _
  | place surfaceId => exact hI.placeSurfaceInScreens hwm.layers
  | register surfaceId =>
    -- only a surface on record is registered
    refine .ite (fun _ => .ret _) fun hregistered => ?_
    have hrecord : surfaceId ∈ wm.recordIds := by
      rw [parserCheckRegisteredSurfaceInListTree] at hregistered
      split at hregistered
      · rename_i r hr
        exact getListElement_isSome.mp (Option.isSome_of_eq_some hr)
      · exact absurd rfl hregistered
    have hid := hwm.records surfaceId hrecord
    exact .seq (hI.unchecked hid) fun _ => .seq (hI.unchecked trivial) fun _ => hI.unchecked hid
  | setCallback => exact hI.unchecked trivial
  | _ => exact .ret _

end Ilm.Spares

/-! ## Runs -/

/-- The tree stays within the scope, and so does what the daemon does to ilm. -/
theorem within_of_run {k : Scope} {I : σ → Prop} {set : Setting σ} (hids : DistinctScreenIds ilm)
    (hI : ilm.Spares k I) (hstart : ∀ boot w, set.start boot w → k.Configures boot ∧ I w.ilm)
    (henv : ∀ c c', set.env c c' → I c → I c') {w : World σ}
    (h : (daemon ilm set).Run (fun a _ => k.Admits a) w) : w.wm.Within k ∧ I w.ilm := by
  let P (w : World σ) : Prop := Unique w.wm ∧ w.wm.Within k ∧ I w.ilm
  have hP : P w := by
    refine run_invariant (P := P) (G := fun w call => FreshScreen w call ∧ call.Within k)
      (fun boot w hset => ?_) (fun e w _ hadmits => ?_) (fun call w w' hw hG hs => ?_)
      (fun w c hw _ hc => ⟨hw.1, hw.2.1, henv w.ilm c hc hw.2.2⟩) h
    · obtain ⟨hconfig, hinit⟩ := hstart boot w hset
      refine ⟨⟨Unique.empty w.wm.uninit, ⟨nofun, nofun⟩, hinit⟩, ?_⟩
      exact ((freshScreen_documents hids).boot boot w).and
        (.of_forall (fun call hcall _ _ => hconfig.calls w call hcall) _)
    · refine (atEach_freshScreen e w).and (.of_forall (fun call hcall _ _ => ?_) w)
      match e with
      | .record ⟨.creationDelection, id⟩ =>
        rw [List.mem_singleton.mp hcall]
        trivial
      | .record ⟨.surfacePropChange, id⟩ =>
        rw [List.mem_singleton.mp hcall]
        trivial
      | .message body => exact Scope.Admits.calls hadmits w call hcall
    · obtain ⟨htalk, hwm⟩ := Call.sem_eq_ok.mp hs
      obtain ⟨hu, hwithin, hIlm⟩ := hw
      refine ⟨hwm ▸ hu.call hG.1, hwm ▸ hwithin.after_call hu hG.2, ?_⟩
      exact (hI.talk hwithin hG.2).of_ok hIlm htalk
  exact hP.2

theorem run_of_events {G : Action → Prop} {set : Setting σ} {boot : Boot} {events : List Event}
    {w w' : World σ} (hstart : set.start boot w) (hG : ∀ e ∈ events, G (.event e))
    (h : execute ilm boot events w = .ok w') : (daemon ilm set).Run (fun a _ => G a) w' := by
  have hevents : ∀ w, AtEvents ilm (fun a _ => G a) events w := by
    clear h
    induction events with
    | nil => exact fun _ => trivial
    | cons e rest ih =>
      obtain ⟨he, hrest⟩ := List.forall_mem_cons.mp hG
      intro w
      refine ⟨he, ?_⟩
      cases e.handle ilm w with
      | ok r => exact ih hrest r.2
      | error a => trivial
  refine run_of_execute hstart ?_ h
  unfold Along
  split
  · exact hevents _
  · trivial

/-! ## The calls that are made -/

/-- An ilm state with the calls made so far. -/
structure Logged (σ : Type) where
  state : σ
  made : List IlmCall

variable (ilm) in
/-- The ilm library with a log. -/
def Ilm.logged : Ilm (Logged σ) where
  call op c := ((ilm.call op c.state).1, ⟨(ilm.call op c.state).2, c.made ++ [op]⟩)
  getSurfaceIDs c := ((ilm.getSurfaceIDs c.state).1, ⟨(ilm.getSurfaceIDs c.state).2, c.made⟩)
  getLayerIDs c := ((ilm.getLayerIDs c.state).1, ⟨(ilm.getLayerIDs c.state).2, c.made⟩)
  getPropertiesOfScreen id c :=
    ((ilm.getPropertiesOfScreen id c.state).1, ⟨(ilm.getPropertiesOfScreen id c.state).2, c.made⟩)
  getScreenIDs c := ((ilm.getScreenIDs c.state).1, ⟨(ilm.getScreenIDs c.state).2, c.made⟩)

/-- The setting with an empty log at the start. -/
def Setting.logged (set : Setting σ) : Setting (Logged σ) where
  start boot w := w.ilm.made = [] ∧ set.start boot ⟨w.wm, w.ilm.state⟩
  env c c' := c'.made = c.made ∧ set.env c.state c'.state

theorem logged_spares (ilm : Ilm σ) (k : Scope) :
    ilm.logged.Spares k fun c => ∀ op ∈ c.made, op.Within k where
  call _ _ hop hc := List.forall_mem_append.mpr ⟨hc, List.forall_mem_singleton.mpr hop⟩
  surfaceIDs _ hc := hc
  layerIDs _ hc := hc
  screenProperties _ _ hc := hc
  screenIDs _ hc := hc

/-- Whatever ilm answers and whatever surfaces come and go, the calls the daemon has made name
layers and surfaces of the configuration and the messages only, the ids being those read
from them. The calls of an event that aborts are not in the log. -/
theorem calls_within_scope {k : Scope} {set : Setting σ} (hids : DistinctScreenIds ilm)
    (hconfig : ∀ boot w, set.start boot w → k.Configures boot) {w : World (Logged σ)}
    (h : (daemon ilm.logged set.logged).Run (fun a _ => k.Admits a) w) :
    ∀ op ∈ w.ilm.made, op.Within k := by
  have hids' : DistinctScreenIds ilm.logged := fun c => hids c.state
  refine (within_of_run hids' (logged_spares ilm k) (fun boot w hstart => ?_)
    (fun c c' henv hc => ?_) h).2
  · refine ⟨hconfig boot _ hstart.2, ?_⟩
    rw [hstart.1]
    exact nofun
  · rw [henv.1]
    exact hc

/-! ## What others have in the compositor -/

/-- Layers and surfaces outside the scope are as they were. -/
structure Compositor.SameOutside (k : Scope) (c c' : Compositor) : Prop where
  layers : ∀ l, ¬ k.layers l → (l ∈ c'.layers ↔ l ∈ c.layers)
  layerOrder : ∀ l, ¬ k.layers l → c'.layerOrder l = c.layerOrder l
  layerLook : ∀ l, ¬ k.layers l → c'.layerLook l = c.layerLook l
  surfaces : ∀ s, ¬ k.surfaces s → (s ∈ c'.surfaces ↔ s ∈ c.surfaces)
  surfaceLook : ∀ s, ¬ k.surfaces s → c'.surfaceLook s = c.surfaceLook s
  pending : ∀ s, ¬ k.surfaces s → (s ∈ c'.pending ↔ s ∈ c.pending)

namespace Compositor

variable {k : Scope} {c₀ c : Compositor}

theorem SameOutside.apply {op : IlmCall} (h : SameOutside k c₀ c) (hop : op.Within k) :
    SameOutside k c₀ (c.apply op) := by
  have hne : ∀ {P : Id → Prop} {id x : Id}, P id → ¬ P x → x ≠ id :=
    fun hid hx hxid => hx (hxid ▸ hid)
  obtain ⟨hlayers, horder, hlayerLook, hsurfaces, hsurfaceLook, hpending⟩ := h
  cases op with
  | layerCreateWithDimension id =>
    refine ⟨fun l hl => ?_, fun l hl => ?_, fun l hl => ?_, hsurfaces, hsurfaceLook, hpending⟩
    · exact (List.mem_cons.trans (or_iff_right (hne hop hl))).trans (hlayers l hl)
    · exact (setAt_of_ne _ _ (hne hop hl)).trans (horder l hl)
    · exact (setAt_of_ne _ _ (hne hop hl)).trans (hlayerLook l hl)
  | layerSetDestinationRectangle | layerSetSourceRectangle | layerSetOpacity | layerSetVisibility =>
    refine ⟨hlayers, horder, fun l hl => ?_, hsurfaces, hsurfaceLook, hpending⟩
    exact (setAt_of_ne _ _ (hne hop hl)).trans (hlayerLook l hl)
  | layerSetRenderOrder =>
    refine ⟨hlayers, fun l hl => ?_, hlayerLook, hsurfaces, hsurfaceLook, hpending⟩
    exact (setAt_of_ne _ _ (hne hop.1 hl)).trans (horder l hl)
  | layerRemove id =>
    refine ⟨fun l hl => ?_, fun l hl => ?_, fun l hl => ?_, hsurfaces, hsurfaceLook, hpending⟩
    · refine (List.mem_filter.trans (and_iff_left ?_)).trans (hlayers l hl)
      exact bne_iff_ne.mpr (hne hop hl)
    · exact (setAt_of_ne _ _ (hne hop hl)).trans (horder l hl)
    · exact (setAt_of_ne _ _ (hne hop hl)).trans (hlayerLook l hl)
  | layerRemoveSurface =>
    refine ⟨hlayers, fun l hl => ?_, hlayerLook, hsurfaces, hsurfaceLook, hpending⟩
    exact (setAt_of_ne _ _ (hne hop.1 hl)).trans (horder l hl)
  | surfaceSetDestinationRectangle | surfaceSetSourceRectangle | surfaceSetOpacity
  | surfaceSetVisibility =>
    refine ⟨hlayers, horder, hlayerLook, hsurfaces, fun s hs => ?_, hpending⟩
    exact (setAt_of_ne _ _ (hne hop hs)).trans (hsurfaceLook s hs)
  | surfaceRemoveNotification id =>
    refine ⟨hlayers, horder, hlayerLook, hsurfaces, hsurfaceLook, fun s hs => ?_⟩
    refine (List.mem_filter.trans (and_iff_left ?_)).trans (hpending s hs)
    exact bne_iff_ne.mpr (hne hop hs)
  | surfaceAddNotification id =>
    refine ⟨hlayers, horder, hlayerLook, hsurfaces, hsurfaceLook, fun s hs => ?_⟩
    exact (List.mem_cons.trans (or_iff_right (hne hop hs))).trans (hpending s hs)
  | _ => exact ⟨hlayers, horder, hlayerLook, hsurfaces, hsurfaceLook, hpending⟩

theorem spares_outside (strict : Bool) (k : Scope) (c₀ : Compositor) :
    (Compositor.ilm strict).Spares k (SameOutside k c₀) where
  call op c hop hc := by
    simp only [ilm]
    split
    · exact hc.apply hop
    · exact hc
  surfaceIDs _ hc := hc
  layerIDs _ hc := hc
  screenProperties _ _ hc := hc
  screenIDs _ hc := hc

end Compositor

/-- What nobody has named stays in the compositor as it is, as far as the daemon goes. -/
theorem outsiders_untouched {k : Scope} {strict : Bool} {c₀ : Compositor} {set : Setting Compositor}
    (hstart : ∀ boot w, set.start boot w → k.Configures boot ∧ w.ilm = c₀)
    (henv : ∀ c c', set.env c c' → Compositor.SameOutside k c₀ c → Compositor.SameOutside k c₀ c')
    {w : World Compositor}
    (h : (daemon (Compositor.ilm strict) set).Run (fun a _ => k.Admits a) w) :
    Compositor.SameOutside k c₀ w.ilm := by
  refine (within_of_run (Compositor.distinctScreenIds strict)
    (Compositor.spares_outside strict k c₀) (fun boot w hset => ?_) henv h).2
  obtain ⟨hconfig, hc⟩ := hstart boot w hset
  refine ⟨hconfig, ?_⟩
  rw [hc]
  exact ⟨fun _ _ => Iff.rfl, fun _ _ => rfl, fun _ _ => rfl, fun _ _ => Iff.rfl, fun _ _ => rfl,
    fun _ _ => Iff.rfl⟩

/-! Layer 7 and surface 99 belong to somebody else. -/

def sharedCompositor : Compositor :=
  { Compositor.empty [0] with layers := [7], surfaces := [10, 99] }

def layerOfTen : List Event :=
  [message "add_layer" "screens" [screenObject 0 "append" [layerObject 3000 []]],
    message "add_surface" "screens" [screenObject 0 "append" [layerObject 3000 [surfaceObject 10]]],
    .record ⟨.creationDelection, 99⟩, .record ⟨.surfacePropChange, 99⟩]

def onlyTen : Scope := ⟨(· = 3000), (· = 10)⟩

theorem onlyTen_admits : ∀ e ∈ layerOfTen, onlyTen.Admits (.event e) := by
  have hbody : ∀ surfaces : List Json, (∀ x ∈ surfaces, x = surfaceObject 10) →
      onlyTen.Layer (fun obj => parseId (some obj)) (layerObject 3000 surfaces) := by
    intro surfaces hsurfaces
    refine ⟨fun id hid => ?_, fun surfaceJobj hmem id hid => ?_⟩
    · cases hid
      rfl
    · rw [hsurfaces surfaceJobj hmem] at hid
      cases hid
      rfl
  have hnone : ∀ x ∈ ([] : List Json), x = surfaceObject 10 := nofun
  rintro e (_ | ⟨_, _ | ⟨_, _ | ⟨_, _ | ⟨_, hmem⟩⟩⟩⟩)
  · intro command hcommand
    cases hcommand
    refine ⟨fun screenJobj hscreen layerJobj hlayer => ?_, nofun, nofun⟩
    rw [List.mem_singleton.mp hscreen] at hlayer
    rw [List.mem_singleton.mp hlayer]
    exact hbody [] hnone
  · intro command hcommand
    cases hcommand
    refine ⟨fun screenJobj hscreen layerJobj hlayer => ?_, nofun, nofun⟩
    rw [List.mem_singleton.mp hscreen] at hlayer
    rw [List.mem_singleton.mp hlayer]
    exact hbody [surfaceObject 10] fun x hx => List.mem_singleton.mp hx
  · trivial
  · trivial
  · cases hmem

/-- No configuration, and nobody else does anything. -/
def alone (c₀ : Compositor) : Setting Compositor where
  start boot w := boot.config = none ∧ w.ilm = c₀
  env c c' := c' = c

theorem calls_within_scope_onlyTen : ∃ w : World (Logged Compositor),
    w.ilm.made ≠ [] ∧ ∀ op ∈ w.ilm.made, op.Within onlyTen := by
  have hrun : endsWith (fun w => !w.ilm.made.isEmpty)
      (execute (Compositor.ilm true).logged ⟨"host", none⟩ layerOfTen
        ⟨(World.fresh [0]).wm, ⟨sharedCompositor, []⟩⟩) = true := by decide +kernel
  obtain ⟨w, hw, hmade⟩ := exists_of_endsWith hrun
  have hconfig : ∀ boot w, (alone sharedCompositor).start boot w → onlyTen.Configures boot := by
    rintro boot w ⟨hnone, -⟩ file rootJobj hfile
    rw [hnone] at hfile
    cases hfile
  have hwithin := calls_within_scope (Compositor.distinctScreenIds true) hconfig
    (run_of_events ⟨rfl, rfl, rfl⟩ onlyTen_admits hw)
  refine ⟨w, fun hnil => ?_, hwithin⟩
  rw [hnil] at hmade
  cases hmade

theorem outsiders_untouched_onlyTen : ∃ w : World Compositor,
    w.ilm.layerOrder 3000 = [10] ∧ Compositor.SameOutside onlyTen sharedCompositor w.ilm := by
  have hrun : endsWith (fun w => w.ilm.layerOrder 3000 == [10])
      (execute (Compositor.ilm true) ⟨"host", none⟩ layerOfTen
        ⟨(World.fresh [0]).wm, sharedCompositor⟩) = true := by decide +kernel
  obtain ⟨w, hw, horder⟩ := exists_of_endsWith hrun
  have hrun : (daemon (Compositor.ilm true) (alone sharedCompositor)).Run
      (fun a _ => onlyTen.Admits a) w := run_of_events ⟨rfl, rfl⟩ onlyTen_admits hw
  refine ⟨w, beq_iff_eq.mp horder, outsiders_untouched ?_ ?_ hrun⟩
  · rintro boot w ⟨hnone, hc⟩
    refine ⟨fun file rootJobj hfile => ?_, hc⟩
    rw [hnone] at hfile
    cases hfile
  · rintro c c' rfl hc
    exact hc

end UhmiIviWm
