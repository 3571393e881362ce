import UhmiIviWm.Lib.Lockstep
import UhmiIviWm.Lib.Refinement
import UhmiIviWm.Model.EventLoop

/-!
# Interchangeable ilm libraries

If the wrappers run in lockstep on two ilm libraries (`Interchangeable`), so does
everything the daemon does: from the same layout every event ends in the same way, with
the same layout and with the libraries related again (`Interchangeable.handle`), and the
one daemon refines the other (`Interchangeable.refines`).
-/

namespace UhmiIviWm

open Lib Lib.CallPlan Lib.TransitionSystem

variable {σ σ' : Type}

/-- From related states the wrappers end in the same way, in related states. -/
structure Interchangeable (ilm : Ilm σ) (ilm' : Ilm σ') (R : σ → σ' → Prop) : Prop where
  surfaceExists : ∀ id, Lockstep R R (wrapIlmSurfaceExists ilm id) (wrapIlmSurfaceExists ilm' id)
  screenExists : ∀ id, Lockstep R R (wrapIlmScreenExists ilm id) (wrapIlmScreenExists ilm' id)
  screenIds : Lockstep R R (wrapIlmGetScreenIds ilm) (wrapIlmGetScreenIds ilm')
  setLayer : ∀ prop id, Lockstep R R (wrapIlmSetLayer ilm prop id) (wrapIlmSetLayer ilm' prop id)
  addLayerToScreen : ∀ id layers,
    Lockstep R R (wrapIlmAddLayerToScreen ilm id layers) (wrapIlmAddLayerToScreen ilm' id layers)
  removeLayer : ∀ id, Lockstep R R (wrapIlmRemoveLayer ilm id) (wrapIlmRemoveLayer ilm' id)
  setSurface : ∀ prop id,
    Lockstep R R (wrapIlmSetSurface ilm prop id) (wrapIlmSetSurface ilm' prop id)
  addSurfaceToLayer : ∀ id surfaces,
    Lockstep R R (wrapIlmAddSurfaceToLayer ilm id surfaces)
      (wrapIlmAddSurfaceToLayer ilm' id surfaces)
  removeSurface : ∀ layerId surfaceId,
    Lockstep R R (wrapIlmRemoveSurface ilm layerId surfaceId)
      (wrapIlmRemoveSurface ilm' layerId surfaceId)
  addNotification : ∀ registered id,
    Lockstep R R (wrapIlmSetSurfaceAddNotification ilm registered id)
      (wrapIlmSetSurfaceAddNotification ilm' registered id)
  setCallback : Lockstep R R (wrapIlmSetNotificationCallback ilm)
    (wrapIlmSetNotificationCallback ilm')

theorem Interchangeable.symm {ilm : Ilm σ} {ilm' : Ilm σ'} {R : σ → σ' → Prop}
    (h : Interchangeable ilm ilm' R) : Interchangeable ilm' ilm fun c' c => R c c' where
  surfaceExists id := (h.surfaceExists id).symm
  screenExists id := (h.screenExists id).symm
  screenIds := h.screenIds.symm
  setLayer prop id := (h.setLayer prop id).symm
  addLayerToScreen id layers := (h.addLayerToScreen id layers).symm
  removeLayer id := (h.removeLayer id).symm
  setSurface prop id := (h.setSurface prop id).symm
  addSurfaceToLayer id surfaces := (h.addSurfaceToLayer id surfaces).symm
  removeSurface layerId surfaceId := (h.removeSurface layerId surfaceId).symm
  addNotification registered id := (h.addNotification registered id).symm
  setCallback := h.setCallback.symm

/-- The same layout over related ilm states. -/
def World.Related (R : σ → σ' → Prop) (w : World σ) (w' : World σ') : Prop :=
  w.wm = w'.wm ∧ R w.ilm w'.ilm

/-- A program of the daemon runs in lockstep on both libraries. -/
abbrev Together {α : Type} (R : σ → σ' → Prop) (m : WmM σ α) (m' : WmM σ' α) : Prop :=
  Lockstep (World.Related R) (World.Related R) m m'

variable {ilm : Ilm σ} {ilm' : Ilm σ'} {R : σ → σ' → Prop} {α : Type}

namespace Together

theorem reads (g : Wm → α) : Together R (readWm g) (readWm g) := by
  rintro w w' ⟨hwm, hR⟩
  rw [readWm, readWm, Comp.reads, Comp.reads, hwm]
  exact .ok ⟨hwm, hR⟩

theorem modify (f : Wm → Wm) : Together R (modifyWm f) (modifyWm f) := by
  rintro w w' ⟨hwm, hR⟩
  exact .ok ⟨congrArg f hwm, hR⟩

theorem parse (r : Except Abort α) : Together R (ofParse r) (ofParse r) := by
  intro w w' h
  cases r with
  | ok a => exact .ok h
  | error e => exact .error e

theorem enter : Together R enterFrame enterFrame := by
  rintro w w' ⟨hwm, hR⟩
  rw [enterFrame, enterFrame, hwm]
  exact .ok ⟨rfl, hR⟩

theorem talk {m : IlmM σ α} {m' : IlmM σ' α} (h : Lockstep R R m m') :
    Together R (onIlm m) (onIlm m') := by
  rintro w w' ⟨hwm, hR⟩
  have hsame := h w.ilm w'.ilm hR
  unfold onIlm
  generalize m w.ilm = x at hsame ⊢
  generalize m' w'.ilm = y at hsame ⊢
  cases hsame with
  | ok hR' => exact .ok ⟨hwm, hR'⟩
  | error e => exact .error e

end Together

namespace Interchangeable

variable (h : Interchangeable ilm ilm' R)

include h

/-! ## Pushing the layout -/

theorem existsSurfaces (elms : List SurfaceElm) :
    Lockstep R R (existsSurfaces ilm elms) (existsSurfaces ilm' elms) := by
  induction elms with
  | nil => exact .ret _
  | cons elm rest ih => exact (h.surfaceExists _).seq fun found => ih.seq fun surfaces => .ret _

theorem addExistsSurfacesToLayer (elm : LayerElm) :
    Lockstep R R (addExistsSurfacesToLayer ilm elm) (addExistsSurfacesToLayer ilm' elm) :=
  (h.existsSurfaces _).seq fun _ => h.addSurfaceToLayer _ _

theorem setLayers (elms : List LayerElm) :
    Lockstep R R (setLayers ilm elms) (setLayers ilm' elms) := by
  induction elms with
  | nil => exact .ret ()
  | cons elm rest ih =>
    exact (h.setLayer _ _).seq fun _ => (h.addExistsSurfacesToLayer elm).seq fun _ => ih

theorem addLayersToScreen (elm : ScreenElm) :
    Lockstep R R (addLayersToScreen ilm elm) (addLayersToScreen ilm' elm) :=
  (h.setLayers _).seq fun _ => h.addLayerToScreen _ _

theorem addExistsSurfacesToLayerAt (id : Id) :
    Together R (addExistsSurfacesToLayerAt ilm id) (addExistsSurfacesToLayerAt ilm' id) := by
  refine (Together.reads _).seq fun elm => ?_
  cases elm with
  | none => exact .ret ()
  | some elm => exact Together.talk (h.addExistsSurfacesToLayer elm)

theorem addLayersToScreenAt (id : Id) :
    Together R (addLayersToScreenAt ilm id) (addLayersToScreenAt ilm' id) := by
  refine (Together.reads _).seq fun elm => ?_
  cases elm with
  | none => exact .ret ()
  | some elm => exact Together.talk (h.addLayersToScreen elm)

/-! ## Surface notifications -/

theorem placeSurface (store : List SurfacePropertiesElm) (surfaceId : Id) (layerElm : LayerElm)
    (elms : List SurfaceElm) :
    Lockstep R R (placeSurface ilm store surfaceId layerElm elms)
      (placeSurface ilm' store surfaceId layerElm elms) := by
  induction elms with
  | nil => exact .ret ()
  | cons elm rest ih =>
    unfold UhmiIviWm.placeSurface
    refine .ite (fun _ => ?_) fun _ => ?_
    · cases getListElement store surfaceId with
      | none => exact .seq (.throw (Q := R) _) fun _ => ih
      | some e =>
        exact (h.setSurface _ _).seq fun _ => (h.addExistsSurfacesToLayer layerElm).seq fun _ => ih
    · exact ih

theorem placeSurfaceInLayers (store : List SurfacePropertiesElm) (surfaceId : Id)
    (elms : List LayerElm) :
    Lockstep R R (placeSurfaceInLayers ilm store surfaceId elms)
      (placeSurfaceInLayers ilm' store surfaceId elms) := by
  induction elms with
  | nil => exact .ret ()
  | cons elm rest ih => exact (h.placeSurface store surfaceId elm elm.listHead).seq fun _ => ih

theorem placeSurfaceInScreens (store : List SurfacePropertiesElm) (surfaceId : Id)
    (elms : List ScreenElm) :
    Lockstep R R (placeSurfaceInScreens ilm store surfaceId elms)
      (placeSurfaceInScreens ilm' store surfaceId elms) := by
  induction elms with
  | nil => exact .ret ()
  | cons elm rest ih => exact (h.placeSurfaceInLayers store surfaceId elm.listHead).seq fun _ => ih

theorem parserAddIviSurfaceByEventNotification (id : Id) :
    Together R (parserAddIviSurfaceByEventNotification ilm id)
      (parserAddIviSurfaceByEventNotification ilm' id) :=
  (Together.reads _).seq fun wm =>
    (Together.talk (h.placeSurfaceInScreens wm.surfacePropertiesHead id wm.screenHead)).seq
      fun _ => .ret 0

/-! ## Elements and documents -/

theorem decideAddOrUpdateLayer (screenElm : Id) (obj : Json) (layerId : Id) (type : CmdType)
    (info : InsertInfo) :
    Together R (decideAddOrUpdateLayer ilm screenElm obj layerId type info)
      (decideAddOrUpdateLayer ilm' screenElm obj layerId type info) := by
  refine (Together.reads _).seq fun popped => ?_
  obtain ⟨popped, screenHead⟩ := popped
  cases popped with
  | none =>
    refine Together.enter.seq fun frame => (Together.modify _).seq fun _ => ?_
    exact (Together.talk (h.setLayer _ _)).seq fun _ => .ret _
  | some elm =>
    exact (Together.modify _).seq fun _ => (Together.talk (h.setLayer _ _)).seq fun _ => .ret _

theorem decideAddOrUpdateSurface (layerElm : Id) (obj : Json) (surfaceId : Id) (type : CmdType)
    (info : InsertInfo) :
    Together R (decideAddOrUpdateSurface ilm layerElm obj surfaceId type info)
      (decideAddOrUpdateSurface ilm' layerElm obj surfaceId type info) := by
  refine (Together.reads _).seq fun popped => ?_
  obtain ⟨popped, screenHead⟩ := popped
  cases popped with
  | none =>
    refine Together.enter.seq fun frame => (Together.modify _).seq fun _ => ?_
    exact (Together.talk (h.setSurface _ _)).seq fun _ => .ret _
  | some elm =>
    refine (Together.reads _).seq fun record => ?_
    cases record with
    | none => exact .seq (.throw (Q := World.Related R) _) fun _ => .ret _
    | some e =>
      exact (Together.modify _).seq fun _ => (Together.talk (h.setSurface _ _)).seq fun _ => .ret _

omit h in
theorem addScreens (screenArray : List Id) :
    Together R (addScreens screenArray) (addScreens screenArray) := by
  induction screenArray with
  | nil => exact .ret ()
  | cons screenId rest ih => exact (Together.modify _).seq fun _ => ih

theorem initDefaultConfig : Together R (initDefaultConfig ilm) (initDefaultConfig ilm') :=
  (Together.talk h.screenIds).seq fun screenArray => (addScreens screenArray).seq fun _ => .ret 0

theorem parseScreenObjects (screenAry : List Json) :
    Together R (parseScreenObjects ilm screenAry) (parseScreenObjects ilm' screenAry) := by
  refine .loop fun screenJobj _ => (Together.talk (h.screenExists _)).seq fun found => ?_
  refine .ite (fun _ => .ret _) fun _ => (Together.reads _).seq fun elm => ?_
  have hlayers : Together R
      (forEach ((parseLayers (some screenJobj)).getD []) fun layerJobj => do
        let layerElm ← UhmiIviWm.decideAddOrUpdateLayer ilm ((parseId (some screenJobj)).getD 0)
          layerJobj ((parseId (some layerJobj)).getD 0) .add insertInfoDefault
        forEach ((parseSurfaces (some layerJobj)).getD []) fun surfaceJobj => do
          let _ ← UhmiIviWm.decideAddOrUpdateSurface ilm layerElm surfaceJobj
            ((parseId (some surfaceJobj)).getD 0) .add insertInfoDefault
          return 0)
      (forEach ((parseLayers (some screenJobj)).getD []) fun layerJobj => do
        let layerElm ← UhmiIviWm.decideAddOrUpdateLayer ilm' ((parseId (some screenJobj)).getD 0)
          layerJobj ((parseId (some layerJobj)).getD 0) .add insertInfoDefault
        forEach ((parseSurfaces (some layerJobj)).getD []) fun surfaceJobj => do
          let _ ← UhmiIviWm.decideAddOrUpdateSurface ilm' layerElm surfaceJobj
            ((parseId (some surfaceJobj)).getD 0) .add insertInfoDefault
          return 0) := by
    refine .loop fun layerJobj _ => (h.decideAddOrUpdateLayer _ _ _ _ _).seq fun layerElm => ?_
    exact .loop fun surfaceJobj _ =>
      (h.decideAddOrUpdateSurface _ _ _ _ _).seq fun _ => .ret 0
  have hpush := (h.addLayersToScreenAt ((parseId (some screenJobj)).getD 0)).seq
    fun _ => Lockstep.ret (R := World.Related R) (0 : Int)
  cases elm with
  | none => exact (Together.modify _).seq fun _ => hlayers.seq fun _ => hpush
  | some elm => exact hlayers.seq fun _ => hpush

theorem parseInitJsonConfig (localHostname : String) (file : Option Json) :
    Together R (parseInitJsonConfig ilm localHostname file)
      (parseInitJsonConfig ilm' localHostname file) := by
  cases file with
  | none => exact .ret _
  | some rootJobj =>
    refine (Together.parse _).seq fun _ => .loop fun targetJobj _ => ?_
    refine (Together.parse _).seq fun ret => .ite (fun _ => .ret _) fun _ => ?_
    exact (h.parseScreenObjects _).seq fun ret => .ite (fun _ => .ret _) fun _ => .ret _

theorem parserInit (boot : Boot) : Together R (parserInit ilm boot) (parserInit ilm' boot) := by
  have hfinish : Together R
      (do
        if (← readWm (·.screenHead.isEmpty)) then
          let _ ← UhmiIviWm.initDefaultConfig ilm
        onIlm (wrapIlmSetNotificationCallback ilm))
      (do
        if (← readWm (·.screenHead.isEmpty)) then
          let _ ← UhmiIviWm.initDefaultConfig ilm'
        onIlm (wrapIlmSetNotificationCallback ilm')) := by
    refine (Together.reads _).seq fun empty =>
      .ite (fun _ => ?_) fun _ => Together.talk h.setCallback
    exact h.initDefaultConfig.seq fun _ => Together.talk h.setCallback
  refine (Together.modify _).seq fun _ => ?_
  obtain ⟨localHostname, config⟩ := boot
  cases config with
  | none => exact hfinish
  | some file => exact (h.parseInitJsonConfig localHostname file).seq fun _ => hfinish

/-! ## Commands -/

theorem parseAddLayerCommand (jobject : Option Json) :
    Together R (parseAddLayerCommand ilm jobject) (parseAddLayerCommand ilm' jobject) := by
  unfold UhmiIviWm.parseAddLayerCommand
  cases parseScreens jobject with
  | none => exact .ret _
  | some screenAry =>
    refine .loop fun screenJobj _ => (Together.parse _).seq fun info => ?_
    obtain ⟨-, insertInfo⟩ := info
    refine (Together.reads _).seq fun found => ?_
    cases found with
    | false => exact .ret _
    | true =>
      dsimp only
      cases parseLayers (some screenJobj) with
      | none => exact .ret _
      | some layerAry =>
        refine .seq (Q := World.Related R) (.loop fun layerJobj _ => ?_) fun ret => ?_
        · cases parseId (some layerJobj) with
          | none => exact .ret _
          | some layerId => exact (h.decideAddOrUpdateLayer _ _ _ _ _).seq fun _ => .ret _
        · exact .ite (fun _ => .ret _) fun _ => (h.addLayersToScreenAt _).seq fun _ => .ret _

theorem parseRemoveLayerCommand (jobject : Option Json) :
    Together R (parseRemoveLayerCommand ilm jobject) (parseRemoveLayerCommand ilm' jobject) := by
  unfold UhmiIviWm.parseRemoveLayerCommand
  cases parseLayers jobject with
  | none => exact .ret _
  | some layerAry =>
    refine .loop fun layerJobj _ => ?_
    cases parseId (some layerJobj) with
    | none => exact .ret _
    | some layerId =>
      exact (Together.modify _).seq fun _ =>
        (Together.talk (h.removeLayer layerId)).seq fun _ => .ret _

theorem parseModifyLayerCommand (jobject : Option Json) :
    Together R (parseModifyLayerCommand ilm jobject) (parseModifyLayerCommand ilm' jobject) := by
  unfold UhmiIviWm.parseModifyLayerCommand
  cases parseLayers jobject with
  | none => exact .ret _
  | some layerAry =>
    refine .loop fun layerJobj _ => ?_
    cases parseId (some layerJobj) with
    | none => exact .ret _
    | some layerId =>
      refine (Together.reads _).seq fun elm => ?_
      cases elm with
      | none => exact .ret _
      | some elm =>
        exact (Together.modify _).seq fun _ =>
          (Together.talk (h.setLayer _ layerId)).seq fun _ => .ret _

theorem parseAddSurfaceCommand (jobject : Option Json) :
    Together R (parseAddSurfaceCommand ilm jobject) (parseAddSurfaceCommand ilm' jobject) := by
  unfold UhmiIviWm.parseAddSurfaceCommand
  cases parseScreens jobject with
  | none => exact .ret _
  | some screenAry =>
    refine .loop fun screenJobj _ => (Together.parse _).seq fun info => ?_
    obtain ⟨-, insertInfo⟩ := info
    cases parseLayers (some screenJobj) with
    | none => exact .ret _
    | some layerAry =>
      refine .loop fun layerJobj _ => (Together.reads _).seq fun found => ?_
      cases found with
      | false => exact .ret _
      | true =>
        dsimp only
        cases parseSurfaces (some layerJobj) with
        | none => exact .ret _
        | some surfaceAry =>
          refine .seq (Q := World.Related R) (.loop fun surfaceJobj _ => ?_) fun ret => ?_
          · cases parseId (some surfaceJobj) with
            | none => exact .ret _
            | some surfaceId =>
              exact (h.decideAddOrUpdateSurface _ _ _ _ _).seq fun _ => .ret _
          · exact .ite (fun _ => .ret _) fun _ =>
              (h.addExistsSurfacesToLayerAt _).seq fun _ => .ret _

theorem parseRemoveSurfaceCommand (jobject : Option Json) :
    Together R (parseRemoveSurfaceCommand ilm jobject) (parseRemoveSurfaceCommand ilm' jobject) := by
  unfold UhmiIviWm.parseRemoveSurfaceCommand
  cases parseLayers jobject with
  | none => exact .ret _
  | some layerAry =>
    refine .loop fun layerJobj _ => ?_
    cases parseId (some layerJobj) with
    | none => exact .ret _
    | some layerId =>
      refine (Together.reads _).seq fun found => ?_
      cases found with
      | false => exact .ret _
      | true =>
        dsimp only
        cases parseSurfaces (some layerJobj) with
        | none => exact .ret _
        | some surfaceAry =>
          refine .loop fun surfaceJobj _ => ?_
          cases parseId (some surfaceJobj) with
          | none => exact .ret _
          | some surfaceId =>
            exact (Together.modify _).seq fun _ =>
              (Together.talk (h.removeSurface layerId surfaceId)).seq fun _ => .ret _

theorem parseModifySurfaceCommand (jobject : Option Json) :
    Together R (parseModifySurfaceCommand ilm jobject) (parseModifySurfaceCommand ilm' jobject) := by
  unfold UhmiIviWm.parseModifySurfaceCommand
  cases parseSurfaces jobject with
  | none => exact .ret _
  | some surfaceAry =>
    refine .loop fun surfaceJobj _ => ?_
    cases parseId (some surfaceJobj) with
    | none => exact .ret _
    | some surfaceId =>
      refine (Together.reads _).seq fun record => ?_
      cases record with
      | none => exact .ret _
      | some e =>
        exact (Together.modify _).seq fun _ =>
          (Together.talk (h.setSurface _ surfaceId)).seq fun _ => .ret _

theorem parseInitScreenCommand (jobject : Option Json) :
    Together R (parseInitScreenCommand ilm jobject) (parseInitScreenCommand ilm' jobject) := by
  refine (Together.parse _).seq fun _ => (Together.modify _).seq fun _ => ?_
  refine (h.parseScreenObjects _).seq fun ret => .ite (fun _ => .ret _) fun _ => ?_
  exact (Together.talk h.setCallback).seq fun _ => .ret _

theorem handler (command : Command) (jobject : Option Json) :
    Together R (command.handler ilm jobject) (command.handler ilm' jobject) := by
  cases command with
  | addSurface => exact h.parseAddSurfaceCommand jobject
  | removeSurface => exact h.parseRemoveSurfaceCommand jobject
  | modifySurface => exact h.parseModifySurfaceCommand jobject
  | addLayer => exact h.parseAddLayerCommand jobject
  | removeLayer => exact h.parseRemoveLayerCommand jobject
  | modifyLayer => exact h.parseModifyLayerCommand jobject
  | initialScreen => exact h.parseInitScreenCommand jobject

theorem parserParseRecvCommand (jobject : Option Json) :
    Together R (parserParseRecvCommand ilm jobject) (parserParseRecvCommand ilm' jobject) := by
  refine (Together.parse _).seq fun _ => (Together.parse _).seq fun name => ?_
  cases name with
  | none => exact .ret _
  | some cmdName =>
    dsimp only
    cases commandOfName cmdName with
    | none => exact .ret _
    | some command => exact (h.handler command jobject).seq fun _ => .ret _

theorem handle (e : Event) : Together R (e.handle ilm) (e.handle ilm') := by
  match e with
  | .record ⟨.creationDelection, id⟩ =>
    exact (Together.reads _).seq fun registered => Together.talk (h.addNotification registered id)
  | .record ⟨.surfacePropChange, id⟩ =>
    exact (h.parserAddIviSurfaceByEventNotification id).seq fun _ => .ret ()
  | .message body => exact (h.parserParseRecvCommand body).seq fun _ => .ret ()

/-- What the one daemon may come to, the other may. -/
theorem refines {set : Setting σ} {set' : Setting σ'}
    (hstart : ∀ boot w, set.start boot w → ∃ w', set'.start boot w' ∧ World.Related R w w')
    (henv : ∀ c d c', R c c' → set.env c d → ∃ d', set'.env c' d' ∧ R d d') :
    Refines (daemon ilm set) (daemon ilm' set') fun w w' _ => World.Related R w w' where
  init := by
    rintro w ⟨boot, w₀, hw₀, hboot⟩
    obtain ⟨w₀', hw₀', hrelated⟩ := hstart boot w₀ hw₀
    have hsame := h.parserInit boot w₀ w₀' hrelated
    rw [hboot] at hsame
    generalize hboot' : UhmiIviWm.parserInit ilm' boot w₀' = y at hsame
    cases hsame with
    | @ok _ _ w' hrelated' => exact ⟨w', ⟨boot, w₀', hw₀', hboot'⟩, hrelated'⟩
  step := by
    rintro action w t w' _ - hstep hrelated
    cases action with
    | event e =>
      have hstep : e.handle ilm w = .ok ((), t) := hstep
      have hsame := h.handle e w w' hrelated
      rw [hstep] at hsame
      generalize hstep' : e.handle ilm' w' = y at hsame
      cases hsame with
      | @ok _ _ t' hrelated' =>
        have hstep' : (daemon ilm' set').step (.event e) w' t' := hstep'
        exact ⟨[.event e], t', .one hstep', hrelated'⟩
    | env =>
      obtain ⟨hwm, hc⟩ := hstep
      obtain ⟨d', hd', hR⟩ := henv w.ilm t.ilm w'.ilm hrelated.2 hc
      have hstep' : (daemon ilm' set').step .env w' ⟨w'.wm, d'⟩ := ⟨rfl, hd'⟩
      exact ⟨[.env], _, .one hstep', hwm.trans hrelated.1, hR⟩

end Interchangeable

end UhmiIviWm
