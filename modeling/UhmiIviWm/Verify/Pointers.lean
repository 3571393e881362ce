import UhmiIviWm.Verify.Steps

/-!
# Pointers point into the layout

A handler looks an element up once and goes on using the pointer while it puts
other elements in. So the pointer of every call has to lead to an element of the
layout at the moment of that call (`Call.Points`). For the incremental commands
this is so because no call of a command takes away what the command looked up;
in a layout document the screen has just been opened and the layer just been put.
-/

namespace UhmiIviWm

open Lib Lib.CallPlan Lib.KeyedList

variable {σ : Type} {ilm : Ilm σ}

/-- The element a call points to is in the layout. -/
def Call.Points (wm : Wm) : Call → Prop
  | .putLayer screenElm _ _ _ => screenElm ∈ wm.screenIds
  | .pushScreen screenElm => screenElm ∈ wm.screenIds
  | .putSurface layerElm _ _ _ => layerElm ∈ wm.layerIds
  | .pushLayer layerElm => layerElm ∈ wm.layerIds
  | .removeSurface layerElm _ => layerElm ∈ wm.layerIds
  | .modifySurface surfaceId _ => surfaceId ∈ wm.recordIds
  | _ => True

/-! ## Incremental commands -/

/-- Where the calls of a command leave the ids in place that it looks up, its
pointers stay good. -/
theorem points_of_kept {calls : List Call} {command : Command} {w : World σ} (g : Wm → List Id)
    (hof : ∀ call ∈ calls, Call.Of w.wm command call)
    (hkept : ∀ wm call, Call.Of w.wm command call → g (call.layout wm) = g wm)
    (hpoints : ∀ wm call, g wm = g w.wm → Call.Of w.wm command call → call.Points wm) :
    AtEach (Call.sem ilm) (fun w call _ => call.Points w.wm) calls w := by
  refine AtEach.of_invariant (I := fun s => g s.wm = g w.wm) ?_ ?_ rfl
  · intro call hcall s s' hs hrun
    rw [(Call.sem_eq_ok.mp hrun).2, hkept s.wm call (hof call hcall)]
    exact hs
  · exact fun call hcall s _ hs => hpoints s.wm call hs (hof call hcall)

theorem points_command {calls : List Call} {command : Command} {w : World σ}
    (hcommand : command ≠ .initialScreen) (hof : ∀ call ∈ calls, Call.Of w.wm command call) :
    AtEach (Call.sem ilm) (fun w call _ => call.Points w.wm) calls w := by
  cases command with
  | addLayer =>
    refine points_of_kept Wm.screenIds hof (fun wm call h => ?_) fun wm call hg h => ?_
    · cases call <;> first | exact h.elim | exact screenIds_putLayer | rfl
    · cases call <;> first | exact h.elim | (rw [Call.Points, hg]; exact h)
  | addSurface =>
    refine points_of_kept Wm.layerIds hof (fun wm call h => ?_) fun wm call hg h => ?_
    · cases call <;> first | exact h.elim | exact layerIds_putSurface | rfl
    · cases call <;> first | exact h.elim | (rw [Call.Points, hg]; exact h)
  | removeSurface =>
    refine points_of_kept Wm.layerIds hof (fun wm call h => ?_) fun wm call hg h => ?_
    · cases call <;> first | exact h.elim | exact layerIds_removeSurface
    · cases call <;> first | exact h.elim | (rw [Call.Points, hg]; exact h)
  | modifySurface =>
    refine points_of_kept Wm.recordIds hof (fun wm call h => ?_) fun wm call hg h => ?_
    · cases call <;> first | exact h.elim | exact recordIds_modifySurface
    · cases call <;> first | exact h.elim | (rw [Call.Points, hg]; exact h)
  | removeLayer =>
    refine .of_forall (fun call hcall s _ => ?_) w
    have h := hof call hcall
    cases call <;> first | exact h.elim | trivial
  | modifyLayer =>
    refine .of_forall (fun call hcall s _ => ?_) w
    have h := hof call hcall
    cases call <;> first | exact h.elim | trivial
  | initialScreen => exact absurd rfl hcommand

/-! ## Layout documents -/

theorem mem_layerIds_putLayer {wm : Wm} {screenElm : Id} {info : InsertInfo} (obj : Json)
    (layerId : Id) (h : Inserts wm.screenHead screenElm info) :
    layerId ∈ ((Call.putLayer screenElm obj layerId info).layout wm).layerIds := by
  have hmem : wm.layerToPut obj layerId ∈
      layersOf ((Call.putLayer screenElm obj layerId info).layout wm).screenHead := by
    rw [screenHead_putLayer, mem_layersOf_insertLayer]
    exact .inl ⟨inserts_popLayer.mpr h, rfl⟩
  have hids := mem_ids_of_mem hmem
  rwa [layerToPut_id] at hids

/-- The calls for a layer object keep the screens. -/
theorem screenIds_layerCalls {screenId : Id} {layerJobj : Json} {w w' : World σ}
    (h : runCalls (Call.sem ilm) (layerCalls screenId layerJobj) w = .ok ((), w')) :
    w'.wm.screenIds = w.wm.screenIds := by
  refine runCalls_induction (P := fun s _ => s.wm.screenIds = w.wm.screenIds)
    (G := fun _ call _ => call ∈ layerCalls screenId layerJobj) ?_ rfl
    (.of_forall (fun _ h _ _ => h) w) h
  intro call rest s s' hs hcall hrun
  rw [(Call.sem_eq_ok.mp hrun).2, ← hs]
  simp only [layerCalls, List.mem_cons, List.mem_map] at hcall
  rcases hcall with rfl | ⟨surfaceJobj, -, rfl⟩
  · exact screenIds_putLayer
  · exact screenIds_putSurface

theorem points_layerCalls {screenId : Id} (layerJobj : Json) {w : World σ}
    (hs : screenId ∈ w.wm.screenIds) :
    AtEach (Call.sem ilm) (fun w call _ => call.Points w.wm) (layerCalls screenId layerJobj) w := by
  refine ⟨hs, ?_⟩
  split
  · rename_i u t ht
    refine AtEach.of_invariant
      (I := fun s => (parseId (some layerJobj)).getD 0 ∈ s.wm.layerIds) ?_ ?_ ?_
    · intro call hcall s s' hl hrun
      obtain ⟨surfaceJobj, -, rfl⟩ := List.mem_map.mp hcall
      rw [(Call.sem_eq_ok.mp hrun).2, layerIds_putSurface]
      exact hl
    · intro call hcall s _ hl
      obtain ⟨surfaceJobj, -, rfl⟩ := List.mem_map.mp hcall
      exact hl
    · rw [(Call.sem_eq_ok.mp ht).2]
      exact mem_layerIds_putLayer _ _ ⟨by decide, hs⟩
  · trivial

theorem mem_screenIds_openScreen (wm : Wm) (screenId : Id) :
    screenId ∈ ((Call.openScreen screenId).layout wm).screenIds := by
  simp only [Call.layout]
  cases h : getListElement wm.screenHead screenId with
  | none =>
    change screenId ∈ ids (wm.screenHead ++ [⟨screenId, (), []⟩])
    simp
  | some s => exact getListElement_isSome.mp (by rw [h]; rfl)

/-- A condition on the calls of a screen object, given that its screen is in the tree. -/
theorem atEach_screenCalls {G : World σ → Call → Prop} {screenJobj : Json} {screenId : Id}
    (hid : screenId = (parseId (some screenJobj)).getD 0)
    (hopen : ∀ w, G w (.openScreen screenId))
    (hlayer : ∀ layerJobj w, screenId ∈ w.wm.screenIds →
      AtEach (Call.sem ilm) (fun w call _ => G w call) (layerCalls screenId layerJobj) w)
    (hpush : ∀ w, screenId ∈ w.wm.screenIds → G w (.pushScreen screenId))
    (w : World σ) :
    AtEach (Call.sem ilm) (fun w call _ => G w call) (screenCalls screenJobj) w := by
  have hcalls : screenCalls screenJobj = .openScreen screenId ::
      (((parseLayers (some screenJobj)).getD []).flatMap (layerCalls screenId) ++
        [.pushScreen screenId]) := by
    rw [hid]
    rfl
  rw [hcalls]
  refine ⟨hopen w, ?_⟩
  split
  · rename_i u t ht
    have hscreen : screenId ∈ t.wm.screenIds := by
      rw [(Call.sem_eq_ok.mp ht).2]
      exact mem_screenIds_openScreen w.wm _
    have hkept : ∀ layerJobj (s s' : World σ), screenId ∈ s.wm.screenIds →
        runCalls (Call.sem ilm) (layerCalls screenId layerJobj) s = .ok ((), s') →
          screenId ∈ s'.wm.screenIds := by
      intro layerJobj s s' hs hrun
      rw [screenIds_layerCalls hrun]
      exact hs
    refine AtEach.append .of_state ?_ fun v hv => ⟨?_, ?_⟩
    · exact AtEach.flatMap .of_state hkept (fun layerJobj _ => hlayer layerJobj) hscreen
    · exact hpush v (runCalls_flatMap hkept hscreen hv)
    · split <;> trivial
  · trivial

theorem points_documents : AtDocuments ilm fun w call _ => call.Points w.wm where
  grows := .of_state
  plain := by
    intro w call _ hplain
    cases call <;> trivial
  screen := fun screenJobj _ w _ _ =>
    atEach_screenCalls rfl (fun _ => trivial) (fun layerJobj _ => points_layerCalls layerJobj)
      (fun _ hs => hs) w
  default := by
    intro w w' _ _
    refine .of_forall (fun call hcall _ _ => ?_) w'
    obtain ⟨screenId, -, rfl⟩ := List.mem_map.mp hcall
    trivial

/-! ## Steps -/

theorem points_event (e : Event) (w : World σ) :
    AtEach (Call.sem ilm) (fun w call _ => call.Points w.wm) (e.calls ilm w) w := by
  match e with
  | .record ⟨.creationDelection, id⟩ => exact ⟨trivial, by split <;> trivial⟩
  | .record ⟨.surfacePropChange, id⟩ => exact ⟨trivial, by split <;> trivial⟩
  | .message body =>
    rw [calls_message]
    split
    · rename_i command _ _
      by_cases hcommand : command = .initialScreen
      · subst hcommand
        exact points_documents.initScreen (fun _ _ => trivial) body w
      · exact points_command hcommand (Command.plan_calls command w)
    · trivial

end UhmiIviWm
