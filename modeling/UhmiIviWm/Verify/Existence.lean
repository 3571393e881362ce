import UhmiIviWm.Verify.Pointers
import UhmiIviWm.Verify.Unique
import UhmiIviWm.Verify.Wrappers

/-!
# No call names a missing object

The wrappers ask whether a layer or a surface exists before they set its
properties or take it away. For the layer of a render order, the screen and the
layers of a display order and the layer a surface is removed from they do not
ask. That these exist follows from an invariant: every layer and every screen of
the tree exists (`Exist`). In the strict compositor, where a call fails exactly
when it names a missing object, no step ends in `wrap_ilm_exit`.
-/

namespace UhmiIviWm

open Lib Lib.CallPlan Lib.KeyedList

/-- The layers and screens of the tree exist. -/
structure Exist (wm : Wm) (c : Compositor) : Prop where
  layers : ∀ l ∈ wm.layerIds, l ∈ c.layers
  screens : ∀ s ∈ wm.screenIds, s ∈ c.screens

/-- ilm has been asked for a screen before it enters the tree. -/
def Vouched (w : World Compositor) : Call → Prop
  | .openScreen screenId => screenId ∈ w.ilm.screens
  | .addScreen screenId => screenId ∈ w.ilm.screens
  | _ => True

/-! ## One call -/

section Step

variable {wm : Wm} {c : Compositor} {strict : Bool} {call : Call}

theorem Exist.named (h : Exist wm c) (hp : call.Points wm) : c.Named wm call := by
  cases call with
  | pushScreen screenElm => exact fun hs => by simpa using h.screens screenElm hs
  | pushLayer layerElm => exact fun hl => by simpa using h.layers layerElm hl
  | removeSurface layerElm surfaceId => simpa [Compositor.Named] using h.layers layerElm hp
  | place surfaceId => exact fun l hl => by simpa using h.layers l hl
  | _ => trivial

theorem keeps_screens (call : Call) (screens : List Id) :
    call.Keeps fun c => c.screens = screens where
  setLayer _ c prop layerId h := (c.setLayer_screens prop layerId).trans h
  setSurface surfaceId _ _ c prop h := by
    unfold Compositor.setSurface
    split
    · exact h
    · exact h
  pushSurfaces _ _ h := h
  orderLayers _ _ _ _ _ h := h
  removeLayer layerId _ c h := by
    unfold Compositor.removeLayer
    split
    · exact h
    · exact h
  removeSurface layerElm surfaceId _ c h := by
    unfold Compositor.removeSurface
    split
    · exact h
    · exact h
  register strict c surfaceId h := by
    unfold Compositor.register
    split
    · exact h
    · exact h

theorem onCall_screens : (Compositor.onCall strict wm call c).screens = c.screens :=
  (keeps_screens call c.screens).onCall wm rfl

theorem keeps_layer {l : Id} (hne : call ≠ .removeLayer l) : call.Keeps fun c => l ∈ c.layers where
  setLayer _ c prop layerId hl := by
    simp only [Compositor.setLayer_layers, Compositor.ensureLayer]
    split
    · exact hl
    · exact List.mem_cons_of_mem layerId hl
  setSurface surfaceId _ _ c prop hl := by rwa [Compositor.setSurface_layers]
  pushSurfaces _ _ hl := hl
  orderLayers _ _ _ _ _ hl := hl
  removeLayer layerId hcall c hl := by
    have hid : l ≠ layerId := fun e => hne (by rw [hcall, e])
    unfold Compositor.removeLayer
    split
    · exact List.mem_filter.mpr ⟨hl, by simpa using hid⟩
    · exact hl
  removeSurface layerElm surfaceId _ c hl := by
    unfold Compositor.removeSurface
    split
    · exact hl
    · exact hl
  register strict c surfaceId hl := by
    unfold Compositor.register
    split
    · exact hl
    · exact hl

/-- A layer that exists is taken away by its own removal only. -/
theorem mem_layers_onCall {l : Id} (hl : l ∈ c.layers) (hne : call ≠ .removeLayer l) :
    l ∈ (Compositor.onCall strict wm call c).layers :=
  (keeps_layer hne).onCall wm hl

/-- A layer of the tree was there before or has just been put. -/
theorem mem_layerIds_layout (hu : Unique wm) {l : Id} (hl : l ∈ (call.layout wm).layerIds) :
    call ≠ .removeLayer l ∧
      (l ∈ wm.layerIds ∨ ∃ screenElm obj info, call = .putLayer screenElm obj l info) := by
  cases call with
  | putLayer screenElm obj layerId info =>
    refine ⟨by simp, ?_⟩
    rw [Wm.layerIds, ← getLayer_isSome, hu.getLayer_putLayer] at hl
    split at hl
    · rename_i hid
      exact .inr ⟨screenElm, obj, info, by rw [hid]⟩
    · exact .inl (getLayer_isSome.mp hl)
  | putSurface layerElm obj surfaceId info =>
    rw [layerIds_putSurface] at hl
    exact ⟨by simp, .inl hl⟩
  | removeLayer layerId =>
    rw [Wm.layerIds, ← getLayer_isSome, hu.getLayer_removeLayer] at hl
    split at hl
    · cases hl
    · rename_i hne
      refine ⟨?_, .inl (getLayer_isSome.mp hl)⟩
      rintro ⟨⟩
      exact hne rfl
  | removeSurface layerElm surfaceId =>
    rw [layerIds_removeSurface] at hl
    exact ⟨by simp, .inl hl⟩
  | modifyLayer layerId obj =>
    refine ⟨by simp, .inl ?_⟩
    simp only [Call.layout] at hl
    split at hl
    · exact hl
    · rwa [Wm.layerIds, ids_layersOf_updateLayer fun _ => by rfl] at hl
  | modifySurface surfaceId obj =>
    refine ⟨by simp, .inl ?_⟩
    simp only [Call.layout] at hl
    split at hl <;> exact hl
  | removeAll => cases hl
  | openScreen screenId =>
    refine ⟨by simp, .inl ?_⟩
    simp only [Call.layout] at hl
    split at hl
    · rwa [Wm.layerIds, layersOf_addScreen] at hl
    · exact hl
  | addScreen screenId =>
    refine ⟨by simp, .inl ?_⟩
    rwa [Call.layout, Wm.layerIds, layersOf_addScreen] at hl
  | _ => exact ⟨by simp, .inl hl⟩

theorem mem_screenIds_layout {s : Id} (hs : s ∈ (call.layout wm).screenIds) :
    s ∈ wm.screenIds ∨ call = .openScreen s ∨ call = .addScreen s := by
  have hadd : ∀ screenId, s ∈ (addScreen wm screenId).screenIds → s ∈ wm.screenIds ∨ s = screenId := by
    intro screenId h
    rw [Wm.screenIds, screenHead_addScreen, ids_append, List.mem_append] at h
    exact h.imp id List.mem_singleton.mp
  cases call with
  | putLayer screenElm obj layerId info =>
    rw [screenIds_putLayer] at hs
    exact .inl hs
  | putSurface layerElm obj surfaceId info =>
    refine .inl ?_
    cases hput : wm.surfaceToPut layerElm obj surfaceId with
    | none =>
      simp only [Call.layout, hput] at hs
      exact hs
    | some prop => rwa [Wm.screenIds, screenHead_putSurface hput, ids_updateLayer] at hs
  | removeLayer layerId =>
    rw [Wm.screenIds, screenHead_removeLayer, ids_popLayer] at hs
    exact .inl hs
  | removeSurface layerElm surfaceId =>
    rw [Wm.screenIds, screenHead_removeSurface, ids_updateLayer] at hs
    exact .inl hs
  | modifyLayer layerId obj =>
    refine .inl ?_
    simp only [Call.layout] at hs
    split at hs
    · exact hs
    · rwa [Wm.screenIds, ids_updateLayer] at hs
  | modifySurface surfaceId obj =>
    refine .inl ?_
    simp only [Call.layout] at hs
    split at hs <;> exact hs
  | removeAll => cases hs
  | openScreen screenId =>
    simp only [Call.layout] at hs
    split at hs
    · exact (hadd screenId hs).imp_right fun e => .inl (by rw [e])
    · exact .inl hs
  | addScreen screenId => exact (hadd screenId hs).imp_right fun e => .inr (by rw [e])
  | _ => exact .inl hs

/-- The layers of the tree exist after every call, in either compositor. -/
theorem layers_after_call (h : ∀ l ∈ wm.layerIds, l ∈ c.layers) (hu : Unique wm) :
    ∀ l ∈ (call.layout wm).layerIds, l ∈ (Compositor.onCall strict wm call c).layers := by
  intro l hl
  obtain ⟨hne, hl | ⟨screenElm, obj, info, rfl⟩⟩ := mem_layerIds_layout hu hl
  · exact mem_layers_onCall (h l hl) hne
  · exact List.contains_iff_mem.mp (c.setLayer_contains (wm.layerToPut obj l).prop l)

theorem Exist.after_call {w : World Compositor} (h : Exist w.wm w.ilm) (hu : Unique w.wm)
    (hv : Vouched w call) :
    Exist (call.layout w.wm) (Compositor.onCall strict w.wm call w.ilm) where
  layers := layers_after_call h.layers hu
  screens := by
    intro s hs
    rw [onCall_screens]
    rcases mem_screenIds_layout hs with hs | rfl | rfl
    · exact h.screens s hs
    · exact hv
    · exact hv

end Step

/-! ## The checks of the handlers -/

section Vouched

variable {strict : Bool}

theorem Vouched.of_command {command : Command} {wm : Wm} {call : Call}
    (h : Call.Of wm command call) (hcommand : command ≠ .initialScreen) (w : World Compositor) :
    Vouched w call := by
  cases call with
  | openScreen => cases command <;> first | exact h.elim | exact absurd rfl hcommand
  | addScreen => cases command <;> exact h.elim
  | _ => trivial

/-- A screen of a document is opened once it has been found, and the default
configuration adds the screens ilm has just named. -/
theorem vouched_documents :
    AtDocuments (Compositor.ilm strict) fun w call _ => Vouched w call where
  grows := .of_state
  plain := by
    intro w call _ hplain
    cases call <;> trivial
  screen := by
    intro screenJobj w w' hfound hfind
    cases hfind
    refine ⟨List.contains_iff_mem.mp hfound, ?_⟩
    split
    · refine .of_forall (fun call hcall s _ => ?_) _
      simp only [layerCalls, List.mem_append, List.mem_flatMap, List.mem_cons, List.mem_map,
        List.not_mem_nil, or_false] at hcall
      rcases hcall with ⟨_, _, rfl | ⟨_, _, rfl⟩⟩ | rfl <;> trivial
    · trivial
  default := by
    intro w w' _ hask
    cases hask
    refine AtEach.of_invariant (I := fun s => s.ilm.screens = w.ilm.screens) ?_ ?_ rfl
    · intro call hcall s s' hs hrun
      obtain ⟨id, -, rfl⟩ := List.mem_map.mp hcall
      cases hrun
      exact hs
    · intro call hcall s _ hs
      obtain ⟨id, hid, rfl⟩ := List.mem_map.mp hcall
      change id ∈ s.ilm.screens
      rw [hs]
      exact List.mem_dedup.mp hid

theorem vouched_event (e : Event) (w : World Compositor) :
    AtEach (Call.sem (Compositor.ilm strict)) (fun w call _ => Vouched w call)
      (e.calls (Compositor.ilm strict) w) w := by
  match e with
  | .record ⟨.creationDelection, id⟩ => exact ⟨trivial, by split <;> trivial⟩
  | .record ⟨.surfacePropChange, id⟩ => exact ⟨trivial, by split <;> trivial⟩
  | .message body =>
    rw [calls_message]
    split
    · rename_i command _ _
      by_cases hcommand : command = .initialScreen
      · subst hcommand
        exact vouched_documents.initScreen (fun _ _ => trivial) body w
      · refine .of_forall (fun call hcall s _ => ?_) w
        exact .of_command (Command.plan_calls command w call hcall) hcommand s
    · trivial

end Vouched

/-! ## Runs -/

/-- What holds between any two calls. -/
def Sound (w : World Compositor) : Prop := Unique w.wm ∧ Exist w.wm w.ilm

/-- What the code has made sure of when it makes a call. -/
structure Checked (w : World Compositor) (call : Call) : Prop where
  fresh : FreshScreen w call
  points : call.Points w.wm
  vouched : Vouched w call

theorem Sound.call {call : Call} {w w' : World Compositor} (h : Sound w) (hc : Checked w call)
    (hs : call.sem (Compositor.ilm true) w = .ok ((), w')) : Sound w' := by
  rw [Call.sem_compositor (fun _ => h.2.named hc.points) hs]
  exact ⟨h.1.call hc.fresh, h.2.after_call h.1 hc.vouched⟩

theorem Sound.call_ne_exit {call : Call} {w : World Compositor} (h : Sound w)
    (hc : Checked w call) : call.sem (Compositor.ilm true) w ≠ .error .ilmExit := by
  rw [Ne, Call.sem_eq_error]
  rcases Compositor.talk_eq w.ilm fun _ => h.2.named hc.points with heq | heq
  · rw [heq]
    exact nofun
  · rw [heq]
    exact nofun

theorem checked_event (e : Event) (w : World Compositor) :
    AtEach (Call.sem (Compositor.ilm true)) (fun w call _ => Checked w call)
      (e.calls (Compositor.ilm true) w) w := by
  have hpoints : AtEach (Call.sem (Compositor.ilm true)) (fun w call _ => call.Points w.wm)
      (e.calls (Compositor.ilm true) w) w := points_event e w
  refine (((atEach_freshScreen e w).and hpoints).and (vouched_event e w)).mono ?_
  exact fun _ _ _ ⟨⟨hfresh, hpoints⟩, hvouched⟩ => ⟨hfresh, hpoints, hvouched⟩

theorem checked_boot (boot : Boot) (w : World Compositor) :
    AtEach (Call.sem (Compositor.ilm true)) (fun w call _ => Checked w call)
      (boot.calls (Compositor.ilm true) w) w.cleared := by
  have hfresh := (freshScreen_documents (Compositor.distinctScreenIds true)).boot boot w
  refine ((hfresh.and (points_documents.boot boot w)).and
    (vouched_documents.boot boot w)).mono ?_
  exact fun _ _ _ ⟨⟨hfresh, hpoints⟩, hvouched⟩ => ⟨hfresh, hpoints, hvouched⟩

theorem sound_cleared (w : World Compositor) : Sound w.cleared :=
  ⟨Unique.empty w.wm.uninit, (fun _ h => nomatch h), fun _ h => nomatch h⟩

theorem sound_of_reachable {set : Setting Compositor}
    (henv : ∀ c c', set.env c c' → c'.screens = c.screens ∧ c'.layers = c.layers)
    {w : World Compositor} (h : (daemon (Compositor.ilm true) set).Reachable w) : Sound w := by
  refine run_invariant (P := Sound) (G := Checked) (fun boot w _ => ?_) (fun e w _ _ => ?_)
    (fun call w w' => Sound.call) (fun w c hw _ hc => ?_) h
  · exact ⟨sound_cleared w, checked_boot boot w⟩
  · exact checked_event e w
  · obtain ⟨hscreens, hlayers⟩ := henv w.ilm c hc
    refine ⟨hw.1, fun l hl => ?_, fun s hs => ?_⟩
    · rw [hlayers]
      exact hw.2.layers l hl
    · rw [hscreens]
      exact hw.2.screens s hs

/-- A checked call that names a missing object ends in `wrap_ilm_exit`
(`Compositor.checked_eq`). There is none. -/
theorem exit_unreachable {set : Setting Compositor}
    (henv : ∀ c c', set.env c c' → c'.screens = c.screens ∧ c'.layers = c.layers) :
    (∀ boot w, set.start boot w → parserInit (Compositor.ilm true) boot w ≠ .error .ilmExit) ∧
      ∀ w, (daemon (Compositor.ilm true) set).Reachable w →
        ∀ e : Event, e.handle (Compositor.ilm true) w ≠ .error .ilmExit := by
  refine ⟨fun boot w _ => ?_, fun w hw e => ?_⟩
  · exact parserInit_ne_error_of_invariant (P := Sound) (G := Checked) (by decide)
      (fun call w w' => Sound.call) (fun call w => Sound.call_ne_exit) (sound_cleared w)
      (checked_boot boot w)
  · exact e.handle_ne_error_of_invariant (P := Sound) (G := Checked) (by decide)
      (fun call w w' => Sound.call) (fun call w => Sound.call_ne_exit)
      (sound_of_reachable henv hw) (checked_event e w)

/-- Surface 10 is shown in layer 3000. -/
def shownInLayer : Except Abort (World Compositor) :=
  execute (Compositor.ilm true) ⟨"host", none⟩
    [message "add_layer" "screens" [screenObject 0 "append" [layerObject 3000 []]],
      message "add_surface" "screens" [screenObject 0 "append" [layerObject 3000 [surfaceObject 10]]]]
    ⟨(World.fresh [0]).wm, (Compositor.empty [0]).createSurface 10⟩

theorem exit_unreachable_shownInLayer :
    ∃ w : World Compositor, shownInLayer = .ok w ∧
      (message "remove_surface" "layers" [layerObject 3000 [surfaceObject 10]]).handle
        (Compositor.ilm true) w ≠ .error .ilmExit := by
  have hok : shownInLayer.isOk = true := by decide +kernel
  obtain ⟨w, hw⟩ := exists_ok hok
  have hreach : (daemon (Compositor.ilm true)
      ⟨fun _ _ => True, fun c c' => c'.screens = c.screens ∧ c'.layers = c.layers⟩).Reachable w :=
    reachable_of_execute trivial hw
  exact ⟨w, hw, (exit_unreachable fun _ _ h => h).2 w hreach _⟩

end UhmiIviWm
