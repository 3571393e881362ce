import UhmiIviWm.Model.Compositor
import UhmiIviWm.Verify.Effects

/-!
# The wrappers on the compositor

What each ilm wrapper, and so each call, does to a compositor that keeps what it
is told. The effects (`setLayer`, `setSurface`, `pushSurfaces` and so on) are
functions of the compositor; `Compositor.talk_eq` says that a call has its
effect (`Compositor.onCall`) or finds a record missing. In the strict compositor
this needs the objects the wrappers name without asking to exist (`Named`).
-/

namespace UhmiIviWm

open Lib.CallPlan Lib.KeyedList

variable {α : Type}

/-! ## Functions changed at an id -/

@[simp] theorem setAt_self (f : Id → α) (id : Id) (a : α) : setAt f id a id = a := if_pos rfl

theorem setAt_of_ne (f : Id → α) {id x : Id} (a : α) (h : x ≠ id) : setAt f id a x = f x :=
  if_neg h

@[simp] theorem setAt_setAt (f : Id → α) (id : Id) (a b : α) :
    setAt (setAt f id a) id b = setAt f id b := by
  funext x
  unfold setAt
  split <;> rfl

namespace Compositor

variable {strict : Bool} (c : Compositor)

/-! ## Effects -/

/-- Creates the layer if it does not exist. -/
def ensureLayer (prop : LayerProperties) (id : Id) : Compositor :=
  if c.layers.contains id then c else c.apply (.layerCreateWithDimension id prop.width prop.height)

def setLayer (prop : LayerProperties) (id : Id) : Compositor :=
  { c.ensureLayer prop id with
    layerLook := setAt (c.ensureLayer prop id).layerLook id prop.lp.look }

def setSurface (prop : SurfaceProperties) (id : Id) : Compositor :=
  if c.surfaces.contains id then
    { c with
      surfaceLook := setAt c.surfaceLook id prop.lp.look
      pending := c.pending.filter (· != id) }
  else c

def removeLayer (id : Id) : Compositor :=
  if c.layers.contains id then c.apply (.layerRemove id) else c

def removeSurface (layerId surfaceId : Id) : Compositor :=
  if c.surfaces.contains surfaceId then
    (c.apply (.layerRemoveSurface layerId surfaceId)).apply (.surfaceRemoveNotification surfaceId)
  else c

/-- The surfaces of a layer that exist. -/
def existing (layerElm : LayerElm) : List Id :=
  (ids layerElm.listHead).filter fun s => c.surfaces.contains s

def pushSurfaces (layerElm : LayerElm) : Compositor :=
  c.apply (.layerSetRenderOrder layerElm.id (c.existing layerElm))

def pushLayers (l : List LayerElm) : Compositor :=
  l.foldl (fun c layerElm => (c.setLayer layerElm.prop layerElm.id).pushSurfaces layerElm) c

def pushScreen (screenElm : ScreenElm) : Compositor :=
  (c.pushLayers screenElm.listHead).apply
    (.displaySetRenderOrder screenElm.id (ids screenElm.listHead))

def placeInLayer (prop : SurfaceProperties) (surfaceId : Id) (layerElm : LayerElm) : Compositor :=
  layerElm.listHead.foldl (fun c surfaceElm =>
    if surfaceId = surfaceElm.id then (c.setSurface prop surfaceId).pushSurfaces layerElm else c) c

def place (prop : SurfaceProperties) (surfaceId : Id) (l : List LayerElm) : Compositor :=
  l.foldl (fun c layerElm => c.placeInLayer prop surfaceId layerElm) c

def register (strict : Bool) (id : Id) : Compositor :=
  if !strict || c.surfaces.contains id then c.apply (.surfaceAddNotification id) else c

/-! ## Calls of the library -/

theorem checked_eq (op : IlmCall) :
    checked (ilm strict) op c =
      if !strict || c.names op then .ok ((), c.apply op) else .error .ilmExit := by
  simp only [checked, Comp.bind_apply, ask, ilm]
  split <;> rfl

theorem checked_of_names (op : IlmCall) (h : strict = true → c.names op = true) :
    checked (ilm strict) op c = .ok ((), c.apply op) := by
  rw [checked_eq, if_pos]
  cases strict with
  | false => rfl
  | true => simpa using h rfl

theorem unchecked_eq (op : IlmCall) :
    unchecked (ilm strict) op c =
      .ok ((), if !strict || c.names op then c.apply op else c) := by
  simp only [unchecked, ilm]
  split <;> rfl

@[simp] theorem unchecked_commitChanges :
    unchecked (ilm strict) .commitChanges c = .ok ((), c) := by
  rw [unchecked_eq]
  simp [apply]

@[simp] theorem unchecked_layerRemoveNotification (id : Id) :
    unchecked (ilm strict) (.layerRemoveNotification id) c = .ok ((), c) := by
  rw [unchecked_eq]
  simp [apply]

@[simp] theorem unchecked_getPropertiesOfSurface (id : Id) :
    unchecked (ilm strict) (.getPropertiesOfSurface id) c = .ok ((), c) := by
  rw [unchecked_eq]
  simp [apply]

@[simp] theorem wrapIlmLayerExists_eq (id : Id) :
    wrapIlmLayerExists (ilm strict) id c = .ok (c.layers.contains id, c) := rfl

@[simp] theorem wrapIlmSurfaceExists_eq (id : Id) :
    wrapIlmSurfaceExists (ilm strict) id c = .ok (c.surfaces.contains id, c) := rfl

/-! ## Wrappers -/

theorem ensureLayer_contains (prop : LayerProperties) (id : Id) :
    (c.ensureLayer prop id).layers.contains id = true := by
  unfold ensureLayer
  split
  · assumption
  · simp [apply]

/-- The four setters of a layer that exists, and what follows them. -/
theorem layerSetters_eq (strict : Bool) {id : Id} (lp : LayoutProperties)
    (h : c.layers.contains id = true) :
    (do
      checked (ilm strict) (.layerSetDestinationRectangle id lp.dstX lp.dstY lp.dstW lp.dstH)
      checked (ilm strict) (.layerSetSourceRectangle id lp.srcX lp.srcY lp.srcW lp.srcH)
      checked (ilm strict) (.layerSetOpacity id lp.opacity)
      checked (ilm strict) (.layerSetVisibility id lp.visibility)
      unchecked (ilm strict) (.layerRemoveNotification id)
      unchecked (ilm strict) .commitChanges : IlmM Compositor Unit) c =
      .ok ((), { c with layerLook := setAt c.layerLook id lp.look }) := by
  simp only [Comp.bind_apply, checked_eq, names, apply, h, Bool.or_true, if_true,
    unchecked_layerRemoveNotification, unchecked_commitChanges, setAt_self, setAt_setAt,
    LayoutProperties.look]

theorem wrapIlmSetLayer_eq (prop : LayerProperties) (id : Id) :
    wrapIlmSetLayer (ilm strict) prop id c = .ok ((), c.setLayer prop id) := by
  have hset := (c.ensureLayer prop id).layerSetters_eq strict prop.lp
    (c.ensureLayer_contains prop id)
  simp only [wrapIlmSetLayer, Comp.bind_apply, wrapIlmLayerExists_eq]
  cases hc : c.layers.contains id with
  | true =>
    have hensure : c.ensureLayer prop id = c := if_pos hc
    rw [hensure] at hset
    rw [setLayer, hensure]
    simpa only [Comp.bind_apply, Bool.true_eq_false, if_false] using hset
  | false =>
    have hensure : c.ensureLayer prop id =
        c.apply (.layerCreateWithDimension id prop.width prop.height) := if_neg (hc ▸ Bool.false_ne_true)
    rw [hensure] at hset
    rw [setLayer, hensure]
    simp only [if_true, wrapIlmCreateLayer, Comp.bind_apply]
    rw [checked_of_names c _ fun _ => rfl]
    simpa only [unchecked_commitChanges, Comp.bind_apply] using hset

theorem wrapIlmSetSurface_eq (prop : SurfaceProperties) (id : Id) :
    wrapIlmSetSurface (ilm strict) prop id c = .ok ((), c.setSurface prop id) := by
  simp only [wrapIlmSetSurface, Comp.bind_apply, wrapIlmSurfaceExists_eq, setSurface]
  cases hc : c.surfaces.contains id with
  | false => rfl
  | true =>
    simp only [Bool.true_eq_false, if_false, if_true, Comp.bind_apply, checked_eq, unchecked_eq,
      names, apply, hc, Bool.or_true, setAt_self, setAt_setAt, LayoutProperties.look]

theorem wrapIlmRemoveLayer_eq (id : Id) :
    wrapIlmRemoveLayer (ilm strict) id c = .ok ((), c.removeLayer id) := by
  simp only [wrapIlmRemoveLayer, Comp.bind_apply, wrapIlmLayerExists_eq, removeLayer]
  cases hc : c.layers.contains id with
  | false => rfl
  | true =>
    simp only [Bool.true_eq_false, if_false, if_true, Comp.bind_apply, checked_eq, names, hc,
      Bool.or_true, unchecked_layerRemoveNotification, unchecked_commitChanges]

theorem wrapIlmRemoveSurface_eq {layerId surfaceId : Id}
    (h : strict = true → c.layers.contains layerId = true) :
    wrapIlmRemoveSurface (ilm strict) layerId surfaceId c =
      .ok ((), c.removeSurface layerId surfaceId) := by
  simp only [wrapIlmRemoveSurface, Comp.bind_apply, wrapIlmSurfaceExists_eq, removeSurface]
  cases hc : c.surfaces.contains surfaceId with
  | false => rfl
  | true =>
    have hnames : strict = true → c.names (.layerRemoveSurface layerId surfaceId) = true :=
      fun hs => by simp only [names, h hs, hc, Bool.and_self]
    simp only [Bool.true_eq_false, if_false, if_true, Comp.bind_apply]
    rw [checked_of_names c _ hnames]
    simp only [unchecked_eq, names, apply, hc, Bool.or_true, if_true]

theorem existsSurfaces_eq (l : List SurfaceElm) :
    existsSurfaces (ilm strict) l c =
      .ok ((ids l).filter fun s => c.surfaces.contains s, c) := by
  induction l with
  | nil => rfl
  | cons e rest ih =>
    simp only [existsSurfaces, Comp.bind_apply, wrapIlmSurfaceExists_eq, ih, Comp.pure_apply,
      ids_cons, List.filter_cons]

theorem addExistsSurfacesToLayer_eq {layerElm : LayerElm}
    (h : strict = true → c.layers.contains layerElm.id = true) :
    addExistsSurfacesToLayer (ilm strict) layerElm c = .ok ((), c.pushSurfaces layerElm) := by
  have hnames : strict = true →
      c.names (.layerSetRenderOrder layerElm.id (c.existing layerElm)) = true := by
    intro hs
    simp only [names, h hs, Bool.true_and, List.all_eq_true, existing, List.mem_filter]
    exact fun _ hx => hx.2
  have hexisting : (ids layerElm.listHead).filter (fun s => c.surfaces.contains s) =
      c.existing layerElm := rfl
  simp only [addExistsSurfacesToLayer, Comp.bind_apply, existsSurfaces_eq,
    wrapIlmAddSurfaceToLayer]
  rw [hexisting, checked_of_names c _ hnames]
  exact unchecked_commitChanges _

@[simp] theorem setLayer_layers (prop : LayerProperties) (id : Id) :
    (c.setLayer prop id).layers = (c.ensureLayer prop id).layers := rfl

@[simp] theorem pushSurfaces_layers (layerElm : LayerElm) :
    (c.pushSurfaces layerElm).layers = c.layers := rfl

theorem setLayer_contains (prop : LayerProperties) (id : Id) :
    (c.setLayer prop id).layers.contains id = true :=
  c.ensureLayer_contains prop id

theorem setLayers_eq (l : List LayerElm) :
    setLayers (ilm strict) l c = .ok ((), c.pushLayers l) := by
  induction l generalizing c with
  | nil => rfl
  | cons e rest ih =>
    simp only [setLayers, Comp.bind_apply, wrapIlmSetLayer_eq]
    rw [addExistsSurfacesToLayer_eq _ fun _ => c.setLayer_contains e.prop e.id]
    exact ih _

/-- Existing layers stay when layers are pushed, and the pushed ones exist. -/
theorem contains_pushLayers {l : List LayerElm} {id : Id}
    (h : c.layers.contains id = true ∨ id ∈ ids l) : (c.pushLayers l).layers.contains id = true := by
  induction l generalizing c with
  | nil => simpa [pushLayers] using h
  | cons e rest ih =>
    refine ih _ ?_
    rw [pushSurfaces_layers, setLayer_layers]
    rw [ids_cons, List.mem_cons] at h
    rcases h with h | rfl | h
    · refine .inl ?_
      unfold ensureLayer
      split
      · exact h
      · simpa [apply] using .inr (by simpa using h)
    · exact .inl (c.ensureLayer_contains e.prop e.id)
    · exact .inr h

@[simp] theorem setLayer_screens (prop : LayerProperties) (id : Id) :
    (c.setLayer prop id).screens = c.screens := by
  simp only [setLayer, ensureLayer]
  split <;> rfl

@[simp] theorem pushLayers_screens (l : List LayerElm) :
    (c.pushLayers l).screens = c.screens := by
  induction l generalizing c with
  | nil => rfl
  | cons e rest ih => exact (ih _).trans (c.setLayer_screens e.prop e.id)

theorem addLayersToScreen_eq {screenElm : ScreenElm}
    (h : strict = true → c.screens.contains screenElm.id = true) :
    addLayersToScreen (ilm strict) screenElm c = .ok ((), c.pushScreen screenElm) := by
  have hnames : strict = true → (c.pushLayers screenElm.listHead).names
      (.displaySetRenderOrder screenElm.id (ids screenElm.listHead)) = true := by
    intro hs
    simp only [names, pushLayers_screens, h hs, Bool.true_and, List.all_eq_true]
    exact fun id hid => c.contains_pushLayers (.inr hid)
  have hids : screenElm.listHead.map (·.id) = ids screenElm.listHead := rfl
  simp only [addLayersToScreen, Comp.bind_apply, setLayers_eq, wrapIlmAddLayerToScreen]
  rw [hids, checked_of_names _ _ hnames]
  exact unchecked_commitChanges _

/-! ## Placing a surface -/

@[simp] theorem setSurface_layers (prop : SurfaceProperties) (id : Id) :
    (c.setSurface prop id).layers = c.layers := by
  unfold setSurface
  split <;> rfl

@[simp] theorem placeInLayer_layers (prop : SurfaceProperties) (surfaceId : Id)
    (layerElm : LayerElm) : (c.placeInLayer prop surfaceId layerElm).layers = c.layers := by
  unfold placeInLayer
  induction layerElm.listHead generalizing c with
  | nil => rfl
  | cons e rest ih =>
    rw [List.foldl_cons, ih]
    split
    · exact setSurface_layers c prop surfaceId
    · rfl

section Place

variable (store : List SurfacePropertiesElm) (surfaceId : Id)

/-- A surface is placed where it is listed, unless its record is missing. -/
theorem placeSurface_eq {layerElm : LayerElm}
    (h : strict = true → c.layers.contains layerElm.id = true) (l : List SurfaceElm) :
    placeSurface (ilm strict) store surfaceId layerElm l c =
        .ok ((), l.foldl (fun c e => if surfaceId = e.id then
          (c.setSurface ((record store surfaceId).getD .zero) surfaceId).pushSurfaces layerElm
          else c) c) ∨
      placeSurface (ilm strict) store surfaceId layerElm l c = .error .nullDeref := by
  induction l generalizing c with
  | nil => exact .inl rfl
  | cons e rest ih =>
    by_cases he : surfaceId = e.id
    · cases hrec : getListElement store surfaceId with
      | none =>
        refine .inr ?_
        simp only [placeSurface, if_pos he, hrec]
        rfl
      | some r =>
        have hprop : (record store surfaceId).getD .zero = r.prop := by rw [record, hrec]; rfl
        simp only [placeSurface, if_pos he, hrec, Comp.bind_apply, wrapIlmSetSurface_eq,
          List.foldl_cons, hprop]
        rw [addExistsSurfacesToLayer_eq _ fun hs => by rw [setSurface_layers]; exact h hs]
        rw [← hprop]
        refine ih _ fun hs => ?_
        rw [pushSurfaces_layers, setSurface_layers]
        exact h hs
    · simp only [placeSurface, if_neg he, List.foldl_cons]
      exact ih c h

theorem placeSurfaceInLayers_eq {l : List LayerElm}
    (h : strict = true → ∀ e ∈ l, c.layers.contains e.id = true) :
    placeSurfaceInLayers (ilm strict) store surfaceId l c =
        .ok ((), c.place ((record store surfaceId).getD .zero) surfaceId l) ∨
      placeSurfaceInLayers (ilm strict) store surfaceId l c = .error .nullDeref := by
  induction l generalizing c with
  | nil => exact .inl rfl
  | cons e rest ih =>
    simp only [placeSurfaceInLayers, Comp.bind_apply]
    rcases c.placeSurface_eq store surfaceId (fun hs => h hs e List.mem_cons_self)
      e.listHead with heq | heq
    · rw [heq]
      refine ih (c.placeInLayer _ surfaceId e) fun hs x hx => ?_
      rw [placeInLayer_layers]
      exact h hs x (List.mem_cons_of_mem e hx)
    · rw [heq]
      exact .inr rfl

@[simp] theorem place_layers (prop : SurfaceProperties) (l : List LayerElm) :
    (c.place prop surfaceId l).layers = c.layers := by
  unfold place
  induction l generalizing c with
  | nil => rfl
  | cons e rest ih => rw [List.foldl_cons, ih, placeInLayer_layers]

theorem place_append (prop : SurfaceProperties) (l l' : List LayerElm) :
    c.place prop surfaceId (l ++ l') = (c.place prop surfaceId l).place prop surfaceId l' :=
  List.foldl_append

theorem placeSurfaceInScreens_eq {t : List ScreenElm}
    (h : strict = true → ∀ e ∈ layersOf t, c.layers.contains e.id = true) :
    placeSurfaceInScreens (ilm strict) store surfaceId t c =
        .ok ((), c.place ((record store surfaceId).getD .zero) surfaceId (layersOf t)) ∨
      placeSurfaceInScreens (ilm strict) store surfaceId t c = .error .nullDeref := by
  induction t generalizing c with
  | nil => exact .inl rfl
  | cons s rest ih =>
    have hhead : strict = true → ∀ e ∈ s.listHead, c.layers.contains e.id = true :=
      fun hs e he => h hs e (List.mem_append_left _ he)
    simp only [placeSurfaceInScreens, Comp.bind_apply]
    rcases c.placeSurfaceInLayers_eq store surfaceId hhead with heq | heq
    · rw [heq, layersOf_cons, place_append]
      refine ih (c.place _ surfaceId s.listHead) fun hs e he => ?_
      rw [place_layers]
      exact h hs e (List.mem_append_right _ he)
    · rw [heq]
      exact .inr rfl

end Place

theorem wrapIlmSetSurfaceAddNotification_eq {registered : Int} (id : Id) :
    wrapIlmSetSurfaceAddNotification (ilm strict) registered id c =
      .ok ((), if registered = 0 then c else c.register strict id) := by
  by_cases h : registered = 0
  · simp only [wrapIlmSetSurfaceAddNotification, if_pos h, Comp.pure_apply]
  · simp only [wrapIlmSetSurfaceAddNotification, if_neg h, Comp.bind_apply]
    rw [unchecked_eq]
    simp only [unchecked_commitChanges, unchecked_getPropertiesOfSurface]
    rfl

/-! ## Calls -/

/-- What a call does to the compositor, given the layout it finds. -/
def onCall (strict : Bool) (wm : Wm) : Call → Compositor → Compositor
  | .putLayer _ obj layerId _, c => c.setLayer (wm.layerToPut obj layerId).prop layerId
  | .putSurface layerElm obj surfaceId _, c =>
    match wm.surfaceToPut layerElm obj surfaceId with
    | none => c
    | some prop => c.setSurface prop surfaceId
  | .pushScreen screenElm, c =>
    match getListElement wm.screenHead screenElm with
    | none => c
    | some s => c.pushScreen s
  | .pushLayer layerElm, c =>
    match getLayer wm.screenHead layerElm with
    | none => c
    | some e => c.pushSurfaces e
  | .removeLayer layerId, c => c.removeLayer layerId
  | .removeSurface layerElm surfaceId, c => c.removeSurface layerElm surfaceId
  | .modifyLayer layerId obj, c =>
    match getLayer wm.screenHead layerId with
    | none => c
    | some e => c.setLayer (parseLayerProperties e.prop (some obj) .mod).2 layerId
  | .modifySurface surfaceId obj, c =>
    match getListElement wm.surfacePropertiesHead surfaceId with
    | none => c
    | some e => c.setSurface (parseSurfaceProperties e.prop (some obj) .mod).2 surfaceId
  | .place surfaceId, c =>
    c.place ((record wm.surfacePropertiesHead surfaceId).getD .zero) surfaceId
      (layersOf wm.screenHead)
  | .register surfaceId, c =>
    if parserCheckRegisteredSurfaceInListTree wm surfaceId = 0 then c
    else c.register strict surfaceId
  | _, c => c

/-- The objects a call names without asking whether they exist do exist. -/
def Named (c : Compositor) (wm : Wm) : Call → Prop
  | .pushScreen screenElm => screenElm ∈ wm.screenIds → c.screens.contains screenElm = true
  | .pushLayer layerElm => layerElm ∈ wm.layerIds → c.layers.contains layerElm = true
  | .removeSurface layerElm _ => c.layers.contains layerElm = true
  | .place _ => ∀ layerId ∈ wm.layerIds, c.layers.contains layerId = true
  | _ => True

/-- A call has its effect or finds a record missing. -/
theorem talk_eq {wm : Wm} {call : Call} (h : strict = true → c.Named wm call) :
    call.talk (ilm strict) wm c = .ok ((), onCall strict wm call c) ∨
      call.talk (ilm strict) wm c = .error .nullDeref := by
  cases call with
  | putLayer screenElm obj layerId info => exact .inl (wrapIlmSetLayer_eq _ _ _)
  | putSurface layerElm obj surfaceId info =>
    simp only [Call.talk, onCall]
    cases wm.surfaceToPut layerElm obj surfaceId with
    | none => exact .inr rfl
    | some prop => exact .inl (wrapIlmSetSurface_eq _ _ _)
  | pushScreen screenElm =>
    simp only [Call.talk, onCall]
    cases hs : getListElement wm.screenHead screenElm with
    | none => exact .inl rfl
    | some s =>
      obtain ⟨hmem, rfl⟩ := mem_of_getListElement hs
      exact .inl (addLayersToScreen_eq _ fun hstrict => h hstrict (mem_ids_of_mem hmem))
  | pushLayer layerElm =>
    simp only [Call.talk, onCall]
    cases he : getLayer wm.screenHead layerElm with
    | none => exact .inl rfl
    | some e =>
      obtain ⟨hmem, rfl⟩ := mem_of_getLayer he
      exact .inl (addExistsSurfacesToLayer_eq _ fun hstrict => h hstrict (mem_ids_of_mem hmem))
  | removeLayer layerId => exact .inl (wrapIlmRemoveLayer_eq _ _)
  | removeSurface layerElm surfaceId => exact .inl (wrapIlmRemoveSurface_eq _ fun hstrict => h hstrict)
  | modifyLayer layerId obj =>
    simp only [Call.talk, onCall]
    cases getLayer wm.screenHead layerId with
    | none => exact .inl rfl
    | some e => exact .inl (wrapIlmSetLayer_eq _ _ _)
  | modifySurface surfaceId obj =>
    simp only [Call.talk, onCall]
    cases getListElement wm.surfacePropertiesHead surfaceId with
    | none => exact .inl rfl
    | some e => exact .inl (wrapIlmSetSurface_eq _ _ _)
  | place surfaceId =>
    exact c.placeSurfaceInScreens_eq _ surfaceId fun hstrict e he =>
      h hstrict e.id (mem_ids_of_mem he)
  | register surfaceId => exact .inl (wrapIlmSetSurfaceAddNotification_eq _ _)
  | setCallback =>
    refine .inl ((unchecked_eq _ _).trans ?_)
    simp [apply, onCall]
  | removeAll | findScreen | openScreen | addScreen | askScreenIds => exact .inl rfl

end Compositor

/-- One call on the world: its effect on the layout and its effect on the
compositor, both determined by the layout it finds. -/
theorem Call.sem_compositor {strict : Bool} {call : Call} {w w' : World Compositor}
    (h : strict = true → w.ilm.Named w.wm call)
    (hs : call.sem (Compositor.ilm strict) w = .ok ((), w')) :
    w' = ⟨call.layout w.wm, Compositor.onCall strict w.wm call w.ilm⟩ := by
  obtain ⟨htalk, hwm⟩ := Call.sem_eq_ok.mp hs
  rcases Compositor.talk_eq w.ilm h with heq | heq
  · rw [heq] at htalk
    obtain ⟨wm', c'⟩ := w'
    cases htalk
    exact congrArg (World.mk · _) hwm
  · rw [heq] at htalk
    cases htalk

theorem Call.sem_lenient {call : Call} {w w' : World Compositor}
    (hs : call.sem (Compositor.ilm false) w = .ok ((), w')) :
    w' = ⟨call.layout w.wm, Compositor.onCall false w.wm call w.ilm⟩ := by
  have hnamed : false = true → w.ilm.Named w.wm call := fun h => absurd h Bool.false_ne_true
  exact Call.sem_compositor hnamed hs

/-! ## What a call keeps -/

/-- The surface whose notification a call cancels, if the surface exists. -/
def Call.cancels : Call → Option Id
  | .putSurface _ _ surfaceId _ => some surfaceId
  | .removeSurface _ surfaceId => some surfaceId
  | .modifySurface surfaceId _ => some surfaceId
  | .place surfaceId => some surfaceId
  | _ => none

/-- The calls that set properties of layers. -/
def Call.setsLayers : Call → Bool
  | .putLayer .. | .pushScreen _ | .modifyLayer .. => true
  | _ => false

/-- Each effect that a call can have on the compositor keeps `P`. -/
structure Call.Keeps (call : Call) (P : Compositor → Prop) : Prop where
  setLayer : call.setsLayers = true → ∀ c prop layerId, P c → P (c.setLayer prop layerId)
  setSurface : ∀ surfaceId, call.cancels = some surfaceId →
    (∀ layerElm, call ≠ .removeSurface layerElm surfaceId) →
      ∀ c prop, P c → P (c.setSurface prop surfaceId)
  pushSurfaces : ∀ c layerElm, P c → P (c.pushSurfaces layerElm)
  orderLayers : ∀ screenElm, call = .pushScreen screenElm →
    ∀ c screenId layers, P c → P (c.apply (.displaySetRenderOrder screenId layers))
  removeLayer : ∀ layerId, call = .removeLayer layerId → ∀ c, P c → P (c.removeLayer layerId)
  removeSurface : ∀ layerElm surfaceId, call = .removeSurface layerElm surfaceId →
    ∀ c, P c → P (c.removeSurface layerElm surfaceId)
  register : ∀ strict c surfaceId, P c → P (c.register strict surfaceId)

namespace Call.Keeps

variable {call : Call} {P : Compositor → Prop} {c : Compositor} {strict : Bool}

theorem pushLayers (h : call.Keeps P) (hsets : call.setsLayers = true) (l : List LayerElm)
    (hc : P c) : P (c.pushLayers l) :=
  List.foldlRecOn (motive := P) l _ hc fun c' hc' e _ =>
    h.pushSurfaces _ e (h.setLayer hsets c' e.prop e.id hc')

theorem place {surfaceId : Id} (h : (Call.place surfaceId).Keeps P) (prop : SurfaceProperties)
    (l : List LayerElm) (hc : P c) : P (c.place prop surfaceId l) := by
  refine List.foldlRecOn (motive := P) l _ hc fun c' hc' e _ => ?_
  refine List.foldlRecOn (motive := P) e.listHead _ hc' fun c' hc' x _ => ?_
  split
  · exact h.pushSurfaces _ e (h.setSurface surfaceId rfl (by simp) c' prop hc')
  · exact hc'

theorem onCall (h : call.Keeps P) (wm : Wm) (hc : P c) :
    P (Compositor.onCall strict wm call c) := by
  cases call with
  | putLayer => exact h.setLayer rfl c _ _ hc
  | putSurface layerElm obj surfaceId info =>
    simp only [Compositor.onCall]
    split
    · exact hc
    · exact h.setSurface surfaceId rfl (by simp) c _ hc
  | pushScreen screenElm =>
    simp only [Compositor.onCall]
    split
    · exact hc
    · exact h.orderLayers screenElm rfl _ _ _ (h.pushLayers rfl _ hc)
  | pushLayer layerElm =>
    simp only [Compositor.onCall]
    split
    · exact hc
    · exact h.pushSurfaces c _ hc
  | removeLayer layerId => exact h.removeLayer layerId rfl c hc
  | removeSurface layerElm surfaceId => exact h.removeSurface layerElm surfaceId rfl c hc
  | modifyLayer layerId obj =>
    simp only [Compositor.onCall]
    split
    · exact hc
    · exact h.setLayer rfl c _ _ hc
  | modifySurface surfaceId obj =>
    simp only [Compositor.onCall]
    split
    · exact hc
    · exact h.setSurface surfaceId rfl (by simp) c _ hc
  | place surfaceId => exact h.place _ _ hc
  | register surfaceId =>
    simp only [Compositor.onCall]
    split
    · exact hc
    · exact h.register strict c surfaceId hc
  | removeAll | findScreen | openScreen | addScreen | askScreenIds | setCallback => exact hc

end Call.Keeps

end UhmiIviWm
