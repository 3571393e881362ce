import UhmiIviWm.Lib.Confluence
import UhmiIviWm.Verify.Unique
import UhmiIviWm.Verify.Wrappers

/-!
# Notifications in any order

What a notification does to the compositor, one step after the other (`PlaceStep`):
the surface gets the properties of its record, and a layer gets its order. In a tree
whose layers have different ids these steps may change places and be repeated
(`confluent_placeSteps`), and so may notifications.
-/

namespace UhmiIviWm

open Lib Lib.CallPlan

/-- A step of a notification on the compositor. -/
inductive PlaceStep where
  /-- The record of the surface is missing. -/
  | missing
  | setSurface (prop : SurfaceProperties) (surfaceId : Id)
  | pushSurfaces (layerElm : LayerElm)

/-- Nothing is done any more once a record was missing. -/
def PlaceStep.perform : Except Abort Compositor → PlaceStep → Except Abort Compositor
  | .error e, _ => .error e
  | .ok _, .missing => .error .nullDeref
  | .ok c, .setSurface prop surfaceId => .ok (c.setSurface prop surfaceId)
  | .ok c, .pushSurfaces layerElm => .ok (c.pushSurfaces layerElm)

/-- The steps where the surface is found in the layer. -/
def foundSteps (store : List SurfacePropertiesElm) (surfaceId : Id) (layerElm : LayerElm) :
    List PlaceStep :=
  match getListElement store surfaceId with
  | none => [.missing]
  | some surfacePropertiesElm =>
    [.setSurface surfacePropertiesElm.prop surfaceId, .pushSurfaces layerElm]

/-- The steps of a notification in the layer, for some of its surfaces. -/
def layerSteps (store : List SurfacePropertiesElm) (surfaceId : Id) (layerElm : LayerElm)
    (l : List SurfaceElm) : List PlaceStep :=
  l.flatMap fun refSurfaceElm =>
    if surfaceId = refSurfaceElm.id then foundSteps store surfaceId layerElm else []

/-- The steps of a notification. -/
def placeSteps (wm : Wm) (surfaceId : Id) : List PlaceStep :=
  (layersOf wm.screenHead).flatMap fun layerElm =>
    layerSteps wm.surfacePropertiesHead surfaceId layerElm layerElm.listHead

/-! ## A notification takes its steps -/

/-- The computation takes these steps. -/
def Takes (m : IlmM Compositor Unit) (steps : List PlaceStep) : Prop :=
  ∀ c, m c = (steps.foldl PlaceStep.perform (.ok c)).map (Prod.mk ())

theorem foldl_perform_error (e : Abort) (steps : List PlaceStep) :
    steps.foldl PlaceStep.perform (.error e) = .error e := by
  induction steps with
  | nil => rfl
  | cons _ steps ih => exact ih

namespace Takes

variable {m m' : IlmM Compositor Unit} {steps steps' : List PlaceStep}

theorem ret : Takes (pure ()) [] := fun _ => rfl

theorem seq (h : Takes m steps) (h' : Takes m' steps') :
    Takes (m >>= fun _ => m') (steps ++ steps') := by
  intro c
  rw [Comp.bind_apply, h c, List.foldl_append]
  cases steps.foldl PlaceStep.perform (.ok c) with
  | error e =>
    rw [foldl_perform_error]
    rfl
  | ok c' => exact h' c'

theorem setSurface (prop : SurfaceProperties) (surfaceId : Id) :
    Takes (wrapIlmSetSurface (Compositor.ilm false) prop surfaceId)
      [.setSurface prop surfaceId] := fun c => c.wrapIlmSetSurface_eq prop surfaceId

theorem pushSurfaces (layerElm : LayerElm) :
    Takes (addExistsSurfacesToLayer (Compositor.ilm false) layerElm) [.pushSurfaces layerElm] :=
  fun c => c.addExistsSurfacesToLayer_eq fun h => absurd h Bool.false_ne_true

end Takes

section Takes

variable (store : List SurfacePropertiesElm) (surfaceId : Id)

theorem takes_placeSurface (layerElm : LayerElm) (l : List SurfaceElm) :
    Takes (placeSurface (Compositor.ilm false) store surfaceId layerElm l)
      (layerSteps store surfaceId layerElm l) := by
  induction l with
  | nil => exact .ret
  | cons e rest ih =>
    have hsteps : layerSteps store surfaceId layerElm (e :: rest) =
        (if surfaceId = e.id then foundSteps store surfaceId layerElm else []) ++
          layerSteps store surfaceId layerElm rest := rfl
    rw [placeSurface, hsteps]
    by_cases he : surfaceId = e.id
    · rw [if_pos he, if_pos he, foundSteps]
      cases getListElement store surfaceId with
      | none =>
        intro c
        exact congrArg (Except.map (Prod.mk ())) (foldl_perform_error .nullDeref _).symm
      | some r =>
        exact (Takes.setSurface r.prop surfaceId).seq ((Takes.pushSurfaces layerElm).seq ih)
    · rw [if_neg he, if_neg he]
      exact ih

theorem takes_placeSurfaceInLayers (l : List LayerElm) :
    Takes (placeSurfaceInLayers (Compositor.ilm false) store surfaceId l)
      (l.flatMap fun layerElm => layerSteps store surfaceId layerElm layerElm.listHead) := by
  induction l with
  | nil => exact .ret
  | cons e rest ih => exact (takes_placeSurface store surfaceId e e.listHead).seq ih

theorem takes_placeSurfaceInScreens (t : List ScreenElm) :
    Takes (placeSurfaceInScreens (Compositor.ilm false) store surfaceId t)
      ((layersOf t).flatMap fun layerElm =>
        layerSteps store surfaceId layerElm layerElm.listHead) := by
  induction t with
  | nil => exact .ret
  | cons s rest ih =>
    rw [layersOf_cons, List.flatMap_append]
    exact (takes_placeSurfaceInLayers store surfaceId s.listHead).seq ih

end Takes

/-! ## The order of the steps does not matter -/

/-- The steps that notifications take in this layout. -/
def PlaceStep.Of (wm : Wm) : PlaceStep → Prop
  | .missing => True
  | .setSurface prop surfaceId =>
    ∃ r, getListElement wm.surfacePropertiesHead surfaceId = some r ∧ r.prop = prop
  | .pushSurfaces layerElm => layerElm ∈ layersOf wm.screenHead

theorem PlaceStep.of_mem {wm : Wm} {surfaceId : Id} {step : PlaceStep}
    (h : step ∈ placeSteps wm surfaceId) : step.Of wm := by
  obtain ⟨e, he, h⟩ := List.mem_flatMap.mp h
  obtain ⟨x, -, h⟩ := List.mem_flatMap.mp h
  split at h
  · unfold foundSteps at h
    cases hrec : getListElement wm.surfacePropertiesHead surfaceId with
    | none =>
      rw [hrec] at h
      obtain rfl := List.mem_singleton.mp h
      trivial
    | some r =>
      rw [hrec] at h
      rcases List.mem_pair.mp h with rfl | rfl
      · exact ⟨r, hrec, rfl⟩
      · exact he
  · cases h

theorem setAt_comm {α : Type} (f : Id → α) {id id' : Id} (h : id ≠ id') (a b : α) :
    setAt (setAt f id a) id' b = setAt (setAt f id' b) id a := by
  funext x
  unfold setAt
  by_cases hx : x = id
  · rw [if_neg (hx ▸ h), if_pos hx, if_pos hx]
  · rw [if_neg hx, if_neg hx]

namespace Compositor

variable (c : Compositor)

theorem setSurface_comm (prop prop' : SurfaceProperties) {id id' : Id} (h : id ≠ id') :
    (c.setSurface prop id).setSurface prop' id' = (c.setSurface prop' id').setSurface prop id := by
  have hpending : (c.pending.filter (· != id)).filter (· != id') =
      (c.pending.filter (· != id')).filter (· != id) := by
    rw [List.filter_filter, List.filter_filter]
    exact List.filter_congr fun x _ => Bool.and_comm _ _
  unfold setSurface
  cases hid : c.surfaces.contains id with
  | true =>
    cases hid' : c.surfaces.contains id' with
    | true => simp only [hid, hid', if_true, hpending, setAt_comm c.surfaceLook h]
    | false => simp only [hid, hid', if_true, Bool.false_eq_true, if_false]
  | false =>
    cases hid' : c.surfaces.contains id' with
    | true => simp only [hid, hid', if_true, Bool.false_eq_true, if_false]
    | false => simp only [hid, hid', Bool.false_eq_true, if_false]

theorem setSurface_idem (prop : SurfaceProperties) (id : Id) :
    (c.setSurface prop id).setSurface prop id = c.setSurface prop id := by
  unfold setSurface
  cases hid : c.surfaces.contains id with
  | true => simp only [hid, if_true, setAt_setAt, List.filter_filter, Bool.and_self]
  | false => simp only [hid, Bool.false_eq_true, if_false]

theorem pushSurfaces_setSurface (prop : SurfaceProperties) (id : Id) (e : LayerElm) :
    (c.setSurface prop id).pushSurfaces e = (c.pushSurfaces e).setSurface prop id := by
  have hsurfaces : (c.pushSurfaces e).surfaces = c.surfaces := rfl
  unfold setSurface
  rw [hsurfaces]
  split
  · rfl
  · rfl

theorem pushSurfaces_comm {e e' : LayerElm} (h : e.id ≠ e'.id) :
    (c.pushSurfaces e).pushSurfaces e' = (c.pushSurfaces e').pushSurfaces e :=
  congrArg (fun order => { c with layerOrder := order }) (setAt_comm c.layerOrder h _ _)

theorem pushSurfaces_idem (e : LayerElm) :
    (c.pushSurfaces e).pushSurfaces e = c.pushSurfaces e :=
  congrArg (fun order => { c with layerOrder := order }) (setAt_setAt c.layerOrder e.id _ _)

end Compositor

/-- Two steps on the same object are the same step, so they may change places like any other. -/
theorem PlaceStep.perform_comm {wm : Wm} (hu : Unique wm) {a b : PlaceStep} (ha : a.Of wm)
    (hb : b.Of wm) (c : Compositor) :
    PlaceStep.perform (PlaceStep.perform (.ok c) a) b =
      PlaceStep.perform (PlaceStep.perform (.ok c) b) a := by
  cases a with
  | missing => cases b <;> rfl
  | setSurface prop id =>
    cases b with
    | missing => rfl
    | setSurface prop' id' =>
      by_cases hid : id = id'
      · subst hid
        obtain ⟨r, hr, rfl⟩ := ha
        obtain ⟨r', hr', rfl⟩ := hb
        rw [Option.some.inj (hr.symm.trans hr')]
      · exact congrArg Except.ok (c.setSurface_comm prop prop' hid)
    | pushSurfaces e' => exact congrArg Except.ok (c.pushSurfaces_setSurface prop id e')
  | pushSurfaces e =>
    cases b with
    | missing => rfl
    | setSurface prop' id' => exact congrArg Except.ok (c.pushSurfaces_setSurface prop' id' e).symm
    | pushSurfaces e' =>
      by_cases hid : e.id = e'.id
      · rw [eq_of_id_eq hu.layers ha hb hid]
      · exact congrArg Except.ok (c.pushSurfaces_comm hid)

theorem confluent_placeSteps {wm : Wm} (hu : Unique wm) :
    Confluent PlaceStep.perform (PlaceStep.Of wm) where
  comm := by
    intro a ha b hb r
    cases r with
    | error e => rfl
    | ok c => exact PlaceStep.perform_comm hu ha hb c
  idem := by
    intro a _ r
    cases r with
    | error e => rfl
    | ok c =>
      cases a with
      | missing => rfl
      | setSurface prop id => exact congrArg Except.ok (c.setSurface_idem prop id)
      | pushSurfaces e => exact congrArg Except.ok (c.pushSurfaces_idem e)

/-! ## Lists of notifications -/

/-- The records that announce these surfaces. -/
def notifications (l : List Id) : List Event :=
  l.map fun surfaceId => .record ⟨.surfacePropChange, surfaceId⟩

theorem handle_notification (surfaceId : Id) (w : World Compositor) :
    (Event.record ⟨.surfacePropChange, surfaceId⟩).handle (Compositor.ilm false) w =
      ((placeSteps w.wm surfaceId).foldl PlaceStep.perform (.ok w.ilm)).map
        fun c => ((), ⟨w.wm, c⟩) := by
  have htakes := takes_placeSurfaceInScreens w.wm.surfacePropertiesHead surfaceId w.wm.screenHead
    w.ilm
  refine ((Call.place surfaceId).sem_eq (Compositor.ilm false) w).trans ?_
  rw [Call.talk, htakes, placeSteps]
  cases List.foldl PlaceStep.perform (.ok w.ilm) _ with
  | error e => rfl
  | ok c => rfl

theorem runEvents_notifications (l : List Id) (wm : Wm) (c : Compositor) :
    runEvents (Compositor.ilm false) (notifications l) ⟨wm, c⟩ =
      ((l.flatMap (placeSteps wm)).foldl PlaceStep.perform (.ok c)).map (World.mk wm) := by
  induction l generalizing c with
  | nil => rfl
  | cons surfaceId l ih =>
    rw [List.flatMap_cons, List.foldl_append, notifications, List.map_cons, runEvents,
      handle_notification]
    cases List.foldl PlaceStep.perform (.ok c) (placeSteps wm surfaceId) with
    | error e =>
      rw [foldl_perform_error]
      rfl
    | ok c' => exact ih c'

/-- What becomes of notifications depends neither on their order nor on their number. -/
theorem notifications_confluent {σ : Type} {ilm : Ilm σ} {set : Setting σ}
    (hids : DistinctScreenIds ilm) {w : World σ} (hw : (daemon ilm set).Reachable w)
    (c : Compositor) (l l' : List Id) (hsame : ∀ surfaceId, surfaceId ∈ l ↔ surfaceId ∈ l') :
    runEvents (Compositor.ilm false) (notifications l) ⟨w.wm, c⟩ =
        runEvents (Compositor.ilm false) (notifications l') ⟨w.wm, c⟩ ∧
      ∀ w', runEvents (Compositor.ilm false) (notifications l) ⟨w.wm, c⟩ = .ok w' →
        w'.wm = w.wm := by
  have hsteps : ∀ step, step ∈ l.flatMap (placeSteps w.wm) ↔ step ∈ l'.flatMap (placeSteps w.wm) := by
    intro step
    simp only [List.mem_flatMap, hsame]
  have hof : ∀ step ∈ l.flatMap (placeSteps w.wm), step.Of w.wm := by
    intro step hstep
    obtain ⟨surfaceId, -, h⟩ := List.mem_flatMap.mp hstep
    exact PlaceStep.of_mem h
  rw [runEvents_notifications, runEvents_notifications]
  constructor
  · rw [(confluent_placeSteps (unique_of_run hids hw)).foldl_congr hof hsteps]
  · intro w' h
    cases hfold : (l.flatMap (placeSteps w.wm)).foldl PlaceStep.perform (.ok c) with
    | error e =>
      rw [hfold] at h
      cases h
    | ok c' =>
      rw [hfold] at h
      cases h
      rfl

/-- Two layers that list two surfaces in different orders. -/
theorem notifications_confluent_sharedSurfaces :
    ∃ w w' : World Compositor,
      runEvents (Compositor.ilm false) (notifications [10, 20])
          ⟨w.wm, (w.ilm.createSurface 10).createSurface 20⟩ = .ok w' ∧
        runEvents (Compositor.ilm false) (notifications [20, 10, 20])
          ⟨w.wm, (w.ilm.createSurface 10).createSurface 20⟩ = .ok w' ∧
        w'.ilm.layerOrder 3000 = [10, 20] ∧ w'.ilm.layerOrder 4000 = [20, 10] ∧
        w'.wm = w.wm := by
  have hend : endsWith (fun w =>
      endsWith (fun w' => decide (w'.ilm.layerOrder 3000 = [10, 20] ∧
          w'.ilm.layerOrder 4000 = [20, 10]))
        (runEvents (Compositor.ilm false) (notifications [10, 20])
          ⟨w.wm, (w.ilm.createSurface 10).createSurface 20⟩))
      (execute (Compositor.ilm false) ⟨"host", none⟩
        [message "add_layer" "screens" [screenObject 0 "append"
            [layerObject 3000 [], layerObject 4000 []]],
          message "add_surface" "screens" [screenObject 0 "append"
            [layerObject 3000 [surfaceObject 10, surfaceObject 20],
              layerObject 4000 [surfaceObject 20, surfaceObject 10]]]]
        (World.fresh [0])) = true := by decide +kernel
  obtain ⟨w, hw, h⟩ := exists_of_endsWith hend
  obtain ⟨w', hw', h'⟩ := exists_of_endsWith h
  have hreach : (daemon (Compositor.ilm false)
      ⟨fun _ w => w = World.fresh [0], fun _ _ => False⟩).Reachable w := reachable_of_execute rfl hw
  have hsame : ∀ surfaceId : Id, surfaceId ∈ [10, 20] ↔ surfaceId ∈ [20, 10, 20] := by
    intro surfaceId
    simp only [List.mem_cons, List.not_mem_nil, or_false]
    exact ⟨fun h => h.elim (.inr ∘ .inl) .inl, fun h => h.elim .inr fun h => h⟩
  obtain ⟨hequal, hwm⟩ := notifications_confluent (Compositor.distinctScreenIds false) hreach
    ((w.ilm.createSurface 10).createSurface 20) [10, 20] [20, 10, 20] hsame
  have horders := of_decide_eq_true h'
  exact ⟨w, w', hw', hequal ▸ hw', horders.1, horders.2, hwm w' hw'⟩

end UhmiIviWm
