import UhmiIviWm.Verify.Failures
import UhmiIviWm.Verify.Unique

/-!
# Lookups of records

Two lookups in the property store are followed without a check: where a surface
that is in its layer is put again, and where a surface is placed in the layers
that list it. They find a record as long as every listed surface has one
(`Recorded`). Only removals can break this: a record that goes with one copy of
the surface is missing to the others. A step that takes a surface out of every
layer that lists it is harmless (`TakesAll`); between its calls a listed surface
either has its record or is still to be taken out (`Backed`).
-/

namespace UhmiIviWm

open Lib Lib.CallPlan Lib.KeyedList

variable {σ : Type} {ilm : Ilm σ}

/-! ## One call -/

/-- The calls take the surface out of the layer. -/
def takes (calls : List Call) (layerElm surfaceId : Id) : Bool :=
  calls.any fun
    | .removeSurface l s => l == layerElm && s == surfaceId
    | .removeLayer l => l == layerElm
    | _ => false

/-- A surface the calls take out of one layer they take out of every layer. -/
def TakesAll (wm : Wm) (calls : List Call) : Prop :=
  ∀ e ∈ layersOf wm.screenHead, ∀ s ∈ ids e.listHead, takes calls e.id s = true →
    ∀ e' ∈ layersOf wm.screenHead, s ∈ ids e'.listHead → takes calls e'.id s = true

/-- Every listed surface has a record. -/
def Recorded (wm : Wm) : Prop :=
  ∀ e ∈ layersOf wm.screenHead, ∀ s ∈ ids e.listHead, s ∈ wm.recordIds

/-- Every listed surface has a record, or the calls still to come take it out. -/
def Backed (wm : Wm) (rest : List Call) : Prop :=
  ∀ e ∈ layersOf wm.screenHead, ∀ s ∈ ids e.listHead, s ∈ wm.recordIds ∨ takes rest e.id s = true

def Call.removes : Call → Bool
  | .removeSurface .. | .removeLayer _ => true
  | _ => false

section Step

variable {wm : Wm} {call : Call} {rest : List Call}

theorem Recorded.backed (h : Recorded wm) : Backed wm rest :=
  fun e he s hs => .inl (h e he s hs)

theorem Backed.recorded (h : Backed wm []) : Recorded wm :=
  fun e he s hs => (h e he s hs).resolve_right nofun

theorem Recorded.not_unrecorded (h : Recorded wm) : ¬ Unrecorded wm call := by
  cases call with
  | putSurface =>
    rintro ⟨hno, hs⟩
    obtain ⟨e, he, hs⟩ := getSurface_isSome.mp hs
    exact hno (h e (mem_of_getLayer he).1 _ hs)
  | place =>
    rintro ⟨hno, e, he, hs⟩
    exact hno (h e he _ hs)
  | _ => exact id

theorem not_unrecorded_of_removes (h : call.removes = true) : ¬ Unrecorded wm call := by
  cases call with
  | removeSurface => exact id
  | removeLayer => exact id
  | _ => cases h

/-- A put gives its surface a record and takes none away. -/
theorem recordIds_putSurface {layerElm surfaceId x : Id} {obj : Json} {info : InsertInfo}
    {prop : SurfaceProperties} (hput : wm.surfaceToPut layerElm obj surfaceId = some prop)
    (hx : x = surfaceId ∨ x ∈ wm.recordIds) :
    x ∈ ((Call.putSurface layerElm obj surfaceId info).layout wm).recordIds := by
  rw [Wm.recordIds, surfacePropertiesHead_putSurface hput]
  split
  · rename_i hs
    rw [ids_updateSurfaceProperties]
    refine hx.elim (fun hx => ?_) id
    obtain ⟨y, hy⟩ := Option.isSome_iff_exists.mp hs
    simp only [Wm.surfaceToPut, hy] at hput
    obtain ⟨r, hr, -⟩ := Option.map_eq_some_iff.mp hput
    rw [hx]
    exact getListElement_isSome.mp (by rw [hr]; rfl)
  · rw [← record_isSome, record_addSurfaceProperties]
    split
    · rfl
    · rename_i hne
      exact record_isSome.mpr (hx.resolve_left hne)

theorem Recorded.putSurface {layerElm surfaceId : Id} {obj : Json} {info : InsertInfo}
    (h : Recorded wm) (hu : Unique wm) :
    Recorded ((Call.putSurface layerElm obj surfaceId info).layout wm) := by
  cases hput : wm.surfaceToPut layerElm obj surfaceId with
  | none =>
    simp only [Call.layout, hput]
    exact h
  | some prop =>
    intro e he s hs
    rw [screenHead_putSurface hput, layersOf_updateLayer, updateFirst_eq_map hu.layers] at he
    obtain ⟨e, hmem, rfl⟩ := List.mem_map.mp he
    refine recordIds_putSurface hput ?_
    split at hs
    · rcases (mem_ids_reinsert (hu.surfaces e hmem)).mp hs with ⟨-, rfl⟩ | ⟨hs, -⟩
      · exact .inl rfl
      · exact .inr (h e hmem s hs)
    · exact .inr (h e hmem s hs)

theorem Recorded.putLayer {screenElm layerId : Id} {obj : Json} {info : InsertInfo}
    (h : Recorded wm) (hu : Unique wm) :
    Recorded ((Call.putLayer screenElm obj layerId info).layout wm) := by
  intro e he s hs
  rw [Wm.recordIds, surfacePropertiesHead_putLayer]
  rw [screenHead_putLayer, mem_layersOf_insertLayer] at he
  rcases he with ⟨-, rfl⟩ | he
  · unfold Wm.layerToPut at hs
    split at hs
    · cases hs
    · rename_i e he
      exact h e (mem_of_getLayer he).1 s hs
  · exact h e ((mem_layersOf_popLayer hu.layers).mp he).1 s hs

/-- Whatever is not a removal keeps every listed surface on record. -/
theorem Recorded.after_call (h : Recorded wm) (hu : Unique wm) (hcall : call.removes = false) :
    Recorded (call.layout wm) := by
  cases call with
  | putLayer => exact h.putLayer hu
  | putSurface => exact h.putSurface hu
  | removeLayer | removeSurface => cases hcall
  | removeAll => exact fun _ he => nomatch he
  | modifyLayer layerId obj =>
    simp only [Call.layout]
    split
    · exact h
    · intro e he s hs
      rw [layersOf_updateLayer, updateFirst_eq_map hu.layers] at he
      obtain ⟨e, hmem, rfl⟩ := List.mem_map.mp he
      split at hs
      · exact h e hmem s hs
      · exact h e hmem s hs
  | modifySurface surfaceId obj =>
    simp only [Call.layout]
    split
    · exact h
    · intro e he s hs
      rw [Wm.recordIds, ids_updateSurfaceProperties]
      exact h e he s hs
  | openScreen screenId =>
    simp only [Call.layout]
    split
    · intro e he
      rw [layersOf_addScreen] at he
      exact h e he
    · exact h
  | addScreen screenId =>
    intro e he
    rw [Call.layout, layersOf_addScreen] at he
    exact h e he
  | _ => exact h

theorem takes_cons {l s : Id} (h : takes (call :: rest) l s = true)
    (hcall : takes [call] l s ≠ true) : takes rest l s = true := by
  rw [takes, List.any_cons, Bool.or_eq_true] at h
  refine h.resolve_left fun hthis => hcall ?_
  rw [takes, List.any_cons, hthis]
  rfl

theorem takes_mono {l s : Id} (h : takes rest l s = true) : takes (call :: rest) l s = true := by
  rw [takes, List.any_cons, Bool.or_eq_true]
  exact .inr h

theorem recordIds_removeSurfaceProperties {store : List SurfacePropertiesElm} {surfaceId x : Id}
    (h : x ∈ ids store) (hne : x ≠ surfaceId) :
    x ∈ ids (removeSurfaceProperties store surfaceId) := by
  rw [removeSurfaceProperties_eq]
  split
  · rw [ids_eraseP]
    exact (List.mem_erase_of_ne hne).mpr h
  · rwa [ids_updateSurfaceProperties]

theorem recordIds_removeAllSurface {store : List SurfacePropertiesElm} {e : LayerElm} {x : Id}
    (h : x ∈ ids store) (hne : x ∉ ids e.listHead) : x ∈ ids (removeAllSurface store e) := by
  unfold removeAllSurface
  generalize e.listHead = l at hne
  induction l generalizing store with
  | nil => exact h
  | cons s rest ih =>
    rw [ids_cons, List.mem_cons, not_or] at hne
    exact ih (recordIds_removeSurfaceProperties h hne.1) hne.2

/-- What a removal leaves: copies it did not take, and the records of the surfaces it took
nowhere. -/
theorem removal (hu : Unique wm) (hcall : call.removes = true) :
    (∀ e ∈ layersOf (call.layout wm).screenHead, ∀ s ∈ ids e.listHead,
      takes [call] e.id s ≠ true ∧
        ∃ e₀ ∈ layersOf wm.screenHead, e₀.id = e.id ∧ s ∈ ids e₀.listHead) ∧
      ∀ s ∈ wm.recordIds, s ∉ (call.layout wm).recordIds →
        ∃ e ∈ layersOf wm.screenHead, s ∈ ids e.listHead ∧ takes [call] e.id s = true := by
  cases call with
  | removeSurface layerElm surfaceId =>
    constructor
    · intro e he s hs
      rw [screenHead_removeSurface, layersOf_updateLayer, updateFirst_eq_map hu.layers] at he
      obtain ⟨e, hmem, rfl⟩ := List.mem_map.mp he
      by_cases hid : e.id = layerElm
      · rw [if_pos hid] at hs ⊢
        obtain ⟨hs, hne⟩ := (mem_ids_dropSurface (hu.surfaces e hmem)).mp hs
        refine ⟨?_, e, hmem, rfl, hs⟩
        simp [takes, Ne.symm hne]
      · rw [if_neg hid] at hs ⊢
        refine ⟨?_, e, hmem, rfl, hs⟩
        simp [takes, Ne.symm hid]
    · intro s hs hgone
      rw [Wm.recordIds, surfacePropertiesHead_removeSurface] at hgone
      split at hgone
      · rename_i hsome
        obtain ⟨e, he, hmem⟩ := getSurface_isSome.mp hsome
        obtain ⟨he, hid⟩ := mem_of_getLayer he
        have heq : s = surfaceId := by
          by_contra hne
          exact hgone (recordIds_removeSurfaceProperties hs hne)
        refine ⟨e, he, heq ▸ hmem, ?_⟩
        simp [takes, hid, heq]
      · exact absurd hs hgone
  | removeLayer layerId =>
    constructor
    · intro e he s hs
      rw [screenHead_removeLayer, mem_layersOf_popLayer hu.layers] at he
      refine ⟨?_, e, he.1, rfl, hs⟩
      simp [takes, Ne.symm he.2]
    · intro s hs hgone
      rw [Wm.recordIds, surfacePropertiesHead_removeLayer] at hgone
      split at hgone
      · exact absurd hs hgone
      · rename_i e he
        obtain ⟨he, hid⟩ := mem_of_getLayer he
        refine ⟨e, he, ?_, ?_⟩
        · by_contra hne
          exact hgone (recordIds_removeAllSurface hs hne)
        · simp [takes, hid]
  | _ => cases hcall

theorem TakesAll.after_call (h : TakesAll wm (call :: rest)) (hu : Unique wm)
    (hcall : call.removes = true) : TakesAll (call.layout wm) rest := by
  obtain ⟨hleft, -⟩ := removal hu hcall
  intro e he s hs htake e' he' hs'
  obtain ⟨-, e₀, he₀, hid, hs⟩ := hleft e he s hs
  obtain ⟨hkept, e₀', he₀', hid', hs'⟩ := hleft e' he' s hs'
  have hall := h e₀ he₀ s hs (hid ▸ takes_mono htake) e₀' he₀' hs'
  rw [hid'] at hall
  exact takes_cons hall hkept

theorem Backed.after_call (h : Backed wm (call :: rest)) (hu : Unique wm)
    (hall : TakesAll wm (call :: rest)) (hcall : call.removes = true) :
    Backed (call.layout wm) rest := by
  obtain ⟨hleft, hgone⟩ := removal hu hcall
  intro e he s hs
  obtain ⟨hkept, e₀, he₀, hid, hs₀⟩ := hleft e he s hs
  by_cases hrec : s ∈ (call.layout wm).recordIds
  · exact .inl hrec
  · refine .inr (takes_cons ?_ hkept)
    rw [← hid]
    rcases h e₀ he₀ s hs₀ with hbefore | htake
    · -- the record goes with a copy the call takes, so all copies go
      obtain ⟨x, hx, hsx, htake⟩ := hgone s hbefore hrec
      refine hall x hx s hsx ?_ e₀ he₀ hs₀
      rw [takes, List.any_cons, List.any_nil, Bool.or_false] at htake
      rw [takes, List.any_cons, htake]
      rfl
    · exact htake

end Step

/-! ## Runs -/

theorem removes_of_command (wm : Wm) (command : Command) :
    (∀ call, Call.Of wm command call → call.removes = true) ∨
      ∀ call, Call.Of wm command call → call.removes = false := by
  cases command with
  | removeSurface | removeLayer =>
    refine .inl fun call h => ?_
    cases call <;> first | rfl | exact h.elim
  | _ =>
    refine .inr fun call h => ?_
    cases call <;> first | rfl | exact h.elim

/-- A step only removes, or removes nothing. -/
theorem Event.calls_removes (e : Event) (w : World σ) :
    (∀ call ∈ e.calls ilm w, call.removes = true) ∨
      ∀ call ∈ e.calls ilm w, call.removes = false := by
  match e with
  | .record ⟨.creationDelection, id⟩ =>
    exact .inr fun call h => by rw [List.mem_singleton.mp h]; rfl
  | .record ⟨.surfacePropChange, id⟩ =>
    exact .inr fun call h => by rw [List.mem_singleton.mp h]; rfl
  | .message body =>
    rw [calls_message]
    split
    · rename_i command _ _
      refine (removes_of_command w.wm command).imp (fun h call hcall => ?_) fun h call hcall => ?_
      · exact h call (Command.plan_calls command w call hcall)
      · exact h call (Command.plan_calls command w call hcall)
    · exact .inr nofun

theorem Boot.calls_removes (boot : Boot) (w : World σ) :
    ∀ call ∈ boot.calls ilm w, call.removes = false := by
  intro call h
  have hof := boot.plan_within.calls w.cleared call h
  cases call <;> first | rfl | exact hof.elim

/-- What holds before the calls that are left of a step. -/
structure Guarded (w : World σ) (rest : List Call) : Prop where
  unique : Unique w.wm
  records : (∀ call ∈ rest, call.removes = false) ∧ Recorded w.wm ∨
    (∀ call ∈ rest, call.removes = true) ∧ Backed w.wm rest ∧ TakesAll w.wm rest

theorem Guarded.recorded {w : World σ} (h : Guarded w []) : Recorded w.wm :=
  h.records.elim (·.2) (·.2.1.recorded)

theorem Guarded.after_call {call : Call} {rest : List Call} {w w' : World σ}
    (h : Guarded w (call :: rest)) (hfresh : FreshScreen w call)
    (hs : call.sem ilm w = .ok ((), w')) : Guarded w' rest := by
  refine ⟨?_, ?_⟩
  all_goals rw [(Call.sem_eq_ok.mp hs).2]
  · exact h.unique.call hfresh
  · rcases h.records with ⟨hkind, hrec⟩ | ⟨hkind, hback, hall⟩
    · obtain ⟨hcall, hrest⟩ := List.forall_mem_cons.mp hkind
      exact .inl ⟨hrest, hrec.after_call h.unique hcall⟩
    · obtain ⟨hcall, hrest⟩ := List.forall_mem_cons.mp hkind
      exact .inr ⟨hrest, hback.after_call h.unique hall hcall, hall.after_call h.unique hcall⟩

theorem Guarded.ne_nullDeref {call : Call} {rest : List Call} {w : World σ}
    (h : Guarded w (call :: rest)) : call.sem ilm w ≠ .error .nullDeref := by
  intro herr
  have hno := nullDeref_of_sem herr
  rcases h.records with ⟨-, hrec⟩ | ⟨hkind, -⟩
  · exact hrec.not_unrecorded hno
  · exact not_unrecorded_of_removes (List.forall_mem_cons.mp hkind).1 hno

theorem guarded_init (boot : Boot) (w : World σ) : Guarded w.cleared (boot.calls ilm w) :=
  ⟨.empty w.wm.uninit, .inl ⟨boot.calls_removes w, fun _ he => nomatch he⟩⟩

/-- A surface that a message takes out of one layer it takes out of every layer that
lists it. -/
def TakesAllStep (ilm : Ilm σ) (a : Action) (w : World σ) : Prop := TakesAll w.wm (a.calls ilm w)

theorem recorded_of_run {set : Setting σ} (hids : DistinctScreenIds ilm) {w : World σ}
    (h : (daemon ilm set).Run (TakesAllStep ilm) w) : Unique w.wm ∧ Recorded w.wm := by
  refine run_induction (P := fun w => Unique w.wm ∧ Recorded w.wm) (J := Guarded)
    (G := fun w call _ => FreshScreen w call) (fun boot w₀ w _ hinit => ?_)
    (fun e w hP hall => ?_) ?_ ?_ (fun _ _ hP _ _ => hP) h
  · have hdone := init_induction (J := Guarded) (G := fun w call _ => FreshScreen w call)
      (fun _ _ _ _ => Guarded.after_call) (guarded_init boot w₀)
      ((freshScreen_documents hids).boot boot w₀) hinit
    exact ⟨hdone.unique, hdone.recorded⟩
  · refine ⟨⟨hP.1, ?_⟩, atEach_freshScreen e w⟩
    exact (e.calls_removes w).symm.imp (⟨·, hP.2⟩) (⟨·, hP.2.backed, hall⟩)
  · exact fun _ _ _ _ => Guarded.after_call
  · exact fun w hdone => ⟨hdone.unique, hdone.recorded⟩

/-- In a run in which a surface that is taken out of one layer is taken out of all, no record is
looked up that is not there, be it at the start, in a message or at a notification. -/
theorem records_found {set : Setting σ} (hids : DistinctScreenIds ilm) :
    (∀ boot w, set.start boot w → parserInit ilm boot w ≠ .error .nullDeref) ∧
      ∀ w, (daemon ilm set).Run (TakesAllStep ilm) w →
        ∀ e : Event, e.handle ilm w ≠ .error .nullDeref := by
  constructor
  · intro boot w _
    refine parserInit_ne_error nofun (runCalls_ne_error (P := Guarded)
      (G := fun w call _ => FreshScreen w call) (fun _ _ _ _ => Guarded.after_call)
      (fun _ _ _ h _ => h.ne_nullDeref) (guarded_init boot w) ?_)
    exact (freshScreen_documents hids).boot boot w
  · intro w hrun e
    obtain ⟨hu, hrec⟩ := recorded_of_run hids hrun
    refine e.handle_ne_error nofun ?_
    rcases e.calls_removes w with hkind | hkind
    · -- the last step may leave copies without a record, but it follows no lookup
      refine runCalls_ne_error (P := fun _ rest => ∀ call ∈ rest, Call.removes call = true)
        (fun call rest _ _ h _ _ => (List.forall_mem_cons.mp h).2) (fun call rest w h _ herr => ?_)
        hkind (atEach_freshScreen e w)
      exact not_unrecorded_of_removes (List.forall_mem_cons.mp h).1 (nullDeref_of_sem herr)
    · exact runCalls_ne_error (P := Guarded) (fun _ _ _ _ => Guarded.after_call)
        (fun _ _ _ h _ => h.ne_nullDeref) ⟨hu, .inl ⟨hkind, hrec⟩⟩ (atEach_freshScreen e w)

instance TakesAll.decidable (wm : Wm) (calls : List Call) : Decidable (TakesAll wm calls) :=
  -- over the listed ids: `Id` is finite, and all of them are too many to try
  @List.decidableBAll _ _ (fun _ => List.decidableBAll _ _) _

instance TakesAllStep.decidable (ilm : Ilm σ) (a : Action) (w : World σ) :
    Decidable (TakesAllStep ilm a w) :=
  TakesAll.decidable _ _

/-- Surface 5100 in two layers of a screen. -/
def sharingLayers : Event :=
  message "initial_screen" "screens" [screenObject 0 "append"
    [layerObject 3000 [surfaceObject 5100], layerObject 3001 [surfaceObject 5100]]]

/-- Surface 5100 is taken out of both layers that list it. -/
def takenFromBoth : Except Abort (World Compositor) :=
  execute (Compositor.ilm false) ⟨"host", none⟩
    [sharingLayers, message "remove_surface" "layers"
      [layerObject 3000 [surfaceObject 5100], layerObject 3001 [surfaceObject 5100]]]
    (World.fresh [0])

theorem records_found_takenFromBoth :
    ∃ w : World Compositor, takenFromBoth = .ok w ∧
      Event.handle (Compositor.ilm false) (.record ⟨.surfacePropChange, 5100⟩) w ≠
        .error .nullDeref := by
  have hok : takenFromBoth.isOk = true := by decide +kernel
  obtain ⟨w, hw⟩ := exists_ok hok
  have hrun : (daemon (Compositor.ilm false)
      ⟨fun _ w => w = World.fresh [0], fun c c' => c' = c⟩).Run
        (TakesAllStep (Compositor.ilm false)) w :=
    run_of_execute rfl (by decide +kernel) hw
  exact ⟨w, hw, (records_found (Compositor.distinctScreenIds false)).2 w hrun _⟩

/-- Surface 5100 is taken out of one layer of two. -/
def takenFromOne : Except Abort (World Compositor) :=
  execute (Compositor.ilm false) ⟨"host", none⟩
    [sharingLayers, message "remove_surface" "layers" [layerObject 3000 [surfaceObject 5100]]]
    (World.fresh [0])

/-- Surface 5100 is put again into the layer that goes on listing it. -/
def putAgain : Event :=
  message "add_surface" "screens" [screenObject 0 "append" [layerObject 3001 [surfaceObject 5100]]]

theorem records_missing :
    ¬ ∀ w, (daemon (Compositor.ilm false)
        ⟨fun _ w => w = World.fresh [0], fun c c' => c' = c⟩).Reachable w →
      ∀ e : Event, e.handle (Compositor.ilm false) w ≠ .error .nullDeref := by
  intro h
  have hend : endsWith (fun w => match putAgain.handle (Compositor.ilm false) w with
      | .error .nullDeref => true
      | _ => false) takenFromOne = true := by decide +kernel
  obtain ⟨w, hw, hcrash⟩ := exists_of_endsWith hend
  have hne := h w (reachable_of_execute rfl hw) putAgain
  split at hcrash
  · rename_i herr
    exact hne herr
  · cases hcrash

end UhmiIviWm
