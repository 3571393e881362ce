import UhmiIviWm.Verify.Effects

/-!
# How calls fail

A call ends in two ways but returning: `wrap_ilm_exit`, where an ilm call whose
result is checked fails, and the null pointer that the lookup of a missing record
delivers. So where ilm never fails (`Ilm.Succeeds`) a call returns unless its
record is missing (`Call.sem_returns`), and its effect on the layout does not
depend on the ilm library (`runCalls_transfer`).
-/

namespace UhmiIviWm

open Lib.CallPlan Lib.KeyedList

variable {σ : Type} {ilm : Ilm σ}

/-- Every call and every query succeeds. -/
structure Ilm.Succeeds (ilm : Ilm σ) : Prop where
  call : ∀ op c, (ilm.call op c).1 = true
  screenIds : ∀ c, (ilm.getScreenIDs c).1.isSome = true

/-- No call and no query ends a fact about the ilm state. -/
structure Ilm.Keeps (ilm : Ilm σ) (I : σ → Prop) : Prop where
  call : ∀ op c, I c → I (ilm.call op c).2
  surfaceIDs : ∀ c, I c → I (ilm.getSurfaceIDs c).2
  layerIDs : ∀ c, I c → I (ilm.getLayerIDs c).2
  screenProperties : ∀ id c, I c → I (ilm.getPropertiesOfScreen id c).2
  screenIDs : ∀ c, I c → I (ilm.getScreenIDs c).2

theorem Ilm.keeps_true (ilm : Ilm σ) : ilm.Keeps fun _ => True :=
  ⟨fun _ _ _ => trivial, fun _ _ => trivial, fun _ _ => trivial, fun _ _ _ => trivial,
    fun _ _ => trivial⟩

/-- A lookup that is followed without a check finds nothing. -/
def Unrecorded (wm : Wm) : Call → Prop
  | .putSurface layerElm _ surfaceId _ =>
    surfaceId ∉ wm.recordIds ∧ (getSurface wm.screenHead layerElm surfaceId).isSome = true
  | .place surfaceId =>
    surfaceId ∉ wm.recordIds ∧ ∃ e ∈ layersOf wm.screenHead, surfaceId ∈ ids e.listHead
  | _ => False

/-- `wrap_ilm_exit` of an ilm that may fail, or a record that is not found. -/
def Crash (ilm : Ilm σ) (missing : Prop) (e : Abort) : Prop :=
  e = .ilmExit ∧ ¬ ilm.Succeeds ∨ e = .nullDeref ∧ missing

section Keeps

variable {missing : Prop} {I : σ → Prop} (hI : ilm.Keeps I)

theorem keeps_ask {α : Type} {R : Abort → Prop} {query : σ → α × σ}
    (hquery : ∀ c, I c → I (query c).2) : Comp.Keeps I R (ask query) := hquery

include hI

theorem keeps_unchecked {R : Abort → Prop} (op : IlmCall) : Comp.Keeps I R (unchecked ilm op) :=
  hI.call op

theorem keeps_checked (op : IlmCall) : Comp.Keeps I (Crash ilm missing) (checked ilm op) := by
  intro c hc
  rw [checked, Comp.bind_apply]
  simp only [ask]
  cases hsuccess : (ilm.call op c).1 with
  | true => exact hI.call op c hc
  | false =>
    refine .inl ⟨rfl, fun hsucceeds => ?_⟩
    rw [hsucceeds.call op c] at hsuccess
    cases hsuccess

theorem keeps_exists (type : IlmObjectType) (id : Id) {R : Abort → Prop} :
    Comp.Keeps I R (wrapIlmModuleExists ilm type id) := by
  cases type
  · exact .seq (keeps_ask hI.surfaceIDs) fun _ => .ret _
  · exact .seq (keeps_ask hI.layerIDs) fun _ => .ret _

theorem keeps_wrapIlmSetLayer (prop : LayerProperties) (id : Id) :
    Comp.Keeps I (Crash ilm missing) (wrapIlmSetLayer ilm prop id) := by
  refine .seq (keeps_exists hI .layer id) fun found => ?_
  have hset : Comp.Keeps I (Crash ilm missing) (do
      checked ilm (.layerSetDestinationRectangle id prop.lp.dstX prop.lp.dstY prop.lp.dstW
        prop.lp.dstH)
      checked ilm (.layerSetSourceRectangle id prop.lp.srcX prop.lp.srcY prop.lp.srcW prop.lp.srcH)
      checked ilm (.layerSetOpacity id prop.lp.opacity)
      checked ilm (.layerSetVisibility id prop.lp.visibility)
      unchecked ilm (.layerRemoveNotification id)
      unchecked ilm .commitChanges : IlmM σ Unit) :=
    .seq (keeps_checked hI _) fun _ => .seq (keeps_checked hI _) fun _ =>
      .seq (keeps_checked hI _) fun _ => .seq (keeps_checked hI _) fun _ =>
        .seq (keeps_unchecked hI _) fun _ => keeps_unchecked hI _
  cases found with
  | true => exact hset
  | false =>
    refine .seq (.seq (keeps_checked hI _) fun _ => keeps_unchecked hI _) fun _ => hset

theorem keeps_wrapIlmSetSurface (prop : SurfaceProperties) (id : Id) :
    Comp.Keeps I (Crash ilm missing) (wrapIlmSetSurface ilm prop id) := by
  refine .seq (keeps_exists hI .surface id) fun found => .ite (fun _ => .ret _) fun _ => ?_
  exact .seq (keeps_checked hI _) fun _ => .seq (keeps_checked hI _) fun _ =>
    .seq (keeps_checked hI _) fun _ => .seq (keeps_checked hI _) fun _ =>
      .seq (keeps_unchecked hI _) fun _ => keeps_unchecked hI _

theorem keeps_wrapIlmRemoveLayer (id : Id) :
    Comp.Keeps I (Crash ilm missing) (wrapIlmRemoveLayer ilm id) := by
  refine .seq (keeps_exists hI .layer id) fun found => .ite (fun _ => .ret _) fun _ => ?_
  exact .seq (keeps_checked hI _) fun _ => .seq (keeps_unchecked hI _) fun _ =>
    keeps_unchecked hI _

theorem keeps_wrapIlmRemoveSurface (layerId surfaceId : Id) :
    Comp.Keeps I (Crash ilm missing) (wrapIlmRemoveSurface ilm layerId surfaceId) := by
  refine .seq (keeps_exists hI .surface surfaceId) fun found => .ite (fun _ => .ret _) fun _ => ?_
  exact .seq (keeps_checked hI _) fun _ => .seq (keeps_unchecked hI _) fun _ =>
    keeps_unchecked hI _

theorem keeps_addExistsSurfacesToLayer (layerElm : LayerElm) :
    Comp.Keeps I (Crash ilm missing) (addExistsSurfacesToLayer ilm layerElm) := by
  have hexists : ∀ l, Comp.Keeps I (Crash ilm missing) (existsSurfaces ilm l) := by
    intro l
    induction l with
    | nil => exact .ret _
    | cons e rest ih => exact .seq (keeps_exists hI .surface e.id) fun _ => .seq ih fun _ => .ret _
  exact .seq (hexists _) fun _ => .seq (keeps_checked hI _) fun _ => keeps_unchecked hI _

theorem keeps_addLayersToScreen (screenElm : ScreenElm) :
    Comp.Keeps I (Crash ilm missing) (addLayersToScreen ilm screenElm) := by
  have hlayers : ∀ l, Comp.Keeps I (Crash ilm missing) (setLayers ilm l) := by
    intro l
    induction l with
    | nil => exact .ret _
    | cons e rest ih =>
      exact .seq (keeps_wrapIlmSetLayer hI _ _) fun _ =>
        .seq (keeps_addExistsSurfacesToLayer hI e) fun _ => ih
  exact .seq (hlayers _) fun _ => .seq (keeps_checked hI _) fun _ => keeps_unchecked hI _

theorem keeps_placeSurface {store : List SurfacePropertiesElm} {surfaceId : Id}
    (layerElm : LayerElm) {l : List SurfaceElm}
    (h : surfaceId ∈ ids l → surfaceId ∉ ids store → missing) :
    Comp.Keeps I (Crash ilm missing) (placeSurface ilm store surfaceId layerElm l) := by
  induction l with
  | nil => exact .ret _
  | cons e rest ih =>
    have hrest := ih fun hmem => h (List.mem_cons_of_mem e.id hmem)
    by_cases he : surfaceId = e.id
    · simp only [placeSurface, if_pos he]
      cases hget : getListElement store surfaceId with
      | none =>
        have hmissing : missing :=
          h (by rw [ids_cons, he]; exact List.mem_cons_self) (getListElement_eq_none.mp hget)
        exact .seq (.throw (.inr ⟨rfl, hmissing⟩)) fun _ => hrest
      | some r =>
        exact .seq (keeps_wrapIlmSetSurface hI _ _) fun _ =>
          .seq (keeps_addExistsSurfacesToLayer hI _) fun _ => hrest
    · simp only [placeSurface, if_neg he]
      exact hrest

theorem keeps_placeSurfaceInScreens {store : List SurfacePropertiesElm} {surfaceId : Id}
    {t : List ScreenElm}
    (h : ∀ e ∈ layersOf t, surfaceId ∈ ids e.listHead → surfaceId ∉ ids store → missing) :
    Comp.Keeps I (Crash ilm missing) (placeSurfaceInScreens ilm store surfaceId t) := by
  have hlayers : ∀ l : List LayerElm,
      (∀ e ∈ l, surfaceId ∈ ids e.listHead → surfaceId ∉ ids store → missing) →
      Comp.Keeps I (Crash ilm missing) (placeSurfaceInLayers ilm store surfaceId l) := by
    intro l
    induction l with
    | nil => exact fun _ => .ret _
    | cons e rest ih =>
      intro hl
      refine .seq (keeps_placeSurface hI e (hl e List.mem_cons_self)) fun _ => ih fun x hx => ?_
      exact hl x (List.mem_cons_of_mem e hx)
  induction t with
  | nil => exact .ret _
  | cons s rest ih =>
    refine .seq (hlayers _ fun e he => h e (List.mem_append_left _ he)) fun _ => ih fun e he => ?_
    exact h e (List.mem_append_right _ he)

/-- A call fails in ilm, or for a record that is not found. -/
theorem keeps_talk (wm : Wm) (call : Call) :
    Comp.Keeps I (Crash ilm (Unrecorded wm call)) (call.talk ilm wm) := by
  cases call with
  | putLayer => exact keeps_wrapIlmSetLayer hI _ _
  | putSurface layerElm obj surfaceId info =>
    simp only [Call.talk]
    cases hput : wm.surfaceToPut layerElm obj surfaceId with
    | some prop => exact keeps_wrapIlmSetSurface hI _ _
    | none =>
      refine .throw (.inr ⟨rfl, ?_⟩)
      unfold Wm.surfaceToPut at hput
      cases hs : getSurface wm.screenHead layerElm surfaceId with
      | none =>
        rw [hs] at hput
        cases hput
      | some x =>
        rw [hs] at hput
        refine ⟨getListElement_eq_none.mp (Option.map_eq_none_iff.mp hput), ?_⟩
        rw [hs]
        rfl
  | pushScreen screenElm =>
    simp only [Call.talk]
    cases getListElement wm.screenHead screenElm with
    | none => exact .ret _
    | some s => exact keeps_addLayersToScreen hI s
  | pushLayer layerElm =>
    simp only [Call.talk]
    cases getLayer wm.screenHead layerElm with
    | none => exact .ret _
    | some e => exact keeps_addExistsSurfacesToLayer hI e
  | removeLayer => exact keeps_wrapIlmRemoveLayer hI _
  | removeSurface => exact keeps_wrapIlmRemoveSurface hI _ _
  | modifyLayer layerId obj =>
    simp only [Call.talk]
    cases getLayer wm.screenHead layerId with
    | none => exact .ret _
    | some e => exact keeps_wrapIlmSetLayer hI _ _
  | modifySurface surfaceId obj =>
    simp only [Call.talk]
    cases getListElement wm.surfacePropertiesHead surfaceId with
    | none => exact .ret _
    | some r => exact keeps_wrapIlmSetSurface hI _ _
  | findScreen => exact .seq (keeps_ask (hI.screenProperties _)) fun _ => .ret _
  | askScreenIds =>
    refine .seq (fun c hc => ?_) fun _ => .ret _
    rw [wrapIlmGetScreenIds, Comp.bind_apply]
    simp only [ask]
    cases hids : (ilm.getScreenIDs c).1 with
    | some screenIds => exact hI.screenIDs c hc
    | none =>
      refine .inl ⟨rfl, fun hsucceeds => ?_⟩
      have hsome := hsucceeds.screenIds c
      rw [hids] at hsome
      cases hsome
  | place surfaceId =>
    exact keeps_placeSurfaceInScreens hI fun e he hmem hrecord => ⟨hrecord, e, he, hmem⟩
  | register surfaceId =>
    refine .ite (fun _ => .ret _) fun _ => ?_
    exact .seq (keeps_unchecked hI _) fun _ => .seq (keeps_unchecked hI _) fun _ =>
      keeps_unchecked hI _
  | setCallback => exact keeps_unchecked hI _
  | _ => exact .ret _

/-- How a call ends: with its effect on the layout, or in one of the two failures. -/
theorem Call.sem_ends (call : Call) {w : World σ} (hw : I w.ilm) :
    (∃ c, call.sem ilm w = .ok ((), ⟨call.layout w.wm, c⟩) ∧ I c) ∨
      ∃ e, call.sem ilm w = .error e ∧ Crash ilm (Unrecorded w.wm call) e := by
  rw [Call.sem_eq]
  cases htalk : call.talk ilm w.wm w.ilm with
  | ok r => exact .inl ⟨r.2, rfl, (keeps_talk hI w.wm call).of_ok hw htalk⟩
  | error e => exact .inr ⟨e, rfl, (keeps_talk hI w.wm call).of_error hw htalk⟩

end Keeps

theorem nullDeref_of_sem {call : Call} {w : World σ} (h : call.sem ilm w = .error .nullDeref) :
    Unrecorded w.wm call := by
  have htalk := Call.sem_eq_error.mp h
  rcases (keeps_talk ilm.keeps_true w.wm call).of_error trivial htalk with ⟨h, -⟩ | ⟨-, h⟩
  · cases h
  · exact h

/-- Where ilm never fails, a call returns unless its record is missing. -/
theorem Call.sem_returns (hs : ilm.Succeeds) {call : Call} {w : World σ}
    (hrec : ¬ Unrecorded w.wm call) :
    ∃ c, call.sem ilm w = .ok ((), ⟨call.layout w.wm, c⟩) := by
  rcases call.sem_ends ilm.keeps_true trivial with ⟨c, hsem, -⟩ | ⟨e, -, ⟨-, hfails⟩ | ⟨-, hmissing⟩⟩
  · exact ⟨c, hsem⟩
  · exact absurd hs hfails
  · exact absurd hmissing hrec

/-- A put that has returned has found its record. -/
theorem recorded_of_putSurface {layerElm surfaceId : Id} {obj : Json} {info : InsertInfo}
    {w w' : World σ} (h : (Call.putSurface layerElm obj surfaceId info).sem ilm w = .ok ((), w')) :
    ¬ Unrecorded w.wm (.putSurface layerElm obj surfaceId info) := by
  rintro ⟨hno, hs⟩
  obtain ⟨x, hx⟩ := Option.isSome_iff_exists.mp hs
  have htalk := (Call.sem_eq_ok.mp h).1
  simp only [Call.talk, Wm.surfaceToPut, hx, getListElement_eq_none.mpr hno, Option.map_none] at htalk
  cases htalk

/-- Calls that have returned return under any ilm that never fails, with the same
layout. -/
theorem runCalls_transfer {τ : Type} {ilm' : Ilm τ} (hs : ilm'.Succeeds) {calls : List Call}
    (hplace : ∀ surfaceId, .place surfaceId ∉ calls) {w w' : World σ} (c : τ)
    (h : runCalls (Call.sem ilm) calls w = .ok ((), w')) :
    ∃ c', runCalls (Call.sem ilm') calls ⟨w.wm, c⟩ = .ok ((), ⟨w'.wm, c'⟩) := by
  induction calls generalizing w c with
  | nil =>
    cases h
    exact ⟨c, rfl⟩
  | cons call calls ih =>
    obtain ⟨t, hcall, hrest⟩ := runCalls_cons_ok.mp h
    have hrec : ¬ Unrecorded w.wm call := by
      cases call with
      | putSurface => exact recorded_of_putSurface hcall
      | place surfaceId => exact absurd List.mem_cons_self (hplace surfaceId)
      | _ => exact id
    obtain ⟨c₁, hcall'⟩ := Call.sem_returns (w := ⟨w.wm, c⟩) hs hrec
    rw [← (Call.sem_eq_ok.mp hcall).2] at hcall'
    obtain ⟨c', hrest'⟩ := ih (fun s hmem => hplace s (List.mem_cons_of_mem call hmem)) c₁ hrest
    exact ⟨c', runCalls_cons_ok.mpr ⟨_, hcall', hrest'⟩⟩

end UhmiIviWm
