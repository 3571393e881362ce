import Mathlib.Data.List.Pairwise
import UhmiIviWm.Model.Compositor
import UhmiIviWm.Verify.Steps

/-!
# Ids stay unique

No id is ever checked for uniqueness. That ids are unique all the same rests on
every put taking the old element out first: a layer out of the whole tree, a
surface out of its layer. The one call that adds an element without looking is
`add_screen` in the default configuration, so there the ids ilm delivers have to
be distinct.

Uniqueness turns the searches of the code into exact lookups. The second half of
the module says so for each call: which layer a lookup finds afterwards
(`getLayer_*`), and what becomes of each screen (`screenHead_*_eq_map`).
-/

namespace UhmiIviWm

open Lib Lib.CallPlan Lib.KeyedList

structure Unique (wm : Wm) : Prop where
  screens : wm.screenIds.Nodup
  layers : wm.layerIds.Nodup
  surfaces : ∀ e ∈ layersOf wm.screenHead, (ids e.listHead).Nodup
  records : wm.recordIds.Nodup

variable {σ : Type} {ilm : Ilm σ} {wm : Wm}

namespace Unique

theorem getLayer_iff (h : Unique wm) {layerId : Id} {e : LayerElm} :
    getLayer wm.screenHead layerId = some e ↔ e ∈ layersOf wm.screenHead ∧ e.id = layerId :=
  getLayer_eq_some h.layers

theorem surfaces_of_getLayer (h : Unique wm) {layerId : Id} {e : LayerElm}
    (he : getLayer wm.screenHead layerId = some e) : (ids e.listHead).Nodup :=
  h.surfaces e (mem_of_getLayer he).1

theorem layers_of_screen (h : Unique wm) {s : ScreenElm} (hs : s ∈ wm.screenHead) :
    (ids s.listHead).Nodup := by
  have hlayers := h.layers
  rw [Wm.layerIds, ids, layersOf, List.map_flatMap] at hlayers
  exact (List.nodup_flatMap.mp hlayers).1 s hs

/-- A layer is on one screen. -/
theorem layers_disjoint (h : Unique wm) {s s' : ScreenElm} (hs : s ∈ wm.screenHead)
    (hs' : s' ∈ wm.screenHead) (hne : s.id ≠ s'.id) {l : Id} (hl : l ∈ ids s.listHead) :
    l ∉ ids s'.listHead := by
  have hlayers : (wm.screenHead.flatMap fun s => ids s.listHead).Nodup := by
    have hnd := h.layers
    rwa [Wm.layerIds, ids, layersOf, List.map_flatMap] at hnd
  have hpair := (List.nodup_flatMap.mp hlayers).2
  have : Std.Symm (Function.onFun List.Disjoint fun s : ScreenElm => ids s.listHead) :=
    ⟨fun _ _ hd => hd.symm⟩
  have hdisjoint := hpair.forall hs hs' fun e => hne (by rw [e])
  exact fun hl' => hdisjoint hl hl'

theorem empty (uninit : Nat → Frame) : Unique ⟨[], [], uninit⟩ where
  screens := List.nodup_nil
  layers := List.nodup_nil
  surfaces := fun _ he => nomatch he
  records := List.nodup_nil

/-! ## One call -/

theorem layerToPut_surfaces (h : Unique wm) (obj : Json) (layerId : Id) :
    (ids (wm.layerToPut obj layerId).listHead).Nodup := by
  unfold Wm.layerToPut
  split
  · exact List.nodup_nil
  · rename_i e he
    have hsurfaces := h.surfaces_of_getLayer he
    exact hsurfaces

theorem putLayer (h : Unique wm) {screenElm layerId : Id} {obj : Json} {info : InsertInfo} :
    Unique ((Call.putLayer screenElm obj layerId info).layout wm) where
  screens := by
    rw [screenIds_putLayer]
    exact h.screens
  layers := by
    have hpop : (ids (layersOf (popLayer wm.screenHead layerId).2)).Nodup := by
      rw [layersOf_popLayer]
      exact nodup_eraseP_key h.layers
    rw [Wm.layerIds, screenHead_putLayer]
    by_cases hin : Inserts (popLayer wm.screenHead layerId).2 screenElm info
    · have hperm := (layersOf_insertLayer_perm (e := wm.layerToPut obj layerId) hin).map
        fun e : LayerElm => e.id
      refine hperm.nodup_iff.mpr (List.nodup_cons.mpr ⟨?_, hpop⟩)
      change (wm.layerToPut obj layerId).id ∉ ids (layersOf (popLayer wm.screenHead layerId).2)
      rw [layerToPut_id, layersOf_popLayer, ids_eraseP]
      exact h.layers.not_mem_erase
    · rwa [updateScreen_insertLayer_of_not hin]
  surfaces := by
    intro x hx
    rw [screenHead_putLayer, mem_layersOf_insertLayer] at hx
    rcases hx with ⟨-, rfl⟩ | hx
    · exact h.layerToPut_surfaces obj layerId
    · exact h.surfaces x ((mem_layersOf_popLayer h.layers).mp hx).1
  records := by
    rw [Wm.recordIds, surfacePropertiesHead_putLayer]
    exact h.records

/-- A write to one layer that keeps its surface ids apart. -/
theorem surfaces_updateLayer (h : Unique wm) {layerElm : Id} {f : LayerElm → LayerElm}
    (hf : ∀ e, getLayer wm.screenHead layerElm = some e → (ids (f e).listHead).Nodup) :
    ∀ x ∈ layersOf (updateLayer wm.screenHead layerElm f), (ids x.listHead).Nodup := by
  intro x hx
  rw [layersOf_updateLayer, updateFirst_eq_map h.layers] at hx
  obtain ⟨e, he, rfl⟩ := List.mem_map.mp hx
  split
  · rename_i hid
    exact hf e (h.getLayer_iff.mpr ⟨he, hid⟩)
  · exact h.surfaces e he

theorem putSurface (h : Unique wm) {layerElm surfaceId : Id} {obj : Json} {info : InsertInfo} :
    Unique ((Call.putSurface layerElm obj surfaceId info).layout wm) := by
  cases hput : wm.surfaceToPut layerElm obj surfaceId with
  | none =>
    simp only [Call.layout, hput]
    exact h
  | some prop =>
    refine ⟨?_, ?_, ?_, ?_⟩
    · rw [Wm.screenIds, screenHead_putSurface hput, ids_updateLayer]
      exact h.screens
    · rw [layerIds_putSurface]
      exact h.layers
    · rw [screenHead_putSurface hput]
      exact h.surfaces_updateLayer fun e he => nodup_reinsert (h.surfaces_of_getLayer he)
    · rw [Wm.recordIds, surfacePropertiesHead_putSurface hput]
      split
      · rw [ids_updateSurfaceProperties]
        exact h.records
      · exact nodup_addSurfaceProperties h.records

theorem removeLayer (h : Unique wm) {layerId : Id} :
    Unique ((Call.removeLayer layerId).layout wm) := by
  refine ⟨?_, ?_, ?_, ?_⟩
  · rw [Wm.screenIds, screenHead_removeLayer, ids_popLayer]
    exact h.screens
  · rw [Wm.layerIds, screenHead_removeLayer, layersOf_popLayer]
    exact nodup_eraseP_key h.layers
  · rw [screenHead_removeLayer]
    intro x hx
    exact h.surfaces x ((mem_layersOf_popLayer h.layers).mp hx).1
  · rw [Wm.recordIds, surfacePropertiesHead_removeLayer]
    split
    · exact h.records
    · exact nodup_removeAllSurface h.records

theorem removeSurface (h : Unique wm) {layerElm surfaceId : Id} :
    Unique ((Call.removeSurface layerElm surfaceId).layout wm) := by
  refine ⟨?_, ?_, ?_, ?_⟩
  · rw [Wm.screenIds, screenHead_removeSurface, ids_updateLayer]
    exact h.screens
  · rw [layerIds_removeSurface]
    exact h.layers
  · rw [screenHead_removeSurface]
    exact h.surfaces_updateLayer fun e he => nodup_dropSurface (h.surfaces_of_getLayer he)
  · rw [Wm.recordIds, surfacePropertiesHead_removeSurface]
    split
    · exact nodup_removeSurfaceProperties h.records
    · exact h.records

theorem modifyLayer (h : Unique wm) {layerId : Id} {obj : Json} :
    Unique ((Call.modifyLayer layerId obj).layout wm) := by
  simp only [Call.layout]
  cases he : getLayer wm.screenHead layerId with
  | none => exact h
  | some e =>
    refine ⟨?_, ?_, ?_, h.records⟩
    · rw [Wm.screenIds, ids_updateLayer]
      exact h.screens
    · rw [Wm.layerIds, ids_layersOf_updateLayer fun _ => by rfl]
      exact h.layers
    · exact h.surfaces_updateLayer fun e' he' => h.surfaces e' (mem_of_getLayer he').1

theorem addScreen (h : Unique wm) {screenId : Id} (hnew : screenId ∉ wm.screenIds) :
    Unique (UhmiIviWm.addScreen wm screenId) where
  screens := by
    rw [Wm.screenIds, screenHead_addScreen, ids_append, List.nodup_append]
    refine ⟨h.screens, List.nodup_singleton _, fun a ha b hb => ?_⟩
    rw [List.mem_singleton.mp hb]
    rintro rfl
    exact hnew ha
  layers := by
    rw [Wm.layerIds, layersOf_addScreen]
    exact h.layers
  surfaces := by
    rw [layersOf_addScreen]
    exact h.surfaces
  records := h.records

/-- Every call keeps ids unique, `add_screen` where the screen is new. -/
theorem call (h : Unique wm) {call : Call}
    (hfresh : ∀ screenId, call = .addScreen screenId → screenId ∉ wm.screenIds) :
    Unique (call.layout wm) := by
  cases call with
  | putLayer => exact h.putLayer
  | putSurface => exact h.putSurface
  | removeLayer => exact h.removeLayer
  | removeSurface => exact h.removeSurface
  | modifyLayer => exact h.modifyLayer
  | modifySurface surfaceId obj =>
    simp only [Call.layout]
    split
    · exact h
    · refine ⟨h.screens, h.layers, h.surfaces, ?_⟩
      rw [Wm.recordIds, ids_updateSurfaceProperties]
      exact h.records
  | removeAll =>
    exact ⟨List.nodup_nil, List.nodup_nil, (fun _ he => by cases he), nodup_removeAll h.records⟩
  | openScreen screenId =>
    simp only [Call.layout]
    cases hget : getListElement wm.screenHead screenId with
    | none => exact h.addScreen (getListElement_eq_none.mp hget)
    | some e => exact h
  | addScreen screenId => exact h.addScreen (hfresh screenId rfl)
  | pushScreen | pushLayer | findScreen | askScreenIds | place | register | setCallback => exact h

end Unique

/-! ## Lookups after a call -/

section Lookups

variable {screenElm layerElm layerId surfaceId : Id} {obj : Json} {info : InsertInfo}

theorem Unique.getLayer_putLayer (h : Unique wm) (l : Id) :
    getLayer ((Call.putLayer screenElm obj layerId info).layout wm).screenHead l =
      if l = layerId then
        if Inserts wm.screenHead screenElm info then some (wm.layerToPut obj layerId) else none
      else getLayer wm.screenHead l := by
  ext x
  rw [(h.putLayer).getLayer_iff, screenHead_putLayer, mem_layersOf_insertLayer,
    mem_layersOf_popLayer h.layers, inserts_popLayer]
  by_cases hl : l = layerId
  · subst hl
    by_cases hin : Inserts wm.screenHead screenElm info
    · simp only [hin, true_and, if_true, Option.some.injEq]
      constructor
      · rintro ⟨rfl | ⟨-, hne⟩, hid⟩
        · rfl
        · exact absurd hid hne
      · rintro rfl
        exact ⟨.inl rfl, layerToPut_id wm obj l⟩
    · simp only [hin, false_and, false_or, if_true, if_false]
      constructor
      · rintro ⟨⟨-, hne⟩, hid⟩
        exact absurd hid hne
      · exact fun hx => nomatch hx
  · rw [if_neg hl, h.getLayer_iff]
    constructor
    · rintro ⟨⟨-, rfl⟩ | ⟨hx, -⟩, hid⟩
      · exact absurd ((layerToPut_id wm obj layerId).symm.trans hid).symm hl
      · exact ⟨hx, hid⟩
    · rintro ⟨hx, rfl⟩
      exact ⟨.inr ⟨hx, hl⟩, rfl⟩

theorem Unique.getLayer_removeLayer (h : Unique wm) (l : Id) :
    getLayer ((Call.removeLayer layerId).layout wm).screenHead l =
      if l = layerId then none else getLayer wm.screenHead l := by
  ext x
  rw [(h.removeLayer).getLayer_iff, screenHead_removeLayer, mem_layersOf_popLayer h.layers]
  by_cases hl : l = layerId
  · subst hl
    simp only [if_true]
    constructor
    · rintro ⟨⟨-, hne⟩, hid⟩
      exact absurd hid hne
    · exact fun hx => nomatch hx
  · rw [if_neg hl, h.getLayer_iff]
    constructor
    · rintro ⟨⟨hx, -⟩, hid⟩
      exact ⟨hx, hid⟩
    · rintro ⟨hx, rfl⟩
      exact ⟨⟨hx, hl⟩, rfl⟩

theorem getLayer_putSurface {prop : SurfaceProperties}
    (hput : wm.surfaceToPut layerElm obj surfaceId = some prop) (l : Id) :
    getLayer ((Call.putSurface layerElm obj surfaceId info).layout wm).screenHead l =
      if l = layerElm then (getLayer wm.screenHead l).map (reinsert surfaceId info)
      else getLayer wm.screenHead l := by
  rw [screenHead_putSurface hput]
  exact getLayer_updateLayer (reinsert_id surfaceId info) l

theorem getLayer_removeSurface (l : Id) :
    getLayer ((Call.removeSurface layerElm surfaceId).layout wm).screenHead l =
      if l = layerElm then (getLayer wm.screenHead l).map (dropSurface surfaceId)
      else getLayer wm.screenHead l := by
  rw [screenHead_removeSurface]
  exact getLayer_updateLayer (dropSurface_id surfaceId) l

theorem getLayer_modifyLayer {e : LayerElm} (he : getLayer wm.screenHead layerId = some e)
    (l : Id) :
    getLayer ((Call.modifyLayer layerId obj).layout wm).screenHead l =
      if l = layerId then
        some { e with prop := (parseLayerProperties e.prop (some obj) .mod).2 }
      else getLayer wm.screenHead l := by
  simp only [Call.layout, he]
  rw [getLayer_updateLayer fun _ => by rfl]
  split
  · rename_i hl
    rw [hl, he]
    rfl
  · rfl

theorem getLayer_addScreen (screenId l : Id) :
    getLayer (addScreen wm screenId).screenHead l = getLayer wm.screenHead l := by
  rw [getLayer_eq_find?, getLayer_eq_find?, layersOf_addScreen]

end Lookups

/-! ## The screens after a call -/

/-- Takes a layer off a screen. -/
def dropLayer (layerId : Id) (s : ScreenElm) : ScreenElm :=
  { s with listHead := s.listHead.filter (·.id != layerId) }

theorem ids_dropLayer (layerId : Id) (s : ScreenElm) :
    ids (dropLayer layerId s).listHead = (ids s.listHead).filter (· ≠ layerId) := by
  rw [dropLayer, ids, ids, List.filter_map]
  refine congrArg _ (List.filter_congr fun e _ => ?_)
  exact Bool.eq_iff_iff.mpr (by simp)

theorem mem_ids_dropLayer {layerId x : Id} {s : ScreenElm} :
    x ∈ ids (dropLayer layerId s).listHead ↔ x ∈ ids s.listHead ∧ x ≠ layerId := by
  rw [ids_dropLayer, List.mem_filter, decide_eq_true_iff]

/-- Takes the layers of a batch off a screen. -/
def dropLayers (batch : List Id) (s : ScreenElm) : ScreenElm :=
  { s with listHead := s.listHead.filter (·.id ∉ batch) }

theorem dropLayers_cons (layerId : Id) (batch : List Id) (s : ScreenElm) :
    dropLayers (layerId :: batch) s = dropLayers batch (dropLayer layerId s) := by
  rw [dropLayers, dropLayers, dropLayer, List.filter_filter]
  have hpred : ∀ e ∈ s.listHead, decide (e.id ∉ layerId :: batch) =
      (decide (e.id ∉ batch) && e.id != layerId) := by
    intro e _
    rw [Bool.eq_iff_iff]
    simp [and_comm]
  rw [List.filter_congr hpred]

/-- What a put of layer `e` on screen `screenElm` makes of a screen. -/
def putInto (screenElm : Id) (e : LayerElm) (info : InsertInfo) (s : ScreenElm) : ScreenElm :=
  if s.id = screenElm then insertLayer e info (dropLayer e.id s) else dropLayer e.id s

theorem putInto_id (screenElm : Id) (e : LayerElm) (info : InsertInfo) (s : ScreenElm) :
    (putInto screenElm e info s).id = s.id := by
  unfold putInto
  split <;> rfl

theorem Unique.screenHead_removeLayer_eq_map (h : Unique wm) {layerId : Id} :
    ((Call.removeLayer layerId).layout wm).screenHead = wm.screenHead.map (dropLayer layerId) := by
  rw [screenHead_removeLayer, popLayer_eq_map h.layers]
  rfl

theorem screenHead_putLayer_eq_map (hs : wm.screenIds.Nodup) (hl : wm.layerIds.Nodup)
    {screenElm layerId : Id} {obj : Json} {info : InsertInfo} :
    ((Call.putLayer screenElm obj layerId info).layout wm).screenHead =
      wm.screenHead.map (putInto screenElm (wm.layerToPut obj layerId) info) := by
  have hids : (ids (popLayer wm.screenHead layerId).2).Nodup := by
    rw [ids_popLayer]
    exact hs
  rw [screenHead_putLayer, updateScreen_eq_map hids, popLayer_eq_map hl, List.map_map]
  refine List.map_congr_left fun s _ => ?_
  rw [putInto, layerToPut_id]
  rfl

theorem Unique.screenHead_putLayer_eq_map (h : Unique wm) {screenElm layerId : Id} {obj : Json}
    {info : InsertInfo} :
    ((Call.putLayer screenElm obj layerId info).layout wm).screenHead =
      wm.screenHead.map (putInto screenElm (wm.layerToPut obj layerId) info) :=
  UhmiIviWm.screenHead_putLayer_eq_map h.screens h.layers

/-! ## Runs -/

/-- `ilm_getScreenIDs` delivers distinct ids. -/
def DistinctScreenIds (ilm : Ilm σ) : Prop :=
  ∀ c screenIds, (ilm.getScreenIDs c).1 = some screenIds → screenIds.Nodup

/-- `add_screen` is called for a screen that is not in the tree. -/
def FreshScreen (w : World σ) (call : Call) : Prop :=
  ∀ screenId, call = .addScreen screenId → screenId ∉ w.wm.screenIds

theorem FreshScreen.of_document {w : World σ} {call : Call} (h : call.ofDocument) :
    FreshScreen w call := by
  rintro screenId rfl
  exact h.elim

theorem FreshScreen.of_event {e : Event} {w w' : World σ} {call : Call}
    (h : call ∈ e.calls ilm w) : FreshScreen w' call :=
  fun screenId hcall => absurd hcall (Event.calls_ne_addScreen h screenId)

theorem atEach_freshScreen (e : Event) (w : World σ) :
    AtEach (Call.sem ilm) (fun w call _ => FreshScreen w call) (e.calls ilm w) w :=
  .of_forall (fun _ hcall _ _ => .of_event hcall) w

theorem freshScreen_addScreens {screenArray : List Id} (nd : screenArray.Nodup) {w : World σ}
    (hnew : ∀ screenId ∈ screenArray, screenId ∉ w.wm.screenIds) :
    AtEach (Call.sem ilm) (fun w call _ => FreshScreen w call) (screenArray.map .addScreen) w := by
  induction screenArray generalizing w with
  | nil => trivial
  | cons screenId rest ih =>
    rw [List.nodup_cons] at nd
    refine ⟨?_, ih nd.2 fun x hx => ?_⟩
    · rintro _ ⟨⟩
      exact hnew screenId List.mem_cons_self
    · have hids : ((addScreen w.wm screenId).screenIds) = w.wm.screenIds ++ [screenId] :=
        ids_append _ _
      change x ∉ (addScreen w.wm screenId).screenIds
      rw [hids, List.mem_append, List.mem_singleton]
      rintro (hmem | rfl)
      · exact hnew x (List.mem_cons_of_mem screenId hx) hmem
      · exact nd.1 hx

/-- `parser_init` adds screens blindly only to an empty tree. -/
theorem freshScreen_documents (hids : DistinctScreenIds ilm) :
    AtDocuments ilm fun w call _ => FreshScreen w call where
  grows := .of_state
  plain := by
    rintro w call _ hplain screenId rfl
    cases hplain
  screen := fun screenJobj _ w _ _ =>
    .of_forall (fun call hcall _ _ => .of_document (ofDocument_of_mem hcall)) w
  default := by
    intro w w' hempty hask
    refine freshScreen_addScreens ?_ fun screenId _ => ?_
    · cases hscreens : (ilm.getScreenIDs w.ilm).1 with
      | none => exact List.nodup_nil
      | some screenIds => exact hids w.ilm screenIds hscreens
    · rw [Wm.screenIds, (Call.sem_eq_ok.mp hask).2]
      change screenId ∉ ids w.wm.screenHead
      rw [hempty]
      exact List.not_mem_nil

theorem unique_of_run {set : Setting σ} {G : Action → World σ → Prop}
    (hids : DistinctScreenIds ilm) {w : World σ} (h : (daemon ilm set).Run G w) :
    Unique w.wm := by
  refine run_invariant (P := fun w => Unique w.wm) (G := FreshScreen) (fun boot w _ => ?_)
    (fun e w _ _ => ?_) ?_ ?_ h
  · exact ⟨Unique.empty w.wm.uninit, (freshScreen_documents hids).boot boot w⟩
  · exact atEach_freshScreen e w
  · intro call w w' hw hfresh hs
    rw [(Call.sem_eq_ok.mp hs).2]
    exact hw.call hfresh
  · exact fun _ _ hw _ _ => hw

theorem Compositor.distinctScreenIds (strict : Bool) :
    DistinctScreenIds (Compositor.ilm strict) := by
  rintro c screenIds ⟨⟩
  exact c.screens.nodup_dedup

/-- Screens, layers and records have their ids once, and a layer its surfaces, whatever messages
have been handled, also those that failed. -/
theorem ids_unique {set : Setting σ} (hids : DistinctScreenIds ilm) {w : World σ}
    (h : (daemon ilm set).Reachable w) :
    (ids w.wm.screenHead).Nodup ∧
      (ids (w.wm.screenHead.flatMap (·.listHead))).Nodup ∧
      (∀ s ∈ w.wm.screenHead, ∀ e ∈ s.listHead, (ids e.listHead).Nodup) ∧
      (ids w.wm.surfacePropertiesHead).Nodup := by
  have hu := unique_of_run hids h
  refine ⟨hu.screens, hu.layers, fun s hs e he => ?_, hu.records⟩
  exact hu.surfaces e (mem_layersOf.mpr ⟨s, hs, he⟩)

/-- On the default configuration, layer 3000 is put on one screen and then on the
other. -/
def movedLayer : Except Abort (World Compositor) :=
  execute (Compositor.ilm false) ⟨"host", none⟩
    [message "add_layer" "screens" [screenObject 0 "append" [layerObject 3000 []]],
      message "add_layer" "screens" [screenObject 1 "append" [layerObject 3000 []]]]
    (World.fresh [0, 1])

theorem ids_unique_movedLayer :
    ∃ w : World Compositor, movedLayer = .ok w ∧
      (ids w.wm.screenHead).Nodup ∧
      (ids (w.wm.screenHead.flatMap (·.listHead))).Nodup ∧
      (∀ s ∈ w.wm.screenHead, ∀ e ∈ s.listHead, (ids e.listHead).Nodup) ∧
      (ids w.wm.surfacePropertiesHead).Nodup := by
  have hok : movedLayer.isOk = true := by decide +kernel
  obtain ⟨w, hw⟩ := exists_ok hok
  have hreach : (daemon (Compositor.ilm false)
      ⟨fun _ w => w = World.fresh [0, 1], fun _ _ => False⟩).Reachable w :=
    reachable_of_execute rfl hw
  exact ⟨w, hw, ids_unique (Compositor.distinctScreenIds false) hreach⟩

end UhmiIviWm
