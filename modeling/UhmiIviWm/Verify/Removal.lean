import UhmiIviWm.Verify.Documents
import UhmiIviWm.Verify.Unique

/-!
# Removal in batches

Each removal gives up references on records of the store, one after the other.
How many a record loses is all that matters (`releaseAll`), and how many that is
depends on which elements a batch names, not on how often or in which order.
-/

namespace UhmiIviWm

open Lib Lib.CallPlan Lib.KeyedList

/-! ## References given up -/

/-- `n` references given up on one record. -/
def releaseTimes : Nat → SurfaceProperties → Option SurfaceProperties
  | 0, prop => some prop
  | n + 1, prop => (release prop).bind (releaseTimes n)

/-- A reference given up for each occurrence of a surface. -/
def releaseAll (surfaces : List Id) (store : List SurfacePropertiesElm) :
    List SurfacePropertiesElm :=
  store.filterMap fun e =>
    (releaseTimes (surfaces.count e.id) e.prop).map fun prop => { e with prop }

section Release

variable {store : List SurfacePropertiesElm}

theorem releaseTimes_add (m n : Nat) (prop : SurfaceProperties) :
    releaseTimes (m + n) prop = (releaseTimes m prop).bind (releaseTimes n) := by
  induction m generalizing prop with
  | zero => rw [Nat.zero_add, releaseTimes, Option.bind_some]
  | succ m ih =>
    rw [Nat.succ_add, releaseTimes, releaseTimes, Option.bind_assoc]
    exact congrArg _ (funext ih)

theorem releaseAll_nil (store : List SurfacePropertiesElm) : releaseAll [] store = store :=
  List.filterMap_some

theorem releaseAll_append (surfaces surfaces' : List Id) (store : List SurfacePropertiesElm) :
    releaseAll (surfaces ++ surfaces') store =
      releaseAll surfaces' (releaseAll surfaces store) := by
  rw [releaseAll, releaseAll, releaseAll, List.filterMap_filterMap]
  refine List.filterMap_congr fun e _ => ?_
  rw [List.count_append, releaseTimes_add, Option.bind_map]
  cases releaseTimes (surfaces.count e.id) e.prop <;> rfl

/-- Only the number of occurrences matters. -/
theorem releaseAll_perm {surfaces surfaces' : List Id} (h : surfaces.Perm surfaces')
    (store : List SurfacePropertiesElm) : releaseAll surfaces store = releaseAll surfaces' store :=
  List.filterMap_congr fun e _ => by rw [h.count_eq e.id]

theorem removeSurfaceProperties_eq_releaseAll (nd : (ids store).Nodup) (surfaceId : Id) :
    removeSurfaceProperties store surfaceId = releaseAll [surfaceId] store := by
  have hother : ∀ e : SurfacePropertiesElm, e.id ≠ surfaceId →
      (releaseTimes ([surfaceId].count e.id) e.prop).map (fun prop => { e with prop }) =
        some e := by
    intro e hid
    rw [List.count_singleton, if_neg (by simpa using Ne.symm hid)]
    rfl
  have hself : ∀ e ∈ store, e.id = surfaceId →
      releaseTimes ([surfaceId].count e.id) e.prop = (record store surfaceId).bind release := by
    intro e he hid
    have hrecord : record store surfaceId = some e.prop := by
      rw [record, (getListElement_eq_some nd).mpr ⟨he, hid⟩, Option.map_some]
    rw [hid, List.count_singleton_self, hrecord, Option.bind_some, releaseTimes]
    cases release e.prop <;> rfl
  rw [removeSurfaceProperties_eq, releaseAll]
  cases hrelease : (record store surfaceId).bind release with
  | none =>
    dsimp only
    rw [eraseP_key_eq_filter nd, ← List.filterMap_eq_filter]
    refine List.filterMap_congr fun e he => ?_
    by_cases hid : e.id = surfaceId
    · rw [hself e he hid, hrelease, Option.guard_eq_none_iff.mpr (by simpa using hid),
        Option.map_none]
    · rw [hother e hid, Option.guard_pos (by simpa using hid)]
  | some prop =>
    dsimp only
    have hmap : updateSurfaceProperties store surfaceId prop =
        store.map fun e => if e.id = surfaceId then { e with prop } else e := updateFirst_eq_map nd
    rw [hmap, ← List.filterMap_eq_map]
    refine List.filterMap_congr fun e he => ?_
    rw [Function.comp_apply]
    by_cases hid : e.id = surfaceId
    · rw [hself e he hid, hrelease, if_pos hid, Option.map_some]
    · rw [hother e hid, if_neg hid]

theorem foldl_removeSurfaceProperties (nd : (ids store).Nodup) (surfaces : List Id) :
    surfaces.foldl removeSurfaceProperties store = releaseAll surfaces store := by
  induction surfaces generalizing store with
  | nil => exact (releaseAll_nil store).symm
  | cons surfaceId surfaces ih =>
    rw [List.foldl_cons, ih (nodup_removeSurfaceProperties nd),
      removeSurfaceProperties_eq_releaseAll nd, ← releaseAll_append]
    rfl

theorem removeAllSurface_eq_releaseAll (nd : (ids store).Nodup) (e : LayerElm) :
    removeAllSurface store e = releaseAll (ids e.listHead) store := by
  rw [← foldl_removeSurfaceProperties nd, ids, List.foldl_map]
  rfl

end Release

/-! ## Batches -/

/-- Takes the surfaces of a batch out of a layer. -/
def dropSurfaces (batch : List Id) (e : LayerElm) : LayerElm :=
  { e with listHead := e.listHead.filter (·.id ∉ batch) }

section Batches

variable {wm : Wm}

theorem dropSurfaces_cons {e : LayerElm} (nd : (ids e.listHead).Nodup) (surfaceId : Id)
    (batch : List Id) :
    dropSurfaces (surfaceId :: batch) e = dropSurfaces batch (dropSurface surfaceId e) := by
  rw [dropSurfaces, dropSurfaces, dropSurface, eraseP_key_eq_filter nd, List.filter_filter]
  have hpred : ∀ x ∈ e.listHead, decide (x.id ∉ surfaceId :: batch) =
      (decide (x.id ∉ batch) && x.id != surfaceId) := by
    intro x _
    rw [Bool.eq_iff_iff]
    simp [and_comm]
  rw [List.filter_congr hpred]

/-- The surfaces of the layers a batch names, as often as these layers list them. -/
def surfacesOfLayers (batch : List Id) (layers : List LayerElm) : List Id :=
  (layers.filter (·.id ∈ batch)).flatMap fun e => ids e.listHead

/-- A name more takes the surfaces of its layer along. -/
theorem surfacesOfLayers_cons {layers : List LayerElm} (nd : (ids layers).Nodup) (layerId : Id)
    (batch : List Id) :
    (surfacesOfLayers (layerId :: batch) layers).Perm
      ((match layers.find? (·.id == layerId) with
        | none => []
        | some e => ids e.listHead) ++
        surfacesOfLayers batch (layers.eraseP (·.id == layerId))) := by
  -- in what is left, the name no longer counts
  have hrest : surfacesOfLayers (layerId :: batch) (layers.eraseP (·.id == layerId)) =
      surfacesOfLayers batch (layers.eraseP (·.id == layerId)) := by
    refine congrArg (List.flatMap _) (List.filter_congr fun e he => ?_)
    have hne : e.id ≠ layerId := ((mem_eraseP_key nd).mp he).2
    simp only [List.mem_cons, hne, false_or]
  rw [← hrest]
  cases hfind : layers.find? (·.id == layerId) with
  | none =>
    rw [eraseP_key_of_find?_none hfind]
    exact .refl _
  | some e =>
    have hid : e.id = layerId := (mem_of_find?_key hfind).2
    have hperm := ((perm_cons_eraseP hfind).filter
      (fun e : LayerElm => decide (e.id ∈ layerId :: batch))).flatMap_right
        (fun e : LayerElm => ids e.listHead)
    rwa [List.filter_cons_of_pos (by simp [hid]), List.flatMap_cons] at hperm

theorem removeLayers_layout (hu : Unique wm) (batch : List Id) :
    let wm' := (batch.map Call.removeLayer).foldl (fun wm call => call.layout wm) wm
    wm'.screenHead = wm.screenHead.map (dropLayers batch) ∧
      wm'.surfacePropertiesHead =
        releaseAll (surfacesOfLayers batch (layersOf wm.screenHead)) wm.surfacePropertiesHead := by
  induction batch generalizing wm with
  | nil =>
    have hkeep : ∀ s : ScreenElm, dropLayers [] s = s := by
      intro s
      rw [dropLayers, List.filter_eq_self.mpr fun e _ => by simp]
    have hnone : surfacesOfLayers [] (layersOf wm.screenHead) = [] := by
      rw [surfacesOfLayers, List.filter_eq_nil_iff.mpr fun e _ => by simp]
      rfl
    refine ⟨?_, ?_⟩
    · exact ((List.map_congr_left fun s _ => hkeep s).trans (List.map_id' _)).symm
    · rw [hnone, releaseAll_nil]
      rfl
  | cons layerId batch ih =>
    have hremove : Unique ((Call.removeLayer layerId).layout wm) := hu.removeLayer
    obtain ⟨htree, hstore⟩ := ih hremove
    refine ⟨htree.trans ?_, hstore.trans ?_⟩
    · rw [hu.screenHead_removeLayer_eq_map, List.map_map]
      exact List.map_congr_left fun s _ => (dropLayers_cons layerId batch s).symm
    · rw [screenHead_removeLayer, layersOf_popLayer, surfacePropertiesHead_removeLayer,
        releaseAll_perm (surfacesOfLayers_cons hu.layers layerId batch), releaseAll_append,
        getLayer_eq_find?]
      cases (layersOf wm.screenHead).find? (·.id == layerId) with
      | none =>
        dsimp only
        rw [releaseAll_nil]
      | some e =>
        dsimp only
        rw [removeAllSurface_eq_releaseAll hu.records]

theorem removeSurfaces_layout (hu : Unique wm) {layerElm : Id} {e : LayerElm}
    (he : getLayer wm.screenHead layerElm = some e) (batch : List Id) :
    let wm' := (batch.map (Call.removeSurface layerElm)).foldl (fun wm call => call.layout wm) wm
    wm'.screenHead =
        mapLayers (fun e => if e.id = layerElm then dropSurfaces batch e else e) wm.screenHead ∧
      wm'.surfacePropertiesHead =
        releaseAll ((ids e.listHead).filter (· ∈ batch)) wm.surfacePropertiesHead := by
  induction batch generalizing wm e with
  | nil =>
    have hkeep : ∀ e : LayerElm, (if e.id = layerElm then dropSurfaces [] e else e) = e := by
      intro e
      rw [dropSurfaces, List.filter_eq_self.mpr fun e _ => by simp, ite_self]
    refine ⟨?_, ?_⟩
    · exact ((mapLayers_congr fun e _ => hkeep e).trans (mapLayers_id _)).symm
    · rw [List.filter_eq_nil_iff.mpr fun s _ => by simp, releaseAll_nil]
      rfl
  | cons surfaceId batch ih =>
    have hnd : (ids e.listHead).Nodup := hu.surfaces_of_getLayer he
    have he' : getLayer ((Call.removeSurface layerElm surfaceId).layout wm).screenHead layerElm =
        some (dropSurface surfaceId e) := by
      rw [getLayer_removeSurface, if_pos rfl, he, Option.map_some]
    obtain ⟨htree, hstore⟩ := ih hu.removeSurface he'
    refine ⟨htree.trans ?_, hstore.trans ?_⟩
    · rw [screenHead_removeSurface, updateLayer_eq_mapLayers hu.layers, mapLayers_mapLayers]
      refine mapLayers_congr fun x hx => ?_
      by_cases hid : x.id = layerElm
      · rw [if_pos hid, if_pos hid, dropSurface_id, if_pos hid,
          dropSurfaces_cons (hu.surfaces x hx)]
      · rw [if_neg hid, if_neg hid, if_neg hid]
    · have hids : ids (dropSurface surfaceId e).listHead = (ids e.listHead).erase surfaceId :=
        ids_eraseP
      have hrest : ((ids e.listHead).erase surfaceId).filter (· ∈ surfaceId :: batch) =
          ((ids e.listHead).erase surfaceId).filter (· ∈ batch) := by
        refine List.filter_congr fun x hx => ?_
        have hne : x ≠ surfaceId := (hnd.mem_erase_iff.mp hx).1
        simp only [List.mem_cons, hne, false_or]
      rw [hids, surfacePropertiesHead_removeSurface, ← hrest]
      by_cases hmem : surfaceId ∈ ids e.listHead
      · have hperm := (List.perm_cons_erase hmem).filter
          (fun x : Id => decide (x ∈ surfaceId :: batch))
        rw [List.filter_cons_of_pos (by simp)] at hperm
        rw [if_pos (getSurface_isSome.mpr ⟨e, he, hmem⟩), releaseAll_perm hperm,
          removeSurfaceProperties_eq_releaseAll hu.records, ← releaseAll_append]
        rfl
      · rw [if_neg, List.erase_of_not_mem hmem]
        rw [getSurface_isSome]
        rintro ⟨e', he', hmem'⟩
        cases he.symm.trans he'
        exact hmem hmem'

end Batches

/-! ## The commands -/

section Commands

variable {wm : Wm} {msg : Option Json}

theorem planRemoveLayer_calls {layerAry : List Json} (harray : parseLayers msg = some layerAry)
    (hids : ∀ obj ∈ layerAry, hasId obj = true) :
    (planRemoveLayer msg).calls = (layerAry.map idOf).map .removeLayer := by
  unfold planRemoveLayer
  rw [harray]
  rw [List.map_map]
  exact congrArg Plan.calls (forEach_parseId_of_all hids fun layerId _ => .removeLayer layerId)

/-- A `remove_surface` command for one layer of the tree. -/
theorem planRemoveSurface_calls {layerJobj : Json} {layerId : Id} {surfaceAry : List Json}
    (harray : parseLayers msg = some [layerJobj]) (hid : parseId (some layerJobj) = some layerId)
    (hlayer : layerId ∈ wm.layerIds) (hsurfaces : parseSurfaces (some layerJobj) = some surfaceAry)
    (hids : ∀ obj ∈ surfaceAry, hasId obj = true) :
    (planRemoveSurface wm msg).calls = (surfaceAry.map idOf).map (.removeSurface layerId) := by
  have hone : planRemoveSurfaceLayer wm layerJobj =
      ⟨surfaceAry.map fun obj => .removeSurface layerId (idOf obj), .ok 0⟩ := by
    unfold planRemoveSurfaceLayer
    rw [hid]
    dsimp only
    rw [getLayer_isSome.mpr hlayer, hsurfaces]
    dsimp only
    exact forEach_parseId_of_all hids fun surfaceId _ => .removeSurface layerId surfaceId
  unfold planRemoveSurface
  rw [harray]
  dsimp only
  rw [forEach, hone, Plan.bind_of_ok rfl, List.map_map]
  exact List.append_nil _

/-- It makes no call where the layer is not there. -/
theorem planRemoveSurface_noLayer {layerJobj : Json} {layerId : Id}
    (harray : parseLayers msg = some [layerJobj]) (hid : parseId (some layerJobj) = some layerId)
    (hlayer : getLayer wm.screenHead layerId = none) : (planRemoveSurface wm msg).calls = [] := by
  have hone : planRemoveSurfaceLayer wm layerJobj = ⟨[], .ok 0⟩ := by
    unfold planRemoveSurfaceLayer
    rw [hid]
    dsimp only
    rw [hlayer]
    rfl
  unfold planRemoveSurface
  rw [harray]
  dsimp only
  rw [forEach, hone, Plan.bind_of_ok rfl]
  rfl

end Commands

/-- A `remove_layer` command whose objects all have integers as ids. -/
structure RemovesLayers (msg : Option Json) (batch : List Int64) : Prop where
  command : commandOf msg = some .removeLayer
  batch : ∃ layerAry, parseLayers msg = some layerAry ∧ HaveIntegers layerAry batch

/-- A `remove_surface` command for one layer, whose surface objects all have integers as ids. -/
structure RemovesSurfaces (msg : Option Json) (layerId : Int64) (batch : List Int64) : Prop where
  command : commandOf msg = some .removeSurface
  batch : ∃ layerJobj surfaceAry, parseLayers msg = some [layerJobj] ∧
    integerAt layerJobj jsonKeyId = some layerId ∧
    parseSurfaces (some layerJobj) = some surfaceAry ∧ HaveIntegers surfaceAry batch

section Outcome

variable {σ : Type} {ilm : Ilm σ} {msg : Option Json} {batch : List Int64}

theorem removesLayers_layout (h : RemovesLayers msg batch) {w w' : World σ} (hu : Unique w.wm)
    (hw : (Event.message msg).handle ilm w = .ok ((), w')) :
    w'.wm.screenHead = w.wm.screenHead.map (dropLayers (batch.map low32)) ∧
      w'.wm.surfacePropertiesHead =
        releaseAll (surfacesOfLayers (batch.map low32) (layersOf w.wm.screenHead))
          w.wm.surfacePropertiesHead := by
  obtain ⟨layerAry, harray, hbatch⟩ := h.batch
  have hcalls := planRemoveLayer_calls harray hbatch.haveIds.hasId
  rw [hbatch.haveIds.map_idOf] at hcalls
  have hlayout := removeLayers_layout hu (batch.map low32)
  rw [← hcalls] at hlayout
  rwa [wm_of_message h.command hw]

theorem removesSurfaces_layout {layerId : Int64} (h : RemovesSurfaces msg layerId batch)
    {w w' : World σ} (hu : Unique w.wm) (hw : (Event.message msg).handle ilm w = .ok ((), w')) :
    w'.wm.screenHead = mapLayers (fun e =>
        if e.id = low32 layerId then dropSurfaces (batch.map low32) e else e) w.wm.screenHead ∧
      w'.wm.surfacePropertiesHead = match getLayer w.wm.screenHead (low32 layerId) with
        | none => w.wm.surfacePropertiesHead
        | some e => releaseAll ((ids e.listHead).filter (· ∈ batch.map low32))
            w.wm.surfacePropertiesHead := by
  obtain ⟨layerJobj, surfaceAry, harray, hid, hsurfaces, hbatch⟩ := h.batch
  have hparse : parseId (some layerJobj) = some (low32 layerId) :=
    getJsonIntegerValue_of_integerAt hid
  have hwm := wm_of_message h.command hw
  cases he : getLayer w.wm.screenHead (low32 layerId) with
  | none =>
    have hcalls : (planRemoveSurface w.wm msg).calls = [] :=
      planRemoveSurface_noLayer harray hparse he
    have hsame : w'.wm = w.wm := hwm.trans (congrArg (List.foldl _ w.wm) hcalls)
    have hkeep : ∀ e ∈ layersOf w.wm.screenHead,
        (if e.id = low32 layerId then dropSurfaces (batch.map low32) e else e) = e := by
      intro e hmem
      refine if_neg fun heq => getLayer_eq_none.mp he ?_
      exact heq ▸ mem_ids_of_mem hmem
    rw [hsame, mapLayers_congr hkeep, mapLayers_id]
    exact ⟨rfl, rfl⟩
  | some e =>
    have hmem : low32 layerId ∈ w.wm.layerIds := by
      rw [Wm.layerIds, ← getLayer_isSome, he]
      rfl
    have hcalls := planRemoveSurface_calls harray hparse hmem hsurfaces hbatch.haveIds.hasId
    rw [hbatch.haveIds.map_idOf] at hcalls
    have hlayout := removeSurfaces_layout hu he (batch.map low32)
    rw [← hcalls] at hlayout
    rwa [hwm]

/-! ## What the batch names -/

/-- The screen without the layers whose ids the batch gives. -/
def withoutLayers (batch : List Int64) (s : ScreenElm) : ScreenElm :=
  { s with listHead := s.listHead.filter fun e => ¬ ∃ n ∈ batch, Denotes n e.id }

/-- The layer without the surfaces whose ids the batch gives, if it is the layer meant. -/
def withoutSurfaces (layerId : Int64) (batch : List Int64) (e : LayerElm) : LayerElm :=
  { e with listHead := e.listHead.filter fun s =>
      ¬ (Denotes layerId e.id ∧ ∃ n ∈ batch, Denotes n s.id) }

/-- The layers that are taken out are those the batch gives the ids of. -/
def NamesLayers (wm : Wm) (batch : List Int64) : Prop :=
  ∀ l ∈ wm.layerIds, l ∈ batch.map low32 → ∃ n ∈ batch, Denotes n l

/-- The surfaces that are taken out are in the layer meant, and the batch gives their ids. -/
def NamesSurfaces (wm : Wm) (layerId : Int64) (batch : List Int64) : Prop :=
  ∀ e ∈ layersOf wm.screenHead, e.id = low32 layerId → ∀ s ∈ ids e.listHead,
    s ∈ batch.map low32 → Denotes layerId e.id ∧ ∃ n ∈ batch, Denotes n s

theorem mem_low32_of_denotes {id : Id} (h : ∃ n ∈ batch, Denotes n id) : id ∈ batch.map low32 := by
  obtain ⟨n, hn, hid⟩ := h
  exact List.mem_map.mpr ⟨n, hn, (denotes_iff.mp hid).2⟩

/-- In range, the ids a batch is taken for are those it gives. -/
theorem denotes_of_inRange (h : ∀ n ∈ batch, InRange n) {id : Id} (hid : id ∈ batch.map low32) :
    ∃ n ∈ batch, Denotes n id := by
  obtain ⟨n, hn, rfl⟩ := List.mem_map.mp hid
  exact ⟨n, hn, denotes_iff.mpr ⟨h n hn, rfl⟩⟩

theorem dropLayers_eq_iff {wm : Wm} :
    wm.screenHead.map (dropLayers (batch.map low32)) = wm.screenHead.map (withoutLayers batch) ↔
      NamesLayers wm batch := by
  have hscreen : ∀ s : ScreenElm, dropLayers (batch.map low32) s = withoutLayers batch s ↔
      ∀ e ∈ s.listHead, e.id ∈ batch.map low32 → ∃ n ∈ batch, Denotes n e.id := by
    intro s
    simp only [dropLayers, withoutLayers, ListElement.mk.injEq, true_and]
    exact filter_not_eq_iff fun _ => mem_low32_of_denotes
  rw [List.map_inj_left]
  simp only [hscreen]
  constructor
  · rintro h l hl
    obtain ⟨e, he, rfl⟩ := mem_ids.mp hl
    obtain ⟨s, hs, he⟩ := mem_layersOf.mp he
    exact h s hs e he
  · exact fun h s hs e he => h e.id (mem_ids_of_mem (mem_layersOf.mpr ⟨s, hs, he⟩))

theorem dropSurfaces_eq_iff {wm : Wm} {layerId : Int64} :
    mapLayers (fun e => if e.id = low32 layerId then dropSurfaces (batch.map low32) e else e)
        wm.screenHead = mapLayers (withoutSurfaces layerId batch) wm.screenHead ↔
      NamesSurfaces wm layerId batch := by
  rw [mapLayers_inj]
  refine forall₂_congr fun e _ => ?_
  by_cases hid : e.id = low32 layerId
  · rw [if_pos hid, imp_iff_right hid]
    simp only [dropSurfaces, withoutSurfaces, ListElement.mk.injEq, true_and]
    rw [filter_not_eq_iff fun x h => mem_low32_of_denotes h.2]
    constructor
    · intro h s hs
      obtain ⟨x, hx, rfl⟩ := mem_ids.mp hs
      exact h x hx
    · exact fun h x hx => h x.id (mem_ids_of_mem hx)
  · have hnot : ¬ Denotes layerId e.id := fun h => hid (denotes_iff.mp h).2.symm
    refine iff_of_true ?_ fun h => absurd h hid
    rw [if_neg hid, withoutSurfaces, List.filter_eq_self.mpr fun s _ => by simp [hnot]]

/-- A removal takes out exactly what its batch names where no id of the batch is taken for
another, and the order and the repetitions in a batch never matter. -/
theorem remove_exactly_iff {set : Setting σ} (hids : DistinctScreenIds ilm) {w w' : World σ}
    (hw : (daemon ilm set).Reachable w) (h : (Event.message msg).handle ilm w = .ok ((), w')) :
    (RemovesLayers msg batch →
      ((w'.wm.screenHead = w.wm.screenHead.map (withoutLayers batch) ∧
          ∀ msg' batch' w'', RemovesLayers msg' batch' → (∀ n, n ∈ batch' ↔ n ∈ batch) →
            (Event.message msg').handle ilm w = .ok ((), w'') →
              w''.wm.screenHead = w'.wm.screenHead ∧
                w''.wm.surfacePropertiesHead = w'.wm.surfacePropertiesHead) ↔
        NamesLayers w.wm batch)) ∧
    ∀ layerId, RemovesSurfaces msg layerId batch →
      ((w'.wm.screenHead = mapLayers (withoutSurfaces layerId batch) w.wm.screenHead ∧
          ∀ msg' batch' w'', RemovesSurfaces msg' layerId batch' →
            (∀ n, n ∈ batch' ↔ n ∈ batch) → (Event.message msg').handle ilm w = .ok ((), w'') →
              w''.wm.screenHead = w'.wm.screenHead ∧
                w''.wm.surfacePropertiesHead = w'.wm.surfacePropertiesHead) ↔
        NamesSurfaces w.wm layerId batch) := by
  have hu : Unique w.wm := unique_of_run hids hw
  -- batches with the same integers are taken for the same ids
  have hsame : ∀ batch' : List Int64, (∀ n, n ∈ batch' ↔ n ∈ batch) →
      ∀ id, id ∈ batch'.map low32 ↔ id ∈ batch.map low32 := by
    intro batch' hbatch id
    simp only [List.mem_map, hbatch]
  constructor
  · intro hremoves
    obtain ⟨htree, hstore⟩ := removesLayers_layout hremoves hu h
    rw [htree, hstore, dropLayers_eq_iff]
    refine and_iff_left_of_imp fun _ => ?_
    intro msg' batch' w'' hremoves' hbatch h'
    obtain ⟨htree', hstore'⟩ := removesLayers_layout hremoves' hu h'
    rw [htree', hstore']
    have hdrop : dropLayers (batch'.map low32) = dropLayers (batch.map low32) := by
      funext s
      simp only [dropLayers, hsame batch' hbatch]
    have hsurfaces : surfacesOfLayers (batch'.map low32) (layersOf w.wm.screenHead) =
        surfacesOfLayers (batch.map low32) (layersOf w.wm.screenHead) := by
      simp only [surfacesOfLayers, hsame batch' hbatch]
    exact ⟨by rw [hdrop], by rw [hsurfaces]⟩
  · intro layerId hremoves
    obtain ⟨htree, hstore⟩ := removesSurfaces_layout hremoves hu h
    rw [htree, hstore, dropSurfaces_eq_iff]
    refine and_iff_left_of_imp fun _ => ?_
    intro msg' batch' w'' hremoves' hbatch h'
    obtain ⟨htree', hstore'⟩ := removesSurfaces_layout hremoves' hu h'
    rw [htree', hstore']
    have hdrop : dropSurfaces (batch'.map low32) = dropSurfaces (batch.map low32) := by
      funext e
      simp only [dropSurfaces, hsame batch' hbatch]
    refine ⟨by rw [hdrop], ?_⟩
    cases getLayer w.wm.screenHead (low32 layerId) with
    | none => rfl
    | some e => simp only [hsame batch' hbatch]

end Outcome

/-- A removal command for these objects. -/
def removeMessage (command : String) (layers : List Json) : Option Json :=
  some (.object [("command", .string command), ("layers", .array layers)])

/-- Layers 3000 and 4000, which share surface 10. -/
def layersShareTen : Except Abort (World Compositor) :=
  execute (Compositor.ilm false) ⟨"host", none⟩
    [message "add_layer" "screens" [screenObject 0 "append"
        [layerObject 3000 [], layerObject 4000 []]],
      message "add_surface" "screens" [screenObject 0 "append"
        [layerObject 3000 [surfaceObject 10], layerObject 4000 [surfaceObject 10]]]]
    (World.fresh [0])

/-- The layers removed in either order, and the surface taken out of one of them. -/
theorem remove_exactly_iff_sharedSurface :
    ∃ w w₁ w₂ w₃ : World Compositor, layersShareTen = .ok w ∧
      (w₁.wm.screenHead = w.wm.screenHead.map (withoutLayers [3000, 4000]) ∧
        w₂.wm.screenHead = w₁.wm.screenHead ∧
        w₂.wm.surfacePropertiesHead = w₁.wm.surfacePropertiesHead) ∧
      w₃.wm.screenHead = mapLayers (withoutSurfaces 3000 [10, 10]) w.wm.screenHead := by
  have hend : endsWith (fun w =>
      endsWith (fun _ => true) (runEvents (Compositor.ilm false)
        [.message (removeMessage "remove_layer" [layerObject 3000 [], layerObject 4000 []])] w) &&
      (endsWith (fun _ => true) (runEvents (Compositor.ilm false)
        [.message (removeMessage "remove_layer" [layerObject 4000 [], layerObject 3000 []])] w) &&
      endsWith (fun _ => true) (runEvents (Compositor.ilm false)
        [.message (removeMessage "remove_surface" [layerObject 3000 [surfaceObject 10,
          surfaceObject 10]])] w))) layersShareTen = true := by decide +kernel
  obtain ⟨w, hw, h⟩ := exists_of_endsWith hend
  simp only [Bool.and_eq_true] at h
  obtain ⟨h₁, h₂, h₃⟩ := h
  obtain ⟨w₁, hw₁, -⟩ := exists_of_endsWith h₁
  obtain ⟨w₂, hw₂, -⟩ := exists_of_endsWith h₂
  obtain ⟨w₃, hw₃, -⟩ := exists_of_endsWith h₃
  have hreach : (daemon (Compositor.ilm false)
      ⟨fun _ w => w = World.fresh [0], fun _ _ => False⟩).Reachable w := reachable_of_execute rfl hw
  have hremoved : RemovesLayers
      (removeMessage "remove_layer" [layerObject 3000 [], layerObject 4000 []]) [3000, 4000] :=
    ⟨by decide, _, rfl, rfl⟩
  have hswapped : RemovesLayers
      (removeMessage "remove_layer" [layerObject 4000 [], layerObject 3000 []]) [4000, 3000] :=
    ⟨by decide, _, rfl, rfl⟩
  have htaken : RemovesSurfaces
      (removeMessage "remove_surface" [layerObject 3000 [surfaceObject 10, surfaceObject 10]]) 3000
      [10, 10] := ⟨by decide, _, _, rfl, rfl, rfl, rfl⟩
  have hsame : ∀ n : Int64, n ∈ [4000, 3000] ↔ n ∈ [3000, 4000] :=
    fun _ => (List.Perm.swap 3000 4000 []).mem_iff
  have hpair : ∀ n n' : Int64, InRange n → InRange n' → ∀ m ∈ [n, n'], InRange m :=
    fun _ _ hn hn' => List.forall_mem_cons.mpr ⟨hn, List.forall_mem_singleton.mpr hn'⟩
  have hlayers : NamesLayers w.wm [3000, 4000] := fun _ _ =>
    denotes_of_inRange (hpair 3000 4000 (by decide) (by decide))
  have hsurfaces : NamesSurfaces w.wm 3000 [10, 10] := fun e _ he s _ hs =>
    ⟨denotes_iff.mpr ⟨by decide, he.symm⟩,
      denotes_of_inRange (hpair 10 10 (by decide) (by decide)) hs⟩
  obtain ⟨htree, hother⟩ := ((remove_exactly_iff (Compositor.distinctScreenIds false) hreach
    (handle_of_runEvents hw₁)).1 hremoved).mpr hlayers
  have htaken' := ((remove_exactly_iff (Compositor.distinctScreenIds false) hreach
    (handle_of_runEvents hw₃)).2 3000 htaken).mpr hsurfaces
  exact ⟨w, w₁, w₂, w₃, hw, ⟨htree, hother _ _ w₂ hswapped hsame (handle_of_runEvents hw₂)⟩,
    htaken'.1⟩

/-- Layer 3000 is taken out by the id 2^32 + 3000. -/
theorem remove_takes_another :
    ¬ ∀ (msg : Option Json) (batch : List Int64) (w w' : World Compositor),
      (daemon (Compositor.ilm false)
        ⟨fun _ w => w = World.fresh [0], fun _ _ => False⟩).Reachable w →
      RemovesLayers msg batch → (Event.message msg).handle (Compositor.ilm false) w = .ok ((), w') →
        w'.wm.screenHead = w.wm.screenHead.map (withoutLayers batch) := by
  intro h
  have hend : endsWith (fun w => decide (w.wm.layerIds = [3000, 4000]) &&
      endsWith (fun w' => decide (w'.wm.layerIds = [4000])) (runEvents (Compositor.ilm false)
        [.message (removeMessage "remove_layer" [layerObject 4294970296 []])] w))
      layersShareTen = true := by decide +kernel
  obtain ⟨w, hw, hrun⟩ := exists_of_endsWith hend
  obtain ⟨hbefore, hrun⟩ := Bool.and_eq_true_iff.mp hrun
  obtain ⟨w', hw', hafter⟩ := exists_of_endsWith hrun
  have hremoves : RemovesLayers (removeMessage "remove_layer" [layerObject 4294970296 []])
      [4294970296] := ⟨by decide, _, rfl, rfl⟩
  have htree := h _ _ w w' (reachable_of_execute rfl hw) hremoves (handle_of_runEvents hw')
  -- no layer has the id, and so all of them should stay
  have hkeep : ∀ s : ScreenElm, withoutLayers [4294970296] s = s := by
    intro s
    have hnone : ∀ id : Id, ¬ ∃ n ∈ ([4294970296] : List Int64), Denotes n id := by
      rintro id ⟨n, hn, hid⟩
      rw [List.mem_singleton.mp hn] at hid
      exact absurd (denotes_iff.mp hid).1 (by decide)
    rw [withoutLayers, List.filter_eq_self.mpr fun e _ => decide_eq_true (hnone e.id)]
  rw [List.map_congr_left fun s _ => hkeep s, List.map_id'] at htree
  have hlost : w'.wm.layerIds = w.wm.layerIds := by rw [Wm.layerIds, Wm.layerIds, htree]
  rw [of_decide_eq_true hafter, of_decide_eq_true hbefore] at hlost
  exact absurd hlost (by decide)

end UhmiIviWm
