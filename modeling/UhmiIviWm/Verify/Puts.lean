import UhmiIviWm.Lib.Batches
import UhmiIviWm.Verify.Integers
import UhmiIviWm.Verify.Shares

/-!
# Puts that are made again

A call that puts a layer or a surface takes it out first, if it is there, and puts it in
where the order says. A batch of puts that is made again takes every element out and puts it
in once more. What the batch does not name is in the same order before and after
(`dropLayers`, `leaveOut`), and the elements of the batch are put back as they are, one after
the other (`puts_layers`, `puts_surfaces`). So the layout stays the same
(`putLayers_twice`, `putSurfaces_twice`).
-/

namespace UhmiIviWm

open Lib.Batches Lib.KeyedList

/-- The layer or the surface a call puts. -/
def Call.target : Call → Id
  | .putLayer _ _ layerId _ => layerId
  | .putSurface _ _ surfaceId _ => surfaceId
  | _ => 0

/-- The element a call puts its own next to. -/
def Call.neighbour : Call → Option Id
  | .putLayer _ _ _ info | .putSurface _ _ _ info =>
    if info.order = .before ∨ info.order = .after then some info.refid else none
  | _ => none

/-- The calls put different elements, neither of them next to the other. -/
def Call.Apart (call call' : Call) : Prop :=
  call.target ≠ call'.target ∧ call.neighbour ≠ some call'.target ∧
    call'.neighbour ≠ some call.target

theorem Wm.eq_of {wm wm' : Wm} (htree : wm'.screenHead = wm.screenHead)
    (hstore : wm'.surfacePropertiesHead = wm.surfacePropertiesHead)
    (huninit : wm'.uninit = wm.uninit) : wm' = wm := by
  obtain ⟨screenHead, store, uninit⟩ := wm'
  obtain ⟨rfl, rfl, rfl⟩ := And.intro htree (And.intro hstore huninit)
  rfl

section Parsing

variable {obj : Json}

theorem parseAddProperties_again (dst : LayoutProperties) :
    (parseAddProperties (parseAddProperties dst (some obj)).2 (some obj)).2 =
      (parseAddProperties dst (some obj)).2 := by
  unfold parseAddProperties
  cases readAddProperties (some obj) <;> rfl

theorem parseLayerProperties_again (dst : LayerProperties) :
    (parseLayerProperties (parseLayerProperties dst (some obj) .add).2 (some obj) .add).2 =
      (parseLayerProperties dst (some obj) .add).2 := by
  simp only [parseLayerProperties, if_true]
  cases getJsonIntegerValue (some obj) jsonKeyWidth with
  | none => rfl
  | some width =>
    cases getJsonIntegerValue (some obj) jsonKeyHeight with
    | none => rfl
    | some height => simp only [parseAddProperties_again]

/-- What is counted later has been parsed. -/
theorem parseSurfaceProperties_again (dst : SurfaceProperties) (referredCnt : TIlmUint) :
    (parseSurfaceProperties { (parseSurfaceProperties dst (some obj) .add).2 with referredCnt }
        (some obj) .add).2 =
      { (parseSurfaceProperties dst (some obj) .add).2 with referredCnt } := by
  simp only [parseSurfaceProperties, if_true, parseAddProperties_again]

end Parsing

/-! ## Layers -/

/-- The call puts a layer onto one of the screens, under an order the code knows. -/
def Call.PutsLayer (screens : List Id) : Call → Prop
  | .putLayer screenElm _ _ info => screenElm ∈ screens ∧ info.order ≠ .none
  | _ => False

/-- Puts a layer that has been taken out onto its screen. -/
def Call.placeLayer : Call → Option LayerElm → List ScreenElm → List ScreenElm
  | .putLayer screenElm _ _ info, some e, t =>
    t.map fun s => if s.id = screenElm then insertLayer e info s else s
  | _, _, t => t

/-- The layer has the properties that the call would give it. -/
def Call.DoneLayer : Call → Option LayerElm → Prop
  | .putLayer _ obj _ _, found =>
    ∃ e, found = some e ∧ (parseLayerProperties e.prop (some obj) .add).2 = e.prop
  | _, _ => True

section Layers

variable {wm : Wm} {screenElm layerId : Id} {obj : Json} {info : InsertInfo}

/-- The layers that are not of the batch. -/
def besides (batch : List Id) : Share := ⟨fun l => decide (l ∉ batch), fun _ => true⟩

theorem dropLayers_nil (s : ScreenElm) : dropLayers [] s = s := by
  rw [dropLayers, List.filter_eq_self.mpr fun e _ => by simp]

/-- What a put does to the layers that are not of the rest of its batch. -/
theorem dropLayers_putLayer (hu : Unique wm) {later : List Call}
    (hlater : ∀ call ∈ later, Call.Apart (.putLayer screenElm obj layerId info) call) :
    ((Call.putLayer screenElm obj layerId info).layout wm).screenHead.map
        (dropLayers (later.map Call.target)) =
      (wm.screenHead.map (dropLayers (layerId :: later.map Call.target))).map fun s =>
        if s.id = screenElm then insertLayer (wm.layerToPut obj layerId) info s else s := by
  have hlayer : layerId ∉ later.map Call.target := by
    intro hmem
    obtain ⟨call, hcall, htarget⟩ := List.mem_map.mp hmem
    exact (hlater call hcall).1 htarget.symm
  have he : (besides (later.map Call.target)).layers (wm.layerToPut obj layerId).id = true := by
    rw [layerToPut_id]
    exact decide_eq_true hlayer
  have hbeside : info.Beside (besides (later.map Call.target)) := by
    refine fun horder => decide_eq_true fun hmem => ?_
    obtain ⟨call, hcall, htarget⟩ := List.mem_map.mp hmem
    refine (hlater call hcall).2.1 ?_
    rw [Call.neighbour, if_pos horder, htarget]
  rw [hu.screenHead_putLayer_eq_map, List.map_map, List.map_map]
  refine List.map_congr_left fun s _ => ?_
  rw [Function.comp_apply, Function.comp_apply, dropLayers_cons, putInto, layerToPut_id]
  have hid : (dropLayers (later.map Call.target) (dropLayer layerId s)).id = s.id := rfl
  rw [hid]
  by_cases hs : s.id = screenElm
  · rw [if_pos hs, if_pos hs]
    exact screen_insertLayer he hbeside (dropLayer layerId s)
  · rw [if_neg hs, if_neg hs]

theorem getLayer_putLayer_self (hu : Unique wm) (hscreen : screenElm ∈ wm.screenIds)
    (horder : info.order ≠ .none) :
    getLayer ((Call.putLayer screenElm obj layerId info).layout wm).screenHead layerId =
      some (wm.layerToPut obj layerId) := by
  rw [hu.getLayer_putLayer, if_pos rfl, if_pos ⟨horder, hscreen⟩]

theorem layerToPut_done :
    (parseLayerProperties (wm.layerToPut obj layerId).prop (some obj) .add).2 =
      (wm.layerToPut obj layerId).prop := by
  unfold Wm.layerToPut
  cases getLayer wm.screenHead layerId with
  | none => exact parseLayerProperties_again _
  | some e => exact parseLayerProperties_again e.prop

theorem puts_layers (screens : List Id) :
    Puts (fun wm call => Call.layout call wm) (fun call wm => getLayer wm.screenHead call.target)
      (fun batch wm => wm.screenHead.map (dropLayers (batch.map Call.target))) Call.placeLayer
      (fun wm => (wm.surfacePropertiesHead, wm.uninit))
      (fun wm => Unique wm ∧ wm.screenIds = screens) (Call.PutsLayer screens) Call.Apart
      (fun _ => false) Call.DoneLayer where
  symm := fun call call' h => ⟨h.1.symm, h.2.2, h.2.1⟩
  inv := fun wm call hcall h => by
    cases call with
    | putLayer => exact ⟨h.1.putLayer, screenIds_putLayer.trans h.2⟩
    | _ => exact hcall.elim
  other := fun wm call call' hcall h hapart => by
    cases call with
    | putLayer => rw [h.1.getLayer_putLayer, if_neg fun heq => hapart.1 heq.symm]
    | _ => exact hcall.elim
  leaves := fun wm call hcall h => absurd h Bool.false_ne_true
  busy := fun wm call hcall h hidle => rfl
  done := fun wm call hcall h => by
    obtain ⟨hu, rfl⟩ := h
    cases call with
    | putLayer =>
      exact ⟨_, getLayer_putLayer_self hu hcall.1 hcall.2, layerToPut_done⟩
    | _ => exact hcall.elim
  again := fun wm call hcall h hdone => by
    obtain ⟨hu, rfl⟩ := h
    cases call with
    | putLayer screenElm obj layerId info =>
      obtain ⟨e, he, hprop⟩ := hdone
      have he : getLayer wm.screenHead layerId = some e := he
      have hput : wm.layerToPut obj layerId = e := by
        rw [Wm.layerToPut, he]
        dsimp only
        rw [hprop]
      refine ⟨(getLayer_putLayer_self hu hcall.1 hcall.2).trans ?_, ?_⟩
      · rw [hput]
        exact he.symm
      · simp only [Call.layout, he]
    | _ => exact hcall.elim
  moved := fun wm call later hcall h hidle hlater => by
    obtain ⟨hu, rfl⟩ := h
    cases call with
    | putLayer screenElm obj layerId info =>
      have hself : getLayer ((Call.putLayer screenElm obj layerId info).layout wm).screenHead
          layerId = some (wm.layerToPut obj layerId) := getLayer_putLayer_self hu hcall.1 hcall.2
      simp only [Call.target, hself, Call.placeLayer, List.map_cons]
      exact dropLayers_putLayer hu hlater
    | _ => exact hcall.elim
  spared := fun wm call batch hcall h hmem => by
    cases call with
    | putLayer screenElm obj layerId info =>
      have hin : layerId ∈ batch.map Call.target := List.mem_map_of_mem (f := Call.target) hmem
      exact screenHead_spared (k := besides (batch.map Call.target))
        (decide_eq_false (not_not.mpr hin)) trivial
    | _ => exact hcall.elim

/-- Puts of layers that are made again at once. -/
theorem putLayers_twice (hu : Unique wm) {calls : List Call}
    (hcalls : ∀ call ∈ calls, call.PutsLayer wm.screenIds) (hapart : calls.Pairwise Call.Apart) :
    let wm' := calls.foldl (fun wm call => call.layout wm) wm
    calls.foldl (fun wm call => call.layout wm) wm' = wm' := by
  intro wm'
  obtain ⟨htree, hkept⟩ := (puts_layers wm.screenIds).twice hcalls hapart ⟨hu, rfl⟩
  have hnil : dropLayers ([].map Call.target) = id := funext dropLayers_nil
  simp only [hnil, List.map_id] at htree
  obtain ⟨hstore, huninit⟩ := Prod.mk.inj hkept
  exact Wm.eq_of htree hstore huninit

end Layers

/-! ## Surfaces -/

/-- The call puts a surface into one of the layers, under an order the code knows. -/
def Call.PutsSurface (layers : List Id) : Call → Prop
  | .putSurface layerElm _ _ info => layerElm ∈ layers ∧ info.order ≠ .none
  | _ => False

/-- Whether the layer lists the surface a call puts, and the record of the surface. -/
def Call.foundSurface (wm : Wm) : Call → Bool × Option SurfaceProperties
  | .putSurface layerElm _ surfaceId _ =>
    ((getSurface wm.screenHead layerElm surfaceId).isSome,
      record wm.surfacePropertiesHead surfaceId)
  | _ => (false, none)

/-- A surface that has lost its record is not put. -/
def lostRecord (found : Bool × Option SurfaceProperties) : Bool := found.1 && found.2.isNone

/-- The layer a call puts a surface into, and the surface. -/
def Call.pair (call : Call) : Id × Id :=
  match call with
  | .putSurface layerElm _ _ _ => (layerElm, call.target)
  | _ => (0, call.target)

/-- Takes surfaces out of a layer, each where it is named with the layer. -/
def leaveOut (pairs : List (Id × Id)) (e : LayerElm) : LayerElm :=
  { e with listHead := e.listHead.filter fun s => decide ((e.id, s.id) ∉ pairs) }

/-- Puts a surface that has been taken out into its layer. -/
def Call.placeSurface : Call → Bool × Option SurfaceProperties → List ScreenElm → List ScreenElm
  | .putSurface layerElm _ surfaceId info, _, t =>
    mapLayers (fun e => if e.id = layerElm then
      { e with listHead := insertListElement e.listHead ⟨surfaceId, (), []⟩ info } else e) t
  | _, _, t => t

/-- The layer lists the surface, which has the properties that the call would give it. -/
def Call.DoneSurface : Call → Bool × Option SurfaceProperties → Prop
  | .putSurface _ obj _ _, found => found.1 = true ∧
    ∀ prop ∈ found.2, (parseSurfaceProperties prop (some obj) .add).2 = prop
  | _, _ => True

section Surfaces

variable {wm : Wm} {layerElm surfaceId : Id} {obj : Json} {info : InsertInfo}

theorem surfaceToPut_eq : wm.surfaceToPut layerElm obj surfaceId =
    if (getSurface wm.screenHead layerElm surfaceId).isSome then
      (record wm.surfacePropertiesHead surfaceId).map fun prop =>
        (parseSurfaceProperties prop (some obj) .add).2
    else some (parseSurfaceProperties (wm.uninit 0).surfaceProp (some obj) .add).2 := by
  unfold Wm.surfaceToPut record
  cases getSurface wm.screenHead layerElm surfaceId with
  | none => rfl
  | some s => rw [Option.isSome_some, if_pos rfl, Option.map_map]; rfl

theorem surfaceToPut_eq_none : wm.surfaceToPut layerElm obj surfaceId = none ↔
    lostRecord (Call.foundSurface wm (.putSurface layerElm obj surfaceId info)) = true := by
  rw [surfaceToPut_eq]
  cases hlisted : (getSurface wm.screenHead layerElm surfaceId).isSome <;>
    simp [lostRecord, Call.foundSurface, hlisted]

/-- The record a put leaves. -/
theorem record_putSurface_self {prop : SurfaceProperties}
    (hput : wm.surfaceToPut layerElm obj surfaceId = some prop) :
    record ((Call.putSurface layerElm obj surfaceId info).layout wm).surfacePropertiesHead
        surfaceId =
      if (getSurface wm.screenHead layerElm surfaceId).isSome then some prop
      else some { prop with referredCnt := prop.referredCnt + 1 } := by
  rw [surfacePropertiesHead_putSurface hput]
  split
  · rename_i hlisted
    rw [surfaceToPut_eq, if_pos hlisted] at hput
    obtain ⟨found, hrecord, -⟩ := Option.map_eq_some_iff.mp hput
    rw [record_updateSurfaceProperties, if_pos rfl, hrecord, Option.map_some]
  · rw [record_addSurfaceProperties, if_pos rfl]

theorem record_putSurface_done : ∀ prop ∈ record ((Call.putSurface layerElm obj surfaceId
    info).layout wm).surfacePropertiesHead surfaceId,
      (parseSurfaceProperties prop (some obj) .add).2 = prop := by
  intro found hfound
  cases hput : wm.surfaceToPut layerElm obj surfaceId with
  | none =>
    have hlost : lostRecord (Call.foundSurface wm (.putSurface layerElm obj surfaceId info)) =
        true := surfaceToPut_eq_none.mp hput
    simp only [lostRecord, Call.foundSurface, Bool.and_eq_true, Option.isNone_iff_eq_none] at hlost
    simp only [Call.layout, hput, hlost.2] at hfound
    cases hfound
  | some prop =>
    have hparsed : ∃ dst, prop = (parseSurfaceProperties dst (some obj) .add).2 := by
      rw [surfaceToPut_eq] at hput
      split at hput
      · obtain ⟨dst, -, hprop⟩ := Option.map_eq_some_iff.mp hput
        exact ⟨dst, hprop.symm⟩
      · exact ⟨_, (Option.some.inj hput).symm⟩
    obtain ⟨dst, rfl⟩ := hparsed
    rw [record_putSurface_self hput] at hfound
    split at hfound
    · cases hfound
      exact parseSurfaceProperties_again dst _
    · cases hfound
      exact parseSurfaceProperties_again dst _

theorem listed_putSurface_self (hu : Unique wm) (hlayer : layerElm ∈ wm.layerIds)
    (horder : info.order ≠ .none) :
    (getSurface ((Call.putSurface layerElm obj surfaceId info).layout wm).screenHead layerElm
      surfaceId).isSome = true := by
  have hself : (getSurface ((Call.putSurface layerElm obj surfaceId info).layout wm).screenHead
      layerElm surfaceId).map (·.id) = some surfaceId := getSurface_putSurface hu horder hlayer
  rw [← Option.isSome_map, hself]
  rfl

/-- A put leaves other surfaces alone. -/
theorem foundSurface_putSurface (hu : Unique wm) {call : Call}
    (hne : surfaceId ≠ call.target) :
    call.foundSurface ((Call.putSurface layerElm obj surfaceId info).layout wm) =
      call.foundSurface wm := by
  cases hput : wm.surfaceToPut layerElm obj surfaceId with
  | none => simp only [Call.layout, hput]
  | some prop =>
    cases call with
    | putSurface layerElm' obj' surfaceId' info' =>
      have hne : surfaceId ≠ surfaceId' := hne
      refine Prod.ext (Bool.eq_iff_iff.mpr ?_) ?_
      · dsimp only [Call.foundSurface]
        rw [getSurface_isSome, getSurface_isSome, getLayer_putSurface hput]
        split
        · constructor
          · rintro ⟨e, he, hmem⟩
            obtain ⟨e, hget, rfl⟩ := Option.map_eq_some_iff.mp he
            rw [mem_ids_reinsert (hu.surfaces_of_getLayer hget)] at hmem
            exact ⟨e, hget, (hmem.resolve_left fun h => hne h.2.symm).1⟩
          · rintro ⟨e, he, hmem⟩
            refine ⟨reinsert surfaceId info e, by rw [he, Option.map_some], ?_⟩
            exact (mem_ids_reinsert (hu.surfaces_of_getLayer he)).mpr (.inr ⟨hmem, hne.symm⟩)
        · rfl
      · dsimp only [Call.foundSurface]
        rw [surfacePropertiesHead_putSurface hput]
        split
        · rw [record_updateSurfaceProperties, if_neg hne.symm]
        · rw [record_addSurfaceProperties, if_neg hne.symm]
    | _ => rfl

theorem pair_snd (call : Call) : call.pair.2 = call.target := by
  cases call <;> rfl

@[simp] theorem leaveOut_id (pairs : List (Id × Id)) (e : LayerElm) :
    (leaveOut pairs e).id = e.id := rfl

theorem leaveOut_nil (e : LayerElm) : leaveOut [] e = e := by
  rw [leaveOut, List.filter_eq_self.mpr fun s _ => by simp]

/-- A surface that is put is left out together with its batch. -/
theorem leaveOut_reinsert_of_mem {pairs : List (Id × Id)} {e : LayerElm}
    (hmem : (e.id, surfaceId) ∈ pairs) :
    leaveOut pairs (reinsert surfaceId info e) = leaveOut pairs e := by
  have hnot : decide ((e.id, surfaceId) ∉ pairs) = false := by simpa using hmem
  have hlist : (insertListElement (e.listHead.eraseP (·.id == surfaceId))
      (⟨surfaceId, (), []⟩ : SurfaceElm) info).filter (fun s => decide ((e.id, s.id) ∉ pairs)) =
        (e.listHead.eraseP (·.id == surfaceId)).filter fun s => decide ((e.id, s.id) ∉ pairs) :=
    filter_insertListElement_of_not (q := fun s => decide ((e.id, s) ∉ pairs)) hnot
  rw [leaveOut, reinsert, leaveOut, hlist,
    filter_eraseP_key_of_not (q := fun s => decide ((e.id, s) ∉ pairs)) hnot]

/-- A surface that is put is put among those that are not of the rest of its batch. -/
theorem leaveOut_reinsert {pairs : List (Id × Id)} {e : LayerElm}
    (hnd : (ids e.listHead).Nodup) (hnot : (e.id, surfaceId) ∉ pairs)
    (hinfo : info.order = .before ∨ info.order = .after → (e.id, info.refid) ∉ pairs) :
    leaveOut pairs (reinsert surfaceId info e) =
      { e with
        listHead := insertListElement (leaveOut ((e.id, surfaceId) :: pairs) e).listHead
          ⟨surfaceId, (), []⟩ info } := by
  have hlist : (insertListElement (e.listHead.eraseP (·.id == surfaceId))
      (⟨surfaceId, (), []⟩ : SurfaceElm) info).filter (fun s => decide ((e.id, s.id) ∉ pairs)) =
        insertListElement ((e.listHead.eraseP (·.id == surfaceId)).filter fun s =>
          decide ((e.id, s.id) ∉ pairs)) ⟨surfaceId, (), []⟩ info :=
    filter_insertListElement (q := fun s => decide ((e.id, s) ∉ pairs)) (decide_eq_true hnot)
      fun horder => decide_eq_true (hinfo horder)
  have hrest : (e.listHead.eraseP (·.id == surfaceId)).filter
      (fun s => decide ((e.id, s.id) ∉ pairs)) =
        (leaveOut ((e.id, surfaceId) :: pairs) e).listHead := by
    rw [leaveOut, eraseP_key_eq_filter hnd, List.filter_filter]
    refine List.filter_congr fun s _ => ?_
    rw [Bool.eq_iff_iff]
    simp [and_comm]
  rw [leaveOut, reinsert]
  dsimp only
  rw [hlist, hrest]

theorem leaveOut_putSurface (hu : Unique wm) {prop : SurfaceProperties}
    (hput : wm.surfaceToPut layerElm obj surfaceId = some prop) {later : List Call}
    (hlater : ∀ call ∈ later, Call.Apart (.putSurface layerElm obj surfaceId info) call) :
    mapLayers (leaveOut (later.map Call.pair))
        ((Call.putSurface layerElm obj surfaceId info).layout wm).screenHead =
      mapLayers (fun e => if e.id = layerElm then
          { e with listHead := insertListElement e.listHead ⟨surfaceId, (), []⟩ info } else e)
        (mapLayers (leaveOut ((layerElm, surfaceId) :: later.map Call.pair)) wm.screenHead) := by
  have hpair : ∀ l s, (l, s) ∈ later.map Call.pair → surfaceId ≠ s ∧
      (Call.putSurface layerElm obj surfaceId info).neighbour ≠ some s := by
    intro l s hmem
    obtain ⟨call, hcall, hpair⟩ := List.mem_map.mp hmem
    have htarget : call.target = s := by rw [← pair_snd, hpair]
    exact ⟨htarget ▸ (hlater call hcall).1, htarget ▸ (hlater call hcall).2.1⟩
  rw [screenHead_putSurface hput, updateLayer_eq_mapLayers hu.layers, mapLayers_mapLayers,
    mapLayers_mapLayers]
  refine mapLayers_congr fun e he => ?_
  by_cases hid : e.id = layerElm
  · subst hid
    rw [if_pos rfl, leaveOut_id, if_pos rfl]
    refine leaveOut_reinsert (hu.surfaces e he) (fun hmem => (hpair _ _ hmem).1 rfl) ?_
    intro horder hmem
    exact (hpair _ _ hmem).2 (by rw [Call.neighbour, if_pos horder])
  · have hother : leaveOut ((layerElm, surfaceId) :: later.map Call.pair) e =
        leaveOut (later.map Call.pair) e := by
      unfold leaveOut
      have hfilter : e.listHead.filter
          (fun s => decide ((e.id, s.id) ∉ (layerElm, surfaceId) :: later.map Call.pair)) =
            e.listHead.filter fun s => decide ((e.id, s.id) ∉ later.map Call.pair) :=
        List.filter_congr fun s _ => by simp [hid]
      rw [hfilter]
    rw [if_neg hid, hother]
    exact (if_neg hid).symm

theorem screenHead_putSurface_spared (hu : Unique wm) {pairs : List (Id × Id)}
    (hmem : (layerElm, surfaceId) ∈ pairs) :
    mapLayers (leaveOut pairs)
        ((Call.putSurface layerElm obj surfaceId info).layout wm).screenHead =
      mapLayers (leaveOut pairs) wm.screenHead := by
  cases hput : wm.surfaceToPut layerElm obj surfaceId with
  | none => simp only [Call.layout, hput]
  | some prop =>
    rw [screenHead_putSurface hput, updateLayer_eq_mapLayers hu.layers, mapLayers_mapLayers]
    refine mapLayers_congr fun e _ => ?_
    split
    · rename_i hid
      exact leaveOut_reinsert_of_mem (hid ▸ hmem)
    · rfl

/-- A surface that is put with the properties it has changes its place only. -/
theorem putSurface_done (info : InsertInfo)
    (hlisted : (getSurface wm.screenHead layerElm surfaceId).isSome = true)
    (hdone : ∀ prop ∈ record wm.surfacePropertiesHead surfaceId,
      (parseSurfaceProperties prop (some obj) .add).2 = prop) :
    ((Call.putSurface layerElm obj surfaceId info).layout wm).surfacePropertiesHead =
        wm.surfacePropertiesHead ∧
      ((Call.putSurface layerElm obj surfaceId info).layout wm).uninit = wm.uninit := by
  obtain ⟨s, hs⟩ := Option.isSome_iff_exists.mp hlisted
  cases hrecord : record wm.surfacePropertiesHead surfaceId with
  | none =>
    have hput : wm.surfaceToPut layerElm obj surfaceId = none := by
      rw [surfaceToPut_eq, if_pos hlisted, hrecord, Option.map_none]
    simp only [Call.layout, hput, and_self]
  | some prop =>
    have hput : wm.surfaceToPut layerElm obj surfaceId = some prop := by
      rw [surfaceToPut_eq, if_pos hlisted, hrecord, Option.map_some, hdone prop hrecord]
    refine ⟨?_, by simp only [Call.layout, hput, hs]⟩
    rw [surfacePropertiesHead_putSurface hput, if_pos hlisted]
    refine updateFirst_id fun e he => ?_
    obtain ⟨e', he', hprop⟩ := Option.map_eq_some_iff.mp hrecord
    cases he.symm.trans he'
    rw [← hprop]

theorem puts_surfaces (layers : List Id) :
    Puts (fun wm call => Call.layout call wm) (fun call wm => call.foundSurface wm)
      (fun batch wm => mapLayers (leaveOut (batch.map Call.pair)) wm.screenHead)
      Call.placeSurface (fun wm => (wm.surfacePropertiesHead, wm.uninit))
      (fun wm => Unique wm ∧ wm.layerIds = layers) (Call.PutsSurface layers) Call.Apart
      lostRecord Call.DoneSurface where
  symm := fun call call' h => ⟨h.1.symm, h.2.2, h.2.1⟩
  inv := fun wm call hcall h => by
    cases call with
    | putSurface => exact ⟨h.1.putSurface, layerIds_putSurface.trans h.2⟩
    | _ => exact hcall.elim
  other := fun wm call call' hcall h hapart => by
    cases call with
    | putSurface => exact foundSurface_putSurface h.1 hapart.1
    | _ => exact hcall.elim
  leaves := fun wm call hcall hlost => by
    cases call with
    | putSurface layerElm obj surfaceId info =>
      simp only [Call.layout, surfaceToPut_eq_none.mpr hlost]
    | _ => exact hcall.elim
  busy := fun wm call hcall h hfound => by
    cases call with
    | putSurface layerElm obj surfaceId info =>
      cases hput : wm.surfaceToPut layerElm obj surfaceId with
      | none => rw [surfaceToPut_eq_none.mp hput] at hfound; cases hfound
      | some prop =>
        simp only [lostRecord, Call.foundSurface, record_putSurface_self hput]
        split <;> simp
    | _ => exact hcall.elim
  done := fun wm call hcall h => by
    obtain ⟨hu, rfl⟩ := h
    cases call with
    | putSurface layerElm obj surfaceId info =>
      exact ⟨listed_putSurface_self hu hcall.1 hcall.2, record_putSurface_done⟩
    | _ => exact hcall.elim
  again := fun wm call hcall h hdone => by
    obtain ⟨hu, rfl⟩ := h
    cases call with
    | putSurface layerElm obj surfaceId info =>
      obtain ⟨hstore, huninit⟩ := putSurface_done info hdone.1 hdone.2
      refine ⟨?_, by rw [hstore, huninit]⟩
      have hlisted : (getSurface ((Call.putSurface layerElm obj surfaceId info).layout
          wm).screenHead layerElm surfaceId).isSome = true :=
        listed_putSurface_self hu hcall.1 hcall.2
      simp only [Call.foundSurface, hstore, hlisted]
      exact Prod.ext hdone.1.symm rfl
    | _ => exact hcall.elim
  moved := fun wm call later hcall h hfound hlater => by
    obtain ⟨hu, rfl⟩ := h
    cases call with
    | putSurface layerElm obj surfaceId info =>
      cases hput : wm.surfaceToPut layerElm obj surfaceId with
      | none => rw [surfaceToPut_eq_none.mp hput] at hfound; cases hfound
      | some prop => exact leaveOut_putSurface hu hput hlater
    | _ => exact hcall.elim
  spared := fun wm call batch hcall h hmem => by
    cases call with
    | putSurface layerElm obj surfaceId info =>
      exact screenHead_putSurface_spared h.1 (List.mem_map_of_mem (f := Call.pair) hmem)
    | _ => exact hcall.elim

/-- Puts of surfaces that are made again at once. -/
theorem putSurfaces_twice (hu : Unique wm) {calls : List Call}
    (hcalls : ∀ call ∈ calls, call.PutsSurface wm.layerIds) (hapart : calls.Pairwise Call.Apart) :
    let wm' := calls.foldl (fun wm call => call.layout wm) wm
    calls.foldl (fun wm call => call.layout wm) wm' = wm' := by
  intro wm'
  obtain ⟨htree, hkept⟩ := (puts_surfaces wm.layerIds).twice hcalls hapart ⟨hu, rfl⟩
  have hnil : leaveOut ([].map Call.pair) = fun e => e := funext leaveOut_nil
  simp only [hnil, mapLayers_id] at htree
  obtain ⟨hstore, huninit⟩ := Prod.mk.inj hkept
  exact Wm.eq_of htree hstore huninit

end Surfaces

end UhmiIviWm
