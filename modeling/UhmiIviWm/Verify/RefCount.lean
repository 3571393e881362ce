import UhmiIviWm.Model.Compositor
import UhmiIviWm.Verify.Pointers
import UhmiIviWm.Verify.Unique

/-!
# Reference counts

A record is meant to count the layers that list its surface (`CountsExact`).
Removal, by surface, by layer or of everything, keeps this. A put does not:
`add_surface_properties` counts up a struct the caller has just filled in, not
the one in the store, so that a surface new to a layer has a count of one
whatever it was before; and an order the code does not know takes the surface out
of its layer, or leaves it out, without a word to the store. `Countable` says
when a put is harmless all the same.
-/

namespace UhmiIviWm

open Lib Lib.CallPlan Lib.KeyedList

/-- The number of layers that list a surface. -/
def references (layers : List LayerElm) (surfaceId : Id) : Nat :=
  layers.countP fun e => surfaceId ∈ ids e.listHead

/-- The count a store keeps for a surface. -/
def referredCnt (store : List SurfacePropertiesElm) (surfaceId : Id) : Option Nat :=
  (record store surfaceId).map (·.referredCnt.toNat)

/-- There is no record for a count of zero. -/
def counted (n : Nat) : Option Nat := if n = 0 then none else some n

/-- A store with a record, and the right count in it, for the surfaces some layer
lists, and for no other. -/
def CountsExact (layers : List LayerElm) (store : List SurfacePropertiesElm) : Prop :=
  ∀ s, referredCnt store s = counted (references layers s)

/-! ## Counting layers -/

section References

variable {layers layers' : List LayerElm} {e : LayerElm} {surfaceId : Id}

theorem references_cons :
    references (e :: layers) surfaceId =
      references layers surfaceId + if surfaceId ∈ ids e.listHead then 1 else 0 := by
  rw [references, List.countP_cons]
  simp only [decide_eq_true_eq]
  rfl

theorem references_perm (h : layers.Perm layers') :
    references layers surfaceId = references layers' surfaceId :=
  h.countP_eq _

theorem references_pos :
    0 < references layers surfaceId ↔ ∃ e ∈ layers, surfaceId ∈ ids e.listHead := by
  simp [references, List.countP_pos_iff]

/-- A layer taken out of the tree. -/
theorem references_eraseP {layerId : Id} (h : layers.find? (·.id == layerId) = some e) :
    references layers surfaceId = references (layers.eraseP (·.id == layerId)) surfaceId +
      if surfaceId ∈ ids e.listHead then 1 else 0 := by
  rw [references_perm (perm_cons_eraseP h), references_cons]

/-- A layer written through a pointer. -/
theorem references_updateFirst {layerId : Id} {f : LayerElm → LayerElm}
    (h : layers.find? (·.id == layerId) = some e) :
    references (updateFirst (·.id == layerId) f layers) surfaceId +
        (if surfaceId ∈ ids e.listHead then 1 else 0) =
      references layers surfaceId + if surfaceId ∈ ids (f e).listHead then 1 else 0 := by
  rw [references_perm (updateFirst_perm h), references_cons, references_eraseP h]
  omega

end References

/-! ## Counts of a store -/

section Store

variable {store : List SurfacePropertiesElm} {surfaceId : Id} {prop : SurfaceProperties}

theorem counted_eq_none {n : Nat} : counted n = none ↔ n = 0 := by
  simp [counted]

/-- Releasing a record that counts `n` layers leaves one that counts one fewer. -/
theorem referredCnt_release {x : Option SurfaceProperties} {n : Nat}
    (h : x.map (·.referredCnt.toNat) = counted n) :
    (x.bind release).map (·.referredCnt.toNat) = counted (n - 1) := by
  cases x with
  | none =>
    have hn : n = 0 := counted_eq_none.mp h.symm
    rw [hn]
    rfl
  | some prop =>
    have hn : n ≠ 0 ∧ prop.referredCnt.toNat = n := by
      unfold counted at h
      split at h
      · cases h
      · exact ⟨‹_›, Option.some.inj h⟩
    obtain ⟨hpos, hcnt⟩ := hn
    have hle : (1 : UInt32) ≤ prop.referredCnt := by
      rw [UInt32.le_iff_toNat_le, hcnt]
      exact Nat.one_le_iff_ne_zero.mpr hpos
    have hsub : (prop.referredCnt - 1).toNat = n - 1 := by
      rw [UInt32.toNat_sub_of_le _ _ hle, hcnt]
      rfl
    simp only [Option.bind_some, release, counted, ← UInt32.toNat_inj, hsub]
    by_cases hone : n - 1 = 0
    · simp [hone]
    · simp [hone, hsub]

theorem referredCnt_removeSurfaceProperties (nd : (ids store).Nodup) {n : Nat}
    (h : referredCnt store surfaceId = counted n) :
    referredCnt (removeSurfaceProperties store surfaceId) surfaceId = counted (n - 1) := by
  rw [referredCnt, record_removeSurfaceProperties nd, if_pos rfl]
  exact referredCnt_release h

theorem parseSurfaceProperties_referredCnt (dstProp : SurfaceProperties) (jobject : Option Json)
    (type : CmdType) :
    (parseSurfaceProperties dstProp jobject type).2.referredCnt = dstProp.referredCnt := by
  unfold parseSurfaceProperties
  split <;> rfl

/-- `remove_all_surface` releases what its layer lists. -/
theorem CountsExact.removeAllSurface {layers : List LayerElm} {e : LayerElm}
    (h : CountsExact (e :: layers) store) (nd : (ids store).Nodup)
    (ndS : (ids e.listHead).Nodup) : CountsExact layers (removeAllSurface store e) := by
  intro s
  have hs := h s
  rw [references_cons] at hs
  rw [referredCnt, record_removeAllSurface nd ndS]
  by_cases hmem : s ∈ ids e.listHead
  · rw [if_pos hmem] at hs ⊢
    exact referredCnt_release hs
  · rw [if_neg hmem] at hs ⊢
    exact hs

theorem CountsExact.removeAll {layers : List LayerElm} (h : CountsExact layers store)
    (nd : (ids store).Nodup) (ndS : ∀ e ∈ layers, (ids e.listHead).Nodup) :
    CountsExact [] (layers.foldl UhmiIviWm.removeAllSurface store) := by
  induction layers generalizing store with
  | nil => exact h
  | cons e rest ih =>
    refine ih (h.removeAllSurface nd (ndS e List.mem_cons_self)) (nodup_removeAllSurface nd) ?_
    exact fun x hx => ndS x (List.mem_cons_of_mem e hx)

end Store

/-! ## One call -/

/-- Locals that hold zeros, now and in all frames to come. -/
def Zeroed (wm : Wm) : Prop := ∀ n, wm.uninit n = .zero

/-- A put leaves the counts right: a surface is new to its layer only if no layer
lists it (or, under an order the code does not know, if one does), it is put
again under a known order, and no layer with surfaces is lost. -/
def Countable (wm : Wm) : Call → Prop
  | .putSurface layerElm _ surfaceId info =>
    if (getSurface wm.screenHead layerElm surfaceId).isSome then info.order ≠ .none
    else references (layersOf wm.screenHead) surfaceId = if info.order = .none then 1 else 0
  | .putLayer _ _ layerId info =>
    info.order = .none → ∀ e ∈ getLayer wm.screenHead layerId, ids e.listHead = []
  | _ => True

section Step

variable {wm : Wm} {call : Call}

theorem Zeroed.layout (h : Zeroed wm) : Zeroed (call.layout wm) := by
  intro n
  cases call with
  | putLayer =>
    simp only [Call.layout]
    split
    · exact h (n + 1)
    · exact h n
  | putSurface =>
    simp only [Call.layout]
    split
    · exact h n
    · split
      · exact h (n + 1)
      · exact h n
  | removeLayer =>
    simp only [Call.layout, UhmiIviWm.removeLayer]
    split <;> exact h n
  | removeSurface =>
    simp only [Call.layout, UhmiIviWm.removeSurface]
    split <;> exact h n
  | modifyLayer | modifySurface | openScreen =>
    simp only [Call.layout]
    split <;> exact h n
  | _ => exact h n

/-- The counts of the tree after a write to one layer. -/
theorem references_updateLayer {layerElm : Id} {e : LayerElm} (f : LayerElm → LayerElm)
    (surfaceId : Id) (he : getLayer wm.screenHead layerElm = some e) :
    references (layersOf (updateLayer wm.screenHead layerElm f)) surfaceId +
        (if surfaceId ∈ ids e.listHead then 1 else 0) =
      references (layersOf wm.screenHead) surfaceId +
        if surfaceId ∈ ids (f e).listHead then 1 else 0 := by
  rw [getLayer_eq_find?] at he
  rw [layersOf_updateLayer]
  exact references_updateFirst he

/-- The count a put leaves for its own surface. -/
theorem referredCnt_putSurface {layerElm surfaceId : Id} {obj : Json} {info : InsertInfo}
    {prop : SurfaceProperties} (hz : Zeroed wm)
    (hput : wm.surfaceToPut layerElm obj surfaceId = some prop) :
    referredCnt ((Call.putSurface layerElm obj surfaceId info).layout wm).surfacePropertiesHead
        surfaceId =
      if (getSurface wm.screenHead layerElm surfaceId).isSome then
        referredCnt wm.surfacePropertiesHead surfaceId
      else some 1 := by
  rw [surfacePropertiesHead_putSurface hput]
  cases hs : getSurface wm.screenHead layerElm surfaceId with
  | none =>
    -- the count of the caller's struct, one more than the local held
    have hprop : prop = (parseSurfaceProperties (wm.uninit 0).surfaceProp (some obj) .add).2 := by
      simp only [Wm.surfaceToPut, hs] at hput
      exact (Option.some.inj hput).symm
    have hzero : prop.referredCnt = 0 := by
      rw [hprop, parseSurfaceProperties_referredCnt, hz 0]
      rfl
    rw [if_neg (by simp), if_neg (by simp), referredCnt, record_addSurfaceProperties, if_pos rfl,
      hzero]
    rfl
  | some x =>
    simp only [Wm.surfaceToPut, hs] at hput
    obtain ⟨r, hr, rfl⟩ := Option.map_eq_some_iff.mp hput
    rw [if_pos Option.isSome_some, if_pos Option.isSome_some, referredCnt,
      record_updateSurfaceProperties, if_pos rfl,
      referredCnt, record, hr]
    exact congrArg (fun n : UInt32 => some n.toNat) (parseSurfaceProperties_referredCnt _ _ _)

theorem CountsExact.putSurface {layerElm surfaceId : Id} {obj : Json} {info : InsertInfo}
    (h : CountsExact (layersOf wm.screenHead) wm.surfacePropertiesHead) (hu : Unique wm)
    (hz : Zeroed wm) (hp : layerElm ∈ wm.layerIds)
    (hc : Countable wm (.putSurface layerElm obj surfaceId info)) :
    let wm' := (Call.putSurface layerElm obj surfaceId info).layout wm
    CountsExact (layersOf wm'.screenHead) wm'.surfacePropertiesHead := by
  intro wm'
  cases hput : wm.surfaceToPut layerElm obj surfaceId with
  | none =>
    have hsame : wm' = wm := by simp only [wm', Call.layout, hput]
    rwa [hsame]
  | some prop =>
    intro s
    obtain ⟨e, he⟩ := Option.isSome_iff_exists.mp (getLayer_isSome.mpr hp)
    have hrefs := references_updateLayer (reinsert surfaceId info) s he
    simp only [mem_ids_reinsert (hu.surfaces_of_getLayer he)] at hrefs
    simp only [wm', screenHead_putSurface hput]
    by_cases hs : s = surfaceId
    · subst hs
      have hlisted : (getSurface wm.screenHead layerElm s).isSome = true ↔ s ∈ ids e.listHead := by
        rw [getSurface_isSome]
        constructor
        · rintro ⟨e', he', hmem⟩
          rw [he] at he'
          cases he'
          exact hmem
        · exact fun hmem => ⟨e, he, hmem⟩
      rw [referredCnt_putSurface hz hput]
      simp only [Countable, hlisted] at hc ⊢
      by_cases hmem : s ∈ ids e.listHead
      · rw [if_pos hmem] at hc ⊢
        rw [h s]
        simp only [hc, hmem, ne_eq, not_false_eq_true, not_true_eq_false, and_self, and_false,
          or_false, if_true] at hrefs
        rw [Nat.add_right_cancel hrefs]
      · rw [if_neg hmem] at hc ⊢
        simp only [hmem, and_true, or_false, if_false, false_and] at hrefs
        have hone : references (layersOf (updateLayer wm.screenHead layerElm (reinsert s info))) s =
            1 := by
          by_cases horder : info.order = .none
          · simp only [horder, ne_eq, not_true_eq_false, if_true, if_false] at hc hrefs
            omega
          · simp only [horder, ne_eq, not_false_eq_true, if_true, if_false] at hc hrefs
            omega
        rw [hone]
        rfl
    · simp only [hs, and_false, false_or, ne_eq, not_false_eq_true, and_true] at hrefs
      have hstore : referredCnt wm'.surfacePropertiesHead s =
          referredCnt wm.surfacePropertiesHead s := by
        simp only [wm', surfacePropertiesHead_putSurface hput, referredCnt]
        split
        · rw [record_updateSurfaceProperties, if_neg hs]
        · rw [record_addSurfaceProperties, if_neg hs]
      rw [Nat.add_right_cancel hrefs, hstore]
      exact h s

theorem CountsExact.putLayer {screenElm layerId : Id} {obj : Json} {info : InsertInfo}
    (h : CountsExact (layersOf wm.screenHead) wm.surfacePropertiesHead)
    (hp : screenElm ∈ wm.screenIds)
    (hc : Countable wm (.putLayer screenElm obj layerId info)) :
    let wm' := (Call.putLayer screenElm obj layerId info).layout wm
    CountsExact (layersOf wm'.screenHead) wm'.surfacePropertiesHead := by
  intro wm' s
  have hlists : ids (wm.layerToPut obj layerId).listHead =
      ((getLayer wm.screenHead layerId).map fun e => ids e.listHead).getD [] := by
    unfold Wm.layerToPut
    cases getLayer wm.screenHead layerId <;> rfl
  have hpop : references (layersOf wm.screenHead) s =
      references (layersOf (popLayer wm.screenHead layerId).2) s +
        if s ∈ ids (wm.layerToPut obj layerId).listHead then 1 else 0 := by
    rw [layersOf_popLayer, hlists]
    cases he : getLayer wm.screenHead layerId with
    | none =>
      rw [getLayer_eq_find?] at he
      rw [eraseP_key_of_find?_none he]
      rfl
    | some e =>
      rw [getLayer_eq_find?] at he
      exact references_eraseP he
  have hrefs : references (layersOf wm'.screenHead) s = references (layersOf wm.screenHead) s := by
    simp only [wm', screenHead_putLayer]
    by_cases horder : info.order = .none
    · have hnone : ids (wm.layerToPut obj layerId).listHead = [] := by
        rw [hlists]
        cases he : getLayer wm.screenHead layerId with
        | none => rfl
        | some e => exact hc horder e he
      have hnot : ¬ Inserts (popLayer wm.screenHead layerId).2 screenElm info :=
        fun hin => hin.1 horder
      rw [updateScreen_insertLayer_of_not hnot, hpop, hnone]
      simp
    · have hin : Inserts (popLayer wm.screenHead layerId).2 screenElm info :=
        inserts_popLayer.mpr ⟨horder, hp⟩
      rw [references_perm (layersOf_insertLayer_perm hin), references_cons, hpop]
  rw [hrefs]
  simp only [wm', surfacePropertiesHead_putLayer]
  exact h s

theorem CountsExact.removeLayer {layerId : Id}
    (h : CountsExact (layersOf wm.screenHead) wm.surfacePropertiesHead) (hu : Unique wm) :
    let wm' := (Call.removeLayer layerId).layout wm
    CountsExact (layersOf wm'.screenHead) wm'.surfacePropertiesHead := by
  intro wm'
  simp only [wm', screenHead_removeLayer, surfacePropertiesHead_removeLayer, layersOf_popLayer]
  cases he : getLayer wm.screenHead layerId with
  | none =>
    rw [getLayer_eq_find?] at he
    rwa [eraseP_key_of_find?_none he]
  | some e =>
    have hsurfaces := hu.surfaces_of_getLayer he
    rw [getLayer_eq_find?] at he
    have hcons : CountsExact (e :: (layersOf wm.screenHead).eraseP (·.id == layerId))
        wm.surfacePropertiesHead := by
      intro s
      rw [← references_perm (perm_cons_eraseP he)]
      exact h s
    exact hcons.removeAllSurface hu.records hsurfaces

theorem CountsExact.removeSurface {layerElm surfaceId : Id}
    (h : CountsExact (layersOf wm.screenHead) wm.surfacePropertiesHead) (hu : Unique wm) :
    let wm' := (Call.removeSurface layerElm surfaceId).layout wm
    CountsExact (layersOf wm'.screenHead) wm'.surfacePropertiesHead := by
  intro wm'
  simp only [wm', screenHead_removeSurface, surfacePropertiesHead_removeSurface]
  cases hs : getSurface wm.screenHead layerElm surfaceId with
  | none =>
    rw [← popSurface_snd, popSurface_of_none hs]
    exact h
  | some x =>
    obtain ⟨e, he, hmem⟩ := getSurface_isSome.mp (by rw [hs]; rfl)
    intro s
    rw [if_pos Option.isSome_some]
    have hrefs := references_updateLayer (dropSurface surfaceId) s he
    simp only [mem_ids_dropSurface (hu.surfaces_of_getLayer he)] at hrefs
    by_cases heq : s = surfaceId
    · subst heq
      simp only [hmem, ne_eq, not_true_eq_false, and_false, if_true, if_false, Nat.add_zero] at hrefs
      rw [referredCnt_removeSurfaceProperties hu.records (h s), ← hrefs, Nat.add_sub_cancel]
    · simp only [heq, ne_eq, not_false_eq_true, and_true] at hrefs
      rw [Nat.add_right_cancel hrefs, referredCnt, record_removeSurfaceProperties hu.records,
        if_neg heq]
      exact h s

theorem CountsExact.after_call
    (h : CountsExact (layersOf wm.screenHead) wm.surfacePropertiesHead) (hu : Unique wm)
    (hz : Zeroed wm) (hp : call.Points wm) (hc : Countable wm call) :
    CountsExact (layersOf (call.layout wm).screenHead) (call.layout wm).surfacePropertiesHead := by
  cases call with
  | putLayer => exact h.putLayer hp hc
  | putSurface => exact h.putSurface hu hz hp hc
  | removeLayer => exact h.removeLayer hu
  | removeSurface => exact h.removeSurface hu
  | removeAll =>
    change CountsExact [] (UhmiIviWm.removeAll wm).surfacePropertiesHead
    rw [surfacePropertiesHead_removeAll]
    exact h.removeAll hu.records hu.surfaces
  | modifyLayer layerId obj =>
    simp only [Call.layout]
    cases he : getLayer wm.screenHead layerId with
    | none => exact h
    | some e =>
      intro s
      have hrefs := references_updateLayer (fun e' : LayerElm =>
        { e' with prop := (parseLayerProperties e.prop (some obj) .mod).2 }) s he
      rw [Nat.add_right_cancel hrefs]
      exact h s
  | modifySurface surfaceId obj =>
    simp only [Call.layout]
    cases hr : getListElement wm.surfacePropertiesHead surfaceId with
    | none => exact h
    | some r =>
      intro s
      rw [← h s, referredCnt, record_updateSurfaceProperties]
      split
      · rename_i hs
        rw [hs, referredCnt, record, hr]
        exact congrArg (fun n : UInt32 => some n.toNat) (parseSurfaceProperties_referredCnt _ _ _)
      · rfl
  | openScreen screenId =>
    simp only [Call.layout]
    split
    · rw [layersOf_addScreen]
      exact h
    · exact h
  | addScreen screenId =>
    rw [Call.layout, layersOf_addScreen]
    exact h
  | _ => exact h

end Step

/-! ## Runs -/

variable {σ : Type} {ilm : Ilm σ}

/-- What holds between any two calls. -/
structure Counts (w : World σ) : Prop where
  unique : Unique w.wm
  zeroed : Zeroed w.wm
  exact' : CountsExact (layersOf w.wm.screenHead) w.wm.surfacePropertiesHead

/-- The calls of a step are all harmless to the counts. -/
def CountableCalls (ilm : Ilm σ) (calls : List Call) (w : World σ) : Prop :=
  AtEach (Call.sem ilm) (fun w call _ => Countable w.wm call) calls w

def CountableStep (ilm : Ilm σ) (a : Action) (w : World σ) : Prop :=
  CountableCalls ilm (a.calls ilm w) w

theorem counts_of_run {set : Setting σ} (hids : DistinctScreenIds ilm)
    (hstart : ∀ boot w, set.start boot w →
      Zeroed w.wm ∧ CountableCalls ilm (boot.calls ilm w) w.cleared)
    {w : World σ} (h : (daemon ilm set).Run (CountableStep ilm) w) :
    Counts w := by
  refine run_invariant (P := Counts) (G := fun w call =>
    (FreshScreen w call ∧ call.Points w.wm) ∧ Countable w.wm call)
    (fun boot w hw => ?_) (fun e w _ hG => ?_) ?_ (fun _ _ hw _ _ => ⟨hw.1, hw.2, hw.3⟩) h
  · obtain ⟨hz, hc⟩ := hstart boot w hw
    refine ⟨⟨.empty w.wm.uninit, hz, fun _ => rfl⟩, ?_⟩
    exact (((freshScreen_documents hids).boot boot w).and (points_documents.boot boot w)).and hc
  · exact ((atEach_freshScreen e w).and (points_event e w)).and hG
  · rintro call w w' hw ⟨⟨hfresh, hp⟩, hc⟩ hs
    have hwm := (Call.sem_eq_ok.mp hs).2
    refine ⟨?_, ?_, ?_⟩
    · rw [hwm]
      exact hw.unique.call hfresh
    · rw [hwm]
      exact hw.zeroed.layout
    · rw [hwm]
      exact hw.exact'.after_call hw.unique hw.zeroed hp hc

/-- A surface is in the list of a layer of the tree. -/
def InTree (wm : Wm) (surfaceId : Id) : Prop :=
  ∃ s ∈ wm.screenHead, ∃ e ∈ s.listHead, surfaceId ∈ ids e.listHead

theorem references_pos_iff_inTree {wm : Wm} {surfaceId : Id} :
    0 < references (layersOf wm.screenHead) surfaceId ↔ InTree wm surfaceId := by
  rw [references_pos]
  constructor
  · rintro ⟨e, he, hmem⟩
    obtain ⟨s, hs, he⟩ := mem_layersOf.mp he
    exact ⟨s, hs, e, he, hmem⟩
  · rintro ⟨s, hs, e, he, hmem⟩
    exact ⟨e, mem_layersOf.mpr ⟨s, hs, he⟩, hmem⟩

/-- Where the puts are such that copies can be counted, a surface has a record just where it is
in the tree, the record counts its copies, and the check for notifications goes by it. -/
theorem reference_counts_exact {set : Setting σ} (hids : DistinctScreenIds ilm)
    (hstart : ∀ boot w, set.start boot w →
      Zeroed w.wm ∧ CountableCalls ilm (boot.calls ilm w) w.cleared)
    {w : World σ} (h : (daemon ilm set).Run (CountableStep ilm) w)
    (surfaceId : Id) :
    (surfaceId ∈ ids w.wm.surfacePropertiesHead ↔ InTree w.wm surfaceId) ∧
      (∀ e ∈ w.wm.surfacePropertiesHead, e.id = surfaceId →
        e.prop.referredCnt.toNat = references (layersOf w.wm.screenHead) surfaceId) ∧
      (parserCheckRegisteredSurfaceInListTree w.wm surfaceId ≠ 0 ↔ InTree w.wm surfaceId) := by
  obtain ⟨hu, -, hexact⟩ := counts_of_run hids hstart h
  have hs := hexact surfaceId
  have hentry : surfaceId ∈ ids w.wm.surfacePropertiesHead ↔ InTree w.wm surfaceId := by
    rw [← references_pos_iff_inTree, ← record_isSome, Nat.pos_iff_ne_zero, Ne, ← counted_eq_none,
      ← hs, referredCnt, Option.map_eq_none_iff, ← Option.isNone_iff_eq_none]
    cases record w.wm.surfacePropertiesHead surfaceId <;> simp
  refine ⟨hentry, ?_, ?_⟩
  · rintro e he rfl
    have hget : record w.wm.surfacePropertiesHead e.id = some e.prop := by
      rw [record, (getListElement_eq_some hu.records).mpr ⟨he, rfl⟩]
      rfl
    rw [referredCnt, hget, Option.map_some] at hs
    unfold counted at hs
    split at hs
    · cases hs
    · exact Option.some.inj hs
  · rw [← hentry, ← getListElement_isSome]
    unfold parserCheckRegisteredSurfaceInListTree
    cases getListElement w.wm.surfacePropertiesHead surfaceId <;> simp

instance Countable.decidable (wm : Wm) (call : Call) : Decidable (Countable wm call) := by
  unfold Countable
  split <;> infer_instance

instance CountableCalls.decidable (ilm : Ilm σ) (calls : List Call) (w : World σ) :
    Decidable (CountableCalls ilm calls w) :=
  AtEach.decidable _ _ _

instance CountableStep.decidable (ilm : Ilm σ) (a : Action) (w : World σ) :
    Decidable (CountableStep ilm a w) :=
  CountableCalls.decidable _ _ _

/-- Surfaces 10 and 11 are put into layer 3000, which then goes over to the other
screen and loses surface 10. -/
def countedSurfaces : Except Abort (World Compositor) :=
  execute (Compositor.ilm false) ⟨"host", none⟩
    [message "initial_screen" "screens"
        [screenObject 0 "append" [layerObject 3000 [surfaceObject 10, surfaceObject 11]],
          screenObject 1 "append" [layerObject 3000 []]],
      message "remove_surface" "layers" [layerObject 3000 [surfaceObject 10]]]
    (World.fresh [0, 1])

theorem reference_counts_exact_countedSurfaces :
    ∃ w : World Compositor, countedSurfaces = .ok w ∧
      (11 ∈ ids w.wm.surfacePropertiesHead ↔ InTree w.wm 11) ∧
      (∀ e ∈ w.wm.surfacePropertiesHead, e.id = 11 →
        e.prop.referredCnt.toNat = references (layersOf w.wm.screenHead) 11) ∧
      (parserCheckRegisteredSurfaceInListTree w.wm 11 ≠ 0 ↔ InTree w.wm 11) := by
  have hok : countedSurfaces.isOk = true := by decide +kernel
  obtain ⟨w, hw⟩ := exists_ok hok
  have hrun : (daemon (Compositor.ilm false)
      ⟨fun boot w => boot = ⟨"host", none⟩ ∧ w = World.fresh [0, 1], fun _ _ => True⟩).Run
        (CountableStep (Compositor.ilm false)) w :=
    run_of_execute ⟨rfl, rfl⟩ (by decide +kernel) hw
  refine ⟨w, hw, reference_counts_exact (Compositor.distinctScreenIds false) ?_ hrun 11⟩
  rintro _ _ ⟨rfl, rfl⟩
  exact ⟨fun _ => rfl, by decide +kernel⟩

/-- Surface 5100 in two layers, as in the configuration that comes with the program. -/
def sharedSurface : Except Abort (World Compositor) :=
  execute (Compositor.ilm false) ⟨"host", none⟩
    [message "initial_screen" "screens" [screenObject 0 "append"
      [layerObject 3000 [surfaceObject 5100], layerObject 3001 [surfaceObject 5100]]]]
    (World.fresh [0])

theorem reference_counts_wrong :
    ¬ ∀ w, (daemon (Compositor.ilm false)
        ⟨fun _ w => w = World.fresh [0], fun c c' => c' = c⟩).Reachable w →
      ∀ e ∈ w.wm.surfacePropertiesHead,
        e.prop.referredCnt.toNat = references (layersOf w.wm.screenHead) e.id := by
  intro h
  have hend : endsWith (fun w => w.wm.surfacePropertiesHead.any fun e =>
      e.prop.referredCnt.toNat != references (layersOf w.wm.screenHead) e.id) sharedSurface =
        true := by decide +kernel
  obtain ⟨w, hw, hany⟩ := exists_of_endsWith hend
  obtain ⟨e, he, hne⟩ := List.any_eq_true.mp hany
  have heq := h w (reachable_of_execute rfl hw) e he
  rw [heq, bne_self_eq_false] at hne
  cases hne

end UhmiIviWm
