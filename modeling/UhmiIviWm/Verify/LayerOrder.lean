import UhmiIviWm.Verify.Insertion
import UhmiIviWm.Verify.Properties
import UhmiIviWm.Verify.ScreenOrder

/-!
# The surface order of the layers

The compositor is told the surfaces of a layer by a push, of the layer or of its
screen; in between, the tree changes surface by surface. `settles` says what one call
makes of a layer that the step will not push any more: it shows the layer right, or
leaves it as it is, in the tree and in the compositor, but for a surface it takes out
of both. For a put this needs a push that follows it (`Completes`).
-/

namespace UhmiIviWm

open Lib Lib.CallPlan Lib.DeferredMirror Lib.KeyedList

/-! ## What the compositor makes of each call -/

namespace Compositor

variable (c : Compositor)

theorem existing_congr {c c' : Compositor} (h : c'.surfaces = c.surfaces) {e e' : LayerElm}
    (hids : ids e'.listHead = ids e.listHead) : c'.existing e' = c.existing e := by
  rw [existing, existing, hids, h]

theorem mem_existing {s : Id} {e : LayerElm} :
    s ∈ c.existing e ↔ s ∈ ids e.listHead ∧ s ∈ c.surfaces := by
  rw [existing, List.mem_filter, List.contains_iff_mem]

@[simp] theorem setSurface_layerOrder (prop : SurfaceProperties) (id : Id) :
    (c.setSurface prop id).layerOrder = c.layerOrder := by
  unfold setSurface
  split <;> rfl

theorem setLayer_layerOrder (prop : LayerProperties) (id l : Id) :
    (c.setLayer prop id).layerOrder l =
      if l = id ∧ id ∉ c.layers then [] else c.layerOrder l := by
  simp only [setLayer, ensureLayer, List.contains_iff_mem]
  by_cases hid : id ∈ c.layers
  · simp [hid]
  · simp only [hid, if_false, not_false_eq_true, and_true, apply, setAt]

theorem setLayer_layerOrder_of_mem (prop : LayerProperties) {id : Id} (h : id ∈ c.layers) (l : Id) :
    (c.setLayer prop id).layerOrder l = c.layerOrder l := by
  rw [setLayer_layerOrder, if_neg fun hnot => hnot.2 h]

@[simp] theorem setLayer_surfaces (prop : LayerProperties) (id : Id) :
    (c.setLayer prop id).surfaces = c.surfaces := c.ensureLayer_surfaces prop id

@[simp] theorem setLayer_pending (prop : LayerProperties) (id : Id) :
    (c.setLayer prop id).pending = c.pending := by
  simp only [setLayer, ensureLayer]
  split <;> rfl

theorem pushSurfaces_layerOrder (e : LayerElm) (l : Id) :
    (c.pushSurfaces e).layerOrder l = if l = e.id then c.existing e else c.layerOrder l := rfl

theorem pushLayers_layerOrder_of_notMem {l : List LayerElm} {id : Id} (h : id ∉ ids l) :
    (c.pushLayers l).layerOrder id = c.layerOrder id := by
  induction l generalizing c with
  | nil => rfl
  | cons e rest ih =>
    rw [ids_cons, List.mem_cons, not_or] at h
    refine (ih _ h.2).trans ?_
    rw [pushSurfaces_layerOrder, if_neg h.1, setLayer_layerOrder, if_neg fun hid => h.1 hid.1]

theorem pushLayers_layerOrder_of_mem {l : List LayerElm} (nd : (ids l).Nodup) {e : LayerElm}
    (he : e ∈ l) : (c.pushLayers l).layerOrder e.id = c.existing e := by
  induction l generalizing c with
  | nil => exact nomatch he
  | cons x rest ih =>
    rw [ids_cons, List.nodup_cons] at nd
    rcases List.mem_cons.mp he with rfl | he
    · refine (pushLayers_layerOrder_of_notMem _ nd.1).trans ?_
      rw [pushSurfaces_layerOrder, if_pos rfl]
      exact existing_congr (c.setLayer_surfaces e.prop e.id) rfl
    · refine (ih _ nd.2 he).trans ?_
      exact existing_congr (c.setLayer_surfaces x.prop x.id) rfl

/-- A surface is placed in a layer: the layer is shown right if it lists the surface. -/
theorem placeInLayer_eq (prop : SurfaceProperties) (surfaceId : Id) (e : LayerElm) :
    (c.placeInLayer prop surfaceId e).surfaces = c.surfaces ∧
      ∀ l, (c.placeInLayer prop surfaceId e).layerOrder l =
        if l = e.id ∧ surfaceId ∈ ids e.listHead then c.existing e else c.layerOrder l := by
  unfold placeInLayer
  generalize e.listHead = xs
  induction xs generalizing c with
  | nil => exact ⟨rfl, fun l => by simp⟩
  | cons x xs ih =>
    rw [List.foldl_cons]
    by_cases hx : surfaceId = x.id
    · rw [if_pos hx]
      obtain ⟨hsurfaces, horder⟩ := ih ((c.setSurface prop surfaceId).pushSurfaces e)
      have hset : ((c.setSurface prop surfaceId).pushSurfaces e).surfaces = c.surfaces :=
        c.setSurface_surfaces prop surfaceId
      refine ⟨hsurfaces.trans hset, fun l => (horder l).trans ?_⟩
      rw [existing_congr hset rfl, pushSurfaces_layerOrder, setSurface_layerOrder,
        existing_congr (c.setSurface_surfaces prop surfaceId) rfl]
      by_cases hl : l = e.id
      · simp [hl, hx]
      · simp [hl]
    · rw [if_neg hx]
      obtain ⟨hsurfaces, horder⟩ := ih c
      refine ⟨hsurfaces, fun l => (horder l).trans ?_⟩
      simp [hx]

theorem place_eq (prop : SurfaceProperties) (surfaceId : Id) {l : List LayerElm}
    (nd : (ids l).Nodup) :
    (c.place prop surfaceId l).surfaces = c.surfaces ∧
      (∀ x ∉ ids l, (c.place prop surfaceId l).layerOrder x = c.layerOrder x) ∧
      ∀ e ∈ l, (c.place prop surfaceId l).layerOrder e.id =
        if surfaceId ∈ ids e.listHead then c.existing e else c.layerOrder e.id := by
  induction l generalizing c with
  | nil => exact ⟨rfl, fun _ _ => rfl, nofun⟩
  | cons e rest ih =>
    rw [ids_cons, List.nodup_cons] at nd
    obtain ⟨hsame, hplaced⟩ := c.placeInLayer_eq prop surfaceId e
    obtain ⟨hsurfaces, hother, hlisted⟩ := ih (c.placeInLayer prop surfaceId e) nd.2
    refine ⟨hsurfaces.trans hsame, fun x hx => ?_, fun x hx => ?_⟩
    · rw [ids_cons, List.mem_cons, not_or] at hx
      refine (hother x hx.2).trans ((hplaced x).trans (if_neg fun h => hx.1 h.1))
    · rcases List.mem_cons.mp hx with rfl | hx
      · refine (hother x.id nd.1).trans ((hplaced x.id).trans ?_)
        simp
      · have hne : ¬ (x.id = e.id ∧ surfaceId ∈ ids e.listHead) :=
          fun h => nd.1 (h.1 ▸ mem_ids_of_mem hx)
        refine (hlisted x hx).trans ?_
        rw [existing_congr hsame rfl, hplaced, if_neg hne]

theorem keeps_surfaces (call : Call) (surfaces : List Id) :
    call.Keeps fun c => c.surfaces = surfaces where
  setLayer _ c prop layerId h := (c.setLayer_surfaces prop layerId).trans h
  setSurface surfaceId _ _ c prop h := (c.setSurface_surfaces prop surfaceId).trans h
  pushSurfaces _ _ h := h
  orderLayers _ _ _ _ _ h := h
  removeLayer layerId _ c h := by
    unfold removeLayer
    split
    · exact h
    · exact h
  removeSurface layerElm surfaceId _ c h := by
    unfold removeSurface
    split
    · exact h
    · exact h
  register strict c surfaceId h := by
    unfold register
    split
    · exact h
    · exact h

theorem onCall_surfaces (wm : Wm) (call : Call) : (onCall false wm call c).surfaces = c.surfaces :=
  (keeps_surfaces call c.surfaces).onCall wm rfl

end Compositor

namespace Compositor

variable {c : Compositor}

theorem mem_pending_setSurface {s : Id} (h : s ∈ c.pending) (prop : SurfaceProperties)
    (surfaceId : Id) :
    s ∈ (c.setSurface prop surfaceId).pending ∨ s = surfaceId ∧ s ∈ c.surfaces := by
  unfold setSurface
  split
  · rename_i hex
    by_cases hs : s = surfaceId
    · exact .inr ⟨hs, hs ▸ List.contains_iff_mem.mp hex⟩
    · exact .inl (List.mem_filter.mpr ⟨h, by simpa using hs⟩)
  · exact .inl h

/-- The surface stays registered unless the call cancels its notification. -/
theorem keeps_pending (call : Call) (s : Id) (surfaces : List Id) :
    call.Keeps fun c => c.surfaces = surfaces ∧
      (s ∈ c.pending ∨ call.cancels = some s ∧ s ∈ surfaces) where
  setLayer _ c prop layerId h := by rwa [setLayer_surfaces, setLayer_pending]
  setSurface surfaceId hcancels _ c prop h := by
    refine ⟨(c.setSurface_surfaces prop surfaceId).trans h.1, ?_⟩
    rcases h.2 with hpending | hcancelled
    · refine (mem_pending_setSurface hpending prop surfaceId).imp_right fun hs => ?_
      exact ⟨hs.1 ▸ hcancels, h.1 ▸ hs.2⟩
    · exact .inr hcancelled
  pushSurfaces _ _ h := h
  orderLayers _ _ _ _ _ h := h
  removeLayer layerId _ c h := by
    unfold removeLayer
    split
    · exact h
    · exact h
  removeSurface layerElm surfaceId hcall c h := by
    unfold removeSurface
    split
    · rename_i hex
      refine ⟨h.1, ?_⟩
      by_cases hs : s = surfaceId
      · exact .inr ⟨by rw [hcall, hs]; rfl, h.1 ▸ hs ▸ List.contains_iff_mem.mp hex⟩
      · exact h.2.imp_left fun hmem => List.mem_filter.mpr ⟨hmem, by simpa using hs⟩
    · exact h
  register strict c surfaceId h := by
    unfold register
    split
    · exact h.imp_right (·.imp_left (List.mem_cons_of_mem surfaceId))
    · exact h

/-- A registration is lost only to a call that cancels it. -/
theorem mem_pending_onCall {s : Id} (h : s ∈ c.pending) (wm : Wm) (call : Call) :
    s ∈ (onCall false wm call c).pending ∨ call.cancels = some s ∧ s ∈ c.surfaces :=
  ((keeps_pending call s c.surfaces).onCall wm ⟨rfl, .inl h⟩).2

end Compositor

/-! ## Layers that are pushed later -/

/-- The calls still to be made push the layer, or clear the tree. -/
def refreshedLater (rest : List Call) (l : Id) : Bool :=
  rest.any fun
    | .pushLayer layerElm => layerElm == l
    | .removeAll => true
    | _ => false

/-- The layer, or a screen that has it, is pushed before the step ends. -/
def Late (t : List ScreenElm) (rest : List Call) (l : Id) : Prop :=
  refreshedLater rest l = true ∨ Moving (layerLists t) (pushedLater rest) l

instance (t : List ScreenElm) (rest : List Call) (l : Id) : Decidable (Late t rest l) :=
  inferInstanceAs (Decidable (_ ∨ _))

def Call.refreshes : Call → Bool
  | .pushScreen _ | .pushLayer _ | .removeAll => true
  | _ => false

/-- The calls that change which layers a screen lists. -/
def Call.movesLayers : Call → Bool
  | .putLayer .. | .removeLayer _ | .removeAll => true
  | _ => false

section Late

variable {t : List ScreenElm} {rest : List Call} {call : Call} {l : Id}

theorem not_late_nil : ¬ Late t [] l := by
  rintro (h | ⟨_, _, h, _⟩) <;> cases h

theorem late_cons (h : call.refreshes = false) : Late t (call :: rest) l ↔ Late t rest l := by
  cases call <;> first | exact Iff.rfl | cases h

theorem Moving.of_map {p : Id → Bool} {g : ScreenElm → ScreenElm} (hid : ∀ s, (g s).id = s.id)
    (hmem : ∀ s, l ∈ ids s.listHead → l ∈ ids (g s).listHead)
    (h : Moving (layerLists t) p l) : Moving (layerLists (t.map g)) p l := by
  obtain ⟨q, hq, hp, hl⟩ := h
  obtain ⟨s, hs, rfl⟩ := mem_layerLists.mp hq
  refine ⟨_, mem_layerLists.mpr ⟨g s, List.mem_map_of_mem hs, rfl⟩, ?_, hmem s hl⟩
  rw [hid]
  exact hp

/-- A layer stays late unless the call is about it. -/
theorem Late.after_call {wm : Wm} (h : Late wm.screenHead rest l) (hu : Unique wm)
    (hput : ∀ screenElm obj info, call ≠ .putLayer screenElm obj l info)
    (hremove : call ≠ .removeLayer l) (hall : call ≠ .removeAll) :
    Late (call.layout wm).screenHead rest l := by
  refine h.imp_right fun hmoving => ?_
  rcases layerLists_layout wm call with ⟨screenElm, obj, layerId, info, rfl⟩ | ⟨layerId, rfl⟩ |
    rfl | hkeep | ⟨screenId, -, hadd⟩
  · have hne : l ≠ layerId := fun e => hput screenElm obj info (by rw [e])
    rw [hu.screenHead_putLayer_eq_map]
    refine Moving.of_map (putInto_id screenElm _ info) (fun s hl => ?_) hmoving
    have hdrop : l ∈ ids (dropLayer (wm.layerToPut obj layerId).id s).listHead :=
      mem_ids_dropLayer.mpr ⟨hl, by rwa [layerToPut_id]⟩
    unfold putInto
    split
    · exact mem_ids_insertListElement.mpr (.inr hdrop)
    · exact hdrop
  · have hne : l ≠ layerId := fun e => hremove (by rw [e])
    rw [hu.screenHead_removeLayer_eq_map]
    exact Moving.of_map (fun _ => rfl) (fun s hl => mem_ids_dropLayer.mpr ⟨hl, hne⟩) hmoving
  · exact absurd rfl hall
  · rw [hkeep]
    exact hmoving
  · obtain ⟨q, hq, hp⟩ := hmoving
    rw [hadd]
    exact ⟨q, List.mem_append_left _ hq, hp⟩

theorem Late.after_other {wm : Wm} (h : Late wm.screenHead rest l) (hu : Unique wm)
    (hother : call.movesLayers = false) : Late (call.layout wm).screenHead rest l := by
  refine h.after_call hu ?_ ?_ ?_
  · rintro screenElm obj info rfl
    cases hother
  · rintro rfl
    cases hother
  · rintro rfl
    cases hother

end Late

/-! ## One call -/

/-- A put is made good by a push that follows it, unless it needs none. -/
def Completes (w : World Compositor) : Call → List Call → Prop
  | .putLayer screenElm _ layerId info, rest =>
    info.order = .none ∨ refreshedLater rest layerId = true ∨ pushedLater rest screenElm = true ∨
      if layerId ∈ w.wm.layerIds then
        ¬ Moving (layerLists w.wm.screenHead) (pushedLater rest) layerId
      else layerId ∈ w.ilm.layers → w.ilm.layerOrder layerId = []
  | .putSurface layerElm _ surfaceId _, rest =>
    surfaceId ∈ w.ilm.surfaces → Late w.wm.screenHead rest layerElm
  | _, _ => True

/-- The call leaves a layer as it is, in the tree and in the compositor, but for what it takes out
of both. -/
structure Stays (w : World Compositor) (call : Call) (rest : List Call) (l : Id) (e' : LayerElm) :
    Prop where
  late : ¬ Late w.wm.screenHead (call :: rest) l
  both : ∃ e p, getLayer w.wm.screenHead l = some e ∧
    (Compositor.onCall false w.wm call w.ilm).existing e' = (w.ilm.existing e).filter p ∧
    (Compositor.onCall false w.wm call w.ilm).layerOrder l = (w.ilm.layerOrder l).filter p
  removed : ∀ s, call = .removeSurface l s →
    s ∉ (Compositor.onCall false w.wm call w.ilm).existing e'

/-- What a call makes of the layers that are not pushed later: it shows a layer right, or leaves
it as it is. -/
def Settles (w : World Compositor) (call : Call) (rest : List Call) : Prop :=
  ∀ l e', getLayer (call.layout w.wm).screenHead l = some e' →
    ¬ Late (call.layout w.wm).screenHead rest l →
    (Compositor.onCall false w.wm call w.ilm).layerOrder l =
        (Compositor.onCall false w.wm call w.ilm).existing e' ∨ Stays w call rest l e'

section Step

variable {w : World Compositor} {call : Call} {rest : List Call} {l : Id}

theorem Stays.same {e e' : LayerElm} (hlate : ¬ Late w.wm.screenHead (call :: rest) l)
    (he : getLayer w.wm.screenHead l = some e)
    (hexisting : (Compositor.onCall false w.wm call w.ilm).existing e' = w.ilm.existing e)
    (horder : (Compositor.onCall false w.wm call w.ilm).layerOrder l = w.ilm.layerOrder l)
    (hremove : ∀ s, call ≠ .removeSurface l s) : Stays w call rest l e' where
  late := hlate
  both := ⟨e, fun _ => true, he, by rw [List.filter_true, hexisting],
    by rw [List.filter_true, horder]⟩
  removed := fun s h => absurd h (hremove s)

theorem late_putLayer (hu : Unique w.wm) {screenElm : Id} {obj : Json} {info : InsertInfo}
    (hin : Inserts w.wm.screenHead screenElm info) (h : pushedLater rest screenElm = true) :
    Late ((Call.putLayer screenElm obj l info).layout w.wm).screenHead rest l := by
  obtain ⟨s, hs, rfl⟩ := mem_ids.mp hin.2
  rw [hu.screenHead_putLayer_eq_map]
  refine .inr ⟨_, mem_layerLists.mpr ⟨_, List.mem_map_of_mem hs, rfl⟩, ?_, ?_⟩
  · rw [putInto_id]
    exact h
  · rw [putInto, if_pos rfl]
    exact mem_ids_insertListElement.mpr (.inl ⟨hin.1, (layerToPut_id w.wm obj l).symm⟩)

theorem settles_putLayer (hu : Unique w.wm) (hx : ∀ l ∈ w.wm.layerIds, l ∈ w.ilm.layers)
    {screenElm layerId : Id} {obj : Json} {info : InsertInfo}
    (hc : Completes w (.putLayer screenElm obj layerId info) rest) :
    Settles w (.putLayer screenElm obj layerId info) rest := by
  intro l e' he' hlate
  rw [hu.getLayer_putLayer] at he'
  have horder : (Compositor.onCall false w.wm (.putLayer screenElm obj layerId info)
      w.ilm).layerOrder l = if l = layerId ∧ layerId ∉ w.ilm.layers then []
        else w.ilm.layerOrder l := w.ilm.setLayer_layerOrder _ _ _
  by_cases hl : l = layerId
  · subst hl
    rw [if_pos rfl] at he'
    split at he'
    · rename_i hin
      cases he'
      have hitself : refreshedLater rest l = false := eq_false_of_ne_true fun h => hlate (.inl h)
      have hscreen : pushedLater rest screenElm = false :=
        eq_false_of_ne_true fun h => hlate (late_putLayer hu hin h)
      rcases hc with hnone | h | h | hc
      · exact absurd hnone hin.1
      · cases hitself.symm.trans h
      · cases hscreen.symm.trans h
      · by_cases hmem : l ∈ w.wm.layerIds
        · -- it stands on another screen, and is right there
          rw [if_pos hmem] at hc
          obtain ⟨e, he⟩ := Option.isSome_iff_exists.mp (getLayer_isSome.mpr hmem)
          refine .inr (.same (fun h => ?_) he ?_ ?_ (by simp))
          · rcases (late_cons rfl).mp h with h | h
            · cases hitself.symm.trans h
            · exact hc h
          · refine Compositor.existing_congr (w.ilm.onCall_surfaces w.wm _) ?_
            rw [Wm.layerToPut, he]
          · rw [horder, if_neg fun h => h.2 (hx l hmem)]
        · rw [if_neg hmem] at hc
          refine .inl ?_
          have hempty : (w.wm.layerToPut obj l).listHead = [] := by
            rw [Wm.layerToPut, getLayer_eq_none.mpr hmem]
          rw [horder, Compositor.existing, hempty]
          split
          · rfl
          · rename_i hl
            exact hc (by_contra fun h => hl ⟨rfl, h⟩)
    · cases he'
  · rw [if_neg hl] at he'
    refine .inr (.same (fun h => hlate ?_) he' ?_ ?_ (by simp))
    · exact ((late_cons rfl).mp h).after_call hu (fun _ _ _ h => hl (by cases h; rfl)) (by simp)
        (by simp)
    · exact Compositor.existing_congr (w.ilm.onCall_surfaces w.wm _) rfl
    · rw [horder, if_neg fun h => hl h.1]

theorem existing_reinsert {c : Compositor} {surfaceId : Id} (h : surfaceId ∉ c.surfaces)
    (info : InsertInfo) {e : LayerElm} (nd : (ids e.listHead).Nodup) :
    c.existing (reinsert surfaceId info e) = c.existing e := by
  have hmove : (ids (reinsert surfaceId info e).listHead).filter (· ≠ surfaceId) =
      (ids e.listHead).filter (· ≠ surfaceId) := by
    rw [ids_reinsert nd]
    by_cases horder : info.order = .none
    · rw [Moves.move, InsertInfo.put, horder, List.filter_filter]
      simp
    · exact (InsertInfo.puts horder).filter_move _ _
  have hskip : ∀ l : List Id, (l.filter (· ≠ surfaceId)).filter (fun s => c.surfaces.contains s) =
      l.filter fun s => c.surfaces.contains s := by
    intro l
    rw [List.filter_filter]
    refine List.filter_congr fun s _ => ?_
    by_cases hs : s = surfaceId
    · simp [hs, h]
    · simp [hs]
  rw [Compositor.existing, Compositor.existing, ← hskip, hmove, hskip]

theorem settles_putSurface (hu : Unique w.wm) {layerElm surfaceId : Id} {obj : Json}
    {info : InsertInfo} (hc : Completes w (.putSurface layerElm obj surfaceId info) rest) :
    Settles w (.putSurface layerElm obj surfaceId info) rest := by
  intro l e' he' hlate
  have hsurfaces := w.ilm.onCall_surfaces w.wm (.putSurface layerElm obj surfaceId info)
  have horder : (Compositor.onCall false w.wm (.putSurface layerElm obj surfaceId info)
      w.ilm).layerOrder = w.ilm.layerOrder := by
    simp only [Compositor.onCall]
    split
    · rfl
    · exact w.ilm.setSurface_layerOrder _ _
  have hbefore : ¬ Late w.wm.screenHead rest l := fun h =>
    hlate (h.after_other hu rfl)
  cases hput : w.wm.surfaceToPut layerElm obj surfaceId with
  | none =>
    simp only [Call.layout, hput] at he'
    exact .inr (.same (fun h => hbefore ((late_cons rfl).mp h)) he'
      (Compositor.existing_congr hsurfaces rfl) (congrFun horder l) (by simp))
  | some prop =>
    rw [getLayer_putSurface hput] at he'
    split at he'
    · rename_i hl
      obtain ⟨e, he, rfl⟩ := Option.map_eq_some_iff.mp he'
      have habsent : surfaceId ∉ w.ilm.surfaces := fun hex => hbefore (hl ▸ hc hex)
      refine .inr (.same (fun h => hbefore ((late_cons rfl).mp h)) he ?_ (congrFun horder l)
        (by simp))
      rw [Compositor.existing_congr hsurfaces rfl]
      exact existing_reinsert habsent info (hu.surfaces_of_getLayer he)
    · exact .inr (.same (fun h => hbefore ((late_cons rfl).mp h)) he'
        (Compositor.existing_congr hsurfaces rfl) (congrFun horder l) (by simp))

theorem settles_pushScreen (hu : Unique w.wm) {screenElm : Id} (hp : screenElm ∈ w.wm.screenIds) :
    Settles w (.pushScreen screenElm) rest := by
  intro l e' he' hlate
  obtain ⟨s, hs, rfl⟩ := mem_ids.mp hp
  have hget : getListElement w.wm.screenHead s.id = some s :=
    (getListElement_eq_some hu.screens).mpr ⟨hs, rfl⟩
  have hcall : Compositor.onCall false w.wm (.pushScreen s.id) w.ilm = w.ilm.pushScreen s := by
    rw [Compositor.onCall, hget]
  have horder : (Compositor.onCall false w.wm (.pushScreen s.id) w.ilm).layerOrder =
      (w.ilm.pushLayers s.listHead).layerOrder := by
    rw [hcall]
    rfl
  have hexisting : (Compositor.onCall false w.wm (.pushScreen s.id) w.ilm).existing e' =
      w.ilm.existing e' := Compositor.existing_congr (w.ilm.onCall_surfaces w.wm _) rfl
  obtain ⟨hmem, rfl⟩ := hu.getLayer_iff.mp he'
  by_cases hl : e'.id ∈ ids s.listHead
  · -- a layer of the screen
    obtain ⟨e, he, hid⟩ := mem_ids.mp hl
    obtain rfl : e = e' := eq_of_id_eq hu.layers (mem_layersOf.mpr ⟨s, hs, he⟩) hmem hid
    refine .inl ?_
    rw [horder, hexisting]
    exact w.ilm.pushLayers_layerOrder_of_mem (hu.layers_of_screen hs) he
  · refine .inr (.same ?_ he' hexisting ?_ (by simp))
    · rintro (h | ⟨q, hq, hpushed, hlq⟩)
      · exact hlate (.inl h)
      · refine hlate (.inr ⟨q, hq, ?_, hlq⟩)
        rw [pushedLater, List.any_cons, Bool.or_eq_true] at hpushed
        refine hpushed.resolve_left fun hid => ?_
        obtain ⟨s', hs', rfl⟩ := mem_layerLists.mp hq
        have hsame : s.id = s'.id := by simpa using hid
        exact hl (eq_of_id_eq hu.screens hs hs' hsame ▸ hlq)
    · rw [horder]
      exact w.ilm.pushLayers_layerOrder_of_notMem hl

theorem settles_pushLayer {layerElm : Id} : Settles w (.pushLayer layerElm) rest := by
  intro l e' he' hlate
  have hexisting : (Compositor.onCall false w.wm (.pushLayer layerElm) w.ilm).existing e' =
      w.ilm.existing e' := Compositor.existing_congr (w.ilm.onCall_surfaces w.wm _) rfl
  by_cases hl : l = layerElm
  · subst hl
    refine .inl ?_
    have he : getLayer w.wm.screenHead l = some e' := he'
    rw [hexisting, Compositor.onCall, he]
    exact (w.ilm.pushSurfaces_layerOrder e' l).trans (if_pos (mem_of_getLayer he).2.symm)
  · refine .inr (.same ?_ he' hexisting ?_ (by simp))
    · rintro (h | h)
      · rw [refreshedLater, List.any_cons, Bool.or_eq_true] at h
        refine hlate (.inl (h.resolve_left fun hid => hl ?_))
        simpa using (beq_iff_eq.mp hid).symm
      · exact hlate (.inr h)
    · rw [Compositor.onCall]
      cases he : getLayer w.wm.screenHead layerElm with
      | none => rfl
      | some e =>
        rw [Compositor.pushSurfaces_layerOrder, (mem_of_getLayer he).2, if_neg hl]

theorem settles_removeLayer (hu : Unique w.wm) {layerId : Id} :
    Settles w (.removeLayer layerId) rest := by
  intro l e' he' hlate
  rw [hu.getLayer_removeLayer] at he'
  by_cases hl : l = layerId
  · rw [if_pos hl] at he'
    cases he'
  · rw [if_neg hl] at he'
    refine .inr (.same (fun h => hlate ?_) he' ?_ ?_ (by simp))
    · exact ((late_cons rfl).mp h).after_call hu (by simp) (fun h => hl (by cases h; rfl))
        (by simp)
    · exact Compositor.existing_congr (w.ilm.onCall_surfaces w.wm _) rfl
    · simp only [Compositor.onCall, Compositor.removeLayer]
      split
      · exact setAt_of_ne _ _ hl
      · rfl

theorem existing_dropSurface (c : Compositor) (surfaceId : Id) {e : LayerElm}
    (nd : (ids e.listHead).Nodup) :
    c.existing (dropSurface surfaceId e) = (c.existing e).filter (· ≠ surfaceId) := by
  rw [Compositor.existing, Compositor.existing, dropSurface, ids_eraseP, nd.erase_eq_filter,
    List.filter_filter, List.filter_filter]
  refine List.filter_congr fun s _ => ?_
  rw [Bool.eq_iff_iff]
  simp [and_comm]

theorem settles_removeSurface (hu : Unique w.wm) {layerElm surfaceId : Id} :
    Settles w (.removeSurface layerElm surfaceId) rest := by
  intro l e' he' hlate
  have hexisting : (Compositor.onCall false w.wm (.removeSurface layerElm surfaceId) w.ilm).existing
      e' = w.ilm.existing e' := Compositor.existing_congr (w.ilm.onCall_surfaces w.wm _) rfl
  have hbefore : ¬ Late w.wm.screenHead (.removeSurface layerElm surfaceId :: rest) l := fun h =>
    hlate (((late_cons rfl).mp h).after_other hu rfl)
  rw [getLayer_removeSurface] at he'
  by_cases hl : l = layerElm
  · subst hl
    rw [if_pos rfl] at he'
    obtain ⟨e, he, rfl⟩ := Option.map_eq_some_iff.mp he'
    have hdrop := existing_dropSurface w.ilm surfaceId (hu.surfaces_of_getLayer he)
    refine .inr ⟨hbefore, ?_, ?_⟩
    · rw [hexisting, hdrop]
      simp only [Compositor.onCall, Compositor.removeSurface]
      split
      · refine ⟨e, (· ≠ surfaceId), he, rfl, (setAt_self _ _ _).trans ?_⟩
        refine List.filter_congr fun s _ => ?_
        rw [Bool.eq_iff_iff]
        simp
      · -- what does not exist is taken out of the tree alone
        rename_i habsent
        refine ⟨e, fun _ => true, he, ?_, (List.filter_true _).symm⟩
        rw [List.filter_true]
        refine List.filter_eq_self.mpr fun s hs => decide_eq_true fun h => habsent ?_
        exact List.contains_iff_mem.mpr (h ▸ (w.ilm.mem_existing.mp hs).2)
    · rintro s ⟨⟩ hs
      rw [hexisting, hdrop] at hs
      simp at hs
  · rw [if_neg hl] at he'
    refine .inr (.same hbefore he' hexisting ?_ fun s h => hl (by cases h; rfl))
    simp only [Compositor.onCall, Compositor.removeSurface]
    split
    · exact setAt_of_ne _ _ hl
    · rfl

theorem settles_modifyLayer (hu : Unique w.wm) (hx : ∀ l ∈ w.wm.layerIds, l ∈ w.ilm.layers)
    {layerId : Id} {obj : Json} : Settles w (.modifyLayer layerId obj) rest := by
  intro l e' he' hlate
  have hsurfaces := w.ilm.onCall_surfaces w.wm (.modifyLayer layerId obj)
  have hbefore : ¬ Late w.wm.screenHead (.modifyLayer layerId obj :: rest) l := fun h =>
    hlate (((late_cons rfl).mp h).after_other hu rfl)
  cases he : getLayer w.wm.screenHead layerId with
  | none =>
    simp only [Call.layout, he] at he'
    refine .inr (.same hbefore he' (Compositor.existing_congr hsurfaces rfl) ?_ (by simp))
    rw [Compositor.onCall, he]
  | some e =>
    have hlayer : layerId ∈ w.ilm.layers := hx _ (getLayer_isSome.mp (by rw [he]; rfl))
    have horder : (Compositor.onCall false w.wm (.modifyLayer layerId obj) w.ilm).layerOrder l =
        w.ilm.layerOrder l := by
      rw [Compositor.onCall, he]
      exact w.ilm.setLayer_layerOrder_of_mem _ hlayer l
    rw [getLayer_modifyLayer he] at he'
    split at he'
    · rename_i hl
      cases he'
      exact .inr (.same (e := e) hbefore (hl ▸ he) (Compositor.existing_congr hsurfaces rfl) horder
        (by simp))
    · exact .inr (.same hbefore he' (Compositor.existing_congr hsurfaces rfl) horder (by simp))

theorem settles_place (hu : Unique w.wm) {surfaceId : Id} : Settles w (.place surfaceId) rest := by
  intro l e' he' hlate
  obtain ⟨hmem, rfl⟩ := hu.getLayer_iff.mp he'
  have hexisting : (Compositor.onCall false w.wm (.place surfaceId) w.ilm).existing e' =
      w.ilm.existing e' := Compositor.existing_congr (w.ilm.onCall_surfaces w.wm _) rfl
  have horder := (w.ilm.place_eq ((record w.wm.surfacePropertiesHead surfaceId).getD .zero)
    surfaceId hu.layers).2.2 e' hmem
  by_cases hs : surfaceId ∈ ids e'.listHead
  · refine .inl ?_
    rw [hexisting]
    exact horder.trans (if_pos hs)
  · exact .inr (.same hlate he' hexisting (horder.trans (if_neg hs)) (by simp))

/-- A call that leaves the layers of the tree and the orders of the compositor alone. -/
theorem settles_of_same (hu : Unique w.wm) (hrefreshes : call.refreshes = false)
    (hmoves : call.movesLayers = false) (hremoveSurface : ∀ l s, call ≠ .removeSurface l s)
    (hlayers : ∀ l, getLayer (call.layout w.wm).screenHead l = getLayer w.wm.screenHead l)
    (horder : (Compositor.onCall false w.wm call w.ilm).layerOrder = w.ilm.layerOrder) :
    Settles w call rest := by
  intro l e' he' hlate
  have hbefore : ¬ Late w.wm.screenHead (call :: rest) l := fun h =>
    hlate (((late_cons hrefreshes).mp h).after_other hu hmoves)
  refine .inr (.same hbefore ((hlayers l).symm.trans he') ?_ (congrFun horder l) (hremoveSurface l))
  exact Compositor.existing_congr (w.ilm.onCall_surfaces w.wm call) rfl

theorem settles (hu : Unique w.wm) (hx : ∀ l ∈ w.wm.layerIds, l ∈ w.ilm.layers)
    (hp : call.Points w.wm) (hc : Completes w call rest) : Settles w call rest := by
  have hopen : ∀ screenId l, getLayer ((Call.openScreen screenId).layout w.wm).screenHead l =
      getLayer w.wm.screenHead l := by
    intro screenId l
    simp only [Call.layout]
    split
    · exact getLayer_addScreen screenId l
    · rfl
  have hmodify : ∀ surfaceId obj l,
      getLayer ((Call.modifySurface surfaceId obj).layout w.wm).screenHead l =
        getLayer w.wm.screenHead l := by
    intro surfaceId obj l
    simp only [Call.layout]
    split <;> rfl
  cases call with
  | putLayer => exact settles_putLayer hu hx hc
  | putSurface => exact settles_putSurface hu hc
  | pushScreen => exact settles_pushScreen hu hp
  | pushLayer => exact settles_pushLayer
  | removeLayer => exact settles_removeLayer hu
  | removeSurface => exact settles_removeSurface hu
  | modifyLayer => exact settles_modifyLayer hu hx
  | place => exact settles_place hu
  | removeAll =>
    intro l e' he'
    cases he'
  | openScreen screenId =>
    exact settles_of_same hu rfl rfl (by simp) (hopen screenId) rfl
  | addScreen screenId =>
    exact settles_of_same hu rfl rfl (by simp) (getLayer_addScreen screenId) rfl
  | modifySurface surfaceId obj =>
    refine settles_of_same hu rfl rfl (by simp) (hmodify surfaceId obj) ?_
    simp only [Compositor.onCall]
    split
    · rfl
    · exact w.ilm.setSurface_layerOrder _ _
  | register =>
    refine settles_of_same hu rfl rfl (by simp) (fun _ => rfl) ?_
    simp only [Compositor.onCall, Compositor.register]
    split
    · rfl
    · split <;> rfl
  | findScreen | askScreenIds | setCallback =>
    exact settles_of_same hu rfl rfl (by simp) (fun _ => rfl) rfl

end Step

end UhmiIviWm
