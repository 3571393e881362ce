import UhmiIviWm.Verify.Unique
import UhmiIviWm.Verify.Wrappers

/-!
# The compositor shows the stored properties

Every path that writes the properties of a layer or of a surface pushes what it
has written, to the id it has written it for. `Mirrors` states the outcome
between any two calls: the look of a layer of the tree is the stored one, and
that of a surface with a record is the stored one or was never set.

A layer's look is tied to its id, so unique layer ids are part of the invariant:
with two layers of one id the pushes of one would undo those of the other.
-/

namespace UhmiIviWm

open Lib Lib.CallPlan Lib.KeyedList

/-! ## Looks -/

namespace Compositor

variable (c : Compositor)

@[simp] theorem ensureLayer_surfaces (prop : LayerProperties) (id : Id) :
    (c.ensureLayer prop id).surfaces = c.surfaces := by
  unfold ensureLayer
  split <;> rfl

@[simp] theorem ensureLayer_surfaceLook (prop : LayerProperties) (id : Id) :
    (c.ensureLayer prop id).surfaceLook = c.surfaceLook := by
  unfold ensureLayer
  split <;> rfl

theorem setLayer_layerLook (prop : LayerProperties) (id : Id) :
    (c.setLayer prop id).layerLook = setAt c.layerLook id prop.lp.look := by
  simp only [setLayer, ensureLayer]
  split
  · rfl
  · simp only [apply, setAt_setAt]

@[simp] theorem setSurface_layerLook (prop : SurfaceProperties) (id : Id) :
    (c.setSurface prop id).layerLook = c.layerLook := by
  unfold setSurface
  split <;> rfl

@[simp] theorem setSurface_surfaces (prop : SurfaceProperties) (id : Id) :
    (c.setSurface prop id).surfaces = c.surfaces := by
  unfold setSurface
  split <;> rfl

theorem setSurface_surfaceLook (prop : SurfaceProperties) (id : Id) :
    (c.setSurface prop id).surfaceLook =
      if id ∈ c.surfaces then setAt c.surfaceLook id prop.lp.look else c.surfaceLook := by
  simp only [setSurface, List.contains_iff_mem]
  split <;> rfl

/-- Pushing layers whose looks are up to date changes no look. -/
theorem pushLayers_layerLook {l : List LayerElm}
    (h : ∀ e ∈ l, c.layerLook e.id = e.prop.lp.look) : (c.pushLayers l).layerLook = c.layerLook := by
  induction l generalizing c with
  | nil => rfl
  | cons e rest ih =>
    have hsame : ((c.setLayer e.prop e.id).pushSurfaces e).layerLook = c.layerLook := by
      change (c.setLayer e.prop e.id).layerLook = c.layerLook
      rw [setLayer_layerLook, ← h e List.mem_cons_self]
      funext x
      unfold setAt
      split
      · rename_i hx
        rw [hx]
      · rfl
    refine (ih _ fun x hx => ?_).trans hsame
    rw [hsame]
    exact h x (List.mem_cons_of_mem e hx)

/-- The looks of `c'` are those of `c`, but for the surface's, which may have been set. -/
structure LooksPlaced (prop : SurfaceProperties) (surfaceId : Id) (c' : Compositor) : Prop where
  layers : c'.layerLook = c.layerLook
  exist : c'.surfaces = c.surfaces
  surfaces : c'.surfaceLook = c.surfaceLook ∨
    surfaceId ∈ c.surfaces ∧ c'.surfaceLook = setAt c.surfaceLook surfaceId prop.lp.look

theorem LooksPlaced.setSurface {prop : SurfaceProperties} {surfaceId : Id} {c' : Compositor}
    (h : c.LooksPlaced prop surfaceId c') :
    c.LooksPlaced prop surfaceId (c'.setSurface prop surfaceId) where
  layers := (c'.setSurface_layerLook prop surfaceId).trans h.layers
  exist := (c'.setSurface_surfaces prop surfaceId).trans h.exist
  surfaces := by
    rw [setSurface_surfaceLook, h.exist]
    by_cases hex : surfaceId ∈ c.surfaces
    · refine .inr ⟨hex, ?_⟩
      rw [if_pos hex]
      rcases h.surfaces with hlook | ⟨-, hlook⟩
      · rw [hlook]
      · rw [hlook, setAt_setAt]
    · rw [if_neg hex]
      exact h.surfaces

theorem looksPlaced_place (prop : SurfaceProperties) (surfaceId : Id) (l : List LayerElm) :
    c.LooksPlaced prop surfaceId (c.place prop surfaceId l) := by
  unfold place
  refine List.foldlRecOn (motive := c.LooksPlaced prop surfaceId) l _ ⟨rfl, rfl, .inl rfl⟩ ?_
  intro c' hc' e _
  unfold placeInLayer
  refine List.foldlRecOn (motive := c.LooksPlaced prop surfaceId) e.listHead _ hc' ?_
  intro c' hc' x _
  split
  · have hset := LooksPlaced.setSurface c hc'
    exact ⟨hset.layers, hset.exist, hset.surfaces⟩
  · exact hc'

end Compositor

/-! ## Records keep their properties -/

/-- Every record of `store'` has the layout it has in `store`. -/
def LayoutsFrom (store store' : List SurfacePropertiesElm) : Prop :=
  ∀ s p', record store' s = some p' → ∃ p, record store s = some p ∧ p'.lp = p.lp

theorem LayoutsFrom.refl (store : List SurfacePropertiesElm) : LayoutsFrom store store :=
  fun _ p' h => ⟨p', h, rfl⟩

theorem LayoutsFrom.trans {a b d : List SurfacePropertiesElm} (h : LayoutsFrom a b)
    (h' : LayoutsFrom b d) : LayoutsFrom a d := by
  intro s p'' hp''
  obtain ⟨p', hp', hlp'⟩ := h' s p'' hp''
  obtain ⟨p, hp, hlp⟩ := h s p' hp'
  exact ⟨p, hp, hlp'.trans hlp⟩

theorem release_lp {p p' : SurfaceProperties} (h : release p = some p') : p'.lp = p.lp := by
  unfold release at h
  split at h
  · cases h
  · cases h
    rfl

theorem layoutsFrom_removeSurfaceProperties {store : List SurfacePropertiesElm}
    (nd : (ids store).Nodup) (surfaceId : Id) :
    LayoutsFrom store (removeSurfaceProperties store surfaceId) := by
  intro s p' hp'
  rw [record_removeSurfaceProperties nd] at hp'
  split at hp'
  · obtain ⟨p, hp, hrel⟩ := Option.bind_eq_some_iff.mp hp'
    exact ⟨p, hp, release_lp hrel⟩
  · exact ⟨p', hp', rfl⟩

theorem layoutsFrom_removeAllSurface {store : List SurfacePropertiesElm} (nd : (ids store).Nodup)
    (e : LayerElm) : LayoutsFrom store (removeAllSurface store e) := by
  unfold removeAllSurface
  induction e.listHead generalizing store with
  | nil => exact .refl store
  | cons s rest ih =>
    exact (layoutsFrom_removeSurfaceProperties nd s.id).trans (ih (nodup_removeSurfaceProperties nd))

theorem layoutsFrom_removeAll {wm : Wm} (nd : (ids wm.surfacePropertiesHead).Nodup) :
    LayoutsFrom wm.surfacePropertiesHead (removeAll wm).surfacePropertiesHead := by
  rw [surfacePropertiesHead_removeAll]
  generalize wm.surfacePropertiesHead = store at nd
  induction layersOf wm.screenHead generalizing store with
  | nil => exact .refl store
  | cons e rest ih =>
    exact (layoutsFrom_removeAllSurface nd e).trans (ih _ (nodup_removeAllSurface nd))

/-! ## The invariant -/

/-- The look of every layer of the tree is the stored one. -/
def LayersMirror (t : List ScreenElm) (c : Compositor) : Prop :=
  ∀ l e, getLayer t l = some e → c.layerLook l = e.prop.lp.look

/-- The look of a surface with a record was never set or is the stored one; a
surface that does not exist has none. -/
structure SurfacesMirror (store : List SurfacePropertiesElm) (c : Compositor) : Prop where
  stored : ∀ s p, record store s = some p →
    c.surfaceLook s = .unset ∨ c.surfaceLook s = p.lp.look
  absent : ∀ s, s ∉ c.surfaces → c.surfaceLook s = .unset

section Step

variable {wm : Wm} {c : Compositor} {strict : Bool}

/-- The calls that set layers and those that remove them apart, looks of layers stay. -/
theorem keeps_layerLook {call : Call} (hsets : call.setsLayers = false)
    (hremove : ∀ layerId, call ≠ .removeLayer layerId) (look : Id → Look) :
    call.Keeps fun c => c.layerLook = look where
  setLayer hset := absurd (hset.symm.trans hsets) (by decide)
  setSurface surfaceId _ _ c prop h := (c.setSurface_layerLook prop surfaceId).trans h
  pushSurfaces _ _ h := h
  orderLayers _ _ _ _ _ h := h
  removeLayer layerId hcall := absurd hcall (hremove layerId)
  removeSurface layerElm surfaceId _ c h := by
    unfold Compositor.removeSurface
    split
    · exact h
    · exact h
  register strict c surfaceId h := by
    unfold Compositor.register
    split
    · exact h
    · exact h

/-- Every layer of `t'` has the properties it has in `t`. -/
def LayersFrom (t t' : List ScreenElm) : Prop :=
  ∀ l e', getLayer t' l = some e' → ∃ e, getLayer t l = some e ∧ e'.prop = e.prop

theorem LayersFrom.refl (t : List ScreenElm) : LayersFrom t t := fun _ e' h => ⟨e', h, rfl⟩

theorem layersFrom_addScreen (wm : Wm) (screenId : Id) :
    LayersFrom wm.screenHead (addScreen wm screenId).screenHead := by
  intro l e' he'
  rw [getLayer_addScreen] at he'
  exact ⟨e', he', rfl⟩

theorem layersFrom_layout {call : Call} (hsets : call.setsLayers = false)
    (hremove : ∀ layerId, call ≠ .removeLayer layerId) :
    LayersFrom wm.screenHead (call.layout wm).screenHead := by
  cases call with
  | putLayer | pushScreen | modifyLayer => cases hsets
  | removeLayer layerId => exact absurd rfl (hremove layerId)
  | putSurface layerElm obj surfaceId info =>
    cases hput : wm.surfaceToPut layerElm obj surfaceId with
    | none =>
      simp only [Call.layout, hput]
      exact .refl _
    | some prop =>
      intro l e' he'
      rw [getLayer_putSurface hput] at he'
      split at he'
      · obtain ⟨e, he, rfl⟩ := Option.map_eq_some_iff.mp he'
        exact ⟨e, he, rfl⟩
      · exact ⟨e', he', rfl⟩
  | removeSurface layerElm surfaceId =>
    intro l e' he'
    rw [getLayer_removeSurface] at he'
    split at he'
    · obtain ⟨e, he, rfl⟩ := Option.map_eq_some_iff.mp he'
      exact ⟨e, he, rfl⟩
    · exact ⟨e', he', rfl⟩
  | modifySurface surfaceId obj =>
    simp only [Call.layout]
    split
    · exact .refl _
    · exact .refl _
  | removeAll =>
    intro l e' he'
    cases he'
  | openScreen screenId =>
    simp only [Call.layout]
    split
    · exact layersFrom_addScreen wm screenId
    · exact .refl _
  | addScreen screenId => exact layersFrom_addScreen wm screenId
  | pushLayer | findScreen | askScreenIds | place | register | setCallback => exact .refl _

namespace LayersMirror

theorem mono {t t' : List ScreenElm} {c' : Compositor} (h : LayersMirror t c)
    (ht : LayersFrom t t') (hlook : c'.layerLook = c.layerLook) : LayersMirror t' c' := by
  intro l e' he'
  obtain ⟨e, he, hprop⟩ := ht l e' he'
  rw [hlook, hprop]
  exact h l e he

theorem putLayer (h : LayersMirror wm.screenHead c) (hu : Unique wm) (screenElm : Id) (obj : Json)
    (layerId : Id) (info : InsertInfo) :
    LayersMirror ((Call.putLayer screenElm obj layerId info).layout wm).screenHead
      (c.setLayer (wm.layerToPut obj layerId).prop layerId) := by
  intro l e he
  rw [hu.getLayer_putLayer] at he
  rw [Compositor.setLayer_layerLook]
  by_cases hl : l = layerId
  · subst hl
    rw [if_pos rfl] at he
    split at he
    · cases he
      exact setAt_self _ _ _
    · cases he
  · rw [if_neg hl] at he
    rw [setAt_of_ne _ _ hl]
    exact h l e he

theorem modifyLayer (h : LayersMirror wm.screenHead c) {layerId : Id} {obj : Json} {e₀ : LayerElm}
    (hget : getLayer wm.screenHead layerId = some e₀) :
    LayersMirror ((Call.modifyLayer layerId obj).layout wm).screenHead
      (c.setLayer (parseLayerProperties e₀.prop (some obj) .mod).2 layerId) := by
  intro l e he
  rw [getLayer_modifyLayer hget] at he
  rw [Compositor.setLayer_layerLook]
  split at he
  · rename_i hl
    cases he
    rw [hl, setAt_self]
  · rename_i hl
    rw [setAt_of_ne _ _ hl]
    exact h l e he

theorem removeLayer (h : LayersMirror wm.screenHead c) (hu : Unique wm) (layerId : Id) :
    LayersMirror ((Call.removeLayer layerId).layout wm).screenHead (c.removeLayer layerId) := by
  intro l e he
  rw [hu.getLayer_removeLayer] at he
  split at he
  · cases he
  · rename_i hl
    unfold Compositor.removeLayer
    split
    · exact (setAt_of_ne _ _ hl).trans (h l e he)
    · exact h l e he

/-- The layers of a screen that is pushed look as they should already. -/
theorem pushLayers (h : LayersMirror wm.screenHead c) (hu : Unique wm) {s : ScreenElm}
    (hs : s ∈ wm.screenHead) : LayersMirror wm.screenHead (c.pushLayers s.listHead) := by
  have hlooks : ∀ x ∈ s.listHead, c.layerLook x.id = x.prop.lp.look := fun x hx =>
    h x.id x (hu.getLayer_iff.mpr ⟨mem_layersOf.mpr ⟨s, hs, hx⟩, rfl⟩)
  exact h.mono (.refl _) (c.pushLayers_layerLook hlooks)

theorem call (h : LayersMirror wm.screenHead c) (hu : Unique wm) (call : Call) :
    LayersMirror (call.layout wm).screenHead (Compositor.onCall strict wm call c) := by
  cases call with
  | putLayer screenElm obj layerId info => exact h.putLayer hu screenElm obj layerId info
  | removeLayer layerId => exact h.removeLayer hu layerId
  | pushScreen screenElm =>
    simp only [Compositor.onCall]
    cases hs : getListElement wm.screenHead screenElm with
    | none => exact h
    | some s => exact h.pushLayers hu (mem_of_getListElement hs).1
  | modifyLayer layerId obj =>
    simp only [Compositor.onCall]
    cases hget : getLayer wm.screenHead layerId with
    | none =>
      simp only [Call.layout, hget]
      exact h
    | some e => exact h.modifyLayer hget
  | _ =>
    exact h.mono (layersFrom_layout rfl (by simp))
      ((keeps_layerLook rfl (by simp) c.layerLook).onCall wm rfl)

end LayersMirror

/-- The store may lose records and keep the rest's layouts. -/
theorem SurfacesMirror.mono {store store' : List SurfacePropertiesElm} {c' : Compositor}
    (h : SurfacesMirror store c) (hstore : LayoutsFrom store store')
    (hlook : c'.surfaceLook = c.surfaceLook) (hex : c'.surfaces = c.surfaces) :
    SurfacesMirror store' c' where
  stored := by
    intro s p' hp'
    obtain ⟨p, hp, hlp⟩ := hstore s p' hp'
    rw [hlook, hlp]
    exact h.stored s p hp
  absent := by
    intro s hs
    rw [hlook]
    exact h.absent s (hex ▸ hs)

/-- A record is written and pushed. -/
theorem SurfacesMirror.write {store store' : List SurfacePropertiesElm} {surfaceId : Id}
    {prop : SurfaceProperties} (h : SurfacesMirror store c)
    (hself : ∀ p', record store' surfaceId = some p' → p'.lp = prop.lp)
    (hother : ∀ x, x ≠ surfaceId → record store' x = record store x) :
    SurfacesMirror store' (c.setSurface prop surfaceId) where
  stored := by
    intro s p hp
    rw [Compositor.setSurface_surfaceLook]
    by_cases hs : s = surfaceId
    · subst hs
      by_cases hex : s ∈ c.surfaces
      · rw [if_pos hex, setAt_self, hself p hp]
        exact .inr rfl
      · rw [if_neg hex]
        exact .inl (h.absent s hex)
    · rw [hother s hs] at hp
      split
      · rw [setAt_of_ne _ _ hs]
        exact h.stored s p hp
      · exact h.stored s p hp
  absent := by
    intro s hs
    rw [Compositor.setSurface_surfaces] at hs
    rw [Compositor.setSurface_surfaceLook]
    split
    · rename_i hex
      have hne : s ≠ surfaceId := by
        rintro rfl
        exact hs hex
      rw [setAt_of_ne _ _ hne]
      exact h.absent s hs
    · exact h.absent s hs

/-- The calls after which looks and records of surfaces may be new. -/
def Call.setsSurfaces : Call → Bool
  | .putSurface .. | .modifySurface .. | .place _ => true
  | _ => false

/-- The other calls keep the looks. -/
theorem keeps_surfaceLook {call : Call} (hsets : call.setsSurfaces = false) (look : Id → Look)
    (surfaces : List Id) :
    call.Keeps fun c => c.surfaceLook = look ∧ c.surfaces = surfaces where
  setLayer _ c prop layerId h :=
    ⟨(c.ensureLayer_surfaceLook prop layerId).trans h.1,
      (c.ensureLayer_surfaces prop layerId).trans h.2⟩
  setSurface surfaceId hcancels hremove := by
    cases call with
    | putSurface | modifySurface | place => cases hsets
    | removeSurface layerElm id =>
      cases hcancels
      exact absurd rfl (hremove layerElm)
    | _ => cases hcancels
  pushSurfaces _ _ h := h
  orderLayers _ _ _ _ _ h := h
  removeLayer layerId _ c h := by
    unfold Compositor.removeLayer
    split
    · exact h
    · exact h
  removeSurface layerElm surfaceId _ c h := by
    unfold Compositor.removeSurface
    split
    · exact h
    · exact h
  register strict c surfaceId h := by
    unfold Compositor.register
    split
    · exact h
    · exact h

/-- They keep the layouts of the records, too. -/
theorem layoutsFrom_layout {call : Call} (hsets : call.setsSurfaces = false) (hu : Unique wm) :
    LayoutsFrom wm.surfacePropertiesHead (call.layout wm).surfacePropertiesHead := by
  cases call with
  | putSurface | modifySurface | place => cases hsets
  | putLayer screenElm obj layerId info =>
    rw [surfacePropertiesHead_putLayer]
    exact .refl _
  | removeLayer layerId =>
    rw [surfacePropertiesHead_removeLayer]
    split
    · exact .refl _
    · exact layoutsFrom_removeAllSurface hu.records _
  | removeSurface layerElm surfaceId =>
    rw [surfacePropertiesHead_removeSurface]
    split
    · exact layoutsFrom_removeSurfaceProperties hu.records _
    · exact .refl _
  | modifyLayer layerId obj =>
    simp only [Call.layout]
    split
    · exact .refl _
    · exact .refl _
  | removeAll => exact layoutsFrom_removeAll hu.records
  | openScreen screenId =>
    simp only [Call.layout]
    split
    · exact .refl _
    · exact .refl _
  | _ => exact .refl _

namespace SurfacesMirror

theorem putSurface (h : SurfacesMirror wm.surfacePropertiesHead c) {layerElm surfaceId : Id}
    {obj : Json} {info : InsertInfo} {prop : SurfaceProperties}
    (hput : wm.surfaceToPut layerElm obj surfaceId = some prop) :
    SurfacesMirror ((Call.putSurface layerElm obj surfaceId info).layout wm).surfacePropertiesHead
      (c.setSurface prop surfaceId) := by
  rw [surfacePropertiesHead_putSurface hput]
  refine h.write (fun p' hp' => ?_) fun x hx => ?_
  · split at hp'
    · rw [record_updateSurfaceProperties, if_pos rfl] at hp'
      obtain ⟨p, -, rfl⟩ := Option.map_eq_some_iff.mp hp'
      rfl
    · rw [record_addSurfaceProperties, if_pos rfl] at hp'
      cases hp'
      rfl
  · split
    · rw [record_updateSurfaceProperties, if_neg hx]
    · rw [record_addSurfaceProperties, if_neg hx]

/-- A surface is placed with the look of its record. -/
theorem place (h : SurfacesMirror wm.surfacePropertiesHead c) (surfaceId : Id)
    (l : List LayerElm) :
    SurfacesMirror wm.surfacePropertiesHead
      (c.place ((record wm.surfacePropertiesHead surfaceId).getD .zero) surfaceId l) := by
  have hplaced := c.looksPlaced_place ((record wm.surfacePropertiesHead surfaceId).getD .zero)
    surfaceId l
  rcases hplaced.surfaces with hlook | ⟨hex, hlook⟩
  · exact h.mono (.refl _) hlook hplaced.exist
  · refine ⟨fun s p hp => ?_, fun s hs => ?_⟩
    · rw [hlook]
      by_cases hs : s = surfaceId
      · subst hs
        refine .inr ?_
        have hp' : record wm.surfacePropertiesHead s = some p := hp
        rw [setAt_self, hp', Option.getD_some]
      · rw [setAt_of_ne _ _ hs]
        exact h.stored s p hp
    · rw [hplaced.exist] at hs
      have hne : s ≠ surfaceId := by
        rintro rfl
        exact hs hex
      rw [hlook, setAt_of_ne _ _ hne]
      exact h.absent s hs

theorem other (h : SurfacesMirror wm.surfacePropertiesHead c) (hu : Unique wm) {call : Call}
    (hsets : call.setsSurfaces = false) :
    SurfacesMirror (call.layout wm).surfacePropertiesHead (Compositor.onCall strict wm call c) := by
  have hkept : (Compositor.onCall strict wm call c).surfaceLook = c.surfaceLook ∧
      (Compositor.onCall strict wm call c).surfaces = c.surfaces :=
    (keeps_surfaceLook hsets c.surfaceLook c.surfaces).onCall wm ⟨rfl, rfl⟩
  exact h.mono (layoutsFrom_layout hsets hu) hkept.1 hkept.2

theorem call (h : SurfacesMirror wm.surfacePropertiesHead c) (hu : Unique wm) (call : Call) :
    SurfacesMirror (call.layout wm).surfacePropertiesHead (Compositor.onCall strict wm call c) := by
  cases call with
  | putSurface layerElm obj surfaceId info =>
    simp only [Compositor.onCall]
    cases hput : wm.surfaceToPut layerElm obj surfaceId with
    | none =>
      simp only [Call.layout, hput]
      exact h
    | some prop => exact h.putSurface hput
  | modifySurface surfaceId obj =>
    simp only [Call.layout, Compositor.onCall]
    cases getListElement wm.surfacePropertiesHead surfaceId with
    | none => exact h
    | some e =>
      refine h.write (fun p' hp' => ?_) fun x hx => ?_
      · rw [record_updateSurfaceProperties, if_pos rfl] at hp'
        obtain ⟨p, -, rfl⟩ := Option.map_eq_some_iff.mp hp'
        rfl
      · rw [record_updateSurfaceProperties, if_neg hx]
  | place surfaceId => exact h.place surfaceId _
  | _ => exact h.other hu rfl

end SurfacesMirror

end Step

/-! ## Applications -/

theorem LayersMirror.surfacesChange {t : List ScreenElm} {c c' : Compositor}
    (h : LayersMirror t c) (hc : c.SurfacesChange c') : LayersMirror t c' := by
  induction hc with
  | none => exact h
  | create id _ _ ih => exact ih
  | destroy id _ ih => exact ih

theorem SurfacesMirror.surfacesChange {store : List SurfacePropertiesElm} {c c' : Compositor}
    (h : SurfacesMirror store c) (hc : c.SurfacesChange c') : SurfacesMirror store c' := by
  induction hc with
  | none => exact h
  | @create c' id _ hnew ih =>
    refine ⟨fun s p hp => ?_, fun s hs => ?_⟩
    · simp only [Compositor.createSurface, setAt]
      split
      · exact .inl rfl
      · exact ih.stored s p hp
    · simp only [Compositor.createSurface, setAt]
      split
      · rfl
      · exact ih.absent s fun hmem => hs (List.mem_cons_of_mem id hmem)
  | @destroy c' id _ ih =>
    refine ⟨fun s p hp => ?_, fun s hs => ?_⟩
    · simp only [Compositor.destroySurface, setAt]
      split
      · exact .inl rfl
      · exact ih.stored s p hp
    · simp only [Compositor.destroySurface, setAt]
      split
      · rfl
      · rename_i hne
        refine ih.absent s fun hmem => hs ?_
        simpa [Compositor.destroySurface] using ⟨hmem, hne⟩

/-! ## Runs -/

/-- The whole invariant. -/
structure Mirrors (w : World Compositor) : Prop where
  unique : Unique w.wm
  layers : LayersMirror w.wm.screenHead w.ilm
  surfaces : SurfacesMirror w.wm.surfacePropertiesHead w.ilm

theorem mirrors_of_run {set : Setting Compositor}
    (hstart : ∀ boot w, set.start boot w → ∀ s, w.ilm.surfaceLook s = .unset)
    (henv : ∀ c c', set.env c c' → c.SurfacesChange c') {G : Action → World Compositor → Prop}
    {w : World Compositor} (h : (daemon (Compositor.ilm false) set).Run G w) : Mirrors w := by
  have hids := Compositor.distinctScreenIds false
  refine run_invariant (P := Mirrors) (G := FreshScreen) (fun boot w hw => ?_) (fun e w _ _ => ?_)
    ?_ ?_ h
  · have hunset := hstart boot w hw
    refine ⟨⟨.empty w.wm.uninit, (fun _ _ he => nomatch he), ?_⟩,
      (freshScreen_documents hids).boot boot w⟩
    exact ⟨(fun _ _ hp => nomatch hp), fun s _ => hunset s⟩
  · exact atEach_freshScreen e w
  · intro call w w' hm hfresh hs
    rw [Call.sem_lenient hs]
    exact ⟨hm.unique.call hfresh, hm.layers.call hm.unique call,
      hm.surfaces.call hm.unique call⟩
  · intro w c hm _ hc
    have hchange := henv w.ilm c hc
    exact ⟨hm.unique, hm.layers.surfacesChange hchange, hm.surfaces.surfacesChange hchange⟩

/-- Layers in the tree look as stored, and so do surfaces that have ever been given a look. -/
theorem properties_mirrored {set : Setting Compositor}
    (hstart : ∀ boot w, set.start boot w → ∀ s, w.ilm.surfaceLook s = .unset)
    (henv : ∀ c c', set.env c c' → c.SurfacesChange c') {w : World Compositor}
    (h : (daemon (Compositor.ilm false) set).Reachable w) :
    (∀ s ∈ w.wm.screenHead, ∀ e ∈ s.listHead, w.ilm.layerLook e.id = e.prop.lp.look) ∧
      ∀ e ∈ w.wm.surfacePropertiesHead, e.id ∈ w.ilm.surfaces →
        w.ilm.surfaceLook e.id ≠ .unset → w.ilm.surfaceLook e.id = e.prop.lp.look := by
  have hm := mirrors_of_run hstart henv h
  refine ⟨fun s hs e he => ?_, fun e he _ hset => ?_⟩
  · exact hm.layers e.id e (hm.unique.getLayer_iff.mpr ⟨mem_layersOf.mpr ⟨s, hs, he⟩, rfl⟩)
  · have hrec : record w.wm.surfacePropertiesHead e.id = some e.prop := by
      rw [record, (getListElement_eq_some hm.unique.records).mpr ⟨he, rfl⟩]
      rfl
    exact (hm.surfaces.stored e.id e.prop hrec).resolve_left hset

/-- Surface 10 exists; it is put into a layer, and then its opacity is modified. -/
def shownSurface : Except Abort (World Compositor) :=
  execute (Compositor.ilm false) ⟨"host", none⟩
    [message "add_layer" "screens" [screenObject 0 "append" [layerObject 3000 []]],
      message "add_surface" "screens" [screenObject 0 "append" [layerObject 3000 [surfaceObject 10]]],
      message "modify_surface" "surfaces" [.object [("id", .integer 10), ("opacity", .integer 1)]]]
    ⟨(World.fresh [0]).wm, (Compositor.empty [0]).createSurface 10⟩

theorem properties_mirrored_shownSurface :
    ∃ w : World Compositor, shownSurface = .ok w ∧
      (∀ s ∈ w.wm.screenHead, ∀ e ∈ s.listHead, w.ilm.layerLook e.id = e.prop.lp.look) ∧
      ∀ e ∈ w.wm.surfacePropertiesHead, e.id ∈ w.ilm.surfaces →
        w.ilm.surfaceLook e.id ≠ .unset → w.ilm.surfaceLook e.id = e.prop.lp.look := by
  have hok : shownSurface.isOk = true := by decide +kernel
  obtain ⟨w, hw⟩ := exists_ok hok
  have hreach : (daemon (Compositor.ilm false)
      ⟨fun _ w => ∀ s, w.ilm.surfaceLook s = .unset, Compositor.SurfacesChange⟩).Reachable w := by
    refine reachable_of_execute (fun s => ?_) hw
    exact ite_self _
  exact ⟨w, hw, properties_mirrored (fun _ _ h => h) (fun _ _ h => h) hreach⟩

end UhmiIviWm
