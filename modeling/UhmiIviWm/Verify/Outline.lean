import UhmiIviWm.Lib.Occurrences
import UhmiIviWm.Verify.Documents
import UhmiIviWm.Verify.Unique

/-!
# What a layout document says

A layout document names screens, layers on screens and surfaces in layers, and
may name each of them any number of times (`Outline`). The tree it stands for
has the screens in the order in which they are first named; a layer stands where
it is named last, and in the order in which layers are named last; a layer has
the surfaces that are named in it anywhere in the document, again by their last
naming (`Outline.tree`). `Built` says that a layout is what an outline stands
for.

A call that names a screen, a layer or a surface adds the name to the outline of
the layout it finds (`Built.openScreen`, `Built.putLayer`, `Built.putSurface`).
-/

namespace UhmiIviWm

open Lib.CallPlan Lib.KeyedList Lib.Occurrences

/-- A layer named on a screen. -/
structure LayerOcc where
  screen : Id
  id : Id
  prop : LayerProperties

/-- A surface named in a layer. -/
structure SurfaceOcc where
  layer : Id
  id : Id
  layout : LayoutProperties

/-- Everything a document names, in order. -/
structure Outline where
  screens : List Id
  layers : List LayerOcc
  surfaces : List SurfaceOcc

namespace Outline

def empty : Outline := ⟨[], [], []⟩

def addScreen (o : Outline) (s : Id) : Outline := { o with screens := o.screens ++ [s] }

def addLayer (o : Outline) (p : LayerOcc) : Outline := { o with layers := o.layers ++ [p] }

def addSurface (o : Outline) (p : SurfaceOcc) : Outline := { o with surfaces := o.surfaces ++ [p] }

def append (o o' : Outline) : Outline :=
  ⟨o.screens ++ o'.screens, o.layers ++ o'.layers, o.surfaces ++ o'.surfaces⟩

/-- The surfaces named in a layer, by their last naming in it. -/
def surfacesOf (o : Outline) (layerId : Id) : List Id :=
  ((o.surfaces.filter (·.layer = layerId)).map (·.id)).dedup

def layerElm (o : Outline) (p : LayerOcc) : LayerElm :=
  ⟨p.id, p.prop, (o.surfacesOf p.id).map fun s => ⟨s, (), []⟩⟩

/-- The layers that are named last on a screen, by their last naming. -/
def layersOn (o : Outline) (screenId : Id) : List LayerElm :=
  ((lastBy (·.id) o.layers).filter (·.screen = screenId)).map o.layerElm

/-- The tree the outline stands for. -/
def tree (o : Outline) : List ScreenElm := o.screens.eraseDups.map fun s => ⟨s, (), o.layersOn s⟩

/-- Layers are named on screens and surfaces in layers that have been named. -/
structure Anchored (o : Outline) : Prop where
  layers : ∀ p ∈ o.layers, p.screen ∈ o.screens
  surfaces : ∀ p ∈ o.surfaces, p.layer ∈ o.layers.map (·.id)

end Outline

/-- The layout is what the outline stands for. -/
structure Built (o : Outline) (wm : Wm) : Prop where
  tree : wm.screenHead = o.tree
  records : ∀ p ∈ lastBy (·.id) o.surfaces,
    (record wm.surfacePropertiesHead p.id).map (·.lp) = some p.layout

/-! ## The tree of an outline -/

section Tree

variable {o : Outline}

theorem ids_map_surface (l : List Id) :
    ids (l.map fun s => (⟨s, (), []⟩ : SurfaceElm)) = l := by
  rw [ids, List.map_map]
  exact List.map_id l

theorem screenIds_tree : ids o.tree = o.screens.eraseDups := by
  rw [Outline.tree, ids, List.map_map]
  exact List.map_id _

theorem layersOf_tree : layersOf o.tree = o.screens.eraseDups.flatMap o.layersOn := by
  rw [Outline.tree, layersOf, List.flatMap_map]

theorem nodup_layerIds_tree : (ids (layersOf o.tree)).Nodup := by
  have hids : ids (layersOf o.tree) = o.screens.eraseDups.flatMap fun s =>
      ((lastBy (·.id) o.layers).filter fun p => p.screen = s).map (·.id) := by
    rw [layersOf_tree, ids, List.map_flatMap]
    refine congrArg (List.flatMap · _) (funext fun s => ?_)
    rw [Outline.layersOn, List.map_map]
    rfl
  rw [hids]
  exact nodup_places (nodup_eraseDups _) nodup_lastBy

theorem exists_of_mem_layersOf_tree {e : LayerElm} (he : e ∈ layersOf o.tree) :
    ∃ p ∈ lastBy (·.id) o.layers, o.layerElm p = e := by
  rw [layersOf_tree, List.mem_flatMap] at he
  obtain ⟨s, -, he⟩ := he
  obtain ⟨p, hp, rfl⟩ := List.mem_map.mp he
  exact ⟨p, (List.mem_filter.mp hp).1, rfl⟩

theorem mem_layersOf_tree (ha : o.Anchored) {p : LayerOcc} (hp : p ∈ lastBy (·.id) o.layers) :
    o.layerElm p ∈ layersOf o.tree := by
  rw [layersOf_tree, List.mem_flatMap]
  refine ⟨p.screen, List.mem_eraseDups.mpr (ha.layers p (lastBy_subset hp)), ?_⟩
  exact List.mem_map_of_mem (List.mem_filter.mpr ⟨hp, by simp⟩)

theorem mem_layerIds_tree (ha : o.Anchored) {l : Id} :
    l ∈ ids (layersOf o.tree) ↔ l ∈ o.layers.map (·.id) := by
  constructor
  · intro hl
    obtain ⟨e, he, rfl⟩ := mem_ids.mp hl
    obtain ⟨p, hp, rfl⟩ := exists_of_mem_layersOf_tree he
    exact List.mem_map_of_mem (f := LayerOcc.id) (lastBy_subset hp)
  · intro hl
    obtain ⟨p, hp, rfl⟩ := exists_mem_lastBy hl
    exact mem_ids_of_mem (mem_layersOf_tree ha hp)

theorem mem_surfacesOf {l s : Id} :
    s ∈ o.surfacesOf l ↔ ∃ p ∈ o.surfaces, p.layer = l ∧ p.id = s := by
  simp [Outline.surfacesOf, and_assoc]

theorem surfacesOf_of_notMem (ha : o.Anchored) {l : Id} (hl : l ∉ o.layers.map (·.id)) :
    o.surfacesOf l = [] := by
  refine List.eq_nil_iff_forall_not_mem.mpr fun s hs => ?_
  obtain ⟨p, hp, rfl, -⟩ := mem_surfacesOf.mp hs
  exact hl (ha.surfaces p hp)

theorem layersOn_addLayer (p : LayerOcc) (s : Id) :
    (o.addLayer p).layersOn s = (o.layersOn s).filter (·.id != p.id) ++
      if p.screen = s then [o.layerElm p] else [] := by
  have hlist : lastBy (·.id) (o.addLayer p).layers =
      (lastBy (·.id) o.layers).filter (fun q => q.id ≠ p.id) ++ [p] := lastBy_concat o.layers p
  rw [Outline.layersOn, hlist, List.filter_append, List.map_append]
  refine congrArg₂ (· ++ ·) ?_ ?_
  · rw [Outline.layersOn, List.filter_map, List.filter_filter, List.filter_filter]
    refine congrArg _ (List.filter_congr fun q _ => ?_)
    rw [Bool.and_comm]
    exact Bool.eq_iff_iff.mpr (by simp [Outline.layerElm])
  · split
    · rename_i hs
      simp [hs]
      rfl
    · rename_i hs
      simp [hs]

theorem surfacesOf_addSurface (p : SurfaceOcc) (l : Id) :
    (o.addSurface p).surfacesOf l =
      if l = p.layer then (o.surfacesOf l).filter (· ≠ p.id) ++ [p.id] else o.surfacesOf l := by
  rw [Outline.surfacesOf, Outline.addSurface, List.filter_append, List.map_append]
  split
  · rename_i hl
    rw [List.filter_cons_of_pos (by simpa using hl.symm)]
    exact dedup_concat _ _
  · rename_i hl
    rw [List.filter_cons_of_neg (by simpa using Ne.symm hl)]
    exact congrArg List.dedup (List.append_nil _)

theorem layerElm_addSurface (p : SurfaceOcc) (q : LayerOcc) :
    (o.addSurface p).layerElm q =
      if q.id = p.layer then reinsert p.id insertInfoDefault (o.layerElm q)
      else o.layerElm q := by
  rw [Outline.layerElm, surfacesOf_addSurface]
  split
  · have hnodup : (ids (o.layerElm q).listHead).Nodup := by
      rw [Outline.layerElm, ids_map_surface]
      exact List.nodup_dedup _
    have herase : (o.layerElm q).listHead.eraseP (·.id == p.id) =
        ((o.surfacesOf q.id).filter (· ≠ p.id)).map fun s => ⟨s, (), []⟩ := by
      rw [eraseP_key_eq_filter hnodup, Outline.layerElm, List.filter_map]
      refine congrArg _ (List.filter_congr fun s _ => ?_)
      exact Bool.eq_iff_iff.mpr (by simp)
    rw [reinsert, herase, List.map_append]
    rfl
  · rfl

end Tree

/-! ## One call -/

namespace Built

variable {o : Outline} {wm : Wm} {obj : Json}

theorem openScreen (h : Built o wm) (ha : o.Anchored) (s : Id) :
    Built (o.addScreen s) ((Call.openScreen s).layout wm) := by
  have htree : (o.addScreen s).tree =
      if s ∈ o.screens then o.tree else o.tree ++ [⟨s, (), []⟩] := by
    rw [Outline.tree, Outline.addScreen, eraseDups_concat]
    split
    · rfl
    · rename_i hs
      have hnone : o.layersOn s = [] := by
        rw [Outline.layersOn, List.filter_eq_nil_iff.mpr fun p hp => ?_]
        · rfl
        · simpa using fun heq : p.screen = s => hs (heq ▸ ha.layers p (lastBy_subset hp))
      rw [List.map_append, List.map_singleton]
      exact congrArg (o.tree ++ [⟨s, (), ·⟩]) hnone
  have hmem : s ∈ ids wm.screenHead ↔ s ∈ o.screens := by
    rw [h.tree, screenIds_tree, List.mem_eraseDups]
  simp only [Call.layout]
  cases hget : getListElement wm.screenHead s with
  | none =>
    have hs : s ∉ o.screens := mt hmem.mpr (getListElement_eq_none.mp hget)
    refine ⟨?_, h.records⟩
    rw [screenHead_addScreen, htree, if_neg hs, h.tree]
  | some x =>
    have hs : s ∈ o.screens := hmem.mp (getListElement_isSome.mp (by rw [hget]; rfl))
    refine ⟨?_, h.records⟩
    rw [htree, if_pos hs, h.tree]

theorem layerToPut_eq (h : Built o wm) (ha : o.Anchored) (p : LayerOcc)
    (hprop : ∀ dst, (parseLayerProperties dst (some obj) .add).2 = p.prop) :
    wm.layerToPut obj p.id = o.layerElm p := by
  unfold Wm.layerToPut
  cases hget : getLayer wm.screenHead p.id with
  | none =>
    have hnew : p.id ∉ o.layers.map (·.id) := by
      rw [← mem_layerIds_tree ha, ← h.tree]
      exact getLayer_eq_none.mp hget
    dsimp only
    rw [hprop, Outline.layerElm, surfacesOf_of_notMem ha hnew]
    rfl
  | some e =>
    obtain ⟨he, hid⟩ := mem_of_getLayer hget
    rw [h.tree] at he
    obtain ⟨q, -, rfl⟩ := exists_of_mem_layersOf_tree he
    have hid : q.id = p.id := hid
    dsimp only
    rw [hprop, Outline.layerElm, Outline.layerElm, hid]

theorem putLayer (h : Built o wm) (ha : o.Anchored) (p : LayerOcc)
    (hprop : ∀ dst, (parseLayerProperties dst (some obj) .add).2 = p.prop) :
    Built (o.addLayer p)
      ((Call.putLayer p.screen obj p.id insertInfoDefault).layout wm) := by
  refine ⟨?_, ?_⟩
  · have hscreens : wm.screenIds.Nodup := by
      rw [Wm.screenIds, h.tree, screenIds_tree]
      exact nodup_eraseDups _
    have hlayers : wm.layerIds.Nodup := by
      rw [Wm.layerIds, h.tree]
      exact nodup_layerIds_tree
    rw [screenHead_putLayer_eq_map hscreens hlayers, h.layerToPut_eq ha p hprop, h.tree,
      Outline.tree, Outline.tree, List.map_map]
    refine List.map_congr_left fun s _ => ?_
    rw [layersOn_addLayer]
    simp only [Function.comp_apply, putInto]
    by_cases hs : s = p.screen
    · rw [if_pos hs, if_pos hs.symm]
      rfl
    · rw [if_neg hs, if_neg (Ne.symm hs), List.append_nil]
      rfl
  · rw [surfacePropertiesHead_putLayer]
    exact h.records

theorem record_isSome_of_mem (h : Built o wm) {s : Id} (hs : s ∈ o.surfaces.map (·.id)) :
    (record wm.surfacePropertiesHead s).isSome = true := by
  obtain ⟨p, hp, rfl⟩ := exists_mem_lastBy hs
  have hrecord := congrArg Option.isSome (h.records p hp)
  rwa [Option.isSome_map] at hrecord

/-- A surface that is put again has its record. -/
theorem surfaceToPut_eq (h : Built o wm) (p : SurfaceOcc)
    (hlayout : ∀ dst, (parseSurfaceProperties dst (some obj) .add).2.lp = p.layout) :
    ∃ prop, wm.surfaceToPut p.layer obj p.id = some prop ∧ prop.lp = p.layout ∧
      ((getSurface wm.screenHead p.layer p.id).isSome = true →
        (record wm.surfacePropertiesHead p.id).isSome = true) := by
  unfold Wm.surfaceToPut
  cases hget : getSurface wm.screenHead p.layer p.id with
  | none => exact ⟨_, rfl, hlayout _, nofun⟩
  | some x =>
    obtain ⟨e, he, hmem⟩ := getSurface_isSome.mp (by rw [hget]; rfl)
    have he := (mem_of_getLayer he).1
    rw [h.tree] at he
    obtain ⟨q, -, rfl⟩ := exists_of_mem_layersOf_tree he
    have hmem : p.id ∈ o.surfacesOf q.id := by
      rwa [Outline.layerElm, ids_map_surface] at hmem
    obtain ⟨r, hr, -, hid⟩ := mem_surfacesOf.mp hmem
    have hsome := h.record_isSome_of_mem (List.mem_map.mpr ⟨r, hr, hid⟩)
    obtain ⟨e, he⟩ := Option.isSome_iff_exists.mp
      (getListElement_isSome.mpr (record_isSome.mp hsome))
    exact ⟨_, by rw [he]; rfl, hlayout _, fun _ => hsome⟩

theorem putSurface (h : Built o wm) (p : SurfaceOcc)
    (hlayout : ∀ dst, (parseSurfaceProperties dst (some obj) .add).2.lp = p.layout) :
    Built (o.addSurface p)
      ((Call.putSurface p.layer obj p.id insertInfoDefault).layout wm) := by
  obtain ⟨prop, hput, hlp, hrecord⟩ := h.surfaceToPut_eq p hlayout
  refine ⟨?_, ?_⟩
  · have hlayers : (ids (layersOf wm.screenHead)).Nodup := by
      rw [h.tree]
      exact nodup_layerIds_tree
    rw [screenHead_putSurface hput, updateLayer_eq_map hlayers, h.tree, Outline.tree, Outline.tree,
      List.map_map]
    refine List.map_congr_left fun s _ => ?_
    simp only [Function.comp_apply, Outline.layersOn, List.map_map]
    exact congrArg _ (List.map_congr_left fun q _ => (layerElm_addSurface p q).symm)
  · intro q hq
    have hlist : lastBy (·.id) (o.addSurface p).surfaces =
        (lastBy (·.id) o.surfaces).filter (fun q => q.id ≠ p.id) ++ [p] :=
      lastBy_concat o.surfaces p
    rw [hlist, List.mem_append, List.mem_singleton, List.mem_filter, decide_eq_true_iff] at hq
    rw [surfacePropertiesHead_putSurface hput]
    split
    · rename_i hs
      rw [record_updateSurfaceProperties]
      rcases hq with ⟨hq, hne⟩ | rfl
      · rw [if_neg hne]
        exact h.records q hq
      · obtain ⟨r, hr⟩ := Option.isSome_iff_exists.mp (hrecord hs)
        rw [if_pos rfl, hr]
        exact congrArg some hlp
    · rw [record_addSurfaceProperties]
      rcases hq with ⟨hq, hne⟩ | rfl
      · rw [if_neg hne]
        exact h.records q hq
      · rw [if_pos rfl]
        exact congrArg some hlp

end Built

end UhmiIviWm
