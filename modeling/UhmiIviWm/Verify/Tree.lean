import UhmiIviWm.Model.Layout

/-!
# The screen tree

The list of all layers of a tree (`layersOf`) in the order the code searches it,
and what the pointer writes, pops and insertions do to it. Searching the tree for
a layer is searching that list, and popping or writing one is popping or writing
it there, whether or not ids are unique. Where they are (`Unique`), a pop and a
write have closed forms screen by screen.
-/

namespace UhmiIviWm

open Lib.KeyedList

variable {P C : Type}

/-- The ids of a list, in order. -/
def ids (l : List (ListElement P C)) : List Id := l.map (·.id)

@[simp] theorem ids_nil : ids ([] : List (ListElement P C)) = [] := rfl

@[simp] theorem ids_cons (e : ListElement P C) (l : List (ListElement P C)) :
    ids (e :: l) = e.id :: ids l := rfl

@[simp] theorem ids_append (l l' : List (ListElement P C)) : ids (l ++ l') = ids l ++ ids l' :=
  List.map_append

theorem mem_ids {l : List (ListElement P C)} {id : Id} : id ∈ ids l ↔ ∃ e ∈ l, e.id = id :=
  List.mem_map

theorem mem_ids_of_mem {l : List (ListElement P C)} {e : ListElement P C} (h : e ∈ l) :
    e.id ∈ ids l :=
  List.mem_map_of_mem (f := (·.id)) h

/-- All layers of a tree. -/
def layersOf (t : List ScreenElm) : List LayerElm := t.flatMap (·.listHead)

@[simp] theorem layersOf_nil : layersOf [] = [] := rfl

@[simp] theorem layersOf_cons (s : ScreenElm) (t : List ScreenElm) :
    layersOf (s :: t) = s.listHead ++ layersOf t := rfl

theorem mem_layersOf {t : List ScreenElm} {e : LayerElm} :
    e ∈ layersOf t ↔ ∃ s ∈ t, e ∈ s.listHead := by
  simp [layersOf]

/-- The screens of the tree, the layers of the tree, the surfaces with a record. -/
def Wm.screenIds (wm : Wm) : List Id := ids wm.screenHead

def Wm.layerIds (wm : Wm) : List Id := ids (layersOf wm.screenHead)

def Wm.recordIds (wm : Wm) : List Id := ids wm.surfacePropertiesHead

theorem eq_of_id_eq {l : List (ListElement P C)} (nd : (ids l).Nodup) {a b : ListElement P C}
    (ha : a ∈ l) (hb : b ∈ l) (h : a.id = b.id) : a = b :=
  List.inj_on_of_nodup_map nd ha hb h

theorem mem_layerIds {wm : Wm} {l : Id} :
    l ∈ wm.layerIds ↔ ∃ s ∈ wm.screenHead, l ∈ ids s.listHead := by
  rw [Wm.layerIds, ids, layersOf, List.map_flatMap, List.mem_flatMap]
  rfl

/-- Surface `surfaceId` is in the list of a layer `layerId` of the tree. -/
def Listed (t : List ScreenElm) (layerId surfaceId : Id) : Prop :=
  ∃ e ∈ layersOf t, e.id = layerId ∧ surfaceId ∈ ids e.listHead

/-! ## Lists -/

section Lists

variable {l : List (ListElement P C)} {e : ListElement P C} {id : Id} {info : InsertInfo}

theorem getListElement_eq_some (nd : (ids l).Nodup) :
    getListElement l id = some e ↔ e ∈ l ∧ e.id = id :=
  find?_key_iff nd

theorem mem_of_getListElement (h : getListElement l id = some e) : e ∈ l ∧ e.id = id :=
  mem_of_find?_key h

theorem getListElement_eq_none : getListElement l id = none ↔ id ∉ ids l :=
  find?_key_eq_none

theorem getListElement_isSome : (getListElement l id).isSome = true ↔ id ∈ ids l := by
  rw [← not_iff_not, Bool.not_eq_true, Option.isSome_eq_false_iff, Option.isNone_iff_eq_none,
    getListElement_eq_none]

theorem ids_eraseP : ids (l.eraseP (·.id == id)) = (ids l).erase id :=
  map_eraseP_key (fun e : ListElement P C => e.id) id l

theorem ids_updateFirst {p : ListElement P C → Bool} {f : ListElement P C → ListElement P C}
    (hf : ∀ e, (f e).id = e.id) : ids (updateFirst p f l) = ids l :=
  map_updateFirst fun e _ => hf e

/-- The four orders a client can name put the element in. -/
theorem insertListElement_perm (h : info.order ≠ .none) :
    (insertListElement l e info).Perm (e :: l) := by
  unfold insertListElement
  split
  · exact .refl _
  · exact List.perm_append_singleton e l
  · exact insertBefore_perm info.refid e l
  · exact insertAfter_perm info.refid e l
  · exact absurd ‹_› h

theorem insertListElement_none (h : info.order = .none) : insertListElement l e info = l := by
  rw [insertListElement, h]

theorem mem_ids_insertListElement {x : Id} :
    x ∈ ids (insertListElement l e info) ↔ info.order ≠ .none ∧ x = e.id ∨ x ∈ ids l := by
  by_cases h : info.order = .none
  · simp [insertListElement_none h, h]
  · have hp := (insertListElement_perm (l := l) (e := e) h).map (fun e : ListElement P C => e.id)
    simp only [ids, hp.mem_iff]
    simp [h]

theorem nodup_insertListElement (nd : (ids l).Nodup) (he : e.id ∉ ids l) :
    (ids (insertListElement l e info)).Nodup := by
  by_cases h : info.order = .none
  · rwa [insertListElement_none h]
  · have hp := (insertListElement_perm (l := l) (e := e) h).map (fun e : ListElement P C => e.id)
    exact hp.nodup_iff.mpr (List.nodup_cons.mpr ⟨he, nd⟩)

end Lists

/-! ## Searching the tree -/

section Search

variable {t : List ScreenElm} {layerId : Id} {e : LayerElm}

theorem getLayer_eq_find? :
    getLayer t layerId = (layersOf t).find? (·.id == layerId) := by
  rw [layersOf, List.find?_flatMap]
  rfl

theorem mem_of_getLayer (h : getLayer t layerId = some e) : e ∈ layersOf t ∧ e.id = layerId := by
  rw [getLayer_eq_find?] at h
  exact mem_of_find?_key h

theorem getLayer_eq_none : getLayer t layerId = none ↔ layerId ∉ ids (layersOf t) := by
  rw [getLayer_eq_find?]
  exact find?_key_eq_none

theorem getLayer_isSome : (getLayer t layerId).isSome = true ↔ layerId ∈ ids (layersOf t) := by
  rw [getLayer_eq_find?]
  exact getListElement_isSome

theorem getLayer_eq_some (nd : (ids (layersOf t)).Nodup) :
    getLayer t layerId = some e ↔ e ∈ layersOf t ∧ e.id = layerId := by
  rw [getLayer_eq_find?]
  exact find?_key_iff nd

end Search

/-! ## Popping a layer -/

section PopLayer

theorem layersOf_popLayer (t : List ScreenElm) (layerId : Id) :
    layersOf (popLayer t layerId).2 = (layersOf t).eraseP (·.id == layerId) := by
  induction t with
  | nil => rfl
  | cons s t ih =>
    simp only [popLayer, popListElement, layersOf_cons, List.eraseP_append]
    cases h : s.listHead.find? (·.id == layerId) with
    | some e =>
      have hany : s.listHead.any (·.id == layerId) = true :=
        List.any_eq_true.mpr ⟨e, (mem_of_find?_key h).1, by simpa using (mem_of_find?_key h).2⟩
      rw [if_pos hany]
      rfl
    | none =>
      have hany : ¬ s.listHead.any (·.id == layerId) = true := by
        simpa [List.find?_eq_none] using h
      rw [if_neg hany]
      exact congrArg (s.listHead ++ ·) ih

theorem ids_popLayer (t : List ScreenElm) (layerId : Id) :
    ids (popLayer t layerId).2 = ids t := by
  induction t with
  | nil => rfl
  | cons s t ih =>
    simp only [popLayer, popListElement]
    cases h : s.listHead.find? (·.id == layerId) with
    | some e => rfl
    | none => exact congrArg (s.id :: ·) ih

/-- With unique layer ids a pop takes the layer off every screen. -/
theorem popLayer_eq_map {t : List ScreenElm} {layerId : Id} (nd : (ids (layersOf t)).Nodup) :
    (popLayer t layerId).2 =
      t.map fun s => { s with listHead := s.listHead.filter (·.id != layerId) } := by
  induction t with
  | nil => rfl
  | cons s t ih =>
    rw [layersOf_cons, ids_append, List.nodup_append] at nd
    obtain ⟨ndS, ndT, disj⟩ := nd
    have hS : s.listHead.eraseP (·.id == layerId) = s.listHead.filter (·.id != layerId) :=
      eraseP_key_eq_filter ndS
    simp only [popLayer, popListElement, List.map_cons, hS]
    cases h : s.listHead.find? (·.id == layerId) with
    | some e =>
      obtain ⟨he, hid⟩ := mem_of_find?_key h
      have hrest : ∀ s' ∈ t, { s' with listHead := s'.listHead.filter (·.id != layerId) } = s' := by
        intro s' hs'
        have hall : s'.listHead.filter (·.id != layerId) = s'.listHead := by
          refine List.filter_eq_self.mpr fun e' he' => ?_
          have hne := disj _ (mem_ids_of_mem he) _
            (mem_ids_of_mem (mem_layersOf.mpr ⟨s', hs', he'⟩))
          simpa [← hid] using fun hh => hne hh.symm
        rw [hall]
      simp only [List.map_congr_left hrest, List.map_id']
    | none =>
      have hS' : s.listHead.filter (·.id != layerId) = s.listHead := by
        rw [← hS]
        exact eraseP_key_of_find?_none h
      simp only [ih ndT, hS']

end PopLayer

/-! ## Writing through a pointer -/

section Update

theorem ids_updateScreen {t : List ScreenElm} {screenElm : Id} {f : ScreenElm → ScreenElm}
    (hf : ∀ s, (f s).id = s.id) : ids (updateScreen t screenElm f) = ids t :=
  ids_updateFirst hf

theorem ids_updateLayer {t : List ScreenElm} {layerElm : Id} {f : LayerElm → LayerElm} :
    ids (updateLayer t layerElm f) = ids t :=
  ids_updateFirst fun _ => rfl

/-- Writing a layer of the tree is writing it in the list of all layers. -/
theorem layersOf_updateLayer (t : List ScreenElm) (layerElm : Id) (f : LayerElm → LayerElm) :
    layersOf (updateLayer t layerElm f) = updateFirst (·.id == layerElm) f (layersOf t) := by
  have hsplit : ∀ l l' : List LayerElm, updateFirst (·.id == layerElm) f (l ++ l') =
      if l.any (·.id == layerElm) then updateFirst (·.id == layerElm) f l ++ l'
      else l ++ updateFirst (·.id == layerElm) f l' := by
    intro l l'
    induction l with
    | nil => rfl
    | cons b l ih =>
      rw [List.cons_append, updateFirst_cons, updateFirst_cons, List.any_cons]
      by_cases hb : (b.id == layerElm) = true
      · simp [hb]
      · simp only [Bool.not_eq_true] at hb
        simp only [hb, Bool.false_or, ih, Bool.false_eq_true, if_false]
        split <;> rfl
  induction t with
  | nil => rfl
  | cons s t ih =>
    rw [updateLayer, updateFirst_cons, layersOf_cons, hsplit]
    split
    · rfl
    · rw [layersOf_cons]
      exact congrArg (s.listHead ++ ·) ih

theorem getLayer_updateLayer {t : List ScreenElm} {layerElm : Id} {f : LayerElm → LayerElm}
    (hf : ∀ e, (f e).id = e.id) (layerId : Id) :
    getLayer (updateLayer t layerElm f) layerId =
      if layerId = layerElm then (getLayer t layerId).map f else getLayer t layerId := by
  rw [getLayer_eq_find?, getLayer_eq_find?, layersOf_updateLayer]
  exact find?_updateFirst hf layerId

theorem any_updateFirst {l : List LayerElm} {layerElm : Id} {f : LayerElm → LayerElm}
    (hf : ∀ e, (f e).id = e.id) :
    (updateFirst (·.id == layerElm) f l).any (·.id == layerElm) = l.any (·.id == layerElm) := by
  have hids : ids (updateFirst (·.id == layerElm) f l) = ids l := ids_updateFirst hf
  have hany : ∀ l : List LayerElm, l.any (·.id == layerElm) = (ids l).any (· == layerElm) :=
    fun l => by rw [ids, List.any_map]; rfl
  rw [hany, hany, hids]

/-- Two writes through one pointer are one. -/
theorem updateLayer_updateLayer {t : List ScreenElm} {layerElm : Id} {f g : LayerElm → LayerElm}
    (hf : ∀ e, (f e).id = e.id) :
    updateLayer (updateLayer t layerElm f) layerElm g = updateLayer t layerElm (g ∘ f) := by
  rw [updateLayer, updateLayer, updateFirst_updateFirst]
  · refine updateFirst_congr fun s _ => ?_
    simp only [Function.comp_apply]
    rw [updateFirst_updateFirst fun e he => by rw [hf e]; exact he]
  · intro s hs
    exact (any_updateFirst hf).trans hs

/-- Only what a write does to the layer pointed to matters. -/
theorem updateLayer_congr {t : List ScreenElm} {layerElm : Id} {f g : LayerElm → LayerElm}
    (h : ∀ e, getLayer t layerElm = some e → f e = g e) :
    updateLayer t layerElm f = updateLayer t layerElm g := by
  induction t with
  | nil => rfl
  | cons s t ih =>
    rw [updateLayer, updateLayer, updateFirst_cons, updateFirst_cons]
    have hget : getLayer (s :: t) layerElm =
        (s.listHead.find? (·.id == layerElm)).or (getLayer t layerElm) := by
      rw [getLayer_eq_find?, getLayer_eq_find?, layersOf_cons, List.find?_append]
    by_cases hs : s.listHead.any (·.id == layerElm) = true
    · rw [if_pos hs, if_pos hs]
      have hlist : updateFirst (·.id == layerElm) f s.listHead =
          updateFirst (·.id == layerElm) g s.listHead := by
        refine updateFirst_congr fun e he => h e ?_
        rw [hget, he, Option.some_or]
      rw [hlist]
    · rw [if_neg hs, if_neg hs]
      have hnone : s.listHead.find? (·.id == layerElm) = none := by
        simpa [List.find?_eq_none] using hs
      refine congrArg (s :: ·) (ih fun e he => h e ?_)
      rw [hget, hnone, he, Option.none_or]

theorem updateLayer_id {t : List ScreenElm} {layerElm : Id} {f : LayerElm → LayerElm}
    (h : ∀ e, getLayer t layerElm = some e → f e = e) : updateLayer t layerElm f = t := by
  rw [updateLayer_congr h]
  refine updateFirst_id fun s _ => ?_
  have hlist : updateFirst (·.id == layerElm) (fun e => e) s.listHead = s.listHead :=
    updateFirst_id fun _ _ => rfl
  rw [hlist]

theorem ids_layersOf_updateLayer {t : List ScreenElm} {layerElm : Id} {f : LayerElm → LayerElm}
    (hf : ∀ e, (f e).id = e.id) :
    ids (layersOf (updateLayer t layerElm f)) = ids (layersOf t) := by
  rw [layersOf_updateLayer]
  exact ids_updateFirst hf

theorem updateScreen_eq_map {t : List ScreenElm} {screenElm : Id} {f : ScreenElm → ScreenElm}
    (nd : (ids t).Nodup) :
    updateScreen t screenElm f = t.map fun s => if s.id = screenElm then f s else s :=
  updateFirst_eq_map nd

/-- With unique layer ids a write reaches the one layer with the id. -/
theorem updateLayer_eq_map {t : List ScreenElm} {layerElm : Id} {f : LayerElm → LayerElm}
    (nd : (ids (layersOf t)).Nodup) :
    updateLayer t layerElm f = t.map fun s =>
      { s with listHead := s.listHead.map fun e => if e.id = layerElm then f e else e } := by
  induction t with
  | nil => rfl
  | cons s t ih =>
    rw [layersOf_cons, ids_append, List.nodup_append] at nd
    obtain ⟨ndS, ndT, disj⟩ := nd
    rw [updateLayer, updateFirst_cons, List.map_cons]
    have hS : updateFirst (·.id == layerElm) f s.listHead =
        s.listHead.map fun e => if e.id = layerElm then f e else e := updateFirst_eq_map ndS
    by_cases hany : s.listHead.any (·.id == layerElm) = true
    · rw [if_pos hany, hS]
      obtain ⟨e, he, hid⟩ := List.any_eq_true.mp hany
      have hid' : e.id = layerElm := by simpa using hid
      have hrest : ∀ s' ∈ t, { s' with
          listHead := s'.listHead.map fun e => if e.id = layerElm then f e else e } = s' := by
        intro s' hs'
        have hall : s'.listHead.map (fun e => if e.id = layerElm then f e else e) = s'.listHead := by
          refine (List.map_congr_left fun e' he' => if_neg fun hh => ?_).trans (List.map_id' _)
          exact disj _ (mem_ids_of_mem he) _ (mem_ids_of_mem (mem_layersOf.mpr ⟨s', hs', he'⟩))
            (hid'.trans hh.symm)
        rw [hall]
      rw [List.map_congr_left hrest, List.map_id']
    · have hS' : (s.listHead.map fun e => if e.id = layerElm then f e else e) = s.listHead := by
        refine (List.map_congr_left fun e he => if_neg fun hh => hany ?_).trans (List.map_id' _)
        exact List.any_eq_true.mpr ⟨e, he, by simpa using hh⟩
      rw [if_neg hany, hS']
      exact congrArg (s :: ·) (ih ndT)

/-- Inserting into the list of a screen of the tree adds to the layers. -/
theorem layersOf_updateScreen_perm {t : List ScreenElm} {screenElm : Id} {e : LayerElm}
    {info : InsertInfo} (hs : screenElm ∈ ids t) (h : info.order ≠ .none) :
    (layersOf (updateScreen t screenElm fun s =>
      { s with listHead := insertListElement s.listHead e info })).Perm (e :: layersOf t) := by
  induction t with
  | nil => simp at hs
  | cons s t ih =>
    rw [updateScreen, updateFirst_cons]
    by_cases hid : s.id = screenElm
    · rw [if_pos (by simpa using hid), layersOf_cons, layersOf_cons]
      exact (insertListElement_perm h).append_right _
    · rw [if_neg (by simpa using hid), layersOf_cons, layersOf_cons]
      have hs' : screenElm ∈ ids t := by
        rw [ids_cons, List.mem_cons] at hs
        exact hs.resolve_left fun hh => hid hh.symm
      exact ((ih hs').append_left s.listHead).trans List.perm_middle

theorem updateScreen_of_notMem {t : List ScreenElm} {screenElm : Id} {f : ScreenElm → ScreenElm}
    (hs : screenElm ∉ ids t) : updateScreen t screenElm f = t :=
  updateFirst_of_forall_not fun s hmem => by
    simpa using fun hh => hs (mem_ids.mpr ⟨s, hmem, hh⟩)

end Update

/-! ## Rewriting all layers -/

/-- Rewrites every layer where it stands. -/
def mapLayers (f : LayerElm → LayerElm) (t : List ScreenElm) : List ScreenElm :=
  t.map fun s => { s with listHead := s.listHead.map f }

theorem mapLayers_mapLayers (f g : LayerElm → LayerElm) (t : List ScreenElm) :
    mapLayers g (mapLayers f t) = mapLayers (fun e => g (f e)) t := by
  rw [mapLayers, mapLayers, mapLayers, List.map_map]
  exact List.map_congr_left fun s _ => by simp only [Function.comp_apply, List.map_map]; rfl

theorem mapLayers_congr {f g : LayerElm → LayerElm} {t : List ScreenElm}
    (h : ∀ e ∈ layersOf t, f e = g e) : mapLayers f t = mapLayers g t := by
  refine List.map_congr_left fun s hs => ?_
  have hlist : s.listHead.map f = s.listHead.map g :=
    List.map_congr_left fun e he => h e (mem_layersOf.mpr ⟨s, hs, he⟩)
  rw [hlist]

theorem mapLayers_inj {f g : LayerElm → LayerElm} {t : List ScreenElm} :
    mapLayers f t = mapLayers g t ↔ ∀ e ∈ layersOf t, f e = g e := by
  refine ⟨fun h e he => ?_, mapLayers_congr⟩
  obtain ⟨s, hs, he⟩ := mem_layersOf.mp he
  have hlist : s.listHead.map f = s.listHead.map g :=
    congrArg ListElement.listHead (List.map_inj_left.mp h s hs)
  exact List.map_inj_left.mp hlist e he

theorem mapLayers_id (t : List ScreenElm) : mapLayers (fun e => e) t = t := by
  refine (List.map_congr_left fun s _ => ?_).trans (List.map_id' t)
  rw [List.map_id']

theorem updateLayer_eq_mapLayers {t : List ScreenElm} {layerElm : Id} {f : LayerElm → LayerElm}
    (nd : (ids (layersOf t)).Nodup) :
    updateLayer t layerElm f = mapLayers (fun e => if e.id = layerElm then f e else e) t :=
  updateLayer_eq_map nd

end UhmiIviWm
