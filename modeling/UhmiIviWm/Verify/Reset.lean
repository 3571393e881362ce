import UhmiIviWm.Verify.Documents
import UhmiIviWm.Verify.RefCount

/-!
# What `initial_screen` resets

`remove_all` frees the tree, and empties the property store by releasing the
surfaces the tree lists. Over locals that hold zeros every record has a count of
one (`Single`), whatever the number of layers that list its surface, so that the
first release takes it out. What stays is the records of surfaces that no layer
lists (`Wm.leftover`). There are such records: `add_surface` stores one before it
puts the surface into the layer, which an order the code does not know then leaves
as it is. So the trees of two runs agree after `initial_screen`, and the stores
where their leftovers do (`initial_screen_resets`).
-/

namespace UhmiIviWm

open Lib Lib.CallPlan Lib.KeyedList

/-! ## Stores that count one -/

/-- One record for a surface, with a count of one. -/
structure Single (store : List SurfacePropertiesElm) : Prop where
  nodup : (ids store).Nodup
  one : ∀ s prop, record store s = some prop → prop.referredCnt = 1

namespace Single

variable {store : List SurfacePropertiesElm} {surfaceId : Id} {prop : SurfaceProperties}

theorem record_removeSurfaceProperties (h : Single store) (x : Id) :
    record (removeSurfaceProperties store surfaceId) x =
      if x = surfaceId then none else record store x := by
  rw [UhmiIviWm.record_removeSurfaceProperties h.nodup]
  split
  · cases hx : record store x with
    | none => rfl
    | some prop =>
      have hone := h.one x prop hx
      rw [Option.bind_some, release, hone]
      rfl
  · rfl

theorem removeSurfaceProperties (h : Single store) :
    Single (removeSurfaceProperties store surfaceId) := by
  refine ⟨nodup_removeSurfaceProperties h.nodup, fun s prop hs => ?_⟩
  rw [h.record_removeSurfaceProperties] at hs
  split at hs
  · cases hs
  · exact h.one s prop hs

/-- `remove_all_surface` takes out the records of all surfaces of the layer, a surface
listed twice included. -/
theorem removeAllSurface (h : Single store) (e : LayerElm) :
    Single (removeAllSurface store e) ∧ ∀ x, record (UhmiIviWm.removeAllSurface store e) x =
      if x ∈ ids e.listHead then none else record store x := by
  unfold UhmiIviWm.removeAllSurface
  induction e.listHead generalizing store with
  | nil => exact ⟨h, fun x => by simp⟩
  | cons s rest ih =>
    obtain ⟨hrest, hrecord⟩ := ih h.removeSurfaceProperties
    refine ⟨hrest, fun x => ?_⟩
    rw [List.foldl_cons, hrecord, h.record_removeSurfaceProperties, ids_cons]
    by_cases hx : x = s.id
    · simp [hx]
    · simp [hx]

theorem removeAll (h : Single store) (layers : List LayerElm) :
    Single (layers.foldl UhmiIviWm.removeAllSurface store) ∧
      ∀ x, record (layers.foldl UhmiIviWm.removeAllSurface store) x =
        if 0 < references layers x then none else record store x := by
  induction layers generalizing store with
  | nil => exact ⟨h, fun x => by simp [references]⟩
  | cons e rest ih =>
    obtain ⟨hfirst, hrecord⟩ := h.removeAllSurface e
    obtain ⟨hrest, hall⟩ := ih hfirst
    refine ⟨hrest, fun x => ?_⟩
    rw [List.foldl_cons, hall, hrecord, references_cons]
    by_cases hx : x ∈ ids e.listHead
    · simp [hx]
    · simp [hx]

theorem updateSurfaceProperties (h : Single store) (hprop : prop.referredCnt = 1) :
    Single (updateSurfaceProperties store surfaceId prop) := by
  refine ⟨by rw [ids_updateSurfaceProperties]; exact h.nodup, fun s r hs => ?_⟩
  rw [record_updateSurfaceProperties] at hs
  split at hs
  · obtain ⟨-, -, rfl⟩ := Option.map_eq_some_iff.mp hs
    exact hprop
  · exact h.one s r hs

theorem addSurfaceProperties (h : Single store) (hprop : prop.referredCnt = 0) :
    Single (addSurfaceProperties store prop surfaceId).2 := by
  refine ⟨nodup_addSurfaceProperties h.nodup, fun s r hs => ?_⟩
  rw [record_addSurfaceProperties] at hs
  split at hs
  · cases hs
    dsimp only
    rw [hprop]
    rfl
  · exact h.one s r hs

end Single

/-- Locals that hold zeros, and records that count one. -/
structure Plain (wm : Wm) : Prop where
  zeroed : Zeroed wm
  single : Single wm.surfacePropertiesHead

theorem Single.nil : Single [] := ⟨List.nodup_nil, fun _ _ h => nomatch h⟩

/-- A surface that is put keeps the count of its record, or takes over the zero of the local. -/
theorem Plain.putSurface {wm : Wm} (h : Plain wm) {layerElm surfaceId : Id} {obj : Json}
    {info : InsertInfo} :
    Single ((Call.putSurface layerElm obj surfaceId info).layout wm).surfacePropertiesHead := by
  cases hput : wm.surfaceToPut layerElm obj surfaceId with
  | none =>
    simp only [Call.layout, hput]
    exact h.single
  | some prop =>
    rw [surfacePropertiesHead_putSurface hput]
    unfold Wm.surfaceToPut at hput
    cases hs : getSurface wm.screenHead layerElm surfaceId with
    | none =>
      rw [hs] at hput
      cases hput
      refine h.single.addSurfaceProperties ?_
      rw [parseSurfaceProperties_referredCnt, h.zeroed 0]
      rfl
    | some x =>
      rw [hs] at hput
      obtain ⟨r, hr, rfl⟩ := Option.map_eq_some_iff.mp hput
      refine h.single.updateSurfaceProperties ?_
      rw [parseSurfaceProperties_referredCnt]
      exact h.single.one surfaceId r.prop (by rw [record, hr]; rfl)

theorem Plain.call {wm : Wm} (h : Plain wm) (call : Call) : Plain (call.layout wm) := by
  refine ⟨h.zeroed.layout, ?_⟩
  cases call with
  | putLayer =>
    rw [surfacePropertiesHead_putLayer]
    exact h.single
  | putSurface => exact h.putSurface
  | removeLayer layerId =>
    rw [surfacePropertiesHead_removeLayer]
    split
    · exact h.single
    · exact (h.single.removeAllSurface _).1
  | removeSurface layerElm surfaceId =>
    rw [surfacePropertiesHead_removeSurface]
    split
    · exact h.single.removeSurfaceProperties
    · exact h.single
  | modifySurface surfaceId obj =>
    simp only [Call.layout]
    split
    · exact h.single
    · rename_i e he
      refine h.single.updateSurfaceProperties ?_
      rw [parseSurfaceProperties_referredCnt]
      exact h.single.one surfaceId e.prop (by rw [record, he]; rfl)
  | removeAll =>
    rw [Call.layout, surfacePropertiesHead_removeAll]
    exact (h.single.removeAll _).1
  | modifyLayer | openScreen =>
    simp only [Call.layout]
    split <;> exact h.single
  | _ => exact h.single

/-! ## What is left over -/

/-- The record of a surface that no layer lists. -/
def Wm.leftover (wm : Wm) (surfaceId : Id) : Option SurfaceProperties :=
  if 0 < references (layersOf wm.screenHead) surfaceId then none
  else record wm.surfacePropertiesHead surfaceId

theorem Plain.record_removeAll {wm : Wm} (h : Plain wm) (s : Id) :
    record (removeAll wm).surfacePropertiesHead s = wm.leftover s := by
  rw [surfacePropertiesHead_removeAll]
  exact (h.single.removeAll _).2 s

/-- Nothing left over, `remove_all` leaves the layout the program starts with. -/
theorem Plain.removeAll_eq {wm : Wm} (h : Plain wm) (hnone : ∀ s, wm.leftover s = none) :
    removeAll wm = ⟨[], [], fun _ => .zero⟩ := by
  have hstore : (removeAll wm).surfacePropertiesHead = [] := by
    cases hentries : (removeAll wm).surfacePropertiesHead with
    | nil => rfl
    | cons e rest =>
      have hrecord := h.record_removeAll e.id
      rw [hnone, hentries, record_eq_none, ids_cons] at hrecord
      exact absurd List.mem_cons_self hrecord
  have huninit : (removeAll wm).uninit = fun _ => Frame.zero := funext h.zeroed
  rw [← hstore, ← huninit]
  rfl

section Runs

variable {σ : Type} {ilm : Ilm σ}

theorem plain_of_reachable {set : Setting σ} (hzero : ∀ boot w, set.start boot w → Zeroed w.wm)
    {w : World σ} (h : (daemon ilm set).Reachable w) : Plain w.wm := by
  refine run_invariant (P := fun w => Plain w.wm) (G := fun _ _ => True)
    (fun boot w hw => ?_) (fun e w _ _ => ?_) ?_ (fun _ _ hw _ _ => hw) h
  · exact ⟨⟨hzero boot w hw, .nil⟩, .of_forall (fun _ _ _ _ => trivial) _⟩
  · exact .of_forall (fun _ _ _ _ => trivial) _
  · intro call w w' hw _ hs
    rw [(Call.sem_eq_ok.mp hs).2]
    exact hw.call call

end Runs

/-! ## One document over two stores -/

/-- The surface a call puts into a layer. -/
def Call.putsSurface : Call → Id → Prop
  | .putSurface _ _ surfaceId _, s => s = surfaceId
  | _, _ => False

/-- Two layouts with one tree, all of whose surfaces are `done`, and with one record for
each surface that is done. -/
structure Level (done : Id → Prop) (wm wm' : Wm) : Prop where
  unique : Unique wm
  zeroed : Zeroed wm
  zeroed' : Zeroed wm'
  tree : wm'.screenHead = wm.screenHead
  listed : ∀ e ∈ layersOf wm.screenHead, ∀ s ∈ ids e.listHead, done s
  same : ∀ s, done s → record wm'.surfacePropertiesHead s = record wm.surfacePropertiesHead s

section Documents

variable {done : Id → Prop} {wm wm' : Wm}

/-- A call that puts no surface leaves a record alone. -/
theorem record_of_document {call : Call} (hdoc : call.ofDocument) {s : Id}
    (hs : ¬ call.putsSurface s) :
    record (call.layout wm).surfacePropertiesHead s = record wm.surfacePropertiesHead s := by
  cases call with
  | putLayer => rw [surfacePropertiesHead_putLayer]
  | putSurface layerElm obj surfaceId info =>
    have hs : s ≠ surfaceId := hs
    cases hput : wm.surfaceToPut layerElm obj surfaceId with
    | none => simp only [Call.layout, hput]
    | some prop =>
      rw [surfacePropertiesHead_putSurface hput]
      split
      · rw [record_updateSurfaceProperties, if_neg hs]
      · rw [record_addSurfaceProperties, if_neg hs]
  | openScreen =>
    simp only [Call.layout]
    split <;> rfl
  | findScreen | pushScreen => rfl
  | _ => exact hdoc.elim

theorem Level.done_of_getSurface (h : Level done wm wm') {layerElm surfaceId : Id}
    (hs : (getSurface wm.screenHead layerElm surfaceId).isSome = true) : done surfaceId := by
  obtain ⟨e, he, hmem⟩ := getSurface_isSome.mp hs
  exact h.listed e (mem_of_getLayer he).1 surfaceId hmem

theorem Level.surfaceToPut (h : Level done wm wm') (layerElm : Id) (obj : Json) (surfaceId : Id) :
    wm'.surfaceToPut layerElm obj surfaceId = wm.surfaceToPut layerElm obj surfaceId := by
  unfold Wm.surfaceToPut
  rw [h.tree, h.zeroed 0, h.zeroed' 0]
  cases hs : getSurface wm.screenHead layerElm surfaceId with
  | none => rfl
  | some x =>
    have hsame := h.same surfaceId (h.done_of_getSurface (by rw [hs]; rfl))
    have hmap : ∀ r : Option SurfacePropertiesElm,
        (r.map fun e => (parseSurfaceProperties e.prop (some obj) .add).2) =
          (r.map (·.prop)).map fun prop => (parseSurfaceProperties prop (some obj) .add).2 := by
      intro r
      cases r <;> rfl
    unfold record at hsame
    dsimp only
    rw [hmap, hmap, hsame]

theorem Level.putSurface (h : Level done wm wm') {layerElm surfaceId : Id} {obj : Json}
    {info : InsertInfo} :
    let call : Call := .putSurface layerElm obj surfaceId info
    Level (fun s => done s ∨ call.putsSurface s) (call.layout wm) (call.layout wm') := by
  intro call
  have hboth := h.surfaceToPut layerElm obj surfaceId
  have hunique : Unique (call.layout wm) := h.unique.call nofun
  cases hput : wm.surfaceToPut layerElm obj surfaceId with
  | none =>
    -- a surface without a record that its layer lists: nothing happens
    have hlisted : (getSurface wm.screenHead layerElm surfaceId).isSome = true := by
      unfold Wm.surfaceToPut at hput
      cases hs : getSurface wm.screenHead layerElm surfaceId with
      | none =>
        rw [hs] at hput
        cases hput
      | some x => rfl
    have hdone := h.done_of_getSurface hlisted
    have hlayout : call.layout wm = wm := by simp only [call, Call.layout, hput]
    have hlayout' : call.layout wm' = wm' := by simp only [call, Call.layout, hboth, hput]
    rw [hlayout, hlayout']
    refine ⟨h.unique, h.zeroed, h.zeroed', h.tree, fun e he s hs => .inl (h.listed e he s hs), ?_⟩
    rintro s (hs | hs)
    · exact h.same s hs
    · exact h.same s (Eq.symm hs ▸ hdone)
  | some prop =>
    rw [hput] at hboth
    refine ⟨hunique, h.zeroed.layout, h.zeroed'.layout, ?_, ?_, ?_⟩
    · rw [screenHead_putSurface hput, screenHead_putSurface hboth, h.tree]
    · intro e he s hs
      rw [screenHead_putSurface hput, layersOf_updateLayer, updateFirst_eq_map h.unique.layers] at he
      obtain ⟨e, hmem, rfl⟩ := List.mem_map.mp he
      split at hs
      · rcases (mem_ids_reinsert (h.unique.surfaces e hmem)).mp hs with ⟨-, rfl⟩ | ⟨hs, -⟩
        · exact .inr rfl
        · exact .inl (h.listed e hmem s hs)
      · exact .inl (h.listed e hmem s hs)
    · intro s hs
      rw [surfacePropertiesHead_putSurface hput, surfacePropertiesHead_putSurface hboth, h.tree]
      by_cases hlisted : (getSurface wm.screenHead layerElm surfaceId).isSome = true
      · have hdone := h.done_of_getSurface hlisted
        rw [if_pos hlisted, if_pos hlisted, record_updateSurfaceProperties,
          record_updateSurfaceProperties]
        have hsame := h.same s (hs.elim id fun hs => Eq.symm hs ▸ hdone)
        rw [hsame]
      · rw [if_neg hlisted, if_neg hlisted, record_addSurfaceProperties,
          record_addSurfaceProperties]
        rcases hs with hs | hs
        · rw [h.same s hs]
        · have hs : s = surfaceId := hs
          rw [if_pos hs, if_pos hs]

theorem Level.putLayer (h : Level done wm wm') {screenElm layerId : Id} {obj : Json}
    {info : InsertInfo} :
    let call : Call := .putLayer screenElm obj layerId info
    Level done (call.layout wm) (call.layout wm') := by
  intro call
  have hput : wm'.layerToPut obj layerId = wm.layerToPut obj layerId := by
    unfold Wm.layerToPut
    rw [h.tree, h.zeroed 0, h.zeroed' 0]
  refine ⟨h.unique.call nofun, h.zeroed.layout, h.zeroed'.layout, ?_, ?_, ?_⟩
  · rw [screenHead_putLayer, screenHead_putLayer, h.tree, hput]
  · intro e he s hs
    rw [screenHead_putLayer, mem_layersOf_insertLayer] at he
    rcases he with ⟨-, rfl⟩ | he
    · unfold Wm.layerToPut at hs
      split at hs
      · exact nomatch hs
      · rename_i e he
        exact h.listed e (mem_of_getLayer he).1 s hs
    · exact h.listed e ((mem_layersOf_popLayer h.unique.layers).mp he).1 s hs
  · intro s hs
    rw [surfacePropertiesHead_putLayer, surfacePropertiesHead_putLayer]
    exact h.same s hs

theorem Level.openScreen (h : Level done wm wm') {screenId : Id} :
    let call : Call := .openScreen screenId
    Level done (call.layout wm) (call.layout wm') := by
  intro call
  have hunique : Unique (call.layout wm) := h.unique.call nofun
  have hzeroed : Zeroed (call.layout wm) := h.zeroed.layout
  have hzeroed' : Zeroed (call.layout wm') := h.zeroed'.layout
  simp only [call, Call.layout, h.tree] at hunique hzeroed hzeroed' ⊢
  cases hs : getListElement wm.screenHead screenId with
  | none =>
    rw [hs] at hunique hzeroed hzeroed'
    refine ⟨hunique, hzeroed, hzeroed', ?_, fun e he => ?_, h.same⟩
    · rw [screenHead_addScreen, screenHead_addScreen, h.tree]
    · rw [layersOf_addScreen] at he
      exact h.listed e he
  | some e => exact h

/-- What one call of a document does to two layouts. -/
theorem Level.after_call (h : Level done wm wm') {call : Call} (hdoc : call.ofDocument) :
    Level (fun s => done s ∨ call.putsSurface s) (call.layout wm) (call.layout wm') := by
  have hquiet : (∀ s, ¬ call.putsSurface s) → Level done (call.layout wm) (call.layout wm') →
      Level (fun s => done s ∨ call.putsSurface s) (call.layout wm) (call.layout wm') := by
    intro hnone h
    refine ⟨h.unique, h.zeroed, h.zeroed', h.tree, fun e he s hs => .inl (h.listed e he s hs), ?_⟩
    rintro s (hs | hs)
    · exact h.same s hs
    · exact absurd hs (hnone s)
  cases call with
  | putSurface => exact h.putSurface
  | putLayer => exact hquiet (fun _ => id) h.putLayer
  | openScreen => exact hquiet (fun _ => id) h.openScreen
  | findScreen | pushScreen => exact hquiet (fun _ => id) h
  | _ => exact hdoc.elim

theorem Level.congr {done' : Id → Prop} (h : Level done wm wm') (hdone : ∀ s, done s ↔ done' s) :
    Level done' wm wm' :=
  ⟨h.unique, h.zeroed, h.zeroed', h.tree, fun e he s hs => (hdone s).mp (h.listed e he s hs),
    fun s hs => h.same s ((hdone s).mpr hs)⟩

theorem Level.after_calls {calls : List Call} (h : Level done wm wm')
    (hdoc : ∀ call ∈ calls, call.ofDocument) :
    Level (fun s => done s ∨ ∃ call ∈ calls, call.putsSurface s)
      (calls.foldl (fun wm call => call.layout wm) wm)
      (calls.foldl (fun wm call => call.layout wm) wm') := by
  induction calls generalizing done wm wm' with
  | nil => exact h.congr fun s => by simp
  | cons call rest ih =>
    obtain ⟨hcall, hrest⟩ := List.forall_mem_cons.mp hdoc
    refine (ih (h.after_call hcall) hrest).congr fun s => ?_
    simp only [List.mem_cons, exists_eq_or_imp, or_assoc]

theorem record_after_calls {calls : List Call} (hdoc : ∀ call ∈ calls, call.ofDocument) {s : Id}
    (hs : ¬ ∃ call ∈ calls, call.putsSurface s) :
    record (calls.foldl (fun wm call => call.layout wm) wm).surfacePropertiesHead s =
      record wm.surfacePropertiesHead s := by
  induction calls generalizing wm with
  | nil => rfl
  | cons call rest ih =>
    obtain ⟨hcall, hrest⟩ := List.forall_mem_cons.mp hdoc
    simp only [List.mem_cons, exists_eq_or_imp, not_or] at hs
    rw [List.foldl_cons, ih hrest hs.2, record_of_document hcall hs.1]

/-- After the tree has been emptied, what a document makes of two layouts differs in the
leftovers only. -/
theorem documents_from_empty {calls : List Call} (hdoc : ∀ call ∈ calls, call.ofDocument)
    (h : Plain wm) (h' : Plain wm') :
    let made := calls.foldl (fun wm call => call.layout wm) (removeAll wm)
    let made' := calls.foldl (fun wm call => call.layout wm) (removeAll wm')
    made'.screenHead = made.screenHead ∧
      ((∀ s, record made'.surfacePropertiesHead s = record made.surfacePropertiesHead s) ↔
        ∀ s, (¬ ∃ call ∈ calls, call.putsSurface s) → wm'.leftover s = wm.leftover s) := by
  intro made made'
  have hstart : Level (fun _ => False) (removeAll wm) (removeAll wm') :=
    ⟨⟨List.nodup_nil, List.nodup_nil, nofun, nodup_removeAll h.single.nodup⟩, h.zeroed, h'.zeroed,
      rfl, nofun, nofun⟩
  have hend := hstart.after_calls hdoc
  refine ⟨hend.tree, fun hsame s hs => ?_, fun hleft s => ?_⟩
  · have hkept : record made.surfacePropertiesHead s = _ := record_after_calls hdoc hs
    have hkept' : record made'.surfacePropertiesHead s = _ := record_after_calls hdoc hs
    rw [← h.record_removeAll, ← h'.record_removeAll, ← hkept, ← hkept']
    exact hsame s
  · by_cases hs : ∃ call ∈ calls, call.putsSurface s
    · exact hend.same s (.inr hs)
    · rw [record_after_calls hdoc hs, record_after_calls hdoc hs, h.record_removeAll,
        h'.record_removeAll]
      exact hleft s hs

end Documents

/-! ## `initial_screen` -/

section Reset

variable {σ : Type} {ilm : Ilm σ}

/-- The screens ilm knows. -/
def Ilm.Knows (ilm : Ilm σ) (known : Id → Bool) (c : σ) : Prop :=
  ∀ screenId, (ilm.getPropertiesOfScreen screenId c).1 = known screenId

/-- A compositor knows the screens it has. -/
theorem Compositor.keeps_known (strict : Bool) (screens : List Id) :
    (Compositor.ilm strict).Keeps ((Compositor.ilm strict).Knows fun id => screens.contains id) :=
  Compositor.keeps_screens strict fun screens' => ∀ id, screens'.contains id = screens.contains id

/-- The screen objects of a message that are processed: those in front of the first one whose
screen is not known. -/
def processed (known : Id → Bool) (body : Option Json) : List Json :=
  ((parseScreens body).getD []).takeWhile fun screenJobj => known (idOf screenJobj)

/-- The screen objects put a surface into a layer. -/
def NamesSurface (screenAry : List Json) (surfaceId : Id) : Prop :=
  ∃ screenJobj ∈ screenAry, ∃ layerJobj ∈ (parseLayers (some screenJobj)).getD [],
    ∃ surfaceJobj ∈ (parseSurfaces (some layerJobj)).getD [], surfaceId = idOf surfaceJobj

theorem namesSurface_iff {screenAry : List Json} {s : Id} :
    NamesSurface screenAry s ↔ ∃ call ∈ documentCalls screenAry, call.putsSurface s := by
  simp only [documentCalls, screenCalls, layerCalls, List.mem_flatMap, List.mem_cons,
    List.mem_append, List.mem_map, List.not_mem_nil, or_false]
  constructor
  · rintro ⟨screenJobj, hscreen, layerJobj, hlayer, surfaceJobj, hsurface, rfl⟩
    exact ⟨_, ⟨screenJobj, hscreen, .inr (.inr (.inl ⟨layerJobj, hlayer, .inr
      ⟨surfaceJobj, hsurface, rfl⟩⟩))⟩, rfl⟩
  · rintro ⟨call, ⟨screenJobj, hscreen, rfl | rfl | ⟨layerJobj, hlayer, rfl |
      ⟨surfaceJobj, hsurface, rfl⟩⟩ | rfl⟩, hputs⟩
    · exact hputs.elim
    · exact hputs.elim
    · exact hputs.elim
    · exact ⟨screenJobj, hscreen, layerJobj, hlayer, surfaceJobj, hsurface, hputs⟩
    · exact hputs.elim

/-- With the screens fixed, a document that is handled makes the calls of its processed part. -/
theorem wm_of_parseScreenObjects {known : Id → Bool} (hkeep : ilm.Keeps (ilm.Knows known))
    {screenAry : List Json} {w w' : World σ} {ret : Int} (hk : ilm.Knows known w.ilm)
    (h : parseScreenObjects ilm screenAry w = .ok (ret, w')) :
    w'.wm = (documentCalls (screenAry.takeWhile fun screenJobj => known (idOf screenJobj))).foldl
      (fun wm call => call.layout wm) w.wm := by
  induction screenAry generalizing w with
  | nil =>
    cases h
    rfl
  | cons screenJobj rest ih =>
    rw [parseScreenObjects_cons, hk] at h
    cases hknown : known (idOf screenJobj) with
    | false =>
      rw [hknown, if_pos rfl] at h
      cases h
      rw [List.takeWhile_cons_of_neg (by rw [hknown]; exact nofun)]
      rfl
    | true =>
      rw [hknown, if_neg nofun] at h
      obtain ⟨u, t, hcalls, hrest⟩ := Comp.bind_eq_ok.mp h
      have htake : ((screenJobj :: rest).takeWhile fun screenJobj => known (idOf screenJobj)) =
          screenJobj :: rest.takeWhile fun screenJobj => known (idOf screenJobj) :=
        List.takeWhile_cons_of_pos hknown
      rw [htake, documentCalls, List.flatMap_cons, List.foldl_append, ← runCalls_wm hcalls]
      exact ih (runCalls_keeps_ilm hkeep hk hcalls) hrest

theorem wm_of_initScreen {known : Id → Bool} (hkeep : ilm.Keeps (ilm.Knows known))
    {body : Option Json} {w w' : World σ} {ret : Int} (hk : ilm.Knows known w.ilm)
    (h : parseInitScreenCommand ilm body w = .ok (ret, w')) :
    w'.wm = (documentCalls (processed known body)).foldl (fun wm call => call.layout wm)
      (removeAll w.wm) := by
  cases hversion : parseVersion body with
  | error e =>
    rw [parseInitScreenCommand_of_error hversion] at h
    cases h
  | ok version =>
    rw [parseInitScreenCommand_of_ok hversion] at h
    obtain ⟨r, t, hobjects, hrest⟩ := Comp.bind_eq_ok.mp h
    have hwm := wm_of_parseScreenObjects hkeep (w := ⟨removeAll w.wm, w.ilm⟩) hk hobjects
    split at hrest
    · cases hrest
      exact hwm
    · obtain ⟨u, v, hcallback, hpure⟩ := Comp.bind_eq_ok.mp hrest
      cases hpure
      rw [(Call.sem_eq_ok.mp hcallback).2]
      exact hwm

/-- The trees are the same, and the stores where the leftovers are. Two stores hold the same
records; the order of their entries is not compared, but where nothing is left over. What
survives in one of them is its leftovers. -/
theorem initial_screen_resets {set : Setting σ}
    (hzero : ∀ boot w, set.start boot w → Zeroed w.wm) {known : Id → Bool}
    (hkeep : ilm.Keeps (ilm.Knows known)) {body : Option Json}
    (hcommand : commandOf body = some .initialScreen) {w₁ w₂ w₁' w₂' : World σ}
    (hreach₁ : (daemon ilm set).Reachable w₁) (hreach₂ : (daemon ilm set).Reachable w₂)
    (hk₁ : ilm.Knows known w₁.ilm) (hk₂ : ilm.Knows known w₂.ilm)
    (h₁ : (Event.message body).handle ilm w₁ = .ok ((), w₁'))
    (h₂ : (Event.message body).handle ilm w₂ = .ok ((), w₂')) :
    w₂'.wm.screenHead = w₁'.wm.screenHead ∧
      ((∀ s, record w₂'.wm.surfacePropertiesHead s = record w₁'.wm.surfacePropertiesHead s) ↔
        ∀ s, ¬ NamesSurface (processed known body) s → w₂.wm.leftover s = w₁.wm.leftover s) ∧
      ((∀ s, w₁.wm.leftover s = none) → (∀ s, w₂.wm.leftover s = none) →
        w₂'.wm.surfacePropertiesHead = w₁'.wm.surfacePropertiesHead) ∧
      ∀ s, ¬ NamesSurface (processed known body) s →
        record w₁'.wm.surfacePropertiesHead s = w₁.wm.leftover s := by
  have hp₁ := plain_of_reachable hzero hreach₁
  have hp₂ := plain_of_reachable hzero hreach₂
  obtain ⟨ret₁, hrun₁⟩ := handler_of_message hcommand h₁
  obtain ⟨ret₂, hrun₂⟩ := handler_of_message hcommand h₂
  rw [wm_of_initScreen hkeep hk₁ hrun₁, wm_of_initScreen hkeep hk₂ hrun₂]
  have hdoc : ∀ call ∈ documentCalls (processed known body), call.ofDocument :=
    fun _ => ofDocument_documentCalls
  obtain ⟨htree, hstore⟩ := documents_from_empty hdoc hp₁ hp₂
  refine ⟨htree, ?_, fun hnone₁ hnone₂ => ?_, fun s hs => ?_⟩
  · simp only [namesSurface_iff]
    exact hstore
  · rw [hp₁.removeAll_eq hnone₁, hp₂.removeAll_eq hnone₂]
  · rw [record_after_calls hdoc (mt namesSurface_iff.mpr hs), hp₁.record_removeAll]

end Reset

/-! ## Two histories -/

/-- The daemon on the default configuration of one screen, with zeros under its locals. -/
def oneScreen : TransitionSystem (World Compositor) Action :=
  daemon (Compositor.ilm false) ⟨fun _ w => w = World.fresh [0], fun _ _ => False⟩

theorem exists_oneScreen : ∃ w, oneScreen.Reachable w := by
  have hok : (execute (Compositor.ilm false) ⟨"host", none⟩ [] (World.fresh [0])).isOk = true := by
    decide +kernel
  obtain ⟨w, hw⟩ := exists_ok hok
  exact ⟨w, reachable_of_execute rfl hw⟩

/-- A history with one more message at its end, before which `q` holds, and after which `p` does. -/
theorem exists_handled (events : List Event) (body : Option Json) (q : World Compositor → Prop)
    [DecidablePred q] (p : World Compositor → Bool)
    (h : endsWith (fun w => decide (q w) &&
        endsWith p (runEvents (Compositor.ilm false) [.message body] w))
      (execute (Compositor.ilm false) ⟨"host", none⟩ events (World.fresh [0])) = true) :
    ∃ w w', oneScreen.Reachable w ∧ q w ∧
      (Event.message body).handle (Compositor.ilm false) w = .ok ((), w') ∧ p w' = true := by
  obtain ⟨w, hw, hboth⟩ := exists_of_endsWith h
  rw [Bool.and_eq_true] at hboth
  obtain ⟨w', hw', hp⟩ := exists_of_endsWith hboth.2
  exact ⟨w, w', reachable_of_execute rfl hw, of_decide_eq_true hboth.1, handle_of_runEvents hw', hp⟩

/-- A surface put into a layer, under an order. -/
def surfacePut (order : String) : List Event :=
  [message "add_layer" "screens" [screenObject 0 "append" [layerObject 3000 []]],
    message "add_surface" "screens" [screenObject 0 order [layerObject 3000 [surfaceObject 10]]]]

def resetBody : Option Json :=
  some (.object [("command", .string "initial_screen"),
    ("screens", .array [screenObject 0 "append" [layerObject 3001 [surfaceObject 20]]])])

theorem initial_screen_resets_surfacePut :
    ∃ w₁ w₂ w₁' w₂' : World Compositor,
      ((Event.message resetBody).handle (Compositor.ilm false) w₁ = .ok ((), w₁') ∧
        (Event.message resetBody).handle (Compositor.ilm false) w₂ = .ok ((), w₂')) ∧
      w₂'.wm.screenHead = w₁'.wm.screenHead ∧
      ((∀ s, record w₂'.wm.surfacePropertiesHead s = record w₁'.wm.surfacePropertiesHead s) ↔
        ∀ s, ¬ NamesSurface (processed (fun id => [0].contains id) resetBody) s →
          w₂.wm.leftover s = w₁.wm.leftover s) ∧
      ((∀ s, w₁.wm.leftover s = none) → (∀ s, w₂.wm.leftover s = none) →
        w₂'.wm.surfacePropertiesHead = w₁'.wm.surfacePropertiesHead) ∧
      ∀ s, ¬ NamesSurface (processed (fun id => [0].contains id) resetBody) s →
        record w₁'.wm.surfacePropertiesHead s = w₁.wm.leftover s := by
  obtain ⟨w₁, w₁', hreach₁, hk₁, h₁, -⟩ :=
    exists_handled [] resetBody (·.ilm.screens = [0]) (fun _ => true) (by decide +kernel)
  obtain ⟨w₂, w₂', hreach₂, hk₂, h₂, -⟩ :=
    exists_handled (surfacePut "append") resetBody (·.ilm.screens = [0]) (fun _ => true)
      (by decide +kernel)
  have hzero : ∀ (boot : Boot) (w : World Compositor), w = World.fresh [0] → Zeroed w.wm := by
    rintro _ _ rfl _
    rfl
  refine ⟨w₁, w₂, w₁', w₂', ⟨h₁, h₂⟩, ?_⟩
  exact initial_screen_resets hzero (Compositor.keeps_known false [0]) (by decide) hreach₁ hreach₂
    (fun _ => by rw [← hk₁]; rfl) (fun _ => by rw [← hk₂]; rfl) h₁ h₂

/-- A record stored under an order the code does not know outlives the reset. -/
theorem initial_screen_keeps_record :
    ¬ ∀ (body : Option Json) (w₁ w₂ w₁' w₂' : World Compositor),
      commandOf body = some .initialScreen → oneScreen.Reachable w₁ → oneScreen.Reachable w₂ →
      w₂.ilm.screens = w₁.ilm.screens →
      (Event.message body).handle (Compositor.ilm false) w₁ = .ok ((), w₁') →
      (Event.message body).handle (Compositor.ilm false) w₂ = .ok ((), w₂') →
      w₂'.wm.screenHead = w₁'.wm.screenHead ∧
        ∀ s, record w₂'.wm.surfacePropertiesHead s = record w₁'.wm.surfacePropertiesHead s := by
  intro h
  obtain ⟨w₁, w₁', hreach₁, hk₁, h₁, hnone⟩ := exists_handled [] resetBody
    (·.ilm.screens = [0]) (fun w => (record w.wm.surfacePropertiesHead 10).isNone)
    (by decide +kernel)
  obtain ⟨w₂, w₂', hreach₂, hk₂, h₂, hsome⟩ := exists_handled (surfacePut "last")
    resetBody (·.ilm.screens = [0]) (fun w => (record w.wm.surfacePropertiesHead 10).isSome)
    (by decide +kernel)
  obtain ⟨-, hstore⟩ := h resetBody w₁ w₂ w₁' w₂' (by decide) hreach₁ hreach₂ (hk₂.trans hk₁.symm)
    h₁ h₂
  rw [hstore 10, Option.isNone_iff_eq_none.mp hnone] at hsome
  cases hsome

end UhmiIviWm
