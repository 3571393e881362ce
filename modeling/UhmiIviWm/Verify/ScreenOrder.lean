import UhmiIviWm.Lib.DeferredMirror
import UhmiIviWm.Verify.Existence

/-!
# The layer order of the screens

The tree is changed layer by layer, the compositor is told the order of a screen
once, at the end of a batch. In between, the two are related by `Synced`: a
screen that the step will not push any more has the order of its list, but for
layers that meanwhile stand on a screen still to be pushed, whose push takes them
off everywhere else.

A put keeps this if its own screen is pushed later in the step, and, where its
order is not one the code knows and so loses the layer, every screen that shows
the layer is pushed as well (`Shown`). `add_layer` breaks both: it returns
without the push where a later layer object has no id, and it goes on after it
has lost a layer. Both conditions hold throughout layout documents.
-/

namespace UhmiIviWm

open Lib Lib.CallPlan Lib.DeferredMirror Lib.KeyedList

/-! ## What the compositor makes of each call -/

namespace Compositor

variable {strict : Bool} (c : Compositor)

@[simp] theorem setLayer_screenOrder (prop : LayerProperties) (id : Id) :
    (c.setLayer prop id).screenOrder = c.screenOrder := by
  simp only [setLayer, ensureLayer]
  split <;> rfl

@[simp] theorem setSurface_screenOrder (prop : SurfaceProperties) (id : Id) :
    (c.setSurface prop id).screenOrder = c.screenOrder := by
  unfold setSurface
  split <;> rfl

/-- Only a screen that is pushed and a layer that is removed change the screen orders. -/
theorem keeps_screenOrder {call : Call} (hpush : ∀ screenElm, call ≠ .pushScreen screenElm)
    (hremove : ∀ layerId, call ≠ .removeLayer layerId) (order : Id → List Id) :
    call.Keeps fun c => c.screenOrder = order where
  setLayer _ c prop layerId h := (c.setLayer_screenOrder prop layerId).trans h
  setSurface surfaceId _ _ c prop h := (c.setSurface_screenOrder prop surfaceId).trans h
  pushSurfaces _ _ h := h
  orderLayers screenElm hcall := absurd hcall (hpush screenElm)
  removeLayer layerId hcall := absurd hcall (hremove layerId)
  removeSurface layerElm surfaceId _ c h := by
    unfold removeSurface
    split
    · exact h
    · exact h
  register strict c surfaceId h := by
    unfold register
    split
    · exact h
    · exact h

@[simp] theorem pushLayers_screenOrder (l : List LayerElm) :
    (c.pushLayers l).screenOrder = c.screenOrder := by
  induction l generalizing c with
  | nil => rfl
  | cons e rest ih => exact (ih _).trans (c.setLayer_screenOrder e.prop e.id)

/-- The screen orders after a call. -/
theorem screenOrder_onCall (wm : Wm) (call : Call) :
    (onCall strict wm call c).screenOrder = match call with
      | .pushScreen screenElm =>
        match getListElement wm.screenHead screenElm with
        | none => c.screenOrder
        | some s => fun x => if x = s.id then ids s.listHead else
            (c.screenOrder x).filter fun l => !(ids s.listHead).contains l
      | .removeLayer layerId =>
        if c.layers.contains layerId then fun x => (c.screenOrder x).filter (· != layerId)
        else c.screenOrder
      | _ => c.screenOrder := by
  cases call with
  | pushScreen screenElm =>
    simp only [onCall]
    cases getListElement wm.screenHead screenElm with
    | none => rfl
    | some s => simp only [pushScreen, apply, pushLayers_screenOrder]
  | removeLayer layerId =>
    simp only [onCall, removeLayer]
    split
    · rfl
    · rfl
  | _ => exact (keeps_screenOrder (by simp) (by simp) c.screenOrder).onCall wm rfl

end Compositor

/-! ## The layer lists of the tree -/

/-- The layer list of each screen. -/
def layerLists (t : List ScreenElm) : List (Id × List Id) := t.map fun s => (s.id, ids s.listHead)

theorem mem_layerLists {t : List ScreenElm} {p : Id × List Id} :
    p ∈ layerLists t ↔ ∃ s ∈ t, (s.id, ids s.listHead) = p := List.mem_map

theorem layerLists_updateLayer {layerId : Id} {t : List ScreenElm} {f : LayerElm → LayerElm}
    (hf : ∀ e, (f e).id = e.id) : layerLists (updateLayer t layerId f) = layerLists t :=
  map_updateFirst fun _ _ => Prod.ext rfl (ids_updateFirst hf)

/-- The other calls keep the layer lists, but for new screens. -/
theorem layerLists_layout (wm : Wm) (call : Call) :
    (∃ screenElm obj layerId info, call = .putLayer screenElm obj layerId info) ∨
    (∃ layerId, call = .removeLayer layerId) ∨ call = .removeAll ∨
    layerLists (call.layout wm).screenHead = layerLists wm.screenHead ∨
    ∃ screenId, (call = .openScreen screenId ∨ call = .addScreen screenId) ∧
      layerLists (call.layout wm).screenHead = layerLists wm.screenHead ++ [(screenId, [])] := by
  have hkeep : ∀ {l : List ScreenElm}, l = wm.screenHead → layerLists l = layerLists wm.screenHead :=
    fun h => congrArg layerLists h
  have hadd : ∀ screenId, layerLists (addScreen wm screenId).screenHead =
      layerLists wm.screenHead ++ [(screenId, [])] := fun _ => List.map_append
  cases call with
  | putLayer screenElm obj layerId info => exact .inl ⟨screenElm, obj, layerId, info, rfl⟩
  | removeLayer layerId => exact .inr (.inl ⟨layerId, rfl⟩)
  | removeAll => exact .inr (.inr (.inl rfl))
  | putSurface layerElm obj surfaceId info =>
    refine .inr (.inr (.inr (.inl ?_)))
    cases hput : wm.surfaceToPut layerElm obj surfaceId with
    | none => exact hkeep (by simp only [Call.layout, hput])
    | some prop =>
      rw [screenHead_putSurface hput]
      exact layerLists_updateLayer fun _ => rfl
  | removeSurface layerElm surfaceId =>
    refine .inr (.inr (.inr (.inl ?_)))
    rw [screenHead_removeSurface]
    exact layerLists_updateLayer fun _ => rfl
  | modifyLayer layerId obj =>
    refine .inr (.inr (.inr (.inl ?_)))
    simp only [Call.layout]
    split
    · rfl
    · exact layerLists_updateLayer fun _ => rfl
  | modifySurface surfaceId obj =>
    refine .inr (.inr (.inr (.inl (hkeep ?_))))
    simp only [Call.layout]
    split <;> rfl
  | openScreen screenId =>
    simp only [Call.layout]
    cases getListElement wm.screenHead screenId with
    | none => exact .inr (.inr (.inr (.inr ⟨screenId, .inl rfl, hadd screenId⟩)))
    | some s => exact .inr (.inr (.inr (.inl rfl)))
  | addScreen screenId => exact .inr (.inr (.inr (.inr ⟨screenId, .inr rfl, hadd screenId⟩)))
  | _ => exact .inr (.inr (.inr (.inl rfl)))

/-! ## One call -/

/-- The calls still to be made push the screen. -/
def pushedLater (rest : List Call) (screenElm : Id) : Bool :=
  rest.any fun
    | .pushScreen s => s == screenElm
    | _ => false

theorem pushedLater_append {rest : List Call} {screenElm : Id}
    (h : pushedLater rest screenElm = true) (more : List Call) :
    pushedLater (rest ++ more) screenElm = true := by
  rw [pushedLater, List.any_append, Bool.or_eq_true]
  exact .inl h

/-- The orders the compositor has and the lists of the tree, the calls of `rest`
still to be made. -/
def Synced (wm : Wm) (c : Compositor) (rest : List Call) : Prop :=
  DeferredMirror.Mirrors (layerLists wm.screenHead) c.screenOrder (pushedLater rest)

/-- A put is made good by the pushes that follow it: the layer will be shown
where it was put, and, if the put loses it, will not be shown where it was. -/
def Shown (w : World Compositor) : Call → List Call → Prop
  | .putLayer screenElm _ layerId info, rest =>
    pushedLater rest screenElm = true ∧ (info.order = .none →
      ∀ s ∈ w.wm.screenHead, layerId ∈ w.ilm.screenOrder s.id → pushedLater rest s.id = true)
  | _, _ => True

/-- A screen that enters the tree shows nothing or will be pushed. -/
def Opens (w : World Compositor) : Call → List Call → Prop
  | .openScreen screenId, rest => pushedLater rest screenId = true
  | .addScreen screenId, _ => w.ilm.screenOrder screenId = []
  | _, _ => True

section Step

variable {w : World Compositor} {call : Call} {rest : List Call}

theorem Synced.put {screenElm layerId : Id} {obj : Json} {info : InsertInfo}
    (h : Synced w.wm w.ilm rest) (hu : Unique w.wm) (hp : screenElm ∈ w.wm.screenIds)
    (hs : Shown w (.putLayer screenElm obj layerId info) rest) :
    Synced ((Call.putLayer screenElm obj layerId info).layout w.wm) w.ilm rest := by
  obtain ⟨hpushed, hlost⟩ := hs
  rw [Synced, hu.screenHead_putLayer_eq_map, layerLists, List.map_map]
  have hid := layerToPut_id w.wm obj layerId
  generalize w.wm.layerToPut obj layerId = e at hid
  by_cases horder : info.order = .none
  · refine DeferredMirror.Mirrors.lose (v := layerId) h (fun s _ => putInto_id screenElm e info s)
      (fun s _ => ?_) (hlost horder)
    dsimp only [Function.comp_apply, putInto]
    split
    · rw [insertLayer, insertListElement_none horder, ids_dropLayer, hid]
    · rw [ids_dropLayer, hid]
  · refine DeferredMirror.Mirrors.move (v := layerId) h (fun s _ => putInto_id screenElm e info s)
      (fun s _ hne => ?_) (fun s _ heq x => ?_) (mem_ids.mp hp) hpushed
    · dsimp only [Function.comp_apply, putInto]
      rw [if_neg hne, ids_dropLayer, hid]
    · dsimp only [Function.comp_apply, putInto]
      rw [if_pos heq, insertLayer, mem_ids_insertListElement, mem_ids_dropLayer, hid]
      simp only [horder, ne_eq, not_false_eq_true, true_and]

theorem Synced.push {screenElm : Id} (h : Synced w.wm w.ilm (.pushScreen screenElm :: rest))
    (hu : Unique w.wm) (hp : screenElm ∈ w.wm.screenIds) :
    Synced w.wm (Compositor.onCall false w.wm (.pushScreen screenElm) w.ilm) rest := by
  obtain ⟨s, hs, rfl⟩ := mem_ids.mp hp
  have hget : getListElement w.wm.screenHead s.id = some s :=
    (getListElement_eq_some hu.screens).mpr ⟨hs, rfl⟩
  rw [Synced, Compositor.screenOrder_onCall]
  dsimp only
  rw [hget]
  refine DeferredMirror.Mirrors.push h (mem_layerLists.mpr ⟨s, hs, rfl⟩) ?_ ?_ ?_ ?_
  · intro p hmem hps
    obtain ⟨s', hs', rfl⟩ := mem_layerLists.mp hmem
    rw [eq_of_id_eq hu.screens hs' hs hps]
  · intro p hmem hps l hl
    obtain ⟨s', hs', rfl⟩ := mem_layerLists.mp hmem
    exact hu.layers_disjoint hs' hs hps hl
  · simp [pushedLater]
  · intro x hx
    have hne : (s.id == x) = false := by simpa using fun e => hx e.symm
    simp [pushedLater, hne]

theorem Synced.remove {layerId : Id} (h : Synced w.wm w.ilm rest) (hu : Unique w.wm)
    (hx : ∀ l ∈ w.wm.layerIds, l ∈ w.ilm.layers) :
    Synced ((Call.removeLayer layerId).layout w.wm)
      (Compositor.onCall false w.wm (.removeLayer layerId) w.ilm) rest := by
  rw [Synced, Compositor.screenOrder_onCall, hu.screenHead_removeLayer_eq_map, layerLists,
    List.map_map]
  dsimp only
  by_cases hc : w.ilm.layers.contains layerId = true
  · rw [if_pos hc]
    refine DeferredMirror.Mirrors.remove (v := layerId) h (fun _ _ => rfl)
      (fun s _ => ids_dropLayer layerId s) fun k => List.filter_congr fun l _ => ?_
    exact Bool.eq_iff_iff.mpr (by simp)
  · -- a layer the compositor does not know is not in the tree
    have hsame : ∀ s ∈ w.wm.screenHead, ids (dropLayer layerId s).listHead = ids s.listHead := by
      intro s hs
      rw [ids_dropLayer]
      refine List.filter_eq_self.mpr fun l hl => ?_
      have hne : l ≠ layerId := by
        rintro rfl
        exact hc (List.contains_iff_mem.mpr (hx l (mem_layerIds.mpr ⟨s, hs, hl⟩)))
      simpa using hne
    rw [if_neg hc]
    have hlists : w.wm.screenHead.map ((fun s => (s.id, ids s.listHead)) ∘ dropLayer layerId) =
        layerLists w.wm.screenHead :=
      List.map_congr_left fun s hs => Prod.ext rfl (hsame s hs)
    rw [hlists]
    exact h

theorem Synced.after_call (hu : Unique w.wm) (hx : ∀ l ∈ w.wm.layerIds, l ∈ w.ilm.layers)
    (h : Synced w.wm w.ilm (call :: rest)) (hp : call.Points w.wm) (hs : Shown w call rest)
    (ho : Opens w call rest) :
    Synced (call.layout w.wm) (Compositor.onCall false w.wm call w.ilm) rest := by
  -- only a push changes what is still to be pushed, and only it and a removal change the view
  have hsplit : (∃ screenElm, call = .pushScreen screenElm) ∨
      (∃ layerId, call = .removeLayer layerId ∧ Synced w.wm w.ilm rest) ∨
      (Compositor.onCall false w.wm call w.ilm).screenOrder = w.ilm.screenOrder ∧
        Synced w.wm w.ilm rest := by
    rw [Compositor.screenOrder_onCall]
    cases call with
    | pushScreen screenElm => exact .inl ⟨screenElm, rfl⟩
    | removeLayer layerId => exact .inr (.inl ⟨layerId, rfl, h⟩)
    | _ => exact .inr (.inr ⟨rfl, h⟩)
  rcases hsplit with ⟨screenElm, rfl⟩ | ⟨layerId, rfl, hrest⟩ | ⟨horder, hrest⟩
  · exact h.push hu hp
  · exact hrest.remove hu hx
  · rcases layerLists_layout w.wm call with ⟨screenElm, obj, layerId, info, rfl⟩ | ⟨layerId, rfl⟩ |
      rfl | hkeep | ⟨screenId, hcall, hadd⟩
    · rw [Synced, horder]
      exact hrest.put hu hp hs
    · exact hrest.remove hu hx
    · exact .nil
    · rw [Synced, horder, hkeep]
      exact hrest
    · rw [Synced, horder, hadd]
      refine DeferredMirror.Mirrors.add hrest ?_
      rcases hcall with rfl | rfl
      · exact .inl ho
      · exact .inr ho

end Step

/-! ## Layout documents -/

/-- The calls of a layout document push every screen they open or put on, and put
under an order the code knows. -/
def Pushes (w : World Compositor) : Call → List Call → Prop
  | .putLayer screenElm _ _ info, rest => pushedLater rest screenElm = true ∧ info.order ≠ .none
  | .openScreen screenId, rest => pushedLater rest screenId = true
  | .addScreen _, _ => w.wm.layerIds = []
  | _, _ => True

theorem layerIds_eq_flatMap (wm : Wm) : wm.layerIds = (layerLists wm.screenHead).flatMap (·.2) := by
  rw [Wm.layerIds, ids, layersOf, List.map_flatMap, layerLists, List.flatMap_map]
  rfl

theorem layerIds_addScreen (wm : Wm) (screenId : Id) :
    (addScreen wm screenId).layerIds = wm.layerIds := by
  rw [Wm.layerIds, Wm.layerIds, layersOf_addScreen]

theorem pushes_documents :
    AtDocuments (Compositor.ilm false) fun w call rest => Pushes w call rest where
  grows := by
    intro w call rest more h
    cases call with
    | putLayer => exact ⟨pushedLater_append h.1 more, h.2⟩
    | openScreen => exact pushedLater_append h more
    | _ => exact h
  plain := by
    intro w call rest hplain
    cases call <;> trivial
  screen := by
    intro screenJobj _ w _ _
    have hpushed : ∀ rest, pushedLater (rest ++ [.pushScreen ((parseId (some screenJobj)).getD 0)])
        ((parseId (some screenJobj)).getD 0) = true := by
      intro rest
      simp [pushedLater]
    rw [screenCalls, ← List.cons_append]
    refine AtEach.of_last (fun call hcall s rest => ?_) (fun _ => trivial) w
    simp only [layerCalls, List.mem_cons, List.mem_flatMap, List.mem_map] at hcall
    rcases hcall with rfl | ⟨layerJobj, -, rfl | ⟨surfaceJobj, -, rfl⟩⟩
    · exact hpushed rest
    · exact ⟨hpushed rest, by decide⟩
    · trivial
  default := by
    intro w w' hempty hask
    cases hask
    refine AtEach.of_invariant (I := fun s => s.wm.layerIds = []) ?_ ?_ ?_
    · intro call hcall s s' hs hrun
      obtain ⟨id, -, rfl⟩ := List.mem_map.mp hcall
      cases hrun
      exact (layerIds_addScreen s.wm id).trans hs
    · intro call hcall s _ hs
      obtain ⟨id, -, rfl⟩ := List.mem_map.mp hcall
      exact hs
    · change ids (layersOf w.wm.screenHead) = []
      rw [hempty]
      rfl

/-- The calls that only add to the tree. -/
def Call.builds : Call → Bool
  | .removeAll | .removeLayer _ => false
  | _ => true

theorem builds_documents :
    AtDocuments (Compositor.ilm false) fun _ call _ => call.builds = true where
  grows := .of_state
  plain := by
    intro w call _ hplain
    cases call <;> first | rfl | cases hplain
  screen := by
    intro screenJobj _ w _ _
    refine .of_forall (fun call hcall _ _ => ?_) w
    have hof := ofDocument_of_mem hcall
    cases call <;> first | rfl | exact hof.elim
  default := by
    intro w w' _ _
    refine .of_forall (fun call hcall _ _ => ?_) w'
    obtain ⟨id, -, rfl⟩ := List.mem_map.mp hcall
    rfl

/-! ## Runs -/

/-- What holds between any two calls, `rest` being the calls still to be made. -/
structure Ordered (w : World Compositor) (rest : List Call) : Prop where
  unique : Unique w.wm
  exist : ∀ l ∈ w.wm.layerIds, l ∈ w.ilm.layers
  synced : Synced w.wm w.ilm rest

theorem Ordered.call {call : Call} {rest : List Call} {w : World Compositor}
    (h : Ordered w (call :: rest)) (hfresh : FreshScreen w call) (hp : call.Points w.wm)
    (hs : Shown w call rest) (ho : Opens w call rest) :
    Ordered ⟨call.layout w.wm, Compositor.onCall false w.wm call w.ilm⟩ rest where
  unique := h.unique.call hfresh
  exist := layers_after_call h.exist h.unique
  synced := h.synced.after_call h.unique h.exist hp hs ho

theorem Ordered.order_eq {w : World Compositor} (h : Ordered w []) {s : ScreenElm}
    (hs : s ∈ w.wm.screenHead) : w.ilm.screenOrder s.id = ids s.listHead :=
  h.synced.view_eq (fun _ => rfl) (mem_layerLists.mpr ⟨s, hs, rfl⟩)

/-- Between two steps nothing is late, so any step may begin. -/
theorem Ordered.begin {w : World Compositor} (h : Ordered w []) (rest : List Call) :
    Ordered w rest := by
  refine ⟨h.unique, h.exist, DeferredMirror.Mirrors.of_eq (fun p hp => ?_) fun p hp q hq hne l hl => ?_⟩
  · obtain ⟨s, hs, rfl⟩ := mem_layerLists.mp hp
    exact h.order_eq hs
  · obtain ⟨s, hs, rfl⟩ := mem_layerLists.mp hp
    obtain ⟨s', hs', rfl⟩ := mem_layerLists.mp hq
    exact h.unique.layers_disjoint hs hs' hne hl

/-- While `parser_init` has put no layer, no screen shows any. -/
structure Building (w : World Compositor) (rest : List Call) : Prop extends Ordered w rest where
  blank : w.wm.layerIds = [] → ∀ s, w.ilm.screenOrder s = []

theorem Building.call {call : Call} {rest : List Call} {w : World Compositor}
    (h : Building w (call :: rest)) (hfresh : FreshScreen w call) (hp : call.Points w.wm)
    (hpush : Pushes w call rest) (hbuilds : call.builds = true) :
    Building ⟨call.layout w.wm, Compositor.onCall false w.wm call w.ilm⟩ rest where
  toOrdered := by
    refine h.toOrdered.call hfresh hp ?_ ?_
    · cases call with
      | putLayer => exact ⟨hpush.1, fun h => absurd h hpush.2⟩
      | _ => trivial
    · cases call with
      | openScreen => exact hpush
      | addScreen screenId => exact h.blank hpush screenId
      | _ => trivial
  blank := by
    intro hnone
    -- the layers were none before, and only a push could have shown any
    have hbefore : w.wm.layerIds = [] := by
      rcases layerLists_layout w.wm call with ⟨screenElm, obj, layerId, info, rfl⟩ | ⟨layerId, rfl⟩ |
        rfl | hkeep | ⟨screenId, -, hadd⟩
      · have hmem := mem_layerIds_putLayer obj layerId ⟨hpush.2, hp⟩
        rw [hnone] at hmem
        exact nomatch hmem
      · cases hbuilds
      · cases hbuilds
      · rwa [layerIds_eq_flatMap, hkeep, ← layerIds_eq_flatMap] at hnone
      · rwa [layerIds_eq_flatMap, hadd, List.flatMap_append, ← layerIds_eq_flatMap,
          List.flatMap_singleton, List.append_nil] at hnone
    intro x
    rw [Compositor.screenOrder_onCall]
    have hblank := h.blank hbefore
    cases call with
    | pushScreen screenElm =>
      dsimp only
      cases hget : getListElement w.wm.screenHead screenElm with
      | none => exact hblank x
      | some s =>
        have hs : ids s.listHead = [] := by
          refine List.eq_nil_iff_forall_not_mem.mpr fun l hl => ?_
          have hmem : l ∈ w.wm.layerIds :=
            mem_layerIds.mpr ⟨s, (mem_of_getListElement hget).1, hl⟩
          rw [hbefore] at hmem
          exact nomatch hmem
        dsimp only
        split
        · exact hs
        · rw [hblank x]
          rfl
    | removeLayer layerId => cases hbuilds
    | _ => exact hblank x

theorem ordered_of_parserInit {boot : Boot} {w₀ w : World Compositor}
    (hblank : ∀ s, w₀.ilm.screenOrder s = [])
    (h : parserInit (Compositor.ilm false) boot w₀ = .ok ((), w)) : Ordered w [] := by
  refine (init_induction (J := Building) (G := fun w call rest =>
    (FreshScreen w call ∧ call.Points w.wm) ∧ Pushes w call rest ∧ call.builds = true)
    ?_ ?_ ?_ h).toOrdered
  · rintro call rest w w' hw ⟨⟨hfresh, hp⟩, hpush, hbuilds⟩ hs
    rw [Call.sem_lenient hs]
    exact hw.call hfresh hp hpush hbuilds
  · exact ⟨⟨.empty w₀.wm.uninit, (fun _ hl => nomatch hl), .nil⟩, fun _ => hblank⟩
  · have hfresh := (freshScreen_documents (Compositor.distinctScreenIds false)).boot boot w₀
    exact (hfresh.and (points_documents.boot boot w₀)).and
      ((pushes_documents.boot boot w₀).and (builds_documents.boot boot w₀))

/-- What an `add_layer` message puts is shown by the pushes that follow. -/
def PutsShown : Action → World Compositor → Prop
  | .event (.message body), w => commandOf body = some .addLayer →
    AtEach (Call.sem (Compositor.ilm false)) Shown
      ((Event.message body).calls (Compositor.ilm false) w) w
  | _, _ => True

theorem shown_event {e : Event} {w : World Compositor} (h : PutsShown (.event e) w) :
    AtEach (Call.sem (Compositor.ilm false)) (fun w call rest => Shown w call rest ∧ Opens w call rest)
      (e.calls (Compositor.ilm false) w) w := by
  cases e with
  | record cbData =>
    obtain ⟨type, id⟩ := cbData
    cases type with
    | creationDelection => exact ⟨⟨trivial, trivial⟩, by split <;> trivial⟩
    | surfacePropChange => exact ⟨⟨trivial, trivial⟩, by split <;> trivial⟩
  | message body =>
    have hfresh : ∀ call ∈ (Event.message body).calls (Compositor.ilm false) w, ∀ screenId,
        call ≠ .addScreen screenId := fun call hcall => Event.calls_ne_addScreen hcall
    by_cases hscreen : commandOf body = some .initialScreen
    · refine AtEach.mono (G := fun w call rest =>
        Pushes w call rest ∧ ∀ screenId, call ≠ .addScreen screenId) ?_ ?_
      · refine AtEach.and ?_ (.of_forall (fun call hcall _ _ => hfresh call hcall) w)
        rw [calls_message]
        split
        · rename_i command _ hcommand
          rw [hscreen] at hcommand
          cases hcommand
          exact pushes_documents.initScreen (fun _ _ => trivial) body w
        · trivial
      · rintro s call rest ⟨hpush, hadd⟩
        cases call with
        | putLayer => exact ⟨⟨hpush.1, fun h => absurd h hpush.2⟩, trivial⟩
        | openScreen => exact ⟨trivial, hpush⟩
        | addScreen screenId => exact absurd rfl (hadd screenId)
        | _ => exact ⟨trivial, trivial⟩
    · have hopens : ∀ call ∈ (Event.message body).calls (Compositor.ilm false) w, ∀ s rest,
          Opens s call rest := by
        intro call hcall s rest
        have hnot := hfresh call hcall
        rw [calls_message] at hcall
        split at hcall
        · rename_i command _ hcommand
          have hof := Command.plan_calls command w call hcall
          cases call with
          | openScreen => cases command <;> first | exact hof.elim | exact absurd hcommand hscreen
          | addScreen screenId => exact absurd rfl (hnot screenId)
          | _ => trivial
        · cases hcall
      refine AtEach.and ?_ (.of_forall hopens w)
      by_cases hadd : commandOf body = some .addLayer
      · exact h hadd
      · refine .of_forall (fun call hcall s rest => ?_) w
        rw [calls_message] at hcall
        split at hcall
        · rename_i command _ hcommand
          have hof := Command.plan_calls command w call hcall
          cases call with
          | putLayer =>
            cases command <;> first
              | exact hof.elim
              | exact absurd hcommand hadd
              | exact absurd hcommand hscreen
          | _ => trivial
        · cases hcall

theorem ordered_of_run {set : Setting Compositor}
    (hstart : ∀ boot w, set.start boot w → ∀ s, w.ilm.screenOrder s = [])
    (henv : ∀ c c', set.env c c' → c'.screenOrder = c.screenOrder ∧ c.layers ⊆ c'.layers)
    {w : World Compositor} (h : (daemon (Compositor.ilm false) set).Run PutsShown w) :
    Ordered w [] := by
  refine run_induction (P := fun w => Ordered w []) (J := Ordered) (G := fun w call rest =>
    (FreshScreen w call ∧ call.Points w.wm) ∧ Shown w call rest ∧ Opens w call rest)
    (fun boot w₀ w hboot => ordered_of_parserInit (hstart boot w₀ hboot)) (fun e w hw hG => ?_)
    ?_ (fun _ h => h) ?_ h
  · refine ⟨hw.begin _, ?_⟩
    exact ((atEach_freshScreen e w).and (points_event e w)).and (shown_event hG)
  · rintro call rest w w' hw ⟨⟨hfresh, hp⟩, hs, ho⟩ hrun
    rw [Call.sem_lenient hrun]
    exact hw.call hfresh hp hs ho
  · intro w c hw _ hc
    obtain ⟨horder, hlayers⟩ := henv w.ilm c hc
    refine ⟨hw.unique, fun l hl => hlayers (hw.exist l hl), ?_⟩
    rw [Synced, horder]
    exact hw.synced

/-- Where every layer that is put is also pushed, the render order of each screen is that of its
layers in the tree. -/
theorem screen_order_mirrored {set : Setting Compositor}
    (hstart : ∀ boot w, set.start boot w → ∀ s, w.ilm.screenOrder s = [])
    (henv : ∀ c c', set.env c c' → c'.screenOrder = c.screenOrder ∧ c.layers ⊆ c'.layers)
    {w : World Compositor} (h : (daemon (Compositor.ilm false) set).Run PutsShown w) :
    ∀ s ∈ w.wm.screenHead, w.ilm.screenOrder s.id = ids s.listHead :=
  fun _ hs => (ordered_of_run hstart henv h).order_eq hs

instance Shown.decidable (w : World Compositor) (call : Call) (rest : List Call) :
    Decidable (Shown w call rest) :=
  match call with
  | .putLayer .. => inferInstanceAs (Decidable (_ ∧ _))
  | .putSurface .. | .pushScreen .. | .pushLayer .. | .removeLayer .. | .removeSurface ..
  | .modifyLayer .. | .modifySurface .. | .removeAll | .findScreen .. | .openScreen ..
  | .addScreen .. | .askScreenIds | .place .. | .register .. | .setCallback => .isTrue trivial

instance PutsShown.decidable (e : Event) (w : World Compositor) :
    Decidable (PutsShown (.event e) w) := by
  unfold PutsShown
  split <;> infer_instance

/-- On the default configuration, layer 3000 is put on one screen and then on the
other, in two messages. -/
def shownLayer : Except Abort (World Compositor) :=
  execute (Compositor.ilm false) ⟨"host", none⟩
    [message "add_layer" "screens" [screenObject 0 "append" [layerObject 3000 []]],
      message "add_layer" "screens" [screenObject 1 "prepend" [layerObject 3000 []]]]
    (World.fresh [0, 1])

theorem screen_order_mirrored_shownLayer :
    ∃ w : World Compositor, shownLayer = .ok w ∧
      ∀ s ∈ w.wm.screenHead, w.ilm.screenOrder s.id = ids s.listHead := by
  have hok : shownLayer.isOk = true := by decide +kernel
  obtain ⟨w, hw⟩ := exists_ok hok
  have hrun : (daemon (Compositor.ilm false)
      ⟨fun _ w => w = World.fresh [0, 1], fun c c' => c' = c⟩).Run PutsShown w :=
    run_of_execute rfl (by decide +kernel) hw
  refine ⟨w, hw, screen_order_mirrored ?_ ?_ hrun⟩
  · rintro _ _ rfl s
    rfl
  · rintro c _ rfl
    exact ⟨rfl, fun _ h => h⟩

/-- A layer object without id behind layer 3000: the layer is in the tree and is never pushed. -/
def unpushedLayer : Except Abort (World Compositor) :=
  execute (Compositor.ilm false) ⟨"host", none⟩
    [message "add_layer" "screens" [screenObject 0 "append" [layerObject 3000 [], .object []]]]
    (World.fresh [0])

theorem screen_order_diverges :
    ¬ ∀ w, (daemon (Compositor.ilm false)
        ⟨fun _ w => w = World.fresh [0], fun c c' => c' = c⟩).Reachable w →
      ∀ s ∈ w.wm.screenHead, w.ilm.screenOrder s.id = ids s.listHead := by
  intro h
  have hend : endsWith (fun w => w.wm.screenHead.any fun s =>
      w.ilm.screenOrder s.id != ids s.listHead) unpushedLayer = true := by decide +kernel
  obtain ⟨w, hw, hany⟩ := exists_of_endsWith hend
  obtain ⟨s, hs, hne⟩ := List.any_eq_true.mp hany
  have heq := h w (reachable_of_execute rfl hw) s hs
  rw [heq, bne_self_eq_false] at hne
  cases hne

end UhmiIviWm
