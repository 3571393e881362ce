import UhmiIviWm.Model.Session
import UhmiIviWm.Verify.LayerOrder

/-!
# No surface is left out of its layer

A surface put into the tree may not exist yet. It is then placed in two stages: the
record of its creation makes the daemon register a notification, and the record of
the answer makes it push the layers that list the surface. `Placed` is what holds
meanwhile: what the compositor shows of a layer is part of the layer's list, in its
order, and an existing surface that is not shown is awaited, by a record on the pipe
or by a notification that is registered. Between the calls of a message this leaves
out the layers that are pushed later in it (`Late`).

Two things break it. A batch that stops before its push leaves what it has put
(`Completes`), and `wrap_ilm_set_surface` and `wrap_ilm_remove_surface` cancel the
notification of their surface even where another layer still waits for it
(`Spares`).
-/

namespace UhmiIviWm

open Lib Lib.CallPlan Lib.DeferredMirror Lib.KeyedList

/-! ## What is not shown is awaited -/

/-- A surface of a layer exists and is not shown, and the step does not push the layer later. -/
def Missing (w : World Compositor) (rest : List Call) (l s : Id) : Prop :=
  ¬ Late w.wm.screenHead rest l ∧ s ∉ w.ilm.layerOrder l ∧
    ∃ e, getLayer w.wm.screenHead l = some e ∧ s ∈ w.ilm.existing e

/-- The calls still to be made take the surface out of the layer. -/
def removedLater (rest : List Call) (l s : Id) : Bool :=
  rest.any fun
    | .removeSurface layerElm surfaceId => layerElm == l && surfaceId == s
    | _ => false

theorem removedLater_of_cons {call : Call} {rest : List Call} {l s : Id}
    (hne : call ≠ .removeSurface l s) (h : removedLater (call :: rest) l s = true) :
    removedLater rest l s = true := by
  rw [removedLater, List.any_cons, Bool.or_eq_true] at h
  refine h.resolve_left fun hthis => hne ?_
  cases call with
  | removeSurface layerElm surfaceId =>
    rw [Bool.and_eq_true, beq_iff_eq, beq_iff_eq] at hthis
    rw [hthis.1, hthis.2]
  | _ => cases hthis

/-- What holds between any two calls, `rest` being the calls still to be made. -/
structure Placed (await : Id → Prop) (w : World Compositor) (rest : List Call) : Prop where
  unique : Unique w.wm
  exist : ∀ l ∈ w.wm.layerIds, l ∈ w.ilm.layers
  order : ∀ l e, getLayer w.wm.screenHead l = some e → ¬ Late w.wm.screenHead rest l →
    (w.ilm.layerOrder l).Sublist (w.ilm.existing e)
  awaited : ∀ l s, Missing w rest l s → await s ∨ removedLater rest l s = true

namespace Placed

variable {await await' : Id → Prop} {w : World Compositor} {rest : List Call}

theorem mono (h : Placed await w rest)
    (hawait : ∀ l s, Missing w rest l s → await s → await' s ∨ removedLater rest l s = true) :
    Placed await' w rest where
  unique := h.unique
  exist := h.exist
  order := h.order
  awaited := fun l s hs => (h.awaited l s hs).elim (hawait l s hs) .inr

/-- Any step may begin. -/
theorem begin (h : Placed await w []) (rest : List Call) : Placed await w rest where
  unique := h.unique
  exist := h.exist
  order := fun l e he _ => h.order l e he not_late_nil
  awaited := fun l s hs => (h.awaited l s ⟨not_late_nil, hs.2⟩).imp_right nofun

/-- Where the tree is going to be cleared, nothing has to be right. -/
theorem of_refreshed (hu : Unique w.wm) (hx : ∀ l ∈ w.wm.layerIds, l ∈ w.ilm.layers)
    (h : ∀ l, refreshedLater rest l = true) : Placed await w rest where
  unique := hu
  exist := hx
  order := fun l _ _ hlate => absurd (.inl (h l)) hlate
  awaited := fun l _ hs => absurd (.inl (h l)) hs.1

/-- A call keeps the orders, and makes no surface missing that was not missing before. -/
theorem call {call : Call} (h : Placed await w (call :: rest)) (hfresh : FreshScreen w call)
    (hp : call.Points w.wm) (hc : Completes w call rest)
    (hawait : ∀ l s, Missing w (call :: rest) l s → call ≠ .removeSurface l s →
      Missing ⟨call.layout w.wm, Compositor.onCall false w.wm call w.ilm⟩ rest l s → await s →
      await' s ∨ removedLater rest l s = true) :
    Placed await' ⟨call.layout w.wm, Compositor.onCall false w.wm call w.ilm⟩ rest := by
  have hsettles := settles h.unique h.exist hp hc
  refine ⟨h.unique.call hfresh, layers_after_call h.exist h.unique, fun l e' he' hlate => ?_,
    fun l s hs => ?_⟩
  · rcases hsettles l e' he' hlate with horder | ⟨hbefore, ⟨e, p, he, hexisting, horder⟩, -⟩
    · exact horder ▸ List.Sublist.refl _
    · dsimp only
      rw [hexisting, horder]
      exact (h.order l e he hbefore).filter p
  · have hafter := hs
    obtain ⟨hlate, hnot, e', he', hmem⟩ := hs
    rcases hsettles l e' he' hlate with horder | ⟨hbefore, ⟨e, p, he, hexisting, horder⟩, hremoved⟩
    · exact absurd (horder ▸ hmem) hnot
    · have hne : call ≠ .removeSurface l s := fun hcall => hremoved s hcall hmem
      dsimp only at hmem hnot
      rw [hexisting, List.mem_filter] at hmem
      have hmissing : Missing w (call :: rest) l s := by
        refine ⟨hbefore, fun hshown => hnot ?_, e, he, hmem.1⟩
        rw [horder]
        exact List.mem_filter.mpr ⟨hshown, hmem.2⟩
      rcases h.awaited l s hmissing with ha | hremove
      · exact hawait l s hmissing hne hafter ha
      · exact .inr (removedLater_of_cons hne hremove)

/-- With nothing awaited, every layer is shown right. -/
theorem order_eq (h : Placed await w []) (hnone : ∀ s, ¬ await s) {e : LayerElm}
    (he : e ∈ layersOf w.wm.screenHead) : w.ilm.layerOrder e.id = w.ilm.existing e := by
  have hget : getLayer w.wm.screenHead e.id = some e := h.unique.getLayer_iff.mpr ⟨he, rfl⟩
  have hsub := h.order e.id e hget not_late_nil
  have hall : w.ilm.existing e ⊆ w.ilm.layerOrder e.id := by
    intro s hs
    by_contra hnot
    rcases h.awaited e.id s ⟨not_late_nil, hnot, e, hget, hs⟩ with ha | hremoved
    · exact hnone s ha
    · cases hremoved
  have hnodup : (w.ilm.existing e).Nodup := (h.unique.surfaces e he).filter _
  exact hsub.eq_of_length_le (hnodup.length_le_of_subset hall)

end Placed

/-! ## Messages -/

/-- A record of the surface is on the pipe. -/
def OnPipe (pipe : List Cbdata) (s : Id) : Prop := s ∈ pipe.map (·.id)

instance (pipe : List Cbdata) (s : Id) : Decidable (OnPipe pipe s) :=
  inferInstanceAs (Decidable (s ∈ pipe.map (·.id)))

theorem onPipe_append {pipe records : List Cbdata} {s : Id} :
    OnPipe (pipe ++ records) s ↔ OnPipe pipe s ∨ OnPipe records s := by
  rw [OnPipe, List.map_append, List.mem_append]
  rfl

/-- A record of the surface will be handled. -/
def Awaited (pipe : List Cbdata) (c : Compositor) (s : Id) : Prop := s ∈ c.pending ∨ OnPipe pipe s

/-- A call that cancels a notification takes it from no layer that waits for the surface. -/
def Spares (pipe : List Cbdata) (w : World Compositor) (call : Call) (rest : List Call) : Prop :=
  ∀ s ∈ call.cancels, ∀ e ∈ layersOf w.wm.screenHead,
    s ∈ w.ilm.existing e → s ∉ w.ilm.layerOrder e.id →
      Late w.wm.screenHead rest e.id ∨ removedLater (call :: rest) e.id s = true ∨ OnPipe pipe s

theorem refreshes_of_cancels {call : Call} {s : Id} (h : call.cancels = some s) :
    call.refreshes = false := by
  cases call <;> first | rfl | cases h

theorem Placed.spare {pipe : List Cbdata} {w : World Compositor} {call : Call} {rest : List Call}
    (h : Placed (Awaited pipe w.ilm) w (call :: rest)) (hfresh : FreshScreen w call)
    (hp : call.Points w.wm) (hc : Completes w call rest) (hs : Spares pipe w call rest) :
    Placed (Awaited pipe (Compositor.onCall false w.wm call w.ilm))
      ⟨call.layout w.wm, Compositor.onCall false w.wm call w.ilm⟩ rest := by
  refine h.call hfresh hp hc fun l s hmissing hne _ hawait => ?_
  rcases hawait with hpending | hpipe
  · rcases Compositor.mem_pending_onCall hpending w.wm call with hpending | ⟨hcancel, -⟩
    · exact .inl (.inl hpending)
    · obtain ⟨hlate, hnot, e, he, hmem⟩ := hmissing
      obtain ⟨helm, rfl⟩ := h.unique.getLayer_iff.mp he
      rcases hs s hcancel e helm hmem hnot with hlater | hremoved | hpipe
      · exact absurd ((late_cons (refreshes_of_cancels hcancel)).mpr hlater) hlate
      · exact .inr (removedLater_of_cons hne hremoved)
      · exact .inl (.inr hpipe)
  · exact .inl (.inr hpipe)

/-! ## Layout documents -/

section Documents

variable {σ : Type} {ilm : Ilm σ}

/-- The calls of a layout document push the screens they put on. -/
def Flushes (w : World σ) : Call → List Call → Prop
  | .putLayer screenElm _ _ _, rest => pushedLater rest screenElm = true
  | .putSurface layerElm _ _ _, rest =>
    Moving (layerLists w.wm.screenHead) (pushedLater rest) layerElm
  | _, _ => True

theorem Flushes.completes {w : World Compositor} {call : Call} {rest : List Call}
    (h : Flushes w call rest) : Completes w call rest := by
  cases call with
  | putLayer => exact .inr (.inr (.inl h))
  | putSurface => exact fun _ => .inr h
  | _ => trivial

/-- Surfaces are put into layers of the screen. -/
def OnScreen (screenId : Id) (wm : Wm) : Call → Prop
  | .putSurface layerElm _ _ _ =>
    ∃ p ∈ layerLists wm.screenHead, p.1 = screenId ∧ layerElm ∈ p.2
  | _ => True

theorem layerLists_putLayer {wm : Wm} {screenElm : Id} {info : InsertInfo} (obj : Json)
    (layerId : Id) (h : Inserts wm.screenHead screenElm info) :
    ∃ p ∈ layerLists ((Call.putLayer screenElm obj layerId info).layout wm).screenHead,
      p.1 = screenElm ∧ layerId ∈ p.2 := by
  obtain ⟨horder, hscreen⟩ := inserts_popLayer.mpr h
  obtain ⟨s, hs⟩ := Option.isSome_iff_exists.mp (getListElement_isSome.mpr hscreen)
  have hget : getListElement ((Call.putLayer screenElm obj layerId info).layout wm).screenHead
      screenElm = some (insertLayer (wm.layerToPut obj layerId) info s) := by
    rw [screenHead_putLayer]
    refine (find?_updateFirst (insertLayer_id (wm.layerToPut obj layerId) info) screenElm).trans ?_
    rw [if_pos rfl]
    exact congrArg (Option.map _) hs
  obtain ⟨hmem, hid⟩ := mem_of_getListElement hget
  refine ⟨_, mem_layerLists.mpr ⟨_, hmem, rfl⟩, hid, ?_⟩
  exact mem_ids_insertListElement.mpr (.inl ⟨horder, (layerToPut_id wm obj layerId).symm⟩)

theorem layerLists_putSurface (wm : Wm) (layerElm : Id) (obj : Json) (surfaceId : Id)
    (info : InsertInfo) :
    layerLists ((Call.putSurface layerElm obj surfaceId info).layout wm).screenHead =
      layerLists wm.screenHead := by
  rcases layerLists_layout wm (.putSurface layerElm obj surfaceId info) with
    ⟨_, _, _, _, h⟩ | ⟨_, h⟩ | h | h | ⟨_, h | h, _⟩
  · cases h
  · cases h
  · cases h
  · exact h
  · cases h
  · cases h

theorem onScreen_layerCalls {screenId : Id} (layerJobj : Json) {w : World σ}
    (hs : screenId ∈ w.wm.screenIds) :
    AtEach (Call.sem ilm) (fun w call _ => OnScreen screenId w.wm call)
      (layerCalls screenId layerJobj) w := by
  refine ⟨trivial, ?_⟩
  split
  · rename_i u t ht
    refine AtEach.of_invariant (I := fun s => ∃ p ∈ layerLists s.wm.screenHead,
      p.1 = screenId ∧ (parseId (some layerJobj)).getD 0 ∈ p.2) ?_ ?_ ?_
    · intro call hcall s s' hl hrun
      obtain ⟨surfaceJobj, -, rfl⟩ := List.mem_map.mp hcall
      rw [(Call.sem_eq_ok.mp hrun).2, layerLists_putSurface]
      exact hl
    · intro call hcall s _ hl
      obtain ⟨surfaceJobj, -, rfl⟩ := List.mem_map.mp hcall
      exact hl
    · rw [(Call.sem_eq_ok.mp ht).2]
      exact layerLists_putLayer _ _ ⟨by decide, hs⟩
  · trivial

/-- Layers are put on the screen. -/
def Call.ToScreen (screenId : Id) : Call → Prop
  | .putLayer screenElm _ _ _ => screenElm = screenId
  | _ => True

/-- The calls of a screen object put on one screen, and end with its push. -/
theorem atEach_toScreen (screenJobj : Json) (w : World σ) :
    AtEach (Call.sem ilm) (fun _ call rest =>
      call.ToScreen ((parseId (some screenJobj)).getD 0) ∧
        (call = .pushScreen ((parseId (some screenJobj)).getD 0) ∨
          pushedLater rest ((parseId (some screenJobj)).getD 0) = true))
      (screenCalls screenJobj) w := by
  rw [screenCalls, ← List.cons_append]
  refine AtEach.of_last (fun call hcall s rest => ⟨?_, .inr ?_⟩) (fun _ => ⟨trivial, .inl rfl⟩) w
  · simp only [layerCalls, List.mem_cons, List.mem_flatMap, List.mem_map] at hcall
    rcases hcall with rfl | ⟨layerJobj, -, rfl | ⟨surfaceJobj, -, rfl⟩⟩
    · trivial
    · rfl
    · trivial
  · simp [pushedLater]

theorem flushes_documents : AtDocuments ilm fun w call rest => Flushes w call rest where
  grows := by
    intro w call rest more h
    cases call with
    | putLayer => exact pushedLater_append h more
    | putSurface =>
      obtain ⟨p, hp, hpushed, hmem⟩ := h
      exact ⟨p, hp, pushedLater_append hpushed more, hmem⟩
    | _ => exact h
  plain := by
    intro w call rest hplain
    cases call <;> trivial
  screen := by
    intro screenJobj _ w _ _
    have hon : AtEach (Call.sem ilm)
        (fun w call _ => OnScreen ((parseId (some screenJobj)).getD 0) w.wm call)
        (screenCalls screenJobj) w :=
      atEach_screenCalls rfl (fun _ => trivial) (fun layerJobj _ => onScreen_layerCalls layerJobj)
        (fun _ _ => trivial) w
    refine (hon.and (atEach_toScreen screenJobj w)).mono fun s call rest ⟨hscreen, hto, hpush⟩ => ?_
    cases call with
    | putLayer screenElm =>
      obtain rfl : screenElm = (parseId (some screenJobj)).getD 0 := hto
      exact hpush.resolve_left nofun
    | putSurface =>
      obtain ⟨p, hp, hid, hmem⟩ := hscreen
      exact ⟨p, hp, hid ▸ hpush.resolve_left nofun, hmem⟩
    | _ => trivial
  default := by
    intro w w' _ _
    refine .of_forall (fun call hcall _ _ => ?_) w'
    obtain ⟨screenId, -, rfl⟩ := List.mem_map.mp hcall
    trivial

end Documents

/-! ## Runs -/

/-- The condition: a batch pushes what it has put, a notification is cancelled only where no other
layer waits for it, and a record of a creation finds the surface in the store if a layer waits for
that record alone. -/
def Unhindered : SessionAction → Session → Prop
  | .takeRecord, s => match s.pipe with
    | ⟨.creationDelection, id⟩ :: rest =>
      id ∈ s.world.wm.recordIds ∨ id ∈ s.world.ilm.pending ∨ OnPipe rest id ∨
        ∀ e ∈ layersOf s.world.wm.screenHead,
          id ∈ s.world.ilm.existing e → id ∈ s.world.ilm.layerOrder e.id
    | _ => True
  | .message body, s => commandOf body = some .initialScreen ∨
    AtEach (Call.sem (Compositor.ilm false))
      (fun w call rest => Completes w call rest ∧ Spares s.pipe w call rest)
      ((Event.message body).calls (Compositor.ilm false) s.world) s.world
  | _, _ => True

namespace Placed

variable {pipe : List Cbdata} {w w' : World Compositor}

/-- The compositor changes while no handler runs. -/
theorem outside (h : Placed (Awaited pipe w.ilm) w []) {c : Compositor} {pipe' : List Cbdata}
    (hlayers : c.layers = w.ilm.layers)
    (horder : ∀ l e, (w.ilm.layerOrder l).Sublist (w.ilm.existing e) →
      (c.layerOrder l).Sublist (c.existing e))
    (hmissing : ∀ l s, Missing ⟨w.wm, c⟩ [] l s →
      Awaited pipe' c s ∨ Missing w [] l s ∧ (Awaited pipe w.ilm s → Awaited pipe' c s)) :
    Placed (Awaited pipe' c) ⟨w.wm, c⟩ [] where
  unique := h.unique
  exist := fun l hl => hlayers ▸ h.exist l hl
  order := fun l e he hlate => horder l e (h.order l e he hlate)
  awaited := by
    intro l s hs
    rcases hmissing l s hs with hawait | ⟨hbefore, hkept⟩
    · exact .inl hawait
    · exact .inl (hkept ((h.awaited l s hbefore).resolve_right nofun))

theorem create (h : Placed (Awaited pipe w.ilm) w []) (id : Id) :
    Placed (Awaited (pipe ++ notificationCallback .surface id true) (w.ilm.createSurface id))
      ⟨w.wm, w.ilm.createSurface id⟩ [] := by
  refine h.outside rfl (fun l e horder => ?_) ?_
  · refine horder.trans (List.monotone_filter_right _ fun s hs => ?_)
    rw [List.contains_iff_mem] at hs ⊢
    exact List.mem_cons_of_mem id hs
  · rintro l s ⟨hlate, hnot, e, he, hmem⟩
    obtain ⟨hlisted, hex⟩ := (Compositor.mem_existing _).mp hmem
    rcases List.mem_cons.mp hex with rfl | hex
    · exact .inl (.inr (onPipe_append.mpr (.inr List.mem_cons_self)))
    · refine .inr ⟨⟨hlate, hnot, e, he, w.ilm.mem_existing.mpr ⟨hlisted, hex⟩⟩, ?_⟩
      exact Or.imp_right fun hpipe => onPipe_append.mpr (.inl hpipe)

theorem destroy (h : Placed (Awaited pipe w.ilm) w []) (id : Id) :
    Placed (Awaited (pipe ++ notificationCallback .surface id false) (w.ilm.destroySurface id))
      ⟨w.wm, w.ilm.destroySurface id⟩ [] := by
  refine h.outside rfl (fun l e horder => ?_) ?_
  · have hexisting : (w.ilm.destroySurface id).existing e = (w.ilm.existing e).filter (· != id) := by
      rw [Compositor.existing, Compositor.existing, List.filter_filter]
      refine List.filter_congr fun s _ => ?_
      rw [Bool.eq_iff_iff]
      simp [Compositor.destroySurface, and_comm]
    rw [hexisting]
    exact horder.filter _
  · rintro l s ⟨hlate, hnot, e, he, hmem⟩
    obtain ⟨hlisted, hex⟩ := (Compositor.mem_existing _).mp hmem
    obtain ⟨hex, hne⟩ := List.mem_filter.mp hex
    refine .inr ⟨⟨hlate, fun hshown => hnot (List.mem_filter.mpr ⟨hshown, hne⟩), e, he,
      w.ilm.mem_existing.mpr ⟨hlisted, hex⟩⟩, ?_⟩
    rintro (hpending | hpipe)
    · exact .inl (List.mem_filter.mpr ⟨hpending, hne⟩)
    · exact .inr (onPipe_append.mpr (.inl hpipe))

theorem configure (h : Placed (Awaited pipe w.ilm) w []) (id : Id) :
    Placed (Awaited (pipe ++ surfaceNotificationCallback id true) (w.ilm.answer id))
      ⟨w.wm, w.ilm.answer id⟩ [] := by
  refine h.outside rfl (fun _ _ horder => horder) fun l s hs => .inr ⟨hs, ?_⟩
  rintro (hpending | hpipe)
  · by_cases hid : s = id
    · exact .inr (onPipe_append.mpr (.inr (hid ▸ List.mem_cons_self)))
    · exact .inl (List.mem_filter.mpr ⟨hpending, by simpa using hid⟩)
  · exact .inr (onPipe_append.mpr (.inl hpipe))

theorem not_missing_place (hu : Unique w.wm) (surfaceId l : Id) :
    ¬ Missing ⟨w.wm, Compositor.onCall false w.wm (.place surfaceId) w.ilm⟩ [] l surfaceId := by
  rintro ⟨-, hnot, e, he, hmem⟩
  obtain ⟨helm, rfl⟩ := hu.getLayer_iff.mp he
  refine hnot ?_
  have horder := (w.ilm.place_eq ((record w.wm.surfacePropertiesHead surfaceId).getD .zero)
    surfaceId hu.layers).2.2 e helm
  rw [if_pos ((Compositor.mem_existing _).mp hmem).1] at horder
  have hexisting : (Compositor.onCall false w.wm (.place surfaceId) w.ilm).existing e =
      w.ilm.existing e := Compositor.existing_congr (w.ilm.onCall_surfaces w.wm _) rfl
  refine horder ▸ ?_
  exact hexisting ▸ hmem

/-- A notification that is answered. -/
theorem place {surfaceId : Id}
    (h : Placed (Awaited (⟨.surfacePropChange, surfaceId⟩ :: pipe) w.ilm) w [])
    (hs : (Event.record ⟨.surfacePropChange, surfaceId⟩).handle (Compositor.ilm false) w =
      .ok ((), w')) : Placed (Awaited pipe w'.ilm) w' [] := by
  obtain ⟨t, hcall, hdone⟩ := runCalls_cons_ok.mp (Event.handle_eq_ok.mp hs).2
  cases hdone
  rw [Call.sem_lenient hcall]
  refine (h.begin [.place surfaceId]).call nofun trivial trivial fun l s _ _ hafter hawait => ?_
  have hne : s ≠ surfaceId := by
    rintro rfl
    exact not_missing_place h.unique s l hafter
  rcases hawait with hpending | hpipe
  · rcases Compositor.mem_pending_onCall hpending w.wm (.place surfaceId) with hpending | ⟨hs, -⟩
    · exact .inl (.inl hpending)
    · exact absurd (Option.some.inj hs).symm hne
  · exact .inl (.inr ((List.mem_cons.mp hpipe).resolve_left hne))

/-- The creation of a surface. -/
theorem register {surfaceId : Id}
    (h : Placed (Awaited (⟨.creationDelection, surfaceId⟩ :: pipe) w.ilm) w [])
    (hG : Unhindered .takeRecord ⟨w, ⟨.creationDelection, surfaceId⟩ :: pipe⟩)
    (hs : (Event.record ⟨.creationDelection, surfaceId⟩).handle (Compositor.ilm false) w =
      .ok ((), w')) : Placed (Awaited pipe w'.ilm) w' [] := by
  obtain ⟨t, hcall, hdone⟩ := runCalls_cons_ok.mp (Event.handle_eq_ok.mp hs).2
  cases hdone
  rw [Call.sem_lenient hcall]
  have hkept : ∀ s ∈ w.ilm.pending,
      s ∈ (Compositor.onCall false w.wm (.register surfaceId) w.ilm).pending := by
    intro s hpending
    rcases Compositor.mem_pending_onCall hpending w.wm (.register surfaceId) with hkept | ⟨hs, -⟩
    · exact hkept
    · cases hs
  refine (h.begin [.register surfaceId]).call nofun trivial trivial
    fun l s hmissing _ _ hawait => .inl ?_
  rcases hawait with hpending | hpipe
  · exact .inl (hkept s hpending)
  · rcases List.mem_cons.mp hpipe with rfl | hpipe
    · rcases hG with hrecord | hpending | hpipe | hshown
      · refine .inl ?_
        have hregistered : parserCheckRegisteredSurfaceInListTree w.wm s ≠ 0 := by
          obtain ⟨r, hr⟩ := Option.isSome_iff_exists.mp (getListElement_isSome.mpr hrecord)
          have hfound : getListElement w.wm.surfacePropertiesHead s = some r := hr
          rw [parserCheckRegisteredSurfaceInListTree, hfound]
          exact Int.one_ne_zero
        rw [Compositor.onCall, if_neg hregistered]
        exact List.mem_cons_self
      · exact .inl (hkept s hpending)
      · exact .inr hpipe
      · obtain ⟨-, hnot, e, he, hmem⟩ := hmissing
        obtain ⟨helm, rfl⟩ := h.unique.getLayer_iff.mp he
        exact absurd (hshown e helm hmem) hnot
    · exact .inr hpipe

/-- The tree is cleared first. -/
theorem refreshed_of_initScreen {body : Option Json}
    (hcommand : commandOf body = some .initialScreen)
    (hs : (Event.message body).handle (Compositor.ilm false) w = .ok ((), w')) (l : Id) :
    refreshedLater ((Event.message body).calls (Compositor.ilm false) w) l = true := by
  obtain ⟨ret, hrun⟩ := handler_of_message hcommand hs
  rw [Command.handler_follows] at hrun
  obtain ⟨version, t, hread, hrest⟩ := StatePlan.run_bind_eq_ok.mp hrun
  cases (Plan.run_eq_ok.mp hread).2
  obtain ⟨u, t, hremove, -⟩ := StatePlan.run_bind_eq_ok.mp hrest
  rw [calls_of_message hcommand hs, Command.plan, initScreenPlan, StatePlan.calls_bind hread,
    StatePlan.calls_bind hremove]
  rfl

theorem message {body : Option Json} (h : Placed (Awaited pipe w.ilm) w [])
    (hG : Unhindered (.message body) ⟨w, pipe⟩)
    (hs : (Event.message body).handle (Compositor.ilm false) w = .ok ((), w')) :
    Placed (Awaited pipe w'.ilm) w' [] := by
  have hrun := (Event.handle_eq_ok.mp hs).2
  have hfresh : AtEach (Call.sem (Compositor.ilm false))
      (fun w call _ => FreshScreen w call ∧ call.Points w.wm)
      ((Event.message body).calls (Compositor.ilm false) w) w :=
    (atEach_freshScreen _ w).and (points_event _ w)
  rcases hG with hscreen | hG
  · have hdocument : Placed (fun _ => False) w' [] := by
      refine runCalls_induction (P := Placed fun _ => False) (G := fun w call rest =>
        (FreshScreen w call ∧ call.Points w.wm) ∧ Flushes w call rest) ?_ ?_ (hfresh.and ?_) hrun
      · rintro call rest s s' hplaced ⟨⟨hfresh, hp⟩, hflush⟩ hcall
        rw [Call.sem_lenient hcall]
        exact hplaced.call hfresh hp hflush.completes fun _ _ _ _ _ => nofun
      · exact .of_refreshed h.unique h.exist (refreshed_of_initScreen hscreen hs)
      · rw [calls_of_message hscreen hs]
        exact flushes_documents.initScreen (fun _ _ => trivial) body w
    exact hdocument.mono fun _ _ _ => nofun
  · refine runCalls_induction (P := fun w rest => Placed (Awaited pipe w.ilm) w rest)
      (G := fun w call rest => (FreshScreen w call ∧ call.Points w.wm) ∧
        Completes w call rest ∧ Spares pipe w call rest) ?_ (h.begin _) (hfresh.and hG) hrun
    rintro call rest s s' hplaced ⟨⟨hfresh, hp⟩, hc, hspares⟩ hcall
    rw [Call.sem_lenient hcall]
    exact hplaced.spare hfresh hp hc hspares

theorem of_parserInit {boot : Boot} {w₀ : World Compositor}
    (h : parserInit (Compositor.ilm false) boot w₀ = .ok ((), w)) :
    Placed (fun _ => False) w [] := by
  refine init_induction (J := Placed fun _ => False) (G := fun w call rest =>
    (FreshScreen w call ∧ call.Points w.wm) ∧ Flushes w call rest) ?_ ?_ ?_ h
  · rintro call rest s s' hplaced ⟨⟨hfresh, hp⟩, hflush⟩ hcall
    rw [Call.sem_lenient hcall]
    exact hplaced.call hfresh hp hflush.completes fun _ _ _ _ _ => nofun
  · refine ⟨.empty w₀.wm.uninit, (fun _ hl => nomatch hl), (fun _ _ he => nomatch he), ?_⟩
    rintro l s ⟨-, -, e, he, -⟩
    exact nomatch he
  · have hfresh := (freshScreen_documents (Compositor.distinctScreenIds false)).boot boot w₀
    exact (hfresh.and (points_documents.boot boot w₀)).and (flushes_documents.boot boot w₀)

theorem step {s s' : Session} {a : SessionAction}
    (h : Placed (Awaited s.pipe s.world.ilm) s.world []) (hG : Unhindered a s)
    (hs : s.perform a = some s') : Placed (Awaited s'.pipe s'.world.ilm) s'.world [] := by
  obtain ⟨w, pipe⟩ := s
  cases a with
  | create id =>
    simp only [Session.perform] at hs
    split at hs
    · cases hs
    · cases hs
      exact h.create id
  | destroy id =>
    simp only [Session.perform] at hs
    split at hs
    · cases hs
      rw [Session.notify, notificationCallback]
      exact (List.append_nil pipe).symm ▸ h.destroy id
    · cases hs
  | configure id =>
    simp only [Session.perform] at hs
    split at hs
    · cases hs
      exact h.configure id
    · cases hs
  | takeRecord =>
    simp only [Session.perform] at hs
    cases pipe with
    | nil => cases hs
    | cons data rest =>
      dsimp only at hs
      split at hs
      · rename_i hhandle
        cases hs
        obtain ⟨type, id⟩ := data
        cases type with
        | creationDelection => exact h.register hG hhandle
        | surfacePropChange => exact h.place hhandle
      · cases hs
  | message body =>
    simp only [Session.perform] at hs
    split at hs
    · rename_i hhandle
      cases hs
      exact h.message hG hhandle
    · cases hs

end Placed

theorem placed_of_run {start : Boot → World Compositor → Prop} {s : Session}
    (h : (session start).Run Unhindered s) : Placed (Awaited s.pipe s.world.ilm) s.world [] := by
  refine h.invariant (P := fun s => Placed (Awaited s.pipe s.world.ilm) s.world []) ?_
    fun a s s' _ hs hG hstep => hs.step hG hstep
  rintro s ⟨-, boot, w₀, -, hinit⟩
  exact (Placed.of_parserInit hinit).mono fun _ _ _ => nofun

/-- With the pipe empty and no notification unanswered, every layer is shown right. -/
theorem surfaces_placed {start : Boot → World Compositor → Prop} {s : Session}
    (h : (session start).Run Unhindered s) (hpipe : s.pipe = [])
    (hpending : s.world.ilm.pending = []) :
    ∀ e ∈ layersOf s.world.wm.screenHead,
      s.world.ilm.layerOrder e.id =
        (ids e.listHead).filter fun surfaceId => s.world.ilm.surfaces.contains surfaceId := by
  refine fun e he => (placed_of_run h).order_eq (fun surfaceId hawait => ?_) he
  rw [hpipe, Awaited, hpending] at hawait
  rcases hawait with hawait | hawait <;> exact nomatch hawait

/-! ## Runs on fixed inputs -/

instance Completes.decidable (w : World Compositor) (call : Call) (rest : List Call) :
    Decidable (Completes w call rest) :=
  match call with
  | .putLayer .. => inferInstanceAs (Decidable (_ ∨ _))
  | .putSurface .. => inferInstanceAs (Decidable (_ → _))
  | .pushScreen .. | .pushLayer .. | .removeLayer .. | .removeSurface .. | .modifyLayer ..
  | .modifySurface .. | .removeAll | .findScreen .. | .openScreen .. | .addScreen ..
  | .askScreenIds | .place .. | .register .. | .setCallback => .isTrue trivial

instance Spares.decidable (pipe : List Cbdata) (w : World Compositor) (call : Call)
    (rest : List Call) : Decidable (Spares pipe w call rest) :=
  @Option.decidableForallMem _ _ (fun _ => List.decidableBAll _ _) _

instance Unhindered.decidable (a : SessionAction) (s : Session) : Decidable (Unhindered a s) := by
  unfold Unhindered
  split
  · split <;> infer_instance
  · infer_instance
  · infer_instance

namespace Session

/-- `parser_init` with the default configuration. -/
def started (screens : List Id) : Option Session :=
  match parserInit (Compositor.ilm false) ⟨"host", none⟩ (World.fresh screens) with
  | .ok (_, w) => some ⟨w, []⟩
  | .error _ => none

/-- Performs the actions, each of which has to be possible and meet the condition. -/
def performAll (G : SessionAction → Session → Prop) [∀ a s, Decidable (G a s)]
    (actions : List SessionAction) (s : Session) : Option Session :=
  actions.foldlM (fun s a => if G a s then s.perform a else none) s

theorem run_performAll {start : Boot → World Compositor → Prop}
    {G : SessionAction → Session → Prop} [∀ a s, Decidable (G a s)] {actions : List SessionAction}
    {s s' : Session} (hs : (session start).Run G s) (h : performAll G actions s = some s') :
    (session start).Run G s' := by
  refine TransitionSystem.foldlM_invariant (fun s a t hs ht => ?_) hs h
  split at ht
  · rename_i hG
    exact hs.step hG ht
  · cases ht

/-- A state that a run from the default configuration ends in. -/
theorem exists_run {screens : List Id} {G : SessionAction → Session → Prop}
    [∀ a s, Decidable (G a s)] {actions : List SessionAction} {p : Session → Bool}
    (h : ((started screens).bind (performAll G actions)).any p = true) :
    ∃ s, (session fun _ w => w = World.fresh screens).Run G s ∧ p s = true := by
  obtain ⟨s, hs, hp⟩ := (Option.any_eq_true _ _).mp h
  obtain ⟨t, ht, hrun⟩ := Option.bind_eq_some_iff.mp hs
  refine ⟨s, run_performAll (.init ?_) hrun, hp⟩
  rw [started] at ht
  split at ht
  · rename_i hinit
    cases ht
    exact ⟨rfl, _, _, rfl, hinit⟩
  · cases ht

/-- Nothing is left to be handled. -/
def quiet (s : Session) : Bool := s.pipe.isEmpty && s.world.ilm.pending.isEmpty

end Session

def sends (command key : String) (objects : List Json) : SessionAction :=
  .message (some (.object [("command", .string command), (key, .array objects)]))

/-- Surface 10 is put into layer 3000 before an application creates it. -/
def createdLate : List SessionAction :=
  [sends "add_layer" "screens" [screenObject 0 "append" [layerObject 3000 []]],
    sends "add_surface" "screens" [screenObject 0 "append" [layerObject 3000 [surfaceObject 10]]],
    .create 10, .takeRecord]

theorem surfaces_placed_createdLate :
    ∃ s : Session, s.world.ilm.layerOrder 3000 = [10] ∧
      ∀ e ∈ layersOf s.world.wm.screenHead,
        s.world.ilm.layerOrder e.id =
          (ids e.listHead).filter fun surfaceId => s.world.ilm.surfaces.contains surfaceId := by
  have hrun : ((Session.started [0]).bind
      (Session.performAll Unhindered (createdLate ++ [.configure 10, .takeRecord]))).any
        (fun s => s.quiet && s.world.ilm.layerOrder 3000 == [10]) = true := by decide +kernel
  obtain ⟨s, hs, hend⟩ := Session.exists_run hrun
  rw [Session.quiet, Bool.and_eq_true, Bool.and_eq_true] at hend
  obtain ⟨⟨hpipe, hpending⟩, horder⟩ := hend
  refine ⟨s, beq_iff_eq.mp horder, ?_⟩
  exact surfaces_placed hs (List.isEmpty_iff.mp hpipe) (List.isEmpty_iff.mp hpending)

/-- A client modifies the surface while its notification is registered. -/
theorem surface_left_out :
    ¬ ∀ s, (session fun _ w => w = World.fresh [0]).Reachable s → s.pipe = [] →
      s.world.ilm.pending = [] → ∀ e ∈ layersOf s.world.wm.screenHead,
        s.world.ilm.layerOrder e.id =
          (ids e.listHead).filter fun surfaceId => s.world.ilm.surfaces.contains surfaceId := by
  intro h
  have hrun : ((Session.started [0]).bind (Session.performAll (fun _ _ => True)
      (createdLate ++ [sends "modify_surface" "surfaces" [surfaceObject 10]]))).any
        (fun s => s.quiet && (layersOf s.world.wm.screenHead).any fun e =>
          s.world.ilm.layerOrder e.id != (ids e.listHead).filter fun surfaceId =>
            s.world.ilm.surfaces.contains surfaceId) = true := by decide +kernel
  obtain ⟨s, hs, hend⟩ := Session.exists_run hrun
  rw [Session.quiet, Bool.and_eq_true, Bool.and_eq_true] at hend
  obtain ⟨⟨hpipe, hpending⟩, hany⟩ := hend
  obtain ⟨e, he, hne⟩ := List.any_eq_true.mp hany
  rw [h s hs (List.isEmpty_iff.mp hpipe) (List.isEmpty_iff.mp hpending) e he,
    bne_self_eq_false] at hne
  cases hne

end UhmiIviWm
