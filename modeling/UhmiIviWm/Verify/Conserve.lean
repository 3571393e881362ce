import UhmiIviWm.Verify.Pointers
import UhmiIviWm.Verify.Unique

/-!
# Elements are conserved

The add commands take an element out before they put it in. `insert_list_element`
puts it in under each of the four orders a client can name, whatever the element
referred to; under `INSERT_ORDER_NONE`, which `parse_insert_info` delivers for any
other string and for none, it does nothing, and the element is gone. So a put
conserves the tree if its order is usable (`Call.Usable`), and only then.
-/

namespace UhmiIviWm

open Lib Lib.CallPlan Lib.KeyedList

variable {σ : Type} {ilm : Ilm σ} {wm : Wm}

/-! ## One put -/

/-- A put has an order that `insert_list_element` knows. -/
def Call.Usable : Call → Prop
  | .putLayer _ _ _ info | .putSurface _ _ _ info => info.order ≠ .none
  | _ => True

/-- The element put is in the list it was put into. -/
def Call.Placed (wm : Wm) : Call → Prop
  | .putLayer screenElm _ layerId _ =>
    ∃ s ∈ wm.screenHead, s.id = screenElm ∧ layerId ∈ ids s.listHead
  | .putSurface layerElm _ surfaceId _ => Listed wm.screenHead layerElm surfaceId
  | _ => True

/-- The orders a client can name, and no other string, are usable. -/
theorem parseInsertInfo_order {jobject : Option Json} {insertInfo info : InsertInfo} {ret : Int}
    (h : parseInsertInfo jobject insertInfo = .ok (ret, info)) :
    info.order ≠ .none ↔ ∃ val ∈ ["append", "prepend", "before", "after"],
      getJsonStringValue 32 jobject jsonKeyInsertodr = .ok (some val) := by
  unfold parseInsertInfo at h
  cases hs : getJsonStringValue 32 jobject jsonKeyInsertodr with
  | error e =>
    rw [hs] at h
    cases h
  | ok order =>
    rw [hs] at h
    cases order with
    | none =>
      have horder : info.order = .none := by
        split at h <;> (cases h; rfl)
      simp [horder]
    | some val =>
      have horder : info.order = Prod.snd (if "append" = val then ((0 : Int), InsertOrder.append)
          else if "prepend" = val then (0, .prepend)
          else if "before" = val then (0, .before)
          else if "after" = val then (0, .after)
          else (-1, .none)) := by
        split at h <;> (cases h; rfl)
      rw [horder]
      simp only [Except.ok.injEq, Option.some.injEq, exists_eq_right']
      split_ifs with happend hprepend hbefore hafter
      · subst happend
        simp
      · subst hprepend
        simp
      · subst hbefore
        simp
      · subst hafter
        simp
      · simp [Ne.symm happend, Ne.symm hprepend, Ne.symm hbefore, Ne.symm hafter]

theorem listed_iff (hu : Unique wm) {layerId surfaceId : Id} :
    Listed wm.screenHead layerId surfaceId ↔
      ∃ e, getLayer wm.screenHead layerId = some e ∧ surfaceId ∈ ids e.listHead := by
  constructor
  · rintro ⟨e, he, hid, hs⟩
    exact ⟨e, hu.getLayer_iff.mpr ⟨he, hid⟩, hs⟩
  · rintro ⟨e, he, hs⟩
    obtain ⟨he, hid⟩ := hu.getLayer_iff.mp he
    exact ⟨e, he, hid, hs⟩

section Put

variable {screenElm layerElm layerId surfaceId : Id} {obj : Json} {info : InsertInfo}

theorem placed_putLayer (hu : Unique wm) (hp : screenElm ∈ wm.screenIds) :
    (Call.putLayer screenElm obj layerId info).Placed
        ((Call.putLayer screenElm obj layerId info).layout wm) ↔ info.order ≠ .none := by
  simp only [Call.Placed]
  rw [hu.screenHead_putLayer_eq_map]
  constructor
  · rintro ⟨_, hs, hid, hl⟩
    obtain ⟨s, hs, rfl⟩ := List.mem_map.mp hs
    rw [putInto_id] at hid
    rw [putInto, if_pos hid, insertLayer, mem_ids_insertListElement, layerToPut_id] at hl
    refine hl.elim (·.1) fun hl => ?_
    exact absurd rfl (mem_ids_dropLayer.mp hl).2
  · intro horder
    obtain ⟨s, hs, hid⟩ := mem_ids.mp hp
    refine ⟨_, List.mem_map_of_mem hs, by rw [putInto_id]; exact hid, ?_⟩
    rw [putInto, if_pos hid, insertLayer, mem_ids_insertListElement, layerToPut_id]
    exact .inl ⟨horder, rfl⟩

theorem placed_putSurface (hu : Unique wm) (hp : layerElm ∈ wm.layerIds)
    (hput : (wm.surfaceToPut layerElm obj surfaceId).isSome = true) :
    (Call.putSurface layerElm obj surfaceId info).Placed
        ((Call.putSurface layerElm obj surfaceId info).layout wm) ↔ info.order ≠ .none := by
  obtain ⟨prop, hput⟩ := Option.isSome_iff_exists.mp hput
  obtain ⟨e, he⟩ := Option.isSome_iff_exists.mp (getLayer_isSome.mpr hp)
  simp only [Call.Placed]
  rw [listed_iff hu.putSurface]
  simp only [getLayer_putSurface hput, if_true, he, Option.map_some, Option.some.injEq,
    exists_eq_left', mem_ids_reinsert (hu.surfaces_of_getLayer he)]
  simp

/-- A put with a usable order takes no layer out of the tree. -/
theorem mem_layerIds_putLayer_of_mem (hu : Unique wm) (hp : screenElm ∈ wm.screenIds)
    (horder : info.order ≠ .none) {l : Id} (hl : l ∈ wm.layerIds) :
    l ∈ ((Call.putLayer screenElm obj layerId info).layout wm).layerIds := by
  have hin : Inserts wm.screenHead screenElm info := ⟨horder, hp⟩
  rw [Wm.layerIds, ← getLayer_isSome, hu.getLayer_putLayer, if_pos hin]
  split
  · rfl
  · exact getLayer_isSome.mpr hl

theorem listed_putLayer (hu : Unique wm) (hp : screenElm ∈ wm.screenIds)
    (horder : info.order ≠ .none) {l s : Id} (hl : Listed wm.screenHead l s) :
    Listed ((Call.putLayer screenElm obj layerId info).layout wm).screenHead l s := by
  rw [listed_iff hu] at hl
  have hin : Inserts wm.screenHead screenElm info := ⟨horder, hp⟩
  rw [listed_iff hu.putLayer, hu.getLayer_putLayer, if_pos hin]
  obtain ⟨e, he, hs⟩ := hl
  split
  · rename_i hid
    refine ⟨_, rfl, ?_⟩
    rw [Wm.layerToPut, ← hid, he]
    exact hs
  · exact ⟨e, he, hs⟩

theorem listed_putSurface (hu : Unique wm) (horder : info.order ≠ .none) {l s : Id}
    (hl : Listed wm.screenHead l s) :
    Listed ((Call.putSurface layerElm obj surfaceId info).layout wm).screenHead l s := by
  cases hput : wm.surfaceToPut layerElm obj surfaceId with
  | none =>
    simp only [Call.layout, hput]
    exact hl
  | some prop =>
    rw [listed_iff hu] at hl
    rw [listed_iff hu.putSurface, getLayer_putSurface hput]
    obtain ⟨e, he, hs⟩ := hl
    split
    · refine ⟨_, by rw [he]; rfl, ?_⟩
      rw [mem_ids_reinsert (hu.surfaces_of_getLayer he)]
      by_cases heq : s = surfaceId
      · exact .inl ⟨horder, heq⟩
      · exact .inr ⟨hs, heq⟩
    · exact ⟨e, he, hs⟩

end Put

/-- The calls of the add commands. -/
def Call.adds : Call → Prop
  | .putLayer .. | .putSurface .. | .pushScreen _ | .pushLayer _ => True
  | _ => False

/-- A call of an add command that has returned has placed its element exactly if its
order is usable. -/
theorem placed_iff_usable {call : Call} {w w' : World σ} (hu : Unique w.wm)
    (hp : call.Points w.wm) (hs : call.sem ilm w = .ok ((), w')) :
    call.Placed w'.wm ↔ call.Usable := by
  obtain ⟨htalk, hwm⟩ := Call.sem_eq_ok.mp hs
  rw [hwm]
  cases call with
  | putLayer => exact placed_putLayer hu hp
  | putSurface layerElm obj surfaceId info =>
    refine placed_putSurface hu hp ?_
    simp only [Call.talk] at htalk
    cases hput : w.wm.surfaceToPut layerElm obj surfaceId with
    | none =>
      rw [hput] at htalk
      cases htalk
    | some prop => rfl
  | _ => exact Iff.rfl

/-- The layers and the listed surfaces of `wm` are in `wm'` as well. -/
structure Kept (wm wm' : Wm) : Prop where
  layers : ∀ l ∈ wm.layerIds, l ∈ wm'.layerIds
  listed : ∀ l s, Listed wm.screenHead l s → Listed wm'.screenHead l s

theorem Kept.after_call {wm₀ : Wm} {call : Call} (h : Kept wm₀ wm) (hu : Unique wm)
    (hadds : call.adds) (hp : call.Points wm) (husable : call.Usable) :
    Kept wm₀ (call.layout wm) := by
  cases call with
  | putLayer =>
    refine ⟨fun l hl => ?_, fun l s hl => ?_⟩
    · exact mem_layerIds_putLayer_of_mem hu hp husable (h.layers l hl)
    · exact listed_putLayer hu hp husable (h.listed l s hl)
  | putSurface =>
    refine ⟨fun l hl => ?_, fun l s hl => ?_⟩
    · rw [layerIds_putSurface]
      exact h.layers l hl
    · exact listed_putSurface hu husable (h.listed l s hl)
  | pushScreen | pushLayer => exact h
  | _ => exact hadds.elim

/-! ## Messages -/

/-- Where every screen object names one of the four orders, every put is usable. -/
theorem Call.InsertsAs.usable {screenAry : List Json} {call : Call} (h : call.InsertsAs screenAry)
    (horders : ∀ screenJobj ∈ screenAry, ∃ val ∈ ["append", "prepend", "before", "after"],
      getJsonStringValue 32 (some screenJobj) jsonKeyInsertodr = .ok (some val)) :
    call.Usable := by
  cases call with
  | putLayer | putSurface =>
    obtain ⟨screenJobj, hmem, ret, hinfo⟩ := h
    exact (parseInsertInfo_order hinfo).mpr (horders screenJobj hmem)
  | _ => trivial

theorem call_adds {command : Command} {call : Call}
    (hadd : command = .addLayer ∨ command = .addSurface) (h : Call.Of wm command call) :
    call.adds := by
  rcases hadd with rfl | rfl <;> cases call <;> trivial

/-- An add command has lost nothing that was there, and each put has placed its element. -/
structure Conserves (ilm : Ilm σ) (w : World σ) (body : Option Json) : Prop where
  kept : ∀ w', (Event.message body).handle ilm w = .ok ((), w') → Kept w.wm w'.wm
  placed : ∀ call w',
    Returned (Call.sem ilm) ((Event.message body).calls ilm w) w call w' → call.Placed w'.wm

/-- At every call of an event ids are unique and pointers good. -/
theorem atEach_unique_points {w : World σ} (e : Event) (hu : Unique w.wm) :
    AtEach (Call.sem ilm) (fun w call _ => Unique w.wm ∧ call.Points w.wm) (e.calls ilm w) w := by
  refine AtEach.and (.of_invariant (I := fun w : World σ => Unique w.wm) ?_
    (fun _ _ _ _ hu => hu) hu) (points_event e w)
  intro call hcall s s' hs hrun
  rw [(Call.sem_eq_ok.mp hrun).2]
  exact hs.call (FreshScreen.of_event hcall)

section Message

variable {w : World σ} {body : Option Json}
  (hadd : commandOf body = some .addLayer ∨ commandOf body = some .addSurface)

include hadd

theorem calls_add :
    ∀ call ∈ (Event.message body).calls ilm w,
      call.adds ∧ call.InsertsAs ((parseScreens body).getD []) := by
  intro call hcall
  rw [calls_message] at hcall
  split at hcall
  · rename_i command _ hcommand
    simp only [hcommand, Option.some.injEq] at hadd
    rcases hadd with rfl | rfl
    · exact (planAddLayer_within.calls call hcall).imp_left (call_adds (.inl rfl))
    · exact (planAddSurface_within.calls call hcall).imp_left (call_adds (.inr rfl))
  · exact nomatch hcall

theorem conserves_of_usable (hu : Unique w.wm)
    (husable : ∀ call ∈ (Event.message body).calls ilm w, call.Usable) :
    Conserves ilm w body := by
  have hat : AtEach (Call.sem ilm) (fun w call _ => Unique w.wm ∧ call.Points w.wm)
      ((Event.message body).calls ilm w) w := atEach_unique_points (.message body) hu
  refine ⟨fun w' hs => ?_, fun call w' hret => ?_⟩
  · refine (runCalls_induction
      (P := fun t rest => Kept w.wm t.wm ∧ ∀ call ∈ rest, Call.adds call ∧ Call.Usable call)
      ?_ ⟨⟨fun _ hl => hl, fun _ _ hl => hl⟩, fun call hc => ?_⟩ hat (Event.handle_eq_ok.mp hs).2).1
    · rintro call rest s s' ⟨hk, hrest⟩ ⟨hu, hp⟩ hrun
      obtain ⟨⟨ha, huse⟩, hrest⟩ := List.forall_mem_cons.mp hrest
      rw [(Call.sem_eq_ok.mp hrun).2]
      exact ⟨hk.after_call hu ha hp huse, hrest⟩
    · exact ⟨(calls_add hadd call hc).1, husable call hc⟩
  · obtain ⟨t, -, ⟨hu, hp⟩, hrun⟩ := hret.at hat
    exact (placed_iff_usable hu hp hrun).mpr (husable call hret.mem)

end Message

/-- A command that adds layers or surfaces loses nothing and copies nothing just where each of
its puts has an order that is known, as where every screen object names one of the four. -/
theorem add_conserves {set : Setting σ} (hids : DistinctScreenIds ilm) {w : World σ}
    (h : (daemon ilm set).Reachable w) {body : Option Json}
    (hadd : commandOf body = some .addLayer ∨ commandOf body = some .addSurface) :
    ((∀ call ∈ (Event.message body).calls ilm w, call.Usable) → Conserves ilm w body) ∧
      (∀ w', (Event.message body).handle ilm w = .ok ((), w') → Conserves ilm w body →
        ∀ call ∈ (Event.message body).calls ilm w, call.Usable) ∧
      ((∀ screenJobj ∈ (parseScreens body).getD [],
        ∃ val ∈ ["append", "prepend", "before", "after"],
          getJsonStringValue 32 (some screenJobj) jsonKeyInsertodr = .ok (some val)) →
        Conserves ilm w body) := by
  have hu := unique_of_run hids h
  refine ⟨conserves_of_usable hadd hu, fun w' hs hcons call hcall => ?_, fun horders => ?_⟩
  · obtain ⟨t', hret⟩ := Returned.of_mem hcall (Event.handle_eq_ok.mp hs).2
    obtain ⟨t, -, ⟨hu, hp⟩, hrun⟩ := hret.at (atEach_unique_points (.message body) hu)
    exact (placed_iff_usable hu hp hrun).mp (hcons.placed call t' hret)
  · exact conserves_of_usable hadd hu fun call hcall => (calls_add hadd call hcall).2.usable horders

/-- On the default configuration, layer 3000 with surface 10 on screen 0. -/
def oneLayer : Except Abort (World Compositor) :=
  execute (Compositor.ilm false) ⟨"host", none⟩
    [message "initial_screen" "screens"
      [screenObject 0 "append" [layerObject 3000 [surfaceObject 10]], screenObject 1 "append" []]]
    (World.fresh [0, 1])

/-- Moves layer 3000 to the other screen. -/
def moveLayer : Option Json :=
  some (.object [("command", .string "add_layer"),
    ("screens", .array [screenObject 1 "append" [layerObject 3000 []]])])

theorem add_conserves_moveLayer : ∃ w : World Compositor, oneLayer = .ok w ∧
    (∀ w', (Event.message moveLayer).handle (Compositor.ilm false) w = .ok ((), w') →
      Conserves (Compositor.ilm false) w moveLayer →
        ∀ call ∈ (Event.message moveLayer).calls (Compositor.ilm false) w, call.Usable) ∧
      Conserves (Compositor.ilm false) w moveLayer := by
  have hok : oneLayer.isOk = true := by decide +kernel
  obtain ⟨w, hw⟩ := exists_ok hok
  have hreach : (daemon (Compositor.ilm false)
      ⟨fun _ w => w = World.fresh [0, 1], fun c c' => c' = c⟩).Reachable w :=
    reachable_of_execute rfl hw
  have hadd : commandOf moveLayer = some .addLayer := by decide +kernel
  obtain ⟨-, husable, hconserves⟩ :=
    add_conserves (Compositor.distinctScreenIds false) hreach (.inl hadd)
  refine ⟨w, hw, husable, hconserves fun screenJobj hscreen => ?_⟩
  rw [List.mem_singleton.mp hscreen]
  exact ⟨"append", List.mem_cons_self, rfl⟩

/-- The same, with no word of where to insert the layer. -/
def loseLayer : Option Json :=
  some (.object [("command", .string "add_layer"),
    ("screens", .array [.object [("id", .integer 1), ("layers", .array [layerObject 3000 []])]])])

theorem add_loses :
    ¬ ∀ w, (daemon (Compositor.ilm false)
        ⟨fun _ w => w = World.fresh [0, 1], fun c c' => c' = c⟩).Reachable w →
      ∀ body, (commandOf body = some .addLayer ∨ commandOf body = some .addSurface) →
        Conserves (Compositor.ilm false) w body := by
  intro h
  have hend : endsWith (fun w =>
      ((Event.message loseLayer).handle (Compositor.ilm false) w).toOption.any fun r =>
        w.wm.layerIds.contains 3000 && !r.2.wm.layerIds.contains 3000) oneLayer = true := by
    decide +kernel
  obtain ⟨w, hw, hlost⟩ := exists_of_endsWith hend
  have hcons := h w (reachable_of_execute rfl hw) loseLayer (.inl (by decide +kernel))
  cases hs : (Event.message loseLayer).handle (Compositor.ilm false) w with
  | ok r =>
    rw [hs] at hlost
    obtain ⟨hhad, hgone⟩ := Bool.and_eq_true_iff.mp hlost
    have hkept := (hcons.kept r.2 hs).layers 3000 (List.contains_iff_mem.mp hhad)
    rw [List.contains_iff_mem.mpr hkept] at hgone
    cases hgone
  | error e =>
    rw [hs] at hlost
    cases hlost

end UhmiIviWm
