import UhmiIviWm.Verify.Independence
import UhmiIviWm.Verify.Merge
import UhmiIviWm.Verify.Puts

/-!
# Commands that are sent again

A client that has not been answered may send its command again, and the command may have
been handled all the same. A message that names each layer, or each surface, it adds once,
and none of them as the one to put another next to, leaves a layout which it does not change
when it is handled again, and so does a message that removes or modifies
(`afterMessage_again`). So commands that are repeated at once have been handled as if they
had been sent once (`resent_harmless`).
-/

namespace UhmiIviWm

open Lib Lib.Batches Lib.CallPlan Lib.KeyedList

variable {σ : Type}

/-! ## Messages that can be handled again -/

/-- The layers an `add_layer` message names, as often as it names them. -/
def namedLayers (body : Option Json) : List Id :=
  (screenObjects body).flatMap fun screenJobj =>
    (leading (layerObjects (some screenJobj))).map idOf

/-- The surfaces an `add_surface` message names. -/
def namedSurfaces (body : Option Json) : List Id :=
  (screenObjects body).flatMap fun screenJobj =>
    (layerObjects (some screenJobj)).flatMap fun layerJobj =>
      (leading (surfaceObjects (some layerJobj))).map idOf

/-- What a message adds is different elements, none of them next to another. -/
structure AddsApart (body : Option Json) (named : List Id) : Prop where
  nodup : named.Nodup
  places : ∀ screenJobj ∈ screenObjects body, ∀ info, insertInfoOf screenJobj = some info →
    info.order ≠ .none ∧ (info.order = .before ∨ info.order = .after → info.refid ∉ named)

/-- Handling the message again changes nothing. -/
def Repeatable (body : Option Json) : Prop :=
  match commandOf body with
  | some .addLayer => AddsApart body (namedLayers body)
  | some .addSurface => AddsApart body (namedSurfaces body)
  | some .initialScreen => False
  | _ => True

section Messages

variable {wm wm' : Wm} {known : Id → Bool} {body : Option Json}

/-! ### Additions -/

/-- Calls with targets of a batch whose elements are put apart. -/
theorem pairwise_apart {named : List Id} {calls : List Call} (hnd : named.Nodup)
    (htargets : (calls.map Call.target).Sublist named)
    (hclear : ∀ call ∈ calls, ∀ id ∈ named, call.neighbour ≠ some id) :
    calls.Pairwise Call.Apart := by
  have hdistinct : calls.Pairwise fun call call' => call.target ≠ call'.target :=
    List.pairwise_map.mp (hnd.sublist htargets)
  refine hdistinct.imp_of_mem fun {call call'} hcall hcall' hne => ⟨hne, ?_, ?_⟩
  · exact hclear call hcall _ (htargets.mem (List.mem_map_of_mem hcall'))
  · exact hclear call' hcall' _ (htargets.mem (List.mem_map_of_mem hcall))

/-- What a call puts its element next to is not of the batch. -/
theorem AddsApart.neighbour {named : List Id} (h : AddsApart body named) {screenJobj : Json}
    (hscreen : screenJobj ∈ screenObjects body) {info : InsertInfo}
    (hinfo : insertInfoOf screenJobj = some info) :
    ∀ id ∈ named, (if info.order = .before ∨ info.order = .after then some info.refid else none) ≠
      some id := by
  intro id hid heq
  split at heq
  · cases heq
    exact (h.places screenJobj hscreen info hinfo).2 ‹_› hid
  · cases heq

theorem targets_addLayer :
    ((Command.addLayer.changes (fun _ => true) wm known body).map Call.target).Sublist
      (namedLayers body) := by
  rw [Command.changes, List.filter_true, List.map_flatMap, namedLayers]
  refine ((reached_sublist _ _).flatMap _).trans
    (List.Sublist.flatMap_right _ fun screenJobj _ => ?_)
  unfold addLayerChanges
  split
  · exact List.nil_sublist _
  · split
    · rw [List.map_map]
      exact .refl _
    · exact List.nil_sublist _

theorem addLayer_again (known : Id → Bool) (hu : Unique wm)
    (h : AddsApart body (namedLayers body)) :
    let calls := Command.addLayer.changes (fun _ => true) wm known body
    let wm' := calls.foldl (fun wm call => call.layout wm) wm
    calls.foldl (fun wm call => call.layout wm) wm' = wm' ∧ wm'.screenIds = wm.screenIds := by
  intro calls wm'
  have hcalls : ∀ call ∈ calls, call.PutsLayer wm.screenIds ∧
      ∀ id ∈ namedLayers body, call.neighbour ≠ some id := by
    intro call hcall
    simp only [calls, Command.changes, List.filter_true, List.mem_flatMap, addLayerChanges] at hcall
    obtain ⟨screenJobj, hscreen, hcall⟩ := hcall
    split at hcall
    · cases hcall
    · rename_i info hinfo
      split at hcall
      · rename_i hknown
        obtain ⟨layerJobj, -, rfl⟩ := List.mem_map.mp hcall
        have hscreen : screenJobj ∈ screenObjects body := mem_of_mem_reached hscreen
        exact ⟨⟨List.contains_iff_mem.mp hknown, (h.places screenJobj hscreen info hinfo).1⟩,
          h.neighbour hscreen hinfo⟩
      · cases hcall
  have hapart : calls.Pairwise Call.Apart :=
    pairwise_apart h.nodup targets_addLayer fun call hcall => (hcalls call hcall).2
  refine ⟨putLayers_twice hu (fun call hcall => (hcalls call hcall).1) hapart, ?_⟩
  exact ((puts_layers wm.screenIds).run_inv (fun call hcall => (hcalls call hcall).1) ⟨hu, rfl⟩).2

theorem targets_addSurface :
    ((Command.addSurface.changes (fun _ => true) wm known body).map Call.target).Sublist
      (namedSurfaces body) := by
  rw [Command.changes, List.filter_true, List.map_flatMap, namedSurfaces]
  refine ((reached_sublist _ _).flatMap _).trans
    (List.Sublist.flatMap_right _ fun screenJobj _ => ?_)
  unfold addSurfaceChanges
  split
  · exact List.nil_sublist _
  · rw [List.filter_true, List.map_flatMap]
    refine ((reached_sublist _ _).flatMap _).trans
      (List.Sublist.flatMap_right _ fun layerJobj _ => ?_)
    unfold addSurfaceLayerChanges
    split
    · rw [List.map_map]
      exact .refl _
    · exact List.nil_sublist _

theorem addSurface_again (known : Id → Bool) (hu : Unique wm)
    (h : AddsApart body (namedSurfaces body)) :
    let calls := Command.addSurface.changes (fun _ => true) wm known body
    let wm' := calls.foldl (fun wm call => call.layout wm) wm
    calls.foldl (fun wm call => call.layout wm) wm' = wm' ∧ wm'.layerIds = wm.layerIds := by
  intro calls wm'
  have hcalls : ∀ call ∈ calls, call.PutsSurface wm.layerIds ∧
      ∀ id ∈ namedSurfaces body, call.neighbour ≠ some id := by
    intro call hcall
    simp only [calls, Command.changes, List.filter_true, List.mem_flatMap, addSurfaceChanges]
      at hcall
    obtain ⟨screenJobj, hscreen, hcall⟩ := hcall
    split at hcall
    · cases hcall
    · rename_i info hinfo
      obtain ⟨layerJobj, -, hcall⟩ := List.mem_flatMap.mp hcall
      unfold addSurfaceLayerChanges at hcall
      split at hcall
      · rename_i hknown
        obtain ⟨surfaceJobj, -, rfl⟩ := List.mem_map.mp hcall
        have hscreen : screenJobj ∈ screenObjects body := mem_of_mem_reached hscreen
        exact ⟨⟨List.contains_iff_mem.mp hknown, (h.places screenJobj hscreen info hinfo).1⟩,
          h.neighbour hscreen hinfo⟩
      · cases hcall
  have hapart : calls.Pairwise Call.Apart :=
    pairwise_apart h.nodup targets_addSurface fun call hcall => (hcalls call hcall).2
  refine ⟨putSurfaces_twice hu (fun call hcall => (hcalls call hcall).1) hapart, ?_⟩
  exact ((puts_surfaces wm.layerIds).run_inv (fun call hcall => (hcalls call hcall).1)
    ⟨hu, rfl⟩).2

/-! ### Removals -/

/-- What the call takes away is not there. -/
def Call.Gone : Call → Wm → Prop
  | .removeLayer layerId, wm => getLayer wm.screenHead layerId = none
  | .removeSurface layerElm surfaceId, wm => getSurface wm.screenHead layerElm surfaceId = none
  | _, _ => False

theorem Call.Gone.layout {call : Call} (h : call.Gone wm) : call.layout wm = wm := by
  cases call with
  | removeLayer layerId =>
    have h : getLayer wm.screenHead layerId = none := h
    simp only [Call.layout, UhmiIviWm.removeLayer]
    rw [popLayer_eq, h]
  | removeSurface layerElm surfaceId =>
    have h : getSurface wm.screenHead layerElm surfaceId = none := h
    have hpop : popSurface wm.screenHead layerElm surfaceId = (none, wm.screenHead) :=
      Prod.ext h (popSurface_of_none h)
    simp only [Call.layout, UhmiIviWm.removeSurface, hpop]
  | _ => exact h.elim

theorem gone_of_removes (hu : Unique wm) {call : Call} (h : call.removes = true) :
    call.Gone (call.layout wm) := by
  cases call with
  | removeLayer layerId => exact (hu.getLayer_removeLayer layerId).trans (if_pos rfl)
  | removeSurface layerElm surfaceId =>
    refine getSurface_eq_none.mpr fun e he hmem => ?_
    rw [getLayer_removeSurface, if_pos rfl] at he
    obtain ⟨e, hget, rfl⟩ := Option.map_eq_some_iff.mp he
    exact ((mem_ids_dropSurface (hu.surfaces_of_getLayer hget)).mp hmem).2 rfl
  | _ => cases h

theorem Call.Gone.kept (hu : Unique wm) {call call' : Call} (hcall : call.removes = true)
    (h : call'.Gone wm) : call'.Gone (call.layout wm) := by
  have hlayer : ∀ l e, getLayer (call.layout wm).screenHead l = some e →
      ∃ e', getLayer wm.screenHead l = some e' ∧ ∀ s ∈ ids e.listHead, s ∈ ids e'.listHead := by
    intro l e he
    cases call with
    | removeLayer layerId =>
      rw [hu.getLayer_removeLayer] at he
      split at he
      · cases he
      · exact ⟨e, he, fun _ hs => hs⟩
    | removeSurface layerElm surfaceId =>
      rw [getLayer_removeSurface] at he
      split at he
      · obtain ⟨e', he', rfl⟩ := Option.map_eq_some_iff.mp he
        exact ⟨e', he', fun s hs =>
          ((mem_ids_dropSurface (hu.surfaces_of_getLayer he')).mp hs).1⟩
      · exact ⟨e, he, fun _ hs => hs⟩
    | _ => cases hcall
  cases call' with
  | removeLayer layerId =>
    refine Option.eq_none_iff_forall_ne_some.mpr fun e he => ?_
    obtain ⟨e', he', -⟩ := hlayer layerId e he
    cases he'.symm.trans h
  | removeSurface layerElm surfaceId =>
    refine getSurface_eq_none.mpr fun e he hmem => ?_
    obtain ⟨e', he', hsub⟩ := hlayer layerElm e he
    exact getSurface_eq_none.mp h e' he' (hsub surfaceId hmem)
  | _ => exact h.elim

theorem removals_again (hu : Unique wm) {calls : List Call}
    (h : ∀ call ∈ calls, call.removes = true) :
    let wm' := calls.foldl (fun wm call => call.layout wm) wm
    calls.foldl (fun wm call => call.layout wm) wm' = wm' :=
  foldl_twice (I := Unique) Call.Gone
    (fun wm call hcall hu => hu.call fun _ heq => by rw [heq] at hcall; cases hcall)
    (fun _ _ hcall hu => gone_of_removes hu hcall) (fun _ _ _ hcall hu h => h.kept hu hcall)
    (fun _ _ h => h.layout) h hu

/-! ### Modifications -/

theorem Unique.afterCalls (hu : Unique wm) {calls : List Call}
    (h : ∀ screenId, Call.addScreen screenId ∉ calls) :
    Unique (calls.foldl (fun wm call => call.layout wm) wm) :=
  List.foldlRecOn (motive := Unique) calls _ hu fun _ hu _ hmem =>
    hu.call fun screenId heq => absurd (heq ▸ hmem) (h screenId)

theorem uninit_modify {calls : List Call} (h : ∀ call ∈ calls, ∃ id obj,
    call = .modifyLayer id obj ∨ call = .modifySurface id obj) :
    (calls.foldl (fun wm call => call.layout wm) wm).uninit = wm.uninit := by
  refine List.foldlRecOn (motive := fun wm' : Wm => wm'.uninit = wm.uninit) calls _ rfl ?_
  intro wm' huninit call hmem
  obtain ⟨id, obj, rfl | rfl⟩ := h call hmem
  all_goals
    simp only [Call.layout]
    split <;> exact huninit

theorem modifyLayers_again (hu : Unique wm) {objs : List Json}
    (hobjs : ∀ obj ∈ objs, hasId obj = true) :
    let calls := objs.map fun obj => Call.modifyLayer (idOf obj) obj
    let wm' := calls.foldl (fun wm call => call.layout wm) wm
    calls.foldl (fun wm call => call.layout wm) wm' = wm' := by
  intro calls wm'
  have hu' : Unique wm' := hu.afterCalls fun _ => by simp [calls]
  obtain ⟨htree, -⟩ := modifyLayers_layout hobjs hu
  obtain ⟨htree', hstore⟩ := modifyLayers_layout hobjs hu'
  refine Wm.eq_of ?_ hstore (uninit_modify fun call hmem => ?_)
  · have htree : wm'.screenHead = mapLayers (mergeLayer objs) wm.screenHead := htree
    rw [htree', htree, mapLayers_mapLayers]
    exact mapLayers_congr fun e _ => mergeLayer_mergeLayer objs e
  · obtain ⟨obj, -, rfl⟩ := List.mem_map.mp hmem
    exact ⟨_, _, .inl rfl⟩

theorem modifySurfaces_again (hu : Unique wm) {objs : List Json}
    (hobjs : ∀ obj ∈ objs, hasId obj = true) :
    let calls := objs.map fun obj => Call.modifySurface (idOf obj) obj
    let wm' := calls.foldl (fun wm call => call.layout wm) wm
    calls.foldl (fun wm call => call.layout wm) wm' = wm' ∧ wm'.recordIds = wm.recordIds := by
  intro calls wm'
  have hu' : Unique wm' := hu.afterCalls fun _ => by simp [calls]
  obtain ⟨-, hstore⟩ := modifySurfaces_layout hobjs hu
  obtain ⟨htree, hstore'⟩ := modifySurfaces_layout hobjs hu'
  have hstore : wm'.surfacePropertiesHead = wm.surfacePropertiesHead.map (mergeRecord objs) :=
    hstore
  refine ⟨Wm.eq_of htree ?_ (uninit_modify fun call hmem => ?_), ?_⟩
  · rw [hstore', hstore, List.map_map]
    exact List.map_congr_left fun e _ => mergeRecord_mergeRecord objs e
  · obtain ⟨obj, -, rfl⟩ := List.mem_map.mp hmem
    exact ⟨_, _, .inr rfl⟩
  · rw [Wm.recordIds, hstore, ids, List.map_map]
    rfl

/-! ### Messages -/

/-- A message that is handled again at once changes nothing. -/
theorem afterMessage_again (hu : Unique wm) (h : Repeatable body) :
    (wm.afterMessage known body).afterMessage known body = wm.afterMessage known body := by
  cases hcommand : commandOf body with
  | none => rw [afterMessage_of_none hcommand, afterMessage_of_none hcommand]
  | some command =>
    rw [Repeatable, hcommand] at h
    have hclears : command.clears = [] := by
      cases command with
      | initialScreen => exact h.elim
      | _ => rfl
    simp only [afterMessage_eq hcommand, hclears, List.nil_append]
    cases command with
    | addLayer =>
      obtain ⟨hagain, hids⟩ := addLayer_again known hu h
      refine Eq.trans ?_ hagain
      exact congrArg (List.foldl _ _) (changes_congr hids)
    | addSurface =>
      obtain ⟨hagain, hids⟩ := addSurface_again known hu h
      refine Eq.trans ?_ hagain
      exact congrArg (List.foldl _ _)
        (changes_congr fun _ _ _ _ => congrArg (List.contains · _) hids)
    | removeLayer => exact removals_again hu fun call hcall => by cases change_of_mem hcall; rfl
    | removeSurface =>
      refine Eq.trans ?_ (removals_again hu fun call hcall => by cases change_of_mem hcall; rfl)
      refine congrArg (List.foldl _ _) (changes_congr fun _ _ => congrArg (List.contains · _) ?_)
      refine List.foldlRecOn (motive := fun wm' : Wm => wm'.layerIds = wm.layerIds) _ _ rfl ?_
      intro wm' hids call hcall
      cases change_of_mem hcall
      exact layerIds_removeSurface.trans hids
    | modifyLayer =>
      refine modifyLayers_again hu fun obj hobj => ?_
      exact List.mem_takeWhile_imp (List.mem_filter.mp hobj).1
    | modifySurface =>
      have hobjs : ∀ obj ∈ ((surfaceObjects body).takeWhile (recorded wm)).filter fun _ => true,
          hasId obj = true := by
        intro obj hobj
        have hrecorded : recorded wm obj = true :=
          List.mem_takeWhile_imp (List.mem_filter.mp hobj).1
        exact (Bool.and_eq_true_iff.mp hrecorded).1
      obtain ⟨hagain, hids⟩ := modifySurfaces_again hu hobjs
      refine Eq.trans ?_ hagain
      exact congrArg (List.foldl _ _)
        (changes_congr fun _ _ => congrArg (List.contains · _) hids)
    | initialScreen => exact h.elim

theorem Unique.afterMessage (hu : Unique wm) : Unique (wm.afterMessage known body) := by
  cases hcommand : commandOf body with
  | none => rwa [afterMessage_of_none hcommand]
  | some command =>
    rw [afterMessage_eq hcommand]
    refine hu.afterCalls fun screenId hmem => ?_
    rcases List.mem_append.mp hmem with hmem | hmem
    · cases (eq_of_mem_clears hmem).2
    · cases change_of_mem hmem

end Messages

/-! ## Runs -/

theorem Unique.addScreens {wm : Wm} (hu : Unique wm) {screenIds : List Id}
    (hnd : screenIds.Nodup) (hnew : ∀ id ∈ screenIds, id ∉ wm.screenIds) :
    Unique (screenIds.foldl UhmiIviWm.addScreen wm) := by
  induction screenIds generalizing wm with
  | nil => exact hu
  | cons screenId screenIds ih =>
    obtain ⟨hscreen, hnew⟩ := List.forall_mem_cons.mp hnew
    obtain ⟨hfirst, hnd⟩ := List.nodup_cons.mp hnd
    refine ih (hu.addScreen hscreen) hnd fun id hid hmem => ?_
    rw [Wm.screenIds, screenHead_addScreen, ids_append, List.mem_append] at hmem
    rcases hmem with hmem | hmem
    · exact hnew id hid hmem
    · rw [List.mem_singleton.mp hmem] at hid
      exact hfirst hid

theorem unique_boot {boot : Boot} {known : Id → Bool} {ids : List Id} (hnd : ids.Nodup) (wm : Wm) :
    Unique (boot.layout known ids wm) := by
  have hconfigured : Unique ((documentChanges (fun _ => true) (boot.processed known)).foldl
      (fun wm call => call.layout wm) ⟨[], [], wm.uninit⟩) := by
    refine (Unique.empty wm.uninit).afterCalls fun screenId hmem => ?_
    simp [documentChanges, screenChanges, layerChanges] at hmem
  unfold Boot.layout
  dsimp only
  split
  · rename_i hempty
    refine hconfigured.addScreens hnd fun id _ hmem => ?_
    rw [Wm.screenIds, List.isEmpty_iff.mp hempty] at hmem
    cases hmem
  · exact hconfigured

section Loop

variable {ilm : Ilm σ} {known : Id → Bool} {ids : List Id} {set : Setting σ}
  {jsonLoads : List UInt8 → Option Json} {order : ByteOrder} {l : MainLoop σ}

/-- Commands that are sent again at once, by the same client or the next, have been handled
as if they had been sent once. -/
theorem resent_harmless (hids : DistinctScreenIds ilm) (hkeep : ilm.Keeps (ilm.Knows known))
    (hkeep' : ilm.Keeps (ilm.Lists ids))
    (hstart : ∀ boot w, set.start boot w → ilm.Knows known w.ilm ∧ ilm.Lists ids w.ilm)
    (henv : ∀ c c', ilm.Knows known c → set.env c c' → ilm.Knows known c')
    (h : (mainLoop ilm jsonLoads order set).Reachable l)
    (hresent : (l.commands.map (·.2)).IsChain fun cmd cmd' =>
      cmd = cmd' → Repeatable (jsonLoads cmd)) :
    ∃ boot w₀, set.start boot w₀ ∧ l.world.wm =
      (((l.commands.map (·.2)).destutter (· ≠ ·)).map jsonLoads).foldl (Wm.afterMessage known)
        (boot.layout known ids w₀.wm) := by
  obtain ⟨boot, w₀, hset, hwm⟩ := wm_of_loop hkeep hkeep' hstart henv h
  have hunique : Unique (boot.layout known ids w₀.wm) :=
    unique_boot (hids w₀.ilm ids (hstart boot w₀ hset).2) w₀.wm
  have honce : ((l.commands.map (·.2)).destutter (· ≠ ·)).foldl
      (fun wm cmd => Wm.afterMessage known wm (jsonLoads cmd)) (boot.layout known ids w₀.wm) =
        (l.commands.map (·.2)).foldl
          (fun wm cmd => Wm.afterMessage known wm (jsonLoads cmd)) (boot.layout known ids w₀.wm) :=
    foldl_destutter (fun wm cmd (hu : Unique wm) => hu.afterMessage) hunique
      (hresent.imp fun cmd cmd' hagain heq wm hu => afterMessage_again hu (hagain heq))
  refine ⟨boot, w₀, hset, ?_⟩
  rw [hwm, List.foldl_map (f := jsonLoads), honce, List.foldl_map, List.foldl_map]

end Loop

/-! A client puts two layers in front of the others, and sends the command again over a new
connection. -/

def addTwo : Option Json :=
  some (.object [("command", .string "add_layer"),
    ("screens", .array [screenObject 0 "prepend" [layerObject 3000 [], layerObject 4000 []]])])

def sentAgain : List DesktopAction :=
  [.connect (atOnce (encodeCommand [0x41])),
    .connect (atOnce (encodeCommand [0x41])),
    .turn { idleTurn with listening := true }, .turn { idleTurn with pollin := true },
    .turn { idleTurn with pollhup := true }, .turn { idleTurn with listening := true },
    .turn { idleTurn with pollin := true }]

theorem repeatable_addTwo : Repeatable addTwo := by
  have hadds : AddsApart addTwo (namedLayers addTwo) := by
    refine ⟨by decide, fun screenJobj hscreen info hinfo => ?_⟩
    rw [List.mem_singleton.mp hscreen] at hinfo
    cases hinfo
    exact ⟨by decide, fun horder => by rcases horder with horder | horder <;> cases horder⟩
  exact hadds

theorem resent_harmless_sentAgain : ∃ (l : MainLoop Compositor) (boot : Boot)
    (w₀ : World Compositor), l.commands = [(0, [0x41]), (1, [0x41])] ∧
      l.world.ilm.screenOrder 0 = [4000, 3000] ∧ l.world.wm =
        ([[0x41]].map fun _ : List UInt8 => addTwo).foldl
          (Wm.afterMessage fun id => [0].contains id)
            (boot.layout (fun id => [0].contains id) [0] w₀.wm) := by
  have hrun : ((MainLoop.started [0]).bind (MainLoop.performAll (fun _ => addTwo) sentAgain)).any
      (fun l => l.commands == [(0, [0x41]), (1, [0x41])] &&
        l.world.ilm.screenOrder 0 == [4000, 3000]) = true := by decide +kernel
  obtain ⟨l, hl, hend⟩ := MainLoop.exists_run plainStart ⟨rfl, rfl⟩ hrun
  obtain ⟨hcommands, horder⟩ := Bool.and_eq_true_iff.mp hend
  have hcommands : l.commands = [(0, [0x41]), (1, [0x41])] := beq_iff_eq.mp hcommands
  have hstart : ∀ boot w, (behindScreens plainStart).start boot w →
      (Compositor.ilm false).Knows (fun id => [0].contains id) w.ilm ∧
        (Compositor.ilm false).Lists [0] w.ilm :=
    fun _ _ h => lists_fresh h.2
  obtain ⟨boot, w₀, -, hwm⟩ := resent_harmless (Compositor.distinctScreenIds false)
    (Compositor.keeps_known false [0]) keeps_list hstart
    (fun _ _ hk hc id => (congrArg (List.contains · id) hc).trans (hk id))
    (mainLoop_of_desktop hl.reachable)
    (by rw [hcommands]; exact .cons_cons (fun _ => repeatable_addTwo) (.singleton _))
  refine ⟨l, boot, w₀, hcommands, beq_iff_eq.mp horder, ?_⟩
  rw [hwm, hcommands]
  rfl

end UhmiIviWm
