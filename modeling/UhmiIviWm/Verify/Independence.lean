import UhmiIviWm.Verify.Desktop
import UhmiIviWm.Verify.Shares

/-!
# Clients with layers and surfaces of their own

A message that names layers and surfaces of a share alone makes of what there is in the
share what it would make of it with nothing else in the layout, and a message that names
none of them leaves it as it is (`unwinds_messages`). So a client whose layers and surfaces
nobody else names has them as if it had been alone with the daemon, whatever is handled
in between (`clients_independent`), and in quiet states sees them so (`own_picture_shown`).

The messages of others must not be `initial_screen`, which takes everything away.
-/

namespace UhmiIviWm

open Lib Lib.CallPlan Lib.Noninterference

variable {σ : Type} {k : Share}

/-! ## Messages -/

/-- The message names layers and surfaces of the share alone, an object without an id
standing for the id 0, and no layer of others as the one to put a layer next to. -/
structure Share.Owns (k : Share) (body : Option Json) : Prop where
  names : ∀ command, commandOf body = some command → k.own.Body readsDocument body
  beside : commandOf body = some .addLayer → ∀ screenJobj ∈ screenObjects body,
    ∀ insertInfo, insertInfoOf screenJobj = some insertInfo → insertInfo.Beside k

/-- The message names no layer and no surface of the share, an object without an id standing
for the id 0, and is no `initial_screen`. -/
structure Share.Spares (k : Share) (body : Option Json) : Prop where
  names : ∀ command, commandOf body = some command → k.rest.Body readsDocument body
  keepsScreens : commandOf body ≠ some .initialScreen

section Messages

variable {wm : Wm} {known : Id → Bool} {body : Option Json} {command : Command}

/-! ### What a message can change -/

/-- The changes a message asks for with the objects in it. -/
inductive Command.Change (body : Option Json) : Command → Call → Prop
  | putLayer {screenJobj layerJobj : Json} {insertInfo : InsertInfo} :
    screenJobj ∈ screenObjects body → layerJobj ∈ layerObjects (some screenJobj) →
    insertInfoOf screenJobj = some insertInfo →
    Change body .addLayer (.putLayer (idOf screenJobj) layerJobj (idOf layerJobj) insertInfo)
  | putSurface {screenJobj layerJobj surfaceJobj : Json} {insertInfo : InsertInfo} :
    screenJobj ∈ screenObjects body → layerJobj ∈ layerObjects (some screenJobj) →
    surfaceJobj ∈ surfaceObjects (some layerJobj) →
    Change body .addSurface (.putSurface (idOf layerJobj) surfaceJobj (idOf surfaceJobj) insertInfo)
  | removeLayer {layerJobj : Json} : layerJobj ∈ layerObjects body →
    Change body .removeLayer (.removeLayer (idOf layerJobj))
  | modifyLayer {layerJobj : Json} : layerJobj ∈ layerObjects body →
    Change body .modifyLayer (.modifyLayer (idOf layerJobj) layerJobj)
  | removeSurface {layerJobj surfaceJobj : Json} : layerJobj ∈ layerObjects body →
    surfaceJobj ∈ surfaceObjects (some layerJobj) →
    Change body .removeSurface (.removeSurface (idOf layerJobj) (idOf surfaceJobj))
  | modifySurface {surfaceJobj : Json} : surfaceJobj ∈ surfaceObjects body →
    Change body .modifySurface (.modifySurface (idOf surfaceJobj) surfaceJobj)
  | openScreen (screenId : Id) : Change body .initialScreen (.openScreen screenId)
  | placeLayer {screenJobj layerJobj : Json} :
    screenJobj ∈ screenObjects body → layerJobj ∈ layerObjects (some screenJobj) →
    Change body .initialScreen
      (.putLayer (idOf screenJobj) layerJobj (idOf layerJobj) insertInfoDefault)
  | placeSurface {screenJobj layerJobj surfaceJobj : Json} :
    screenJobj ∈ screenObjects body → layerJobj ∈ layerObjects (some screenJobj) →
    surfaceJobj ∈ surfaceObjects (some layerJobj) →
    Change body .initialScreen
      (.putSurface (idOf layerJobj) surfaceJobj (idOf surfaceJobj) insertInfoDefault)

theorem mem_of_mem_leading {obj : Json} {objs : List Json} (h : obj ∈ leading objs) : obj ∈ objs :=
  (List.takeWhile_sublist hasId).mem h

theorem change_of_addSurface {call : Call} {screenJobj : Json}
    (hscreen : screenJobj ∈ screenObjects body)
    (hcall : call ∈ addSurfaceChanges (fun _ => true) wm screenJobj) :
    Command.Change body .addSurface call := by
  unfold addSurfaceChanges addSurfaceLayers at hcall
  split at hcall
  · cases hcall
  · rw [List.filter_true, List.mem_flatMap] at hcall
    obtain ⟨layerJobj, hlayer, hcall⟩ := hcall
    unfold addSurfaceLayerChanges at hcall
    split at hcall
    · obtain ⟨surfaceJobj, hsurface, rfl⟩ := List.mem_map.mp hcall
      exact .putSurface hscreen (mem_of_mem_reached hlayer) (mem_of_mem_leading hsurface)
    · cases hcall

theorem change_of_mem {call : Call}
    (hcall : call ∈ command.changes (fun _ => true) wm known body) : command.Change body call := by
  cases command with
  | addLayer =>
    simp only [Command.changes, List.filter_true, List.mem_flatMap, addLayerChanges] at hcall
    obtain ⟨screenJobj, hscreen, hcall⟩ := hcall
    split at hcall
    · cases hcall
    · rename_i insertInfo hinfo
      split at hcall
      · obtain ⟨layerJobj, hlayer, rfl⟩ := List.mem_map.mp hcall
        exact .putLayer (mem_of_mem_reached hscreen) (mem_of_mem_leading hlayer) hinfo
      · cases hcall
  | addSurface =>
    simp only [Command.changes, List.filter_true, List.mem_flatMap] at hcall
    obtain ⟨screenJobj, hscreen, hcall⟩ := hcall
    exact change_of_addSurface (mem_of_mem_reached hscreen) hcall
  | removeLayer =>
    simp only [Command.changes, List.filter_true, List.mem_map] at hcall
    obtain ⟨layerJobj, hlayer, rfl⟩ := hcall
    exact .removeLayer (mem_of_mem_leading hlayer)
  | modifyLayer =>
    simp only [Command.changes, List.filter_true, List.mem_map] at hcall
    obtain ⟨layerJobj, hlayer, rfl⟩ := hcall
    exact .modifyLayer (mem_of_mem_leading hlayer)
  | removeSurface =>
    simp only [Command.changes, List.filter_true, List.mem_flatMap, removeSurfaceChanges] at hcall
    obtain ⟨layerJobj, hlayer, hcall⟩ := hcall
    split at hcall
    · obtain ⟨surfaceJobj, hsurface, rfl⟩ := List.mem_map.mp hcall
      exact .removeSurface (mem_of_mem_reached hlayer) (mem_of_mem_leading hsurface)
    · cases hcall
  | modifySurface =>
    simp only [Command.changes, List.filter_true, List.mem_map] at hcall
    obtain ⟨surfaceJobj, hsurface, rfl⟩ := hcall
    exact .modifySurface ((List.takeWhile_sublist _).mem hsurface)
  | initialScreen =>
    simp only [Command.changes, documentChanges, screenChanges, layerChanges, List.filter_true,
      List.mem_flatMap, List.mem_cons, List.mem_map] at hcall
    obtain ⟨screenJobj, hscreen, hcall⟩ := hcall
    have hscreen : screenJobj ∈ screenObjects body := (List.takeWhile_sublist _).mem hscreen
    rcases hcall with rfl | ⟨layerJobj, hlayer, rfl | ⟨surfaceJobj, hsurface, rfl⟩⟩
    · exact .openScreen _
    · exact .placeLayer hscreen hlayer
    · exact .placeSurface hscreen hlayer hsurface

namespace Command.Change

variable {call : Call}

theorem names {s : Scope} (h : command.Change body call) (hbody : s.Body readsDocument body) :
    call.Names s := by
  cases h with
  | putLayer hscreen hlayer => exact (hbody.screens _ hscreen _ hlayer).layer _ rfl
  | putSurface hscreen hlayer hsurface | placeSurface hscreen hlayer hsurface =>
    obtain ⟨hl, hs⟩ := hbody.screens _ hscreen _ hlayer
    exact ⟨hl _ rfl, hs _ hsurface _ rfl⟩
  | removeLayer hlayer | modifyLayer hlayer => exact (hbody.layers _ hlayer).layer _ rfl
  | removeSurface hlayer hsurface =>
    obtain ⟨hl, hs⟩ := hbody.layers _ hlayer
    exact ⟨hl _ rfl, hs _ hsurface _ rfl⟩
  | modifySurface hsurface => exact hbody.surfaces _ hsurface _ rfl
  | openScreen => trivial
  | placeLayer hscreen hlayer => exact (hbody.screens _ hscreen _ hlayer).layer _ rfl

theorem beside (h : command.Change body call) (hcommand : commandOf body = some command)
    (hbody : k.Owns body) : call.Beside k := by
  cases h with
  | putLayer hscreen _ hinfo => exact hbody.beside hcommand _ hscreen _ hinfo
  | placeLayer => exact fun horder => by rcases horder with horder | horder <;> cases horder
  | _ => trivial

theorem keepsScreens (h : command.Change body call) (hcommand : command ≠ .initialScreen) :
    call.keepsScreens := by
  cases h with
  | openScreen | placeLayer | placeSurface => exact absurd rfl hcommand
  | _ => trivial

end Command.Change

/-! ### What it changes of the share, it finds in the part -/

theorem layerIds_part {layerId : Id} (hl : k.layers layerId = true) :
    (wm.part k).layerIds.contains layerId = wm.layerIds.contains layerId := by
  rw [← isSome_layer, ← isSome_layer]
  exact congrArg Option.isSome (getLayer_part hl)

theorem recordIds_part {surfaceId : Id} (hs : k.surfaces surfaceId = true) :
    (wm.part k).recordIds.contains surfaceId = wm.recordIds.contains surfaceId := by
  rw [← isSome_record, ← isSome_record]
  exact congrArg Option.isSome (getListElement_store hs)

theorem screenIds_part : (wm.part k).screenIds = wm.screenIds := by
  simp only [Wm.screenIds, Wm.part, ids, List.map_map]
  rfl

theorem takeWhile_congr {α : Type} {p q : α → Bool} {l : List α} (h : ∀ a ∈ l, p a = q a) :
    l.takeWhile p = l.takeWhile q := by
  induction l with
  | nil => rfl
  | cons a l ih =>
    obtain ⟨ha, hl⟩ := List.forall_mem_cons.mp h
    rw [List.takeWhile_cons, List.takeWhile_cons, ha, ih hl]

/-- The changes a message asks for are the same in both layouts, as far as they depend on
what is there. -/
def Command.LooksSame (body : Option Json) (wm wm' : Wm) : Command → Prop
  | .addLayer => wm'.screenIds = wm.screenIds
  | .addSurface => ∀ screenJobj ∈ screenObjects body, ∀ layerJobj ∈ layerObjects (some screenJobj),
      wm'.layerIds.contains (idOf layerJobj) = wm.layerIds.contains (idOf layerJobj)
  | .removeSurface => ∀ layerJobj ∈ layerObjects body,
      wm'.layerIds.contains (idOf layerJobj) = wm.layerIds.contains (idOf layerJobj)
  | .modifySurface => ∀ surfaceJobj ∈ surfaceObjects body,
      wm'.recordIds.contains (idOf surfaceJobj) = wm.recordIds.contains (idOf surfaceJobj)
  | _ => True

theorem addSurfaceChanges_congr {wm wm' : Wm} {screenJobj : Json}
    (hcontains : ∀ layerJobj ∈ layerObjects (some screenJobj),
      wm'.layerIds.contains (idOf layerJobj) = wm.layerIds.contains (idOf layerJobj)) :
    addSurfaceChanges (fun _ => true) wm' screenJobj =
        addSurfaceChanges (fun _ => true) wm screenJobj ∧
      addSurfacePasses wm' screenJobj = addSurfacePasses wm screenJobj := by
  have hpasses : ∀ layerJobj ∈ layerObjects (some screenJobj),
      addSurfaceLayerPasses wm' layerJobj = addSurfaceLayerPasses wm layerJobj :=
    fun layerJobj hlayer => by rw [addSurfaceLayerPasses, hcontains layerJobj hlayer]; rfl
  have hlayers : addSurfaceLayers wm' screenJobj = addSurfaceLayers wm screenJobj :=
    reached_congr hpasses
  constructor
  · unfold addSurfaceChanges
    split
    · rfl
    · rw [hlayers, List.filter_true]
      refine List.flatMap_congr fun layerJobj hlayer => ?_
      rw [addSurfaceLayerChanges, hcontains layerJobj (mem_of_mem_reached hlayer)]
      rfl
  · unfold addSurfacePasses
    unfold layerObjects at hpasses
    cases hary : parseLayers (some screenJobj) with
    | none => rfl
    | some layerAry =>
      rw [hary] at hpasses
      have hall : layerAry.all (addSurfaceLayerPasses wm') =
          layerAry.all (addSurfaceLayerPasses wm) := by
        rw [Bool.eq_iff_iff, List.all_eq_true, List.all_eq_true]
        exact forall₂_congr fun layerJobj hlayer => by rw [hpasses layerJobj hlayer]
      rw [Option.any_some, Option.any_some, hall]

theorem changes_congr {wm wm' : Wm} (h : command.LooksSame body wm wm') :
    command.changes (fun _ => true) wm' known body =
      command.changes (fun _ => true) wm known body := by
  cases command with
  | addLayer =>
    have hscreens : wm'.screenIds = wm.screenIds := h
    have hpasses : addLayerPasses wm' = addLayerPasses wm := by
      funext screenJobj
      rw [addLayerPasses, hscreens]
      rfl
    have hchanges : addLayerChanges wm' = addLayerChanges wm := by
      funext screenJobj
      unfold addLayerChanges
      rw [hscreens]
    rw [Command.changes, hpasses, hchanges]
    rfl
  | addSurface =>
    simp only [Command.changes, List.filter_true]
    rw [reached_congr fun screenJobj hscreen => (addSurfaceChanges_congr (h screenJobj hscreen)).2]
    exact List.flatMap_congr fun screenJobj hscreen =>
      (addSurfaceChanges_congr (h screenJobj (mem_of_mem_reached hscreen))).1
  | removeSurface =>
    simp only [Command.changes, List.filter_true]
    rw [reached_congr fun layerJobj hlayer => by rw [removeSurfacePasses, h layerJobj hlayer]]
    refine List.flatMap_congr fun layerJobj hlayer => ?_
    rw [removeSurfaceChanges, h layerJobj (mem_of_mem_reached hlayer)]
    rfl
  | modifySurface =>
    simp only [Command.changes, List.filter_true]
    rw [takeWhile_congr fun surfaceJobj hsurface => by rw [h surfaceJobj hsurface]]
  | _ => rfl

theorem changes_part (hbody : k.own.Body readsDocument body) :
    command.changes (fun _ => true) (wm.part k) known body =
      command.changes (fun _ => true) wm known body := by
  refine changes_congr ?_
  cases command with
  | addLayer => exact screenIds_part
  | addSurface =>
    exact fun screenJobj hscreen layerJobj hlayer =>
      layerIds_part ((hbody.screens screenJobj hscreen layerJobj hlayer).layer _ rfl)
  | removeSurface =>
    exact fun layerJobj hlayer => layerIds_part ((hbody.layers layerJobj hlayer).layer _ rfl)
  | modifySurface =>
    exact fun surfaceJobj hsurface => recordIds_part (hbody.surfaces surfaceJobj hsurface _ rfl)
  | _ => trivial

/-! ### Messages unwind -/

/-- The calls a message starts with. -/
def Command.clears : Command → List Call
  | .initialScreen => [.removeAll]
  | _ => []

theorem eq_of_mem_clears {call : Call} (h : call ∈ command.clears) :
    command = .initialScreen ∧ call = .removeAll := by
  cases command with
  | initialScreen => exact ⟨rfl, List.mem_singleton.mp h⟩
  | _ => cases h

theorem afterMessage_eq (hcommand : commandOf body = some command) :
    wm.afterMessage known body =
      (command.clears ++ command.changes (fun _ => true) wm known body).foldl
        (fun wm call => call.layout wm) wm := by
  rw [Wm.afterMessage, hcommand, List.foldl_append]
  cases command <;> rfl

theorem afterMessage_of_none (hcommand : commandOf body = none) :
    wm.afterMessage known body = wm := by
  rw [Wm.afterMessage, hcommand]

theorem calls_of_owns (hbody : k.Owns body) (hcommand : commandOf body = some command) :
    ∀ call ∈ command.clears ++ command.changes (fun _ => true) wm known body,
      call.Names k.own ∧ call.Beside k := by
  refine List.forall_mem_append.mpr ⟨fun call hcall => ?_, fun call hcall => ?_⟩
  · rw [(eq_of_mem_clears hcall).2]
    exact ⟨trivial, trivial⟩
  · have hchange := change_of_mem hcall
    exact ⟨hchange.names (hbody.names command hcommand), hchange.beside hcommand hbody⟩

theorem calls_of_spares (hbody : k.Spares body) (hcommand : commandOf body = some command) :
    ∀ call ∈ command.clears ++ command.changes (fun _ => true) wm known body,
      call.Names k.rest ∧ call.keepsScreens := by
  have hkeeps : command ≠ .initialScreen := fun h => hbody.keepsScreens (h ▸ hcommand)
  refine List.forall_mem_append.mpr ⟨fun call hcall => ?_, fun call hcall => ?_⟩
  · exact absurd (eq_of_mem_clears hcall).1 hkeeps
  · have hchange := change_of_mem hcall
    exact ⟨hchange.names (hbody.names command hcommand), hchange.keepsScreens hkeeps⟩

/-- What the share sees of the layout, message by message. -/
theorem unwinds_messages (k : Share) (known : Id → Bool) :
    Unwinds (Wm.afterMessage known) (Wm.part k) (Wm.Divided k) k.Owns k.Spares where
  kept wm body hbody h := by
    cases hcommand : commandOf body with
    | none => rwa [afterMessage_of_none hcommand]
    | some command =>
      rw [afterMessage_eq hcommand]
      rcases hbody with hbody | hbody
      · exact (unwinds_calls k).run_kept (fun call hcall =>
          .inl (calls_of_owns hbody hcommand call hcall)) h
      · exact (unwinds_calls k).run_kept (fun call hcall =>
          .inr (calls_of_spares hbody hcommand call hcall)) h
  follows wm wm' body hbody h h' hview := by
    cases hcommand : commandOf body with
    | none => rwa [afterMessage_of_none hcommand, afterMessage_of_none hcommand]
    | some command =>
      have hnames := hbody.names command hcommand
      rw [afterMessage_eq hcommand, afterMessage_eq hcommand, ← changes_part hnames, hview,
        changes_part hnames]
      exact (unwinds_calls k).run_follows (calls_of_owns hbody hcommand) h h' hview
  spares wm body hbody h := by
    cases hcommand : commandOf body with
    | none => rw [afterMessage_of_none hcommand]
    | some command =>
      rw [afterMessage_eq hcommand]
      exact (unwinds_calls k).run_spares (calls_of_spares hbody hcommand) h

end Messages

/-! ## The configuration -/

/-- Each layer the configuration names is on one side, with its surfaces. -/
def Share.Sorts (k : Share) (boot : Boot) : Prop :=
  ∀ rootJobj, boot.config = some (some rootJobj) →
    ∀ screenJobj ∈ configScreens boot.localHostname rootJobj,
      ∀ layerJobj ∈ layerObjects (some screenJobj),
        k.own.Layer readsDocument layerJobj ∨ k.rest.Layer readsDocument layerJobj

theorem names_processed {boot : Boot} {known : Id → Bool} (h : k.Sorts boot) :
    ∀ call ∈ documentChanges (fun _ => true) (boot.processed known),
      call.Names k.own ∨ call.Names k.rest := by
  have hlayers : ∀ screenJobj ∈ boot.processed known,
      ∀ layerJobj ∈ layerObjects (some screenJobj),
        k.own.Layer readsDocument layerJobj ∨ k.rest.Layer readsDocument layerJobj := by
    intro screenJobj hscreen
    unfold Boot.processed at hscreen
    split at hscreen
    · exact h _ ‹_› screenJobj ((List.takeWhile_sublist _).mem hscreen)
    · cases hscreen
  intro call hcall
  simp only [documentChanges, screenChanges, layerChanges, List.filter_true, List.mem_flatMap,
    List.mem_cons, List.mem_map] at hcall
  obtain ⟨screenJobj, hscreen, rfl | ⟨layerJobj, hlayer, hcall⟩⟩ := hcall
  · exact .inl trivial
  · refine (hlayers screenJobj hscreen layerJobj hlayer).imp (fun hside => ?_) fun hside => ?_
    all_goals
      rcases hcall with rfl | ⟨surfaceJobj, hsurface, rfl⟩
      · exact hside.layer _ rfl
      · exact ⟨hside.layer _ rfl, hside.surfaces surfaceJobj hsurface _ rfl⟩

theorem Wm.Divided.addScreens {wm : Wm} (h : wm.Divided k) (ids : List Id) :
    (ids.foldl addScreen wm).Divided k :=
  List.foldlRecOn (motive := Wm.Divided k) ids _ h fun wm h screenId _ =>
    @Wm.Divided.after_call k wm (.addScreen screenId) h (.inl trivial)

theorem divided_of_boot {boot : Boot} {known : Id → Bool} {ids : List Id} {wm : Wm}
    (hsorts : k.Sorts boot) (huninit : ∀ n, wm.uninit n = wm.uninit 0) :
    (boot.layout known ids wm).Divided k := by
  have hempty : Wm.Divided k ⟨[], [], wm.uninit⟩ := ⟨fun _ h => absurd h List.not_mem_nil, huninit⟩
  have hconfigured : Wm.Divided k ((documentChanges (fun _ => true) (boot.processed known)).foldl
      (fun wm call => call.layout wm) ⟨[], [], wm.uninit⟩) :=
    List.foldlRecOn (motive := Wm.Divided k) _ _ hempty fun wm h call hcall =>
      h.after_call (names_processed hsorts call hcall)
  unfold Boot.layout
  dsimp only
  split
  · exact hconfigured.addScreens ids
  · exact hconfigured

/-! ## Clients -/

section Loop

variable {ilm : Ilm σ} {known : Id → Bool} {ids : List Id} {set : Setting σ}
  {jsonLoads : List UInt8 → Option Json} {order : ByteOrder} {l : MainLoop σ} {fd : Nat}

/-- The layers and surfaces of the share are named by one client only, as far as it has been
heard. -/
structure MainLoop.Reserves (l : MainLoop σ) (jsonLoads : List UInt8 → Option Json) (fd : Nat)
    (k : Share) : Prop where
  owns : ∀ cmd ∈ l.commandsOf fd, k.Owns (jsonLoads cmd)
  spares : ∀ fd', fd' ≠ fd → ∀ cmd ∈ l.commandsOf fd', k.Spares (jsonLoads cmd)

theorem mem_commandsOf {cmd : List UInt8} (h : (fd, cmd) ∈ l.commands) : cmd ∈ l.commandsOf fd :=
  List.mem_map.mpr ⟨(fd, cmd), List.mem_filter.mpr ⟨h, beq_self_eq_true fd⟩, rfl⟩

/-- Of the layout that all commands make, the share is what the client's own make. -/
theorem part_of_commands (h : l.Reserves jsonLoads fd k) {wm : Wm} (hwm : wm.Divided k) :
    ((l.commands.map fun command => jsonLoads command.2).foldl
        (Wm.afterMessage known) wm).part k =
      (((l.commandsOf fd).map jsonLoads).foldl (Wm.afterMessage known) wm).part k := by
  have hunwinds := (unwinds_messages k known).comap fun command : Nat × List UInt8 =>
    jsonLoads command.2
  have hpurge : (l.commands.foldl (fun wm command =>
      Wm.afterMessage known wm (jsonLoads command.2)) wm).part k =
        ((l.commands.filter fun command => command.1 == fd).foldl (fun wm command =>
          Wm.afterMessage known wm (jsonLoads command.2)) wm).part k := by
    refine hunwinds.purge (fun command hmem hmine => ?_) (fun command hmem hmine => ?_) hwm hwm rfl
    · obtain ⟨fd', cmd⟩ := command
      obtain rfl : fd' = fd := beq_iff_eq.mp hmine
      exact h.owns cmd (mem_commandsOf hmem)
    · obtain ⟨fd', cmd⟩ := command
      exact h.spares fd' (beq_eq_false_iff_ne.mp hmine) cmd (mem_commandsOf hmem)
  rw [List.foldl_map, hpurge, MainLoop.commandsOf, List.map_map, List.foldl_map]
  rfl

/-- A client has its layers and surfaces as if it had been alone with the daemon, where the
others name none of them and send no `initial_screen`. -/
theorem clients_independent (hkeep : ilm.Keeps (ilm.Knows known))
    (hkeep' : ilm.Keeps (ilm.Lists ids))
    (hstart : ∀ boot w, set.start boot w → ilm.Knows known w.ilm ∧ ilm.Lists ids w.ilm)
    (henv : ∀ c c', ilm.Knows known c → set.env c c' → ilm.Knows known c')
    (hsorts : ∀ boot w, set.start boot w → k.Sorts boot ∧ ∀ n, w.wm.uninit n = w.wm.uninit 0)
    (h : (mainLoop ilm jsonLoads order set).Reachable l) (hreserves : l.Reserves jsonLoads fd k) :
    ∃ boot w₀, set.start boot w₀ ∧ l.world.wm.part k =
      (((l.commandsOf fd).map jsonLoads).foldl (Wm.afterMessage known)
        (boot.layout known ids w₀.wm)).part k := by
  obtain ⟨boot, w₀, hset, hwm⟩ := wm_of_loop hkeep hkeep' hstart henv h
  obtain ⟨hsorts, huninit⟩ := hsorts boot w₀ hset
  exact ⟨boot, w₀, hset, hwm ▸ part_of_commands hreserves (divided_of_boot hsorts huninit)⟩

end Loop

/-! ## What a client sees -/

/-- What is to be seen of the layers of the share. -/
def Share.picture (k : Share) (p : Picture) : Picture :=
  p.map fun s => (s.1, s.2.filter fun e => k.layers e.1)

theorem picture_part (wm : Wm) (surfaces : List Id) :
    (wm.part k).picture surfaces = k.picture (wm.picture surfaces) := by
  simp only [Wm.picture, Wm.part, Share.picture, List.map_map]
  refine List.map_congr_left fun s _ => ?_
  simp only [Function.comp_apply, List.filter_map]
  rfl

/-- In quiet states the compositor shows a client's layers and surfaces as its own commands
alone would have them, where the others name none of them and send no `initial_screen`. -/
theorem own_picture_shown {jsonLoads : List UInt8 → Option Json} {order : ByteOrder}
    {start : Boot → World Compositor → Prop} {screens : List Id} {fd : Nat}
    (hstart : ∀ boot w, start boot w → Blank screens w)
    (hsorts : ∀ boot w, start boot w → k.Sorts boot ∧ ∀ n, w.wm.uninit n = w.wm.uninit 0)
    {l : MainLoop Compositor}
    (h : (desktop jsonLoads order start).Run (Throughout jsonLoads Considerate) l)
    (hpipe : l.pipe = []) (hpending : l.world.ilm.pending = [])
    (hreserves : l.Reserves jsonLoads fd k) :
    ∃ (boot : Boot) (w₀ : World Compositor) (layout : Wm), start boot w₀ ∧
      layout = ((l.commandsOf fd).map jsonLoads).foldl
        (Wm.afterMessage fun id => screens.contains id)
          (boot.layout (fun id => screens.contains id) screens.dedup w₀.wm) ∧
      k.picture (l.world.ilm.picture layout.screenIds) =
        k.picture (layout.picture l.world.ilm.surfaces) ∧
      ∀ id prop, k.surfaces id = true → record layout.surfacePropertiesHead id = some prop →
        l.world.ilm.surfaceLook id = .unset ∨ l.world.ilm.surfaceLook id = prop.lp.look := by
  obtain ⟨boot, w₀, hboot, hlayout⟩ := layout_of_desktop hstart h.reachable
  obtain ⟨hsorts, huninit⟩ := hsorts boot w₀ hboot
  have hsession := session_of_desktop h
  let layout := ((l.commandsOf fd).map jsonLoads).foldl
    (Wm.afterMessage fun id => screens.contains id)
      (boot.layout (fun id => screens.contains id) screens.dedup w₀.wm)
  have hpart : l.world.wm.part k = layout.part k :=
    hlayout ▸ part_of_commands hreserves (divided_of_boot hsorts huninit)
  have hscreens : layout.screenIds = l.world.wm.screenIds := by
    rw [← screenIds_part (k := k), ← hpart, screenIds_part]
  have hshown : l.world.ilm.picture l.world.wm.screenIds =
      l.world.wm.picture l.world.ilm.surfaces :=
    picture_of_run hstart hsession hpipe hpending
  refine ⟨boot, w₀, layout, hboot, rfl, ?_, fun id prop hid hprop => ?_⟩
  · rw [hscreens, hshown, ← picture_part, hpart, picture_part]
  · have hstore : k.store l.world.wm.surfacePropertiesHead = k.store layout.surfacePropertiesHead :=
      congrArg Wm.surfacePropertiesHead hpart
    have hprop' : record l.world.wm.surfacePropertiesHead id = some prop := by
      rw [← hprop, record, record, ← getListElement_store hid, hstore, getListElement_store hid]
    exact (depicted_of_run hstart hsession).mirrors.surfaces.stored id prop hprop'

/-! Two clients that put a layer each onto screen 0, one of them with a surface. -/

/-- The commands of the two. -/
def neighbours (cmd : List UInt8) : Option Json :=
  if cmd = [0x43] then
    some (.object [("command", .string "add_layer"),
      ("screens", .array [screenObject 0 "append" [layerObject 4000 []]])])
  else layerAndSurface cmd

def twoNeighbours : List DesktopAction :=
  [.connect (atOnce (encodeCommand [0x41] ++ encodeCommand [0x42])),
    .connect (atOnce (encodeCommand [0x43])),
    .turn { idleTurn with listening := true }, .turn { idleTurn with pollin := true },
    .turn { idleTurn with pollin := true }, .turn { idleTurn with pollhup := true },
    .turn { idleTurn with listening := true }, .turn { idleTurn with pollin := true },
    .create 10, .turn { idleTurn with pipein := true },
    .configure 10, .turn { idleTurn with pipein := true }]

/-- What is the first client's. -/
def layerWithTen : Share := ⟨(· == 3000), (· == 10)⟩

theorem body_appended {s : Scope} {command : String} {layerJobj : Json}
    (h : s.Layer readsDocument layerJobj) :
    s.Body readsDocument (some (.object [("command", .string command),
      ("screens", .array [screenObject 0 "append" [layerJobj]])])) := by
  refine ⟨fun screenJobj hscreen layerJobj' hlayer => ?_, fun _ h => absurd h List.not_mem_nil,
    fun _ h => absurd h List.not_mem_nil⟩
  rw [List.mem_singleton.mp hscreen] at hlayer
  rw [List.mem_singleton.mp hlayer]
  exact h

theorem owns_appended {command : String} {layerJobj : Json}
    (h : k.own.Layer readsDocument layerJobj) :
    k.Owns (some (.object [("command", .string command),
      ("screens", .array [screenObject 0 "append" [layerJobj]])])) := by
  refine ⟨fun _ _ => body_appended h, fun _ screenJobj hscreen info hinfo => ?_⟩
  rw [List.mem_singleton.mp hscreen] at hinfo
  cases hinfo
  exact fun horder => by rcases horder with horder | horder <;> cases horder

theorem reserves_layerWithTen {σ : Type} {l : MainLoop σ}
    (h : l.commands = [(0, [0x41]), (0, [0x42]), (1, [0x43])]) :
    l.Reserves neighbours 0 layerWithTen := by
  constructor
  · intro cmd hcmd
    rw [MainLoop.commandsOf, h] at hcmd
    have hlayer : layerWithTen.own.Layer readsDocument (layerObject 3000 []) :=
      ⟨fun id hid => by cases hid; rfl, fun _ hmem => absurd hmem List.not_mem_nil⟩
    have hsurface : layerWithTen.own.Layer readsDocument (layerObject 3000 [surfaceObject 10]) := by
      refine ⟨fun id hid => by cases hid; rfl, fun surfaceJobj hmem id hid => ?_⟩
      rw [List.mem_singleton.mp hmem] at hid
      cases hid
      rfl
    rcases hcmd with _ | ⟨_, _ | ⟨_, hcmd⟩⟩
    · exact owns_appended hlayer
    · exact owns_appended hsurface
    · cases hcmd
  · intro fd' hne cmd hcmd
    have hlayer : layerWithTen.rest.Layer readsDocument (layerObject 4000 []) :=
      ⟨fun id hid => by cases hid; rfl, fun _ hmem => absurd hmem List.not_mem_nil⟩
    obtain ⟨⟨fd, cmd'⟩, hmem, rfl⟩ := List.mem_map.mp hcmd
    obtain ⟨hmem, hfd⟩ := List.mem_filter.mp hmem
    rw [h] at hmem
    rcases hmem with _ | ⟨_, _ | ⟨_, _ | ⟨_, hmem⟩⟩⟩
    · exact absurd (beq_iff_eq.mp hfd).symm hne
    · exact absurd (beq_iff_eq.mp hfd).symm hne
    · refine ⟨fun _ _ => body_appended hlayer, fun hscreen => ?_⟩
      cases hscreen
    · cases hmem

/-- No configuration, and no screen but screen 0. -/
def plainStart (boot : Boot) (w : World Compositor) : Prop :=
  boot.config = none ∧ w = World.fresh [0]

theorem sorts_plain {boot : Boot} {w : World Compositor} (h : plainStart boot w) :
    k.Sorts boot ∧ ∀ n, w.wm.uninit n = w.wm.uninit 0 := by
  obtain ⟨hnone, rfl⟩ := h
  refine ⟨fun rootJobj hconfig => ?_, fun _ => rfl⟩
  rw [hnone] at hconfig
  cases hconfig

theorem blank_plain {boot : Boot} {w : World Compositor} (h : plainStart boot w) :
    Blank [0] w := by
  obtain ⟨-, rfl⟩ := h
  exact ⟨rfl, fun _ => rfl, fun _ => rfl⟩

theorem exists_neighbours : ∃ l, (desktop neighbours .little plainStart).Run
    (Throughout neighbours Considerate) l ∧ l.pipe = [] ∧ l.world.ilm.pending = [] ∧
      l.commands = [(0, [0x41]), (0, [0x42]), (1, [0x43])] ∧
        l.world.ilm.screenOrder 0 = [3000, 4000] := by
  have hrun : ((MainLoop.started [0]).bind (MainLoop.performAll neighbours twoNeighbours)).any
      (fun l => l.session.quiet && (l.commands == [(0, [0x41]), (0, [0x42]), (1, [0x43])] &&
        l.world.ilm.screenOrder 0 == [3000, 4000])) = true := by decide +kernel
  obtain ⟨l, hl, hend⟩ := MainLoop.exists_run plainStart ⟨rfl, rfl⟩ hrun
  rw [Session.quiet, Bool.and_eq_true, Bool.and_eq_true, Bool.and_eq_true] at hend
  obtain ⟨⟨hpipe, hpending⟩, hcommands, horder⟩ := hend
  exact ⟨l, hl, List.isEmpty_iff.mp hpipe, List.isEmpty_iff.mp hpending,
    beq_iff_eq.mp hcommands, beq_iff_eq.mp horder⟩

theorem clients_independent_neighbours : ∃ (l : MainLoop Compositor) (boot : Boot)
    (w₀ : World Compositor), l.commandsOf 1 = [[0x43]] ∧ l.world.wm.part layerWithTen =
      (([[0x41], [0x42]].map neighbours).foldl (Wm.afterMessage fun id => [0].contains id)
        (boot.layout (fun id => [0].contains id) [0] w₀.wm)).part layerWithTen := by
  obtain ⟨l, hl, -, -, hcommands, -⟩ := exists_neighbours
  have hstart : ∀ boot w, (behindScreens plainStart).start boot w →
      (Compositor.ilm false).Knows (fun id => [0].contains id) w.ilm ∧
        (Compositor.ilm false).Lists [0] w.ilm :=
    fun _ _ h => lists_fresh h.2
  have henv : ∀ c c', (Compositor.ilm false).Knows (fun id => [0].contains id) c →
      (behindScreens plainStart).env c c' →
        (Compositor.ilm false).Knows (fun id => [0].contains id) c' := by
    intro c c' hk hscreens id
    rw [← hk id]
    exact congrArg (fun screens : List Id => screens.contains id) hscreens
  obtain ⟨boot, w₀, -, hpart⟩ := clients_independent (Compositor.keeps_known false [0]) keeps_list
    hstart henv (fun _ _ => sorts_plain) (mainLoop_of_desktop hl.reachable)
    (reserves_layerWithTen hcommands)
  have hfirst : l.commandsOf 0 = [[0x41], [0x42]] := by rw [MainLoop.commandsOf, hcommands]; rfl
  refine ⟨l, boot, w₀, by rw [MainLoop.commandsOf, hcommands]; rfl, ?_⟩
  rw [hpart, hfirst]

theorem own_picture_shown_neighbours : ∃ (l : MainLoop Compositor) (boot : Boot)
    (w₀ : World Compositor) (layout : Wm), l.world.ilm.screenOrder 0 = [3000, 4000] ∧
      layout = ([[0x41], [0x42]].map neighbours).foldl (Wm.afterMessage fun id => [0].contains id)
        (boot.layout (fun id => [0].contains id) [0] w₀.wm) ∧
      layerWithTen.picture (l.world.ilm.picture layout.screenIds) =
        layerWithTen.picture (layout.picture l.world.ilm.surfaces) := by
  obtain ⟨l, hl, hpipe, hpending, hcommands, horder⟩ := exists_neighbours
  have hfirst : l.commandsOf 0 = [[0x41], [0x42]] := by rw [MainLoop.commandsOf, hcommands]; rfl
  obtain ⟨boot, w₀, layout, -, hlayout, hshown, -⟩ := own_picture_shown (fun _ _ => blank_plain)
    (fun _ _ => sorts_plain) hl hpipe hpending (reserves_layerWithTen hcommands)
  rw [hfirst] at hlayout
  exact ⟨l, boot, w₀, layout, horder, hlayout, hshown⟩

end UhmiIviWm
