import UhmiIviWm.Verify.Records
import UhmiIviWm.Verify.Strays

/-!
# Strings longer than their arrays

`get_json_string_value` prints a string into an array of its caller, and does not
know the array's size. `BodyFits` and `Boot.Fits` go through the strings that are
read, each with the size of the array it goes to. No array is overrun exactly
where all of them fit (`strings_fit_iff`): the parser checks none.
-/

namespace UhmiIviWm

open Lib Lib.CallPlan

variable {σ : Type} {ilm : Ilm σ}

/-! ## Reading a string -/

/-- The string under `key`, if there is one, fits an array of `capacity` bytes with its NUL. -/
def fits (capacity : Nat) (jobject : Option Json) (key : String) : Bool :=
  match jsonObjectGet jobject key with
  | some (.string s) => s.utf8ByteSize + 1 ≤ capacity
  | _ => true

section Reads

variable {capacity : Nat} {jobject : Option Json} {key : String}

theorem getJsonStringValue_overflow :
    getJsonStringValue capacity jobject key = .error .bufferOverflow ↔
      fits capacity jobject key = false := by
  unfold getJsonStringValue fits
  cases jsonObjectGet jobject key with
  | none => simp
  | some j =>
    cases j with
    | string s =>
      dsimp only
      by_cases hs : s.utf8ByteSize + 1 ≤ capacity
      · rw [if_pos hs, decide_eq_true hs]
        simp
      · rw [if_neg hs, decide_eq_false hs]
        simp
    | _ => simp

/-- A read that goes on with what it has read overflows in its first step or not at all. -/
theorem getJsonStringValue_bind_overflow {α : Type} {f : Option String → Except Abort α}
    (hf : ∀ s, ∃ a, f s = .ok a) :
    (getJsonStringValue capacity jobject key >>= f) = .error .bufferOverflow ↔
      fits capacity jobject key = false := by
  rw [← getJsonStringValue_overflow]
  cases getJsonStringValue capacity jobject key with
  | error e =>
    have hbind : (Except.error e >>= f : Except Abort α) = .error e := rfl
    rw [hbind]
    simp
  | ok s =>
    obtain ⟨a, ha⟩ := hf s
    have hbind : (Except.ok s >>= f : Except Abort α) = .ok a := ha
    rw [hbind]
    simp

theorem parseVersion_overflow :
    parseVersion jobject = .error .bufferOverflow ↔ fits 32 jobject jsonKeyVersion = false :=
  getJsonStringValue_bind_overflow fun s => by cases s <;> exact ⟨_, rfl⟩

theorem parseHostname_overflow {localHostname : String} :
    parseHostname localHostname jobject = .error .bufferOverflow ↔
      fits 32 jobject jsonKeyHostname = false :=
  getJsonStringValue_bind_overflow fun s => by cases s <;> exact ⟨_, rfl⟩

theorem parseCommand_overflow :
    parseCommand jobject = .error .bufferOverflow ↔ fits 16 jobject jsonKeyCommand = false :=
  getJsonStringValue_overflow

theorem parseInsertInfo_overflow {info : InsertInfo} :
    parseInsertInfo jobject info = .error .bufferOverflow ↔
      fits 32 jobject jsonKeyInsertodr = false := by
  refine getJsonStringValue_bind_overflow fun s => ?_
  cases s with
  | none =>
    simp only [pure_bind]
    split <;> exact ⟨_, rfl⟩
  | some val =>
    simp only [pure_bind]
    split <;> exact ⟨_, rfl⟩

theorem isSome_insertInfoOf (screenJobj : Json) :
    (insertInfoOf screenJobj).isSome = fits 32 (some screenJobj) jsonKeyInsertodr := by
  have hiff : parseInsertInfo (some screenJobj) insertInfoDefault = .error .bufferOverflow ↔
      fits 32 (some screenJobj) jsonKeyInsertodr = false := parseInsertInfo_overflow
  unfold insertInfoOf
  cases h : parseInsertInfo (some screenJobj) insertInfoDefault with
  | error e =>
    obtain rfl := parseInsertInfo_error h
    exact (hiff.mp h).symm
  | ok r =>
    rw [h] at hiff
    exact (eq_true_of_ne_false fun hno => nomatch hiff.mpr hno).symm

end Reads

/-! ## Messages -/

/-- The screen objects whose `insert_order` a command reads. -/
def Command.orderReads (wm : Wm) (body : Option Json) : Command → List Json
  | .addLayer => reached (addLayerPasses wm) (screenObjects body)
  | .addSurface => reached (addSurfacePasses wm) (screenObjects body)
  | _ => []

/-- Those it may read, whatever the layout. -/
def Command.ordered (body : Option Json) : Command → List Json
  | .addLayer => screenObjects body
  | .addSurface => reached (fun screenJobj => (parseLayers (some screenJobj)).isSome)
      (screenObjects body)
  | _ => []

/-- The strings of a message that are copied fit where they go. -/
structure BodyFits (body : Option Json) : Prop where
  version : fits 32 body jsonKeyVersion = true
  command : fits 16 body jsonKeyCommand = true
  insertOrder : ∀ command, commandOf body = some command → ∀ screenJobj ∈ command.ordered body,
    fits 32 (some screenJobj) jsonKeyInsertodr = true

section Messages

variable {body : Option Json} {command : Command}

theorem ordered_of_orderReads {wm : Wm} {screenJobj : Json}
    (h : screenJobj ∈ command.orderReads wm body) : screenJobj ∈ command.ordered body := by
  cases command with
  | addLayer => exact mem_of_mem_reached h
  | addSurface =>
    refine reached_mono (fun obj hpass => ?_) h
    have hlayers := (Bool.and_eq_true_iff.mp hpass).2
    cases hget : parseLayers (some obj) with
    | none =>
      rw [hget] at hlayers
      cases hlayers
    | some layerAry => rfl
  | _ => cases h

/-- Where there are no screens, all of them are read up to the first that does not fit. -/
theorem exists_orderReads_iff {wm : Wm} (hwm : wm.screenHead = []) :
    (∃ screenJobj ∈ command.orderReads wm body,
        fits 32 (some screenJobj) jsonKeyInsertodr = false) ↔
      ∃ screenJobj ∈ command.ordered body,
        fits 32 (some screenJobj) jsonKeyInsertodr = false := by
  have hscreens : wm.screenIds = [] := congrArg ids hwm
  have hlayers : wm.layerIds = [] := by rw [Wm.layerIds, hwm]; rfl
  cases command with
  | addLayer =>
    have hpasses : addLayerPasses wm = fun screenJobj =>
        fits 32 (some screenJobj) jsonKeyInsertodr && true := by
      funext screenJobj
      rw [addLayerPasses, isSome_insertInfoOf, hscreens]
      rfl
    rw [Command.orderReads, hpasses]
    refine exists_reached_and.trans ?_
    rw [reached_true]
    rfl
  | addSurface =>
    have hpasses : addSurfacePasses wm = fun screenJobj =>
        fits 32 (some screenJobj) jsonKeyInsertodr &&
          (parseLayers (some screenJobj)).isSome := by
      funext screenJobj
      rw [addSurfacePasses, isSome_insertInfoOf]
      cases parseLayers (some screenJobj) with
      | none => rfl
      | some layerAry =>
        have hall : layerAry.all (addSurfaceLayerPasses wm) = true := by
          refine List.all_eq_true.mpr fun layerJobj _ => ?_
          rw [addSurfaceLayerPasses, hlayers]
          rfl
        rw [Option.any_some, hall]
        rfl
    rw [Command.orderReads, hpasses]
    exact exists_reached_and
  | _ => exact Iff.rfl

theorem planAddLayerScreen_overflow {wm : Wm} {screenJobj : Json} :
    (planAddLayerScreen wm screenJobj).out = .error .bufferOverflow ↔
      fits 32 (some screenJobj) jsonKeyInsertodr = false := by
  refine ⟨fun h => parseInsertInfo_overflow.mp ((planAddLayerScreen_within screenJobj).out _ h),
    fun h => ?_⟩
  rw [planAddLayerScreen, parseInsertInfo_overflow.mpr h]
  rfl

theorem planAddSurfaceScreen_overflow {wm : Wm} {screenJobj : Json} :
    (planAddSurfaceScreen wm screenJobj).out = .error .bufferOverflow ↔
      fits 32 (some screenJobj) jsonKeyInsertodr = false := by
  refine ⟨fun h => parseInsertInfo_overflow.mp ((planAddSurfaceScreen_within screenJobj).out _ h),
    fun h => ?_⟩
  rw [planAddSurfaceScreen, parseInsertInfo_overflow.mpr h]
  rfl

theorem loop_overflow_iff {array : Option (List Json)} {p : Json → Plan Call Abort Int}
    {changes : Json → List Call} {pass : Json → Bool}
    (hround : ∀ obj, Round (p obj) (changes obj) (pass obj))
    (hreads : ∀ obj e, (p obj).out = .error e → e = .bufferOverflow)
    (hfits : ∀ obj, (p obj).out = .error .bufferOverflow ↔
      fits 32 (some obj) jsonKeyInsertodr = false) :
    (match array with
      | none => pure (-1)
      | some objs => forEach objs p : Plan Call Abort Int).out = .error .bufferOverflow ↔
      ∃ obj ∈ reached pass (array.getD []), fits 32 (some obj) jsonKeyInsertodr = false := by
  cases array with
  | none => exact iff_of_false nofun (by simp [reached])
  | some objs =>
    refine (Plan.forEach_aborts_iff (fun obj => (hround obj).passes)
      (fun obj => (hround obj).fails) hreads objs).trans ?_
    exact exists_congr fun obj => and_congr_right fun _ => hfits obj

/-- The plan of an incremental command aborts in an order that does not fit, or not at all. -/
theorem plan_overflow_iff (hcommand : command ≠ .initialScreen) {w : World σ} :
    ((command.plan ilm body).plan w).out = .error .bufferOverflow ↔
      ∃ screenJobj ∈ command.orderReads w.wm body,
        fits 32 (some screenJobj) jsonKeyInsertodr = false := by
  have hnothing : ¬ ∃ screenJobj ∈ ([] : List Json),
      fits 32 (some screenJobj) jsonKeyInsertodr = false := by simp
  cases command with
  | addLayer =>
    exact loop_overflow_iff round_addLayerScreen
      (fun obj _ h => parseInsertInfo_error ((planAddLayerScreen_within obj).out _ h))
      fun _ => planAddLayerScreen_overflow
  | addSurface =>
    exact loop_overflow_iff round_addSurfaceScreen
      (fun obj _ h => parseInsertInfo_error ((planAddSurfaceScreen_within obj).out _ h))
      fun _ => planAddSurfaceScreen_overflow
  | removeLayer =>
    exact iff_of_false ((planRemoveLayer_within w.wm fun _ => False).out _) hnothing
  | modifyLayer =>
    exact iff_of_false ((planModifyLayer_within w.wm fun _ => False).out _) hnothing
  | removeSurface =>
    exact iff_of_false ((planRemoveSurface_within fun _ => False).out _) hnothing
  | modifySurface =>
    exact iff_of_false ((planModifySurface_within fun _ => False).out _) hnothing
  | initialScreen => exact absurd rfl hcommand

/-! ### Handling a message -/

/-- Calls that do not return crash. They copy no strings. -/
theorem runCalls_crash {calls : List Call} {w : World σ} {e : Abort}
    (h : runCalls (Call.sem ilm) calls w = .error e) : Crash ilm True e := by
  have hstep : ∀ (call : Call) (rest : List Call) (w : World σ), True →
      (∃ w', call.sem ilm w = .ok ((), w') ∧ True) ∨
        ∃ e, call.sem ilm w = .error e ∧ Crash ilm True e := by
    intro call _ w _
    rcases call.sem_ends ilm.keeps_true (w := w) trivial with ⟨c, hsem, -⟩ | ⟨e, hsem, hcrash⟩
    · exact .inl ⟨_, hsem, trivial⟩
    · exact .inr ⟨e, hsem, hcrash.imp_right fun ⟨he, _⟩ => ⟨he, trivial⟩⟩
  have hends : (∃ w', runCalls (Call.sem ilm) calls w = .ok ((), w') ∧ True) ∨
      ∃ e, runCalls (Call.sem ilm) calls w = .error e ∧ Crash ilm True e :=
    runCalls_ends (P := fun _ _ => True) hstep trivial
  rcases hends with ⟨w', hok, -⟩ | ⟨e', herr, hcrash⟩
  · cases h.symm.trans hok
  · cases h.symm.trans herr
    exact hcrash

theorem runCalls_ne_overflow {calls : List Call} {w : World σ} :
    runCalls (Call.sem ilm) calls w ≠ .error .bufferOverflow := by
  intro h
  rcases runCalls_crash h with ⟨h, -⟩ | ⟨h, -⟩ <;> cases h

theorem handler_overflow_iff {w : World σ} :
    command.handler ilm body w = .error .bufferOverflow ↔
      ((command.plan ilm body).plan w).out = .error .bufferOverflow ∧
        ∃ w', runCalls (Call.sem ilm) ((command.plan ilm body).plan w).calls w = .ok ((), w') := by
  rw [command.handler_follows body w, Plan.run_eq_error]
  exact or_iff_right runCalls_ne_overflow

/-- A message overflows an array in its version, in its command, or in its handler. -/
theorem handle_overflow_iff {w : World σ} :
    (Event.message body).handle ilm w = .error .bufferOverflow ↔
      fits 32 body jsonKeyVersion = false ∨ fits 16 body jsonKeyCommand = false ∨
        ∃ command, commandOf body = some command ∧
          command.handler ilm body w = .error .bufferOverflow := by
  rw [← parseVersion_overflow, ← parseCommand_overflow]
  simp only [Event.handle, parserParseRecvCommand, Comp.bind_apply, ofParse, commandOf]
  cases hversion : parseVersion body with
  | error e =>
    obtain rfl := parseVersion_error hversion
    simp
  | ok version =>
    cases hname : parseCommand body with
    | error e =>
      obtain rfl := parseCommand_error hname
      simp
    | ok name =>
      cases name with
      | none => simp
      | some cmdName =>
        cases hfound : commandOfName cmdName with
        | none => simp [hfound]
        | some command =>
          simp only [Option.bind_some, hfound, Comp.bind_apply]
          cases hhandler : command.handler ilm body w <;> simp [hhandler]

/-- Where there are no screens, commands that read orders make no calls. -/
theorem calls_of_ordered {w : World σ} (hw : w.wm.screenHead = []) {screenJobj : Json}
    (h : screenJobj ∈ command.ordered body) : ((command.plan ilm body).plan w).calls = [] := by
  have hscreens : w.wm.screenIds = [] := congrArg ids hw
  have hlayers : w.wm.layerIds = [] := by rw [Wm.layerIds, hw]; rfl
  refine List.eq_nil_iff_forall_not_mem.mpr fun call hcall => ?_
  have hof : Call.Of w.wm command call := command.plan_calls w call hcall
  cases command with
  | addLayer =>
    cases call with
    | putLayer | pushScreen =>
      rw [Call.Of, hscreens] at hof
      cases hof
    | _ => exact hof.elim
  | addSurface =>
    cases call with
    | putSurface | pushLayer =>
      rw [Call.Of, hlayers] at hof
      cases hof
    | _ => exact hof.elim
  | _ => cases h

theorem BodyFits.handle_ne (h : BodyFits body) (w : World σ) :
    (Event.message body).handle ilm w ≠ .error .bufferOverflow := by
  intro herr
  rcases handle_overflow_iff.mp herr with hversion | hname | ⟨command, hcommand, hhandler⟩
  · cases hversion.symm.trans h.version
  · cases hname.symm.trans h.command
  · obtain ⟨hout, w', hrun⟩ := handler_overflow_iff.mp hhandler
    by_cases hscreen : command = .initialScreen
    · subst hscreen
      have hversion := parseVersion_overflow.mp ((initScreenPlan_within w.wm).out w w' _ hrun hout)
      cases hversion.symm.trans h.version
    · obtain ⟨screenJobj, hmem, hno⟩ := (plan_overflow_iff hscreen).mp hout
      cases hno.symm.trans (h.insertOrder command hcommand screenJobj (ordered_of_orderReads hmem))

/-- A body that overflows no array where there are no screens fits. -/
theorem BodyFits.of_handle_ne {w : World σ} (hw : w.wm.screenHead = [])
    (h : (Event.message body).handle ilm w ≠ .error .bufferOverflow) : BodyFits body := by
  have hno := mt handle_overflow_iff.mpr h
  refine ⟨?_, ?_, fun command hcommand screenJobj hmem => ?_⟩
  · exact eq_true_of_ne_false fun hversion => hno (.inl hversion)
  · exact eq_true_of_ne_false fun hname => hno (.inr (.inl hname))
  · refine eq_true_of_ne_false fun horder => hno (.inr (.inr ⟨command, hcommand, ?_⟩))
    have hcommand : command ≠ .initialScreen := by
      rintro rfl
      cases hmem
    refine handler_overflow_iff.mpr ⟨(plan_overflow_iff hcommand).mpr ?_, w, ?_⟩
    · exact (exists_orderReads_iff hw).mpr ⟨screenJobj, hmem, horder⟩
    · rw [calls_of_ordered hw hmem]
      rfl

end Messages

/-! ## Configurations -/

/-- The strings of the configuration that are copied fit where they go. -/
def Boot.Fits (boot : Boot) : Prop :=
  ∀ rootJobj, boot.config = some (some rootJobj) →
    fits 32 (some rootJobj) jsonKeyVersion = true ∧
      ∀ targetJobj ∈ (parseTarget (some rootJobj)).getD [],
        fits 32 (some targetJobj) jsonKeyHostname = true

section Config

variable {boot : Boot} {known : Id → Bool}

theorem Boot.fits_iff : boot.Fits ↔ ¬ boot.ReadFails .bufferOverflow := by
  unfold Boot.Fits Boot.ReadFails
  simp only [parseVersion_overflow, parseHostname_overflow]
  constructor
  · rintro h ⟨rootJobj, hconfig, hversion | ⟨targetJobj, hmem, hhost⟩⟩
    · cases hversion.symm.trans (h rootJobj hconfig).1
    · cases hhost.symm.trans ((h rootJobj hconfig).2 targetJobj hmem)
  · intro h rootJobj hconfig
    refine ⟨eq_true_of_ne_false fun hversion => ?_, fun targetJobj hmem => ?_⟩
    · exact h ⟨rootJobj, hconfig, .inl hversion⟩
    · exact eq_true_of_ne_false fun hhost => h ⟨rootJobj, hconfig, .inr ⟨targetJobj, hmem, hhost⟩⟩

theorem Boot.Fits.parserInit_ne (h : boot.Fits) (w : World σ) :
    parserInit ilm boot w ≠ .error .bufferOverflow := by
  intro herr
  rw [parserInit_eq] at herr
  rcases Plan.run_eq_error.mp herr with hcalls | ⟨hout, w', hrun⟩
  · exact runCalls_ne_overflow hcalls
  · exact Boot.fits_iff.mp h (boot.plan_within.out w.cleared w' _ hrun hout)

/-- Where all screens are known, a loop that has run has run all its rounds. -/
theorem Processes.each {α : Type} (hkeep : ilm.Keeps (ilm.Knows known))
    {p : α → StatePlan (Call.sem ilm) Int} {f : α → List Json}
    (h : ∀ x, Processes known (p x) (f x)) {xs : List α}
    (hall : ∀ screenJobj ∈ xs.flatMap f, known (idOf screenJobj) = true) {w w' : World σ} {ret : Int}
    (hk : ilm.Knows known w.ilm)
    (hrun : ((forEach xs p).plan w).run (Call.sem ilm) w = .ok (ret, w')) :
    ∀ x ∈ xs, ∃ t r t', ((p x).plan t).run (Call.sem ilm) t = .ok (r, t') := by
  induction xs generalizing w with
  | nil => exact fun x hx => nomatch hx
  | cons x xs ih =>
    obtain ⟨r, t, hfirst, hrest⟩ := StatePlan.run_bind_eq_ok.mp hrun
    have hmem : ∀ screenJobj ∈ f x, known (idOf screenJobj) = true := fun screenJobj hs =>
      hall screenJobj (List.mem_append_left _ hs)
    have hr : ¬ r < 0 := fun hneg => by
      have hnot := (h x w t r hk hfirst).2.mp hneg
      rw [List.all_eq_true.mpr hmem] at hnot
      cases hnot
    rw [if_neg hr] at hrest
    refine List.forall_mem_cons.mpr ⟨⟨w, r, t, hfirst⟩, ih (fun screenJobj hs => ?_) ?_ hrest⟩
    · exact hall screenJobj (List.mem_append_right _ hs)
    · exact runCalls_keeps_ilm hkeep hk (Plan.run_eq_ok.mp hfirst).2

/-- Where all its screens are known, a configuration is read to its end. -/
theorem Boot.fits_of_ok (hkeep : ilm.Keeps (ilm.Knows known)) {w w' : World σ}
    (hk : ilm.Knows known w.ilm)
    (hall : ∀ rootJobj, boot.config = some (some rootJobj) →
      ∀ screenJobj ∈ configScreens boot.localHostname rootJobj, known (idOf screenJobj) = true)
    (h : parserInit ilm boot w = .ok ((), w')) : boot.Fits := by
  rw [parserInit_eq] at h
  refine Boot.fits_iff.mpr ?_
  rintro ⟨rootJobj, hconfig, hread⟩
  unfold Boot.plan at h
  rw [hconfig] at h
  obtain ⟨ret, t, hrun, -⟩ := StatePlan.run_bind_eq_ok.mp h
  obtain ⟨version, u, hfirst, hloop⟩ := StatePlan.run_bind_eq_ok.mp hrun
  obtain ⟨hversion, hnone⟩ := Plan.run_eq_ok.mp hfirst
  cases hnone
  rcases hread with hread | ⟨targetJobj, hmem, hread⟩
  · cases hread.symm.trans hversion
  · have hk : ilm.Knows known w.cleared.ilm := hk
    obtain ⟨v, r, v', htarget⟩ := Processes.each hkeep
      (Processes.target hkeep boot.localHostname) (hall rootJobj hconfig) hk hloop targetJobj hmem
    obtain ⟨host, _, hhost, -⟩ := StatePlan.run_bind_eq_ok.mp htarget
    cases hread.symm.trans (Plan.run_eq_ok.mp hhost).1

end Config

/-! ## Both entry points -/

theorem Compositor.succeeds : (Compositor.ilm false).Succeeds := ⟨fun _ _ => rfl, fun _ => rfl⟩

/-- Seen with a compositor that never fails and has all the screens of the configuration. -/
theorem Boot.fits_of_parserInit_ne {boot : Boot}
    (h : ∀ w, parserInit (Compositor.ilm false) boot w ≠ .error .bufferOverflow) : boot.Fits := by
  intro rootJobj hconfig
  let screens := (configScreens boot.localHostname rootJobj).map idOf
  cases hinit : parserInit (Compositor.ilm false) boot (World.fresh screens) with
  | ok r =>
    have hall : ∀ rootJobj', boot.config = some (some rootJobj') →
        ∀ screenJobj ∈ configScreens boot.localHostname rootJobj',
          screens.contains (idOf screenJobj) = true := by
      intro rootJobj' hconfig' screenJobj hmem
      cases hconfig'.symm.trans hconfig
      exact List.contains_iff_mem.mpr (List.mem_map_of_mem hmem)
    exact Boot.fits_of_ok (Compositor.keeps_known false screens) (fun _ => rfl) hall hinit
      rootJobj hconfig
  | error e =>
    exfalso
    cases e with
    | bufferOverflow => exact h _ hinit
    | nullDeref =>
      let anywhere : Setting Compositor := ⟨fun _ _ => True, fun _ _ => True⟩
      have hstart : anywhere.start boot (World.fresh screens) := trivial
      exact (records_found (Compositor.distinctScreenIds false)).1 boot _ hstart hinit
    | ilmExit =>
      refine parserInit_ne_error (by decide) (fun hcalls => ?_) hinit
      rcases runCalls_crash hcalls with ⟨-, hfails⟩ | ⟨he, -⟩
      · exact hfails Compositor.succeeds
      · cases he

/-- The daemon has started on a compositor without screens. -/
theorem exists_bare (set : Setting Compositor)
    (hstart : set.start ⟨"host", none⟩ (World.fresh [])) :
    ∃ w, (daemon (Compositor.ilm false) set).Reachable w ∧ w.wm.screenHead = [] := by
  have hend : endsWith (fun w => w.wm.screenHead.isEmpty)
      (execute (Compositor.ilm false) ⟨"host", none⟩ [] (World.fresh [])) = true := by
    decide +kernel
  obtain ⟨w, hw, hempty⟩ := exists_of_endsWith hend
  exact ⟨w, reachable_of_execute hstart hw, List.isEmpty_iff.mp hempty⟩

/-- No buffer overflows just where the strings copied fit, whatever has been handled before. -/
theorem strings_fit_iff (body : Option Json) (boot : Boot) :
    ((∀ (σ : Type) (ilm : Ilm σ) (set : Setting σ) (w : World σ), (daemon ilm set).Reachable w →
        (Event.message body).handle ilm w ≠ .error .bufferOverflow) ↔ BodyFits body) ∧
      ((∀ (σ : Type) (ilm : Ilm σ) (w : World σ),
        parserInit ilm boot w ≠ .error .bufferOverflow) ↔ boot.Fits) := by
  constructor
  · constructor
    · intro h
      obtain ⟨w, hreach, hw⟩ := exists_bare ⟨fun _ _ => True, fun _ _ => False⟩ trivial
      exact .of_handle_ne hw (h _ _ _ w hreach)
    · exact fun h σ ilm _ w _ => h.handle_ne w
  · constructor
    · exact fun h => Boot.fits_of_parserInit_ne (h _ _)
    · exact fun h σ ilm w => h.parserInit_ne w

/-- The name of a command and two letters more. -/
def longCommand : Option Json := some (.object [("command", .string "initial_screens1")])

theorem strings_too_long : ¬ ∀ (body : Option Json) (w : World Compositor),
    oneScreen.Reachable w →
      (Event.message body).handle (Compositor.ilm false) w ≠ .error .bufferOverflow := by
  intro h
  obtain ⟨w, hw⟩ := exists_oneScreen
  have hlong : fits 16 longCommand jsonKeyCommand = false := by decide
  exact h longCommand w hw (handle_overflow_iff.mpr (.inr (.inl hlong)))

end UhmiIviWm
