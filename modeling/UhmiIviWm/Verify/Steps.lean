import UhmiIviWm.Verify.Plans

/-!
# Steps and runs

The plan of `parser_init` and of every event, and the rule by which what each
call preserves becomes what a run preserves (`run_induction`). A claim about
runs is proved by giving the invariant between calls, which may mention the
calls a step has still to make, and the condition under which one call keeps it.
-/

namespace UhmiIviWm

open Lib Lib.CallPlan Lib.KeyedList

variable {σ : Type}

/-! ## Plans of whole steps -/

section Plans

variable (ilm : Ilm σ)

def Command.plan : Command → Option Json → StatePlan (Call.sem ilm) Int
  | .addSurface, jobject => ⟨fun w => planAddSurface w.wm jobject⟩
  | .removeSurface, jobject => ⟨fun w => planRemoveSurface w.wm jobject⟩
  | .modifySurface, jobject => ⟨fun w => planModifySurface w.wm jobject⟩
  | .addLayer, jobject => ⟨fun w => planAddLayer w.wm jobject⟩
  | .removeLayer, jobject => .fixed (planRemoveLayer jobject)
  | .modifyLayer, jobject => .fixed (planModifyLayer jobject)
  | .initialScreen, jobject => initScreenPlan ilm jobject

def messagePlan (msg : Option Json) : StatePlan (Call.sem ilm) Unit := do
  let _ ← StatePlan.fixed (Plan.ofExcept (parseVersion msg))
  let name ← StatePlan.fixed (Plan.ofExcept (parseCommand msg))
  match name.bind commandOfName with
  | none => pure ()
  | some command => do
    let _ ← command.plan ilm msg

def Event.plan : Event → StatePlan (Call.sem ilm) Unit
  | .record ⟨.creationDelection, id⟩ => .call (.register id)
  | .record ⟨.surfacePropChange, id⟩ => .call (.place id)
  | .message body => messagePlan ilm body

/-- The calls an event makes. -/
def Event.calls (e : Event) (w : World σ) : List Call := ((e.plan ilm).plan w).calls

/-- The world after the two `init_list`s of `parser_init`. -/
def World.cleared (w : World σ) : World σ := ⟨⟨[], [], w.wm.uninit⟩, w.ilm⟩

/-- The calls `parser_init` makes, from the cleared world. -/
def Boot.calls (boot : Boot) (w : World σ) : List Call := ((boot.plan ilm).plan w.cleared).calls

end Plans

section Follows

variable {ilm : Ilm σ}

theorem follows_ofParse {α : Type} (r : Except Abort α) :
    Follows (ofParse r) (StatePlan.fixed (Plan.ofExcept r) : StatePlan (Call.sem ilm) α) :=
  .ofExcept fun _ => by cases r <;> rfl

theorem parseInitScreenCommand_follows (jobject : Option Json) :
    Follows (parseInitScreenCommand ilm jobject) (initScreenPlan ilm jobject) := by
  refine .seq (follows_ofParse _) fun _ => .seq (.call Call.removeAll) fun _ => ?_
  refine .seq (parseScreenObjects_follows _) fun ret => .ite (fun _ => .ret _) fun _ => ?_
  exact .seq (.call Call.setCallback) fun _ => .ret 0

theorem Command.handler_follows (command : Command) (jobject : Option Json) :
    Follows (command.handler ilm jobject) (command.plan ilm jobject) := by
  cases command with
  | addSurface => exact fun w => (implements_addSurface w rfl).1
  | removeSurface => exact fun w => (implements_removeSurface w rfl).1
  | modifySurface => exact fun w => (implements_modifySurface w rfl).1
  | addLayer => exact fun w => (implements_addLayer w rfl).1
  | removeLayer => exact implements_removeLayer.follows
  | modifyLayer => exact implements_modifyLayer.follows
  | initialScreen => exact parseInitScreenCommand_follows jobject

theorem Event.handle_follows (e : Event) : Follows (e.handle ilm) (e.plan ilm) := by
  match e with
  | .record ⟨.creationDelection, id⟩ => exact .call (Call.register id)
  | .record ⟨.surfacePropChange, id⟩ => exact .call (Call.place id)
  | .message body =>
    simp only [Event.handle, parserParseRecvCommand, bind_assoc]
    refine .seq (follows_ofParse _) fun _ => .seq (follows_ofParse _) fun name => ?_
    cases name with
    | none =>
      simp only [pure_bind]
      exact .ret ()
    | some cmdName =>
      simp only [Option.bind_some]
      cases commandOfName cmdName with
      | none =>
        simp only [pure_bind]
        exact .ret ()
      | some command =>
        simp only [bind_assoc, pure_bind]
        exact .seq (command.handler_follows body) fun _ => .ret ()

theorem parseInitJsonConfig_follows (localHostname : String) (file : Option Json) :
    Follows (parseInitJsonConfig ilm localHostname file) (configPlan ilm localHostname file) := by
  cases file with
  | none => exact .ret (-1)
  | some rootJobj =>
    refine .seq (follows_ofParse _) fun _ => .loop fun targetJobj => ?_
    refine .seq (follows_ofParse _) fun ret => .ite (fun _ => .ret 0) fun _ => ?_
    exact .seq (parseScreenObjects_follows _) fun ret => .ite (fun _ => .ret _) fun _ => .ret _

theorem addScreens_eq (ilm : Ilm σ) (screenArray : List Id) :
    addScreens screenArray = runCalls (Call.sem ilm) (screenArray.map .addScreen) := by
  induction screenArray with
  | nil => rfl
  | cons screenId rest ih =>
    rw [addScreens, ih]
    rfl

theorem finish_follows :
    Follows (do
      if (← readWm (·.screenHead.isEmpty)) then
        let _ ← initDefaultConfig ilm
      onIlm (wrapIlmSetNotificationCallback ilm)) (finishPlan ilm) := by
  refine .reads fun empty => ?_
  cases empty with
  | false => exact .call Call.setCallback
  | true =>
    simp only [initDefaultConfig, bind_assoc, pure_bind, addScreens_eq ilm, if_true]
    refine .answer ?_ fun screenArray => .seq (.calls _) fun _ => .call Call.setCallback
    intro w
    simp only [Call.sem, Comp.bind_apply, onIlm, wrapIlmGetScreenIds, ask]
    cases (ilm.getScreenIDs w.ilm).1 <;> rfl

theorem parserInit_eq (boot : Boot) (w : World σ) :
    parserInit ilm boot w = ((boot.plan ilm).plan w.cleared).run (Call.sem ilm) w.cleared := by
  unfold parserInit Boot.plan
  cases boot.config with
  | none => exact finish_follows w.cleared
  | some file => exact (Follows.seq (parseInitJsonConfig_follows _ _) fun _ => finish_follows) w.cleared

end Follows

/-! ## How reads fail -/

section Reads

variable {jobject : Option Json} {e : Abort}

theorem getJsonStringValue_error {capacity : Nat} {key : String}
    (h : getJsonStringValue capacity jobject key = .error e) : e = .bufferOverflow := by
  unfold getJsonStringValue at h
  split at h
  · split at h
    · cases h
    · cases h
      rfl
  · cases h

theorem getJsonStringValue_bind_error {α : Type} {capacity : Nat} {key : String}
    {f : Option String → Except Abort α} (hf : ∀ s e, f s = .error e → e = .bufferOverflow)
    (h : (getJsonStringValue capacity jobject key >>= f) = .error e) : e = .bufferOverflow := by
  cases hs : getJsonStringValue capacity jobject key with
  | ok s =>
    rw [hs] at h
    exact hf s e h
  | error e' =>
    rw [hs] at h
    cases h
    exact getJsonStringValue_error hs

theorem parseVersion_error (h : parseVersion jobject = .error e) : e = .bufferOverflow :=
  getJsonStringValue_bind_error (fun s _ h => by cases s <;> cases h) h

theorem parseHostname_error {localHostname : String}
    (h : parseHostname localHostname jobject = .error e) : e = .bufferOverflow :=
  getJsonStringValue_bind_error (fun s _ h => by cases s <;> cases h) h

theorem parseCommand_error (h : parseCommand jobject = .error e) : e = .bufferOverflow :=
  getJsonStringValue_error h

theorem parseInsertInfo_error {info : InsertInfo}
    (h : parseInsertInfo jobject info = .error e) : e = .bufferOverflow := by
  refine getJsonStringValue_bind_error (fun s _ h => ?_) h
  cases s with
  | none =>
    simp only [pure_bind] at h
    split at h <;> cases h
  | some val =>
    simp only [pure_bind] at h
    split at h <;> cases h

end Reads

/-! ## Which calls there can be -/

/-- The calls a layout document makes. -/
def Call.ofDocument : Call → Prop
  | .findScreen _ | .openScreen _ | .putLayer .. | .putSurface .. | .pushScreen _ => True
  | _ => False

/-- The calls a command can make when the layout is `wm`. -/
def Call.Of (wm : Wm) : Command → Call → Prop
  | .addSurface, .putSurface layerElm _ _ _ => layerElm ∈ wm.layerIds
  | .addSurface, .pushLayer layerElm => layerElm ∈ wm.layerIds
  | .removeSurface, .removeSurface layerElm _ => layerElm ∈ wm.layerIds
  | .modifySurface, .modifySurface surfaceId _ => surfaceId ∈ wm.recordIds
  | .addLayer, .putLayer screenElm _ _ _ => screenElm ∈ wm.screenIds
  | .addLayer, .pushScreen screenElm => screenElm ∈ wm.screenIds
  | .removeLayer, .removeLayer _ => True
  | .modifyLayer, .modifyLayer _ _ => True
  | .initialScreen, .removeAll => True
  | .initialScreen, .setCallback => True
  | .initialScreen, call => call.ofDocument
  | _, _ => False

/-- The call has the insert info of one of the screen objects. -/
def Call.InsertsAs (screenAry : List Json) : Call → Prop
  | .putLayer _ _ _ info | .putSurface _ _ _ info =>
    ∃ screenJobj ∈ screenAry, ∃ ret,
      parseInsertInfo (some screenJobj) insertInfoDefault = .ok (ret, info)
  | _ => True

theorem Call.InsertsAs.of_mem {screenAry : List Json} {screenJobj : Json} {call : Call}
    (h : call.InsertsAs [screenJobj]) (hmem : screenJobj ∈ screenAry) : call.InsertsAs screenAry := by
  cases call with
  | putLayer | putSurface =>
    obtain ⟨obj, hobj, hinfo⟩ := h
    obtain rfl := List.mem_singleton.mp hobj
    exact ⟨obj, hmem, hinfo⟩
  | _ => trivial

section Kinds

variable {ilm : Ilm σ} {wm : Wm} {jobject : Option Json}

theorem planAddLayerScreen_within (screenJobj : Json) :
    (planAddLayerScreen wm screenJobj).Within
      (fun call => Call.Of wm .addLayer call ∧ call.InsertsAs [screenJobj])
      fun e => parseInsertInfo (some screenJobj) insertInfoDefault = .error e := by
  unfold planAddLayerScreen
  refine .readThen (fun _ h => h) fun r hinfo => ?_
  dsimp only
  split
  · exact .ret _
  · rename_i hscreen
    have hmem := getListElement_isSome.mp hscreen
    split
    · exact .ret _
    · refine .seq (.loop fun layerJobj _ => ?_) fun ret =>
        .ite (.ret _) (.seq (.call ⟨hmem, trivial⟩) fun _ => .ret _)
      split
      · exact .ret _
      · refine .seq (.call ⟨hmem, ?_⟩) fun _ => .ret _
        exact ⟨screenJobj, List.mem_singleton_self _, _, hinfo⟩

theorem planAddLayer_within :
    (planAddLayer wm jobject).Within
      (fun call => Call.Of wm .addLayer call ∧ call.InsertsAs ((parseScreens jobject).getD []))
      (· = .bufferOverflow) := by
  unfold planAddLayer
  cases parseScreens jobject with
  | none => exact .ret _
  | some screenAry =>
    exact .loop fun screenJobj hmem => (planAddLayerScreen_within screenJobj).mono
      (fun _ h => h.imp_right (·.of_mem hmem)) fun _ h => parseInsertInfo_error h

theorem planRemoveLayer_within (wm : Wm) (R : Abort → Prop) :
    (planRemoveLayer jobject).Within (Call.Of wm .removeLayer) R := by
  unfold planRemoveLayer
  split
  · exact .ret _
  · refine .loop fun layerJobj _ => ?_
    split
    · exact .ret _
    · exact .seq (.call trivial) fun _ => .ret _

theorem planModifyLayer_within (wm : Wm) (R : Abort → Prop) :
    (planModifyLayer jobject).Within (Call.Of wm .modifyLayer) R := by
  unfold planModifyLayer
  split
  · exact .ret _
  · refine .loop fun layerJobj _ => ?_
    split
    · exact .ret _
    · exact .seq (.call trivial) fun _ => .ret _

theorem planAddSurfaceScreen_within (screenJobj : Json) :
    (planAddSurfaceScreen wm screenJobj).Within
      (fun call => Call.Of wm .addSurface call ∧ call.InsertsAs [screenJobj])
      fun e => parseInsertInfo (some screenJobj) insertInfoDefault = .error e := by
  unfold planAddSurfaceScreen planAddSurfaceLayer
  refine .readThen (fun _ h => h) fun r hinfo => ?_
  dsimp only
  split
  · exact .ret _
  · refine .loop fun layerJobj _ => ?_
    split
    · exact .ret _
    · rename_i hlayer
      have hmem := getLayer_isSome.mp hlayer
      split
      · exact .ret _
      · refine .seq (.loop fun surfaceJobj _ => ?_) fun ret =>
          .ite (.ret _) (.seq (.call ⟨hmem, trivial⟩) fun _ => .ret _)
        split
        · exact .ret _
        · refine .seq (.call ⟨hmem, ?_⟩) fun _ => .ret _
          exact ⟨screenJobj, List.mem_singleton_self _, _, hinfo⟩

theorem planAddSurface_within :
    (planAddSurface wm jobject).Within
      (fun call => Call.Of wm .addSurface call ∧ call.InsertsAs ((parseScreens jobject).getD []))
      (· = .bufferOverflow) := by
  unfold planAddSurface
  cases parseScreens jobject with
  | none => exact .ret _
  | some screenAry =>
    exact .loop fun screenJobj hmem => (planAddSurfaceScreen_within screenJobj).mono
      (fun _ h => h.imp_right (·.of_mem hmem)) fun _ h => parseInsertInfo_error h

theorem planRemoveSurface_within (R : Abort → Prop) :
    (planRemoveSurface wm jobject).Within (Call.Of wm .removeSurface) R := by
  unfold planRemoveSurface planRemoveSurfaceLayer
  split
  · exact .ret _
  · refine .loop fun layerJobj _ => ?_
    split
    · exact .ret _
    · split
      · exact .ret _
      · rename_i hlayer
        have hmem := getLayer_isSome.mp hlayer
        split
        · exact .ret _
        · refine .loop fun surfaceJobj _ => ?_
          split
          · exact .ret _
          · exact .seq (.call hmem) fun _ => .ret _

theorem planModifySurface_within (R : Abort → Prop) :
    (planModifySurface wm jobject).Within (Call.Of wm .modifySurface) R := by
  unfold planModifySurface
  split
  · exact .ret _
  · refine .loop fun surfaceJobj _ => ?_
    split
    · exact .ret _
    · split
      · exact .ret _
      · rename_i hrecord
        have hmem := getListElement_isSome.mp hrecord
        exact .seq (.call hmem) fun _ => .ret _

theorem ofDocument_of_mem {screenJobj : Json} {call : Call} (h : call ∈ screenCalls screenJobj) :
    call.ofDocument := by
  simp only [screenCalls, layerCalls, List.mem_cons, List.mem_append, List.mem_flatMap,
    List.mem_map, List.not_mem_nil, or_false] at h
  rcases h with rfl | ⟨_, _, rfl | ⟨_, _, rfl⟩⟩ | rfl <;> trivial

theorem documentPlan_within (screenAry : List Json) (R : Abort → Prop) :
    (documentPlan ilm screenAry).Within Call.ofDocument R := by
  refine .loop fun screenJobj _ => .seq (.looks _) fun found => .seq (.call trivial) fun _ => ?_
  exact .ite (.ret _) (.fixed ⟨fun _ h => ofDocument_of_mem h, nofun⟩)

theorem configPlan_within (localHostname : String) (file : Option Json) :
    (configPlan ilm localHostname file).Within Call.ofDocument fun e =>
      ∃ rootJobj, file = some rootJobj ∧ (parseVersion (some rootJobj) = .error e ∨
        ∃ targetJobj ∈ (parseTarget (some rootJobj)).getD [],
          parseHostname localHostname (some targetJobj) = .error e) := by
  unfold configPlan
  split
  · exact .ret _
  · rename_i rootJobj
    refine .seq (.fixed (.ofExcept fun _ h => ⟨rootJobj, rfl, .inl h⟩)) fun _ =>
      .loop fun targetJobj htarget => ?_
    refine .seq (.fixed (.ofExcept fun _ h => ⟨rootJobj, rfl, .inr ⟨targetJobj, htarget, h⟩⟩))
      fun ret => .ite (.ret _) ?_
    exact .seq (documentPlan_within _ _) fun ret => .ite (.ret _) (.ret _)

theorem initScreenPlan_within (wm : Wm) :
    (initScreenPlan ilm jobject).Within (Call.Of wm .initialScreen)
      fun e => parseVersion jobject = .error e := by
  have hof : ∀ call : Call, call.ofDocument → Call.Of wm .initialScreen call := by
    intro call h
    cases call <;> trivial
  have hdocument : (documentPlan ilm ((parseScreens jobject).getD [])).Within
      (Call.Of wm .initialScreen) fun e => parseVersion jobject = .error e :=
    (documentPlan_within _ _).mono hof fun _ h => h
  refine .seq (.fixed (.ofExcept fun _ h => h)) fun _ =>
    .seq (.call trivial) fun _ => .seq hdocument fun _ => .ite (.ret _) ?_
  exact .seq (.call trivial) fun _ => .ret _

theorem Command.plan_calls (command : Command) (w : World σ) :
    ∀ call ∈ ((command.plan ilm jobject).plan w).calls, Call.Of w.wm command call := by
  cases command with
  | addSurface => exact fun call hcall => (planAddSurface_within.calls call hcall).1
  | removeSurface => exact (planRemoveSurface_within fun _ => True).calls
  | modifySurface => exact (planModifySurface_within fun _ => True).calls
  | addLayer => exact fun call hcall => (planAddLayer_within.calls call hcall).1
  | removeLayer => exact (planRemoveLayer_within w.wm fun _ => True).calls
  | modifyLayer => exact (planModifyLayer_within w.wm fun _ => True).calls
  | initialScreen => exact (initScreenPlan_within w.wm).calls w

theorem Command.plan_within (command : Command) :
    (command.plan ilm jobject).Within (fun _ => True) (· = .bufferOverflow) := by
  refine ⟨fun _ _ _ => trivial, fun w t e hrun hout => ?_⟩
  cases command with
  | addSurface => exact planAddSurface_within.out e hout
  | removeSurface => exact (planRemoveSurface_within (· = .bufferOverflow)).out e hout
  | modifySurface => exact (planModifySurface_within (· = .bufferOverflow)).out e hout
  | addLayer => exact planAddLayer_within.out e hout
  | removeLayer => exact (planRemoveLayer_within w.wm (· = .bufferOverflow)).out e hout
  | modifyLayer => exact (planModifyLayer_within w.wm (· = .bufferOverflow)).out e hout
  | initialScreen => exact parseVersion_error ((initScreenPlan_within w.wm).out w t e hrun hout)

/-- The command of a message, if it has one. -/
def commandOf (msg : Option Json) : Option Command :=
  match parseCommand msg with
  | .ok name => name.bind commandOfName
  | .error _ => none

/-- A message makes the calls of its command, unless its version does not fit. -/
theorem calls_message (body : Option Json) (w : World σ) :
    (Event.message body).calls ilm w =
      match parseVersion body, commandOf body with
      | .ok _, some command => ((command.plan ilm body).plan w).calls
      | _, _ => [] := by
  simp only [Event.calls, Event.plan, messagePlan, StatePlan.calls_bind_ofExcept, commandOf]
  cases parseVersion body with
  | error e => rfl
  | ok r =>
    cases parseCommand body with
    | error e => rfl
    | ok name =>
      dsimp only
      cases name.bind commandOfName with
      | none => rfl
      | some command =>
        dsimp only
        rw [StatePlan.plan_bind]
        cases hr : ((command.plan ilm body).plan w).run (Call.sem ilm) w with
        | ok r => rw [Plan.goOn_of_ok hr]; exact List.append_nil _
        | error e => rw [Plan.goOn_of_error hr]

/-- The calls of an event. -/
theorem Event.calls_of {e : Event} {w : World σ} {call : Call} (h : call ∈ e.calls ilm w) :
    (∃ id, call = .register id ∨ call = .place id) ∨ ∃ command, Call.Of w.wm command call := by
  match e with
  | .record ⟨.creationDelection, id⟩ => exact .inl ⟨id, .inl (List.mem_singleton.mp h)⟩
  | .record ⟨.surfacePropChange, id⟩ => exact .inl ⟨id, .inr (List.mem_singleton.mp h)⟩
  | .message body =>
    rw [calls_message] at h
    split at h
    · exact .inr ⟨_, Command.plan_calls _ w call h⟩
    · exact nomatch h

/-- No event adds a screen without looking for it. -/
theorem Event.calls_ne_addScreen {e : Event} {w : World σ} {call : Call} (h : call ∈ e.calls ilm w)
    (screenId : Id) : call ≠ .addScreen screenId := by
  rintro rfl
  rcases Event.calls_of h with ⟨id, h | h⟩ | ⟨command, h⟩
  · cases h
  · cases h
  · cases command <;> exact h.elim

/-- A step aborts of its own only where a string does not fit its buffer. -/
theorem Event.plan_within (e : Event) :
    (e.plan ilm).Within (fun _ => True) (· = .bufferOverflow) := by
  match e with
  | .record ⟨.creationDelection, id⟩ => exact .call trivial
  | .record ⟨.surfacePropChange, id⟩ => exact .call trivial
  | .message body =>
    refine .seq (.fixed (.ofExcept fun _ h => parseVersion_error h)) fun _ =>
      .seq (.fixed (.ofExcept fun _ h => parseCommand_error h)) fun name => ?_
    split
    · exact .ret ()
    · exact .seq (Command.plan_within _) fun _ => .ret ()

/-- The calls `parser_init` can make. -/
def Call.ofInit : Call → Prop
  | .addScreen _ | .askScreenIds | .setCallback => True
  | call => call.ofDocument

/-- A string that `parser_init` reads from the configuration ends in `e`. -/
def Boot.ReadFails (boot : Boot) (e : Abort) : Prop :=
  ∃ rootJobj, boot.config = some (some rootJobj) ∧ (parseVersion (some rootJobj) = .error e ∨
    ∃ targetJobj ∈ (parseTarget (some rootJobj)).getD [],
      parseHostname boot.localHostname (some targetJobj) = .error e)

theorem Boot.ReadFails.eq_bufferOverflow {boot : Boot} {e : Abort} (h : boot.ReadFails e) :
    e = .bufferOverflow := by
  obtain ⟨rootJobj, -, h | ⟨targetJobj, -, h⟩⟩ := h
  · exact parseVersion_error h
  · exact parseHostname_error h

theorem Boot.plan_within (boot : Boot) :
    (boot.plan ilm).Within Call.ofInit boot.ReadFails := by
  have hfinish : (finishPlan ilm).Within Call.ofInit boot.ReadFails := by
    refine .seq (.looks _) fun empty => .ite ?_ (.call trivial)
    refine .seq (.looks _) fun screenArray => .seq (.call trivial) fun _ => ?_
    refine .seq (.calls_of fun call hcall => ?_) fun _ => .call trivial
    obtain ⟨screenId, -, rfl⟩ := List.mem_map.mp hcall
    trivial
  have hof : ∀ call : Call, call.ofDocument → call.ofInit := by
    intro call h
    cases call <;> trivial
  unfold Boot.plan
  split
  · rename_i file hconfig
    refine .seq ((configPlan_within _ _).mono hof ?_) fun _ => hfinish
    rintro e ⟨rootJobj, rfl, h⟩
    exact ⟨rootJobj, hconfig, h⟩
  · exact hfinish

end Kinds

/-! ## From calls to runs -/

section Runs

variable {ilm : Ilm σ}

theorem Event.handle_eq_ok {e : Event} {w w' : World σ} :
    e.handle ilm w = .ok ((), w') ↔
      ((e.plan ilm).plan w).out = .ok () ∧
        runCalls (Call.sem ilm) (e.calls ilm w) w = .ok ((), w') := by
  rw [e.handle_follows w]
  exact Plan.run_eq_ok

/-- The calls of a message that is handled are those of its command. -/
theorem calls_of_message {body : Option Json} {command : Command}
    (hcommand : commandOf body = some command) {w w' : World σ}
    (h : (Event.message body).handle ilm w = .ok ((), w')) :
    (Event.message body).calls ilm w = ((command.plan ilm body).plan w).calls := by
  rw [calls_message, hcommand]
  cases hversion : parseVersion body with
  | ok version => rfl
  | error e =>
    simp only [Event.handle, parserParseRecvCommand, Comp.bind_apply, ofParse, hversion] at h
    cases h

/-- A handled message has made the calls of its command. -/
theorem runCalls_of_message {body : Option Json} {command : Command}
    (hcommand : commandOf body = some command) {w w' : World σ}
    (h : (Event.message body).handle ilm w = .ok ((), w')) :
    runCalls (Call.sem ilm) ((command.plan ilm body).plan w).calls w = .ok ((), w') := by
  rw [← calls_of_message hcommand h]
  exact (Event.handle_eq_ok.mp h).2

/-- A handled message has been handled by its command. -/
theorem handler_of_message {body : Option Json} {command : Command}
    (hcommand : commandOf body = some command) {w w' : World σ}
    (h : (Event.message body).handle ilm w = .ok ((), w')) :
    ∃ ret, command.handler ilm body w = .ok (ret, w') := by
  unfold commandOf at hcommand
  cases hname : parseCommand body with
  | error e =>
    rw [hname] at hcommand
    cases hcommand
  | ok name =>
    rw [hname] at hcommand
    obtain ⟨cmdName, rfl, hfound⟩ := Option.bind_eq_some_iff.mp hcommand
    simp only [Event.handle, parserParseRecvCommand, Comp.bind_apply, ofParse, hname] at h
    cases hversion : parseVersion body with
    | error e =>
      simp only [hversion] at h
      cases h
    | ok version =>
      simp only [hversion] at h
      rw [hfound] at h
      simp only [Comp.bind_apply] at h
      cases hhandler : command.handler ilm body w with
      | error e =>
        rw [hhandler] at h
        cases h
      | ok r =>
        rw [hhandler] at h
        cases h
        exact ⟨r.1, rfl⟩

/-- The layout a handled message leaves. -/
theorem wm_of_message {body : Option Json} {command : Command}
    (hcommand : commandOf body = some command) {w w' : World σ}
    (h : (Event.message body).handle ilm w = .ok ((), w')) :
    w'.wm = ((command.plan ilm body).plan w).calls.foldl (fun wm call => call.layout wm) w.wm :=
  runCalls_wm (runCalls_of_message hcommand h)

theorem parserInit_eq_ok {boot : Boot} {w w' : World σ} :
    parserInit ilm boot w = .ok ((), w') ↔
      ((boot.plan ilm).plan w.cleared).out = .ok () ∧
        runCalls (Call.sem ilm) (boot.calls ilm w) w.cleared = .ok ((), w') := by
  rw [parserInit_eq]
  exact Plan.run_eq_ok

/-- Apart from a string that does not fit, a step aborts in one of its calls. -/
theorem Event.handle_ne_error {e : Event} {w : World σ} {a : Abort} (ha : a ≠ .bufferOverflow)
    (h : runCalls (Call.sem ilm) (e.calls ilm w) w ≠ .error a) : e.handle ilm w ≠ .error a := by
  intro herr
  rw [e.handle_follows w] at herr
  rcases Plan.run_eq_error.mp herr with hcalls | ⟨hout, t, hrun⟩
  · exact h hcalls
  · exact ha (e.plan_within.out w t a hrun hout)

theorem parserInit_ne_error {boot : Boot} {w : World σ} {a : Abort} (ha : a ≠ .bufferOverflow)
    (h : runCalls (Call.sem ilm) (boot.calls ilm w) w.cleared ≠ .error a) :
    parserInit ilm boot w ≠ .error a := by
  intro herr
  rw [parserInit_eq] at herr
  rcases Plan.run_eq_error.mp herr with hcalls | ⟨hout, t, hrun⟩
  · exact h hcalls
  · exact ha (boot.plan_within.out w.cleared t a hrun hout).eq_bufferOverflow

/-- The calls of an action. -/
def Action.calls (ilm : Ilm σ) : Action → World σ → List Call
  | .event e, w => e.calls ilm w
  | .env, _ => []

/-- What `parser_init` establishes and every step keeps holds in every run. Between two
calls of a step `J` holds, `G` of the next call in hand. -/
theorem run_induction {set : Setting σ} {GA : Action → World σ → Prop}
    {G : World σ → Call → List Call → Prop} {J : World σ → List Call → Prop}
    {P : World σ → Prop}
    (hinit : ∀ boot w₀ w, set.start boot w₀ → parserInit ilm boot w₀ = .ok ((), w) → P w)
    (hevent : ∀ e w, P w → GA (.event e) w →
      J w (e.calls ilm w) ∧ AtEach (Call.sem ilm) G (e.calls ilm w) w)
    (hcall : ∀ call rest w w', J w (call :: rest) → G w call rest →
      call.sem ilm w = .ok ((), w') → J w' rest)
    (hdone : ∀ w, J w [] → P w)
    (henv : ∀ w c, P w → GA .env w → set.env w.ilm c → P ⟨w.wm, c⟩) {w : World σ}
    (h : (daemon ilm set).Run GA w) : P w := by
  refine h.invariant ?_ ?_
  · rintro w ⟨boot, w₀, hstart, hboot⟩
    exact hinit boot w₀ w hstart hboot
  · intro a w w' _ hP hGA hs
    cases a with
    | event e =>
      obtain ⟨hJ, hG⟩ := hevent e w hP hGA
      exact hdone w' (runCalls_induction hcall hJ hG (Event.handle_eq_ok.mp hs).2)
    | env =>
      obtain ⟨hwm, hc⟩ := hs
      obtain ⟨wm', c'⟩ := w'
      obtain rfl : wm' = w.wm := hwm
      exact henv w c' hP hGA hc

/-- What the calls of `parser_init` keep. -/
theorem init_induction {G : World σ → Call → List Call → Prop} {J : World σ → List Call → Prop}
    (hcall : ∀ call rest w w', J w (call :: rest) → G w call rest →
      call.sem ilm w = .ok ((), w') → J w' rest) {boot : Boot} {w₀ w : World σ}
    (hJ : J w₀.cleared (boot.calls ilm w₀))
    (hG : AtEach (Call.sem ilm) G (boot.calls ilm w₀) w₀.cleared)
    (h : parserInit ilm boot w₀ = .ok ((), w)) : J w [] :=
  runCalls_induction hcall hJ hG (parserInit_eq_ok.mp h).2

/-- The calls that name no element of the layout. -/
def Call.plain : Call → Bool
  | .findScreen _ | .askScreenIds | .setCallback => true
  | _ => false

/-- A condition on calls that holds of all calls of layout documents, once it
holds of those of a screen object whose screen is found and of those of the
default configuration. -/
structure AtDocuments (ilm : Ilm σ) (G : World σ → Call → List Call → Prop) : Prop where
  grows : Grows G
  plain : ∀ w call rest, call.plain = true → G w call rest
  screen : ∀ screenJobj w w',
    (ilm.getPropertiesOfScreen ((parseId (some screenJobj)).getD 0) w.ilm).1 = true →
    Call.sem ilm (.findScreen ((parseId (some screenJobj)).getD 0)) w = .ok ((), w') →
    AtEach (Call.sem ilm) G (screenCalls screenJobj) w'
  default : ∀ w w', w.wm.screenHead = [] → Call.sem ilm .askScreenIds w = .ok ((), w') →
    AtEach (Call.sem ilm) G ((((ilm.getScreenIDs w.ilm).1).getD []).map .addScreen) w'

namespace AtDocuments

variable {G : World σ → Call → List Call → Prop}

theorem mono {G' : World σ → Call → List Call → Prop} (h : AtDocuments ilm G) (hG' : Grows G')
    (hG : ∀ w call rest, G w call rest → G' w call rest) : AtDocuments ilm G' where
  grows := hG'
  plain := fun w call rest hplain => hG w call rest (h.plain w call rest hplain)
  screen := fun screenJobj w w' hfound hfind => (h.screen screenJobj w w' hfound hfind).mono hG
  default := fun w w' hempty hask => (h.default w w' hempty hask).mono hG

theorem one (h : AtDocuments ilm G) {call : Call} (hplain : call.plain = true) (w : World σ) :
    AtEach (Call.sem ilm) G [call] w := by
  refine ⟨h.plain w call [] hplain, ?_⟩
  split <;> trivial

theorem document (h : AtDocuments ilm G) (screenAry : List Json) (w : World σ) :
    AtEach (Call.sem ilm) G ((documentPlan ilm screenAry).plan w).calls w := by
  refine StatePlan.atEach_loop h.grows (fun screenJobj s => ?_) w
  refine StatePlan.atEach_seq h.grows trivial fun found t ht => ?_
  cases ht
  refine StatePlan.atEach_seq h.grows (h.one rfl s) fun _ u hu => ?_
  split
  · trivial
  · rename_i hfound
    obtain ⟨v, hv, hdone⟩ := runCalls_cons_ok.mp (Plan.run_eq_ok.mp hu).2
    cases hdone
    exact h.screen screenJobj s u (by simpa using hfound) hv

theorem initScreen (h : AtDocuments ilm G) (hall : ∀ w rest, G w .removeAll rest)
    (jobject : Option Json) (w : World σ) :
    AtEach (Call.sem ilm) G ((initScreenPlan ilm jobject).plan w).calls w := by
  refine StatePlan.atEach_seq h.grows trivial fun _ t _ => ?_
  refine StatePlan.atEach_seq h.grows ⟨hall t [], trivial⟩ fun _ t _ => ?_
  refine StatePlan.atEach_seq h.grows (h.document _ t) fun ret t _ => ?_
  split
  · trivial
  · exact StatePlan.atEach_seq h.grows (h.one rfl t) fun _ _ _ => trivial

theorem config (h : AtDocuments ilm G) (localHostname : String) (file : Option Json)
    (w : World σ) :
    AtEach (Call.sem ilm) G ((configPlan ilm localHostname file).plan w).calls w := by
  cases file with
  | none => trivial
  | some rootJobj =>
    refine StatePlan.atEach_seq h.grows trivial fun _ t _ => ?_
    refine StatePlan.atEach_loop h.grows (fun targetJobj s => ?_) t
    refine StatePlan.atEach_seq h.grows trivial fun ret t _ => ?_
    split
    · trivial
    · refine StatePlan.atEach_seq h.grows (h.document _ t) fun ret u _ => ?_
      split <;> trivial

theorem finish (h : AtDocuments ilm G) (w : World σ) :
    AtEach (Call.sem ilm) G ((finishPlan ilm).plan w).calls w := by
  refine StatePlan.atEach_seq h.grows trivial fun empty t ht => ?_
  cases ht
  split
  · rename_i hempty
    refine StatePlan.atEach_seq h.grows trivial fun screenArray t ht => ?_
    cases ht
    refine StatePlan.atEach_seq h.grows (h.one rfl w) fun _ u hu => ?_
    obtain ⟨v, hv, hdone⟩ := runCalls_cons_ok.mp (Plan.run_eq_ok.mp hu).2
    cases hdone
    have hscreens := h.default w u (List.isEmpty_iff.mp hempty) hv
    exact StatePlan.atEach_seq h.grows hscreens fun _ v _ => h.one rfl v
  · exact h.one rfl w

theorem boot (h : AtDocuments ilm G) (boot : Boot) (w : World σ) :
    AtEach (Call.sem ilm) G (boot.calls ilm w) w.cleared := by
  unfold Boot.calls Boot.plan
  cases boot.config with
  | none => exact h.finish w.cleared
  | some file =>
    exact StatePlan.atEach_seq h.grows (h.config _ file w.cleared) fun _ u _ => h.finish u

end AtDocuments

/-- Steps whose calls keep an invariant, and do not end with `a` where it holds, do not
end with `a`. -/
theorem Event.handle_ne_error_of_invariant {P : World σ → Prop}
    {G : World σ → Call → Prop} {a : Abort} (ha : a ≠ .bufferOverflow)
    (hcall : ∀ call w w', P w → G w call → call.sem ilm w = .ok ((), w') → P w')
    (hsafe : ∀ call w, P w → G w call → call.sem ilm w ≠ .error a) {e : Event} {w : World σ}
    (hP : P w) (hG : AtEach (Call.sem ilm) (fun w call _ => G w call) (e.calls ilm w) w) :
    e.handle ilm w ≠ .error a :=
  e.handle_ne_error ha (runCalls_ne_error (P := fun w _ => P w)
    (fun call _ w w' => hcall call w w') (fun call _ w => hsafe call w) hP hG)

theorem parserInit_ne_error_of_invariant {P : World σ → Prop}
    {G : World σ → Call → Prop} {a : Abort} (ha : a ≠ .bufferOverflow)
    (hcall : ∀ call w w', P w → G w call → call.sem ilm w = .ok ((), w') → P w')
    (hsafe : ∀ call w, P w → G w call → call.sem ilm w ≠ .error a) {boot : Boot} {w : World σ}
    (hP : P w.cleared)
    (hG : AtEach (Call.sem ilm) (fun w call _ => G w call) (boot.calls ilm w) w.cleared) :
    parserInit ilm boot w ≠ .error a :=
  parserInit_ne_error ha (runCalls_ne_error (P := fun w _ => P w)
    (fun call _ w w' => hcall call w w') (fun call _ w => hsafe call w) hP hG)

/-- The rule for an invariant of the world alone. -/
theorem run_invariant {set : Setting σ} {GA : Action → World σ → Prop}
    {G : World σ → Call → Prop} {P : World σ → Prop}
    (hstart : ∀ boot w, set.start boot w → P w.cleared ∧
      AtEach (Call.sem ilm) (fun w call _ => G w call) (boot.calls ilm w) w.cleared)
    (hevent : ∀ e w, P w → GA (.event e) w →
      AtEach (Call.sem ilm) (fun w call _ => G w call) (e.calls ilm w) w)
    (hcall : ∀ call w w', P w → G w call → call.sem ilm w = .ok ((), w') → P w')
    (henv : ∀ w c, P w → GA .env w → set.env w.ilm c → P ⟨w.wm, c⟩) {w : World σ}
    (h : (daemon ilm set).Run GA w) : P w := by
  refine run_induction (J := fun w _ => P w) (G := fun w call _ => G w call)
    (fun boot w₀ w hboot hinit => ?_) (fun e w hP hGA => ⟨hP, hevent e w hP hGA⟩)
    (fun call _ w w' => hcall call w w') (fun _ hP => hP) henv h
  obtain ⟨hP, hG⟩ := hstart boot w₀ hboot
  exact init_induction (J := fun w _ => P w) (fun call _ w w' => hcall call w w') hP hG hinit

end Runs

/-! ## Executing a run -/

section Execute

variable (ilm : Ilm σ)

/-- Handles the events one after the other. -/
def runEvents : List Event → World σ → Except Abort (World σ)
  | [], w => .ok w
  | e :: events, w =>
    match e.handle ilm w with
    | .ok (_, w') => runEvents events w'
    | .error a => .error a

theorem handle_of_runEvents {ilm : Ilm σ} {e : Event} {w w' : World σ}
    (h : runEvents ilm [e] w = .ok w') : e.handle ilm w = .ok ((), w') := by
  rw [runEvents] at h
  cases hs : e.handle ilm w with
  | ok r =>
    rw [hs] at h
    cases h
    rfl
  | error a =>
    rw [hs] at h
    cases h

/-- `parser_init`, then the events. -/
def execute (boot : Boot) (events : List Event) (w : World σ) : Except Abort (World σ) :=
  match parserInit ilm boot w with
  | .ok (_, w') => runEvents ilm events w'
  | .error a => .error a

variable {ilm}

theorem exists_ok {e : Except Abort (World σ)} (h : e.isOk = true) : ∃ w, e = .ok w := by
  cases e with
  | ok w => exact ⟨w, rfl⟩
  | error a => cases h

/-- A test of the world a run ends in. -/
def endsWith (p : World σ → Bool) : Except Abort (World σ) → Bool
  | .ok w => p w
  | .error _ => false

theorem exists_of_endsWith {p : World σ → Bool} {e : Except Abort (World σ)}
    (h : endsWith p e = true) : ∃ w, e = .ok w ∧ p w = true := by
  cases e with
  | ok w => exact ⟨w, rfl, h⟩
  | error a => cases h

variable (ilm) in
/-- A condition on every event of a run. -/
def AtEvents (G : Action → World σ → Prop) : List Event → World σ → Prop
  | [], _ => True
  | e :: events, w => G (.event e) w ∧ match e.handle ilm w with
    | .ok (_, w') => AtEvents G events w'
    | .error _ => True

instance AtEvents.decidable {G : Action → World σ → Prop}
    [h : ∀ e w, Decidable (G (.event e) w)] :
    ∀ events w, Decidable (AtEvents ilm G events w)
  | [], _ => isTrue trivial
  | e :: events, w =>
    have := h e w
    match hs : e.handle ilm w with
    | .ok (u, w') =>
      have := AtEvents.decidable (G := G) events w'
      decidable_of_iff (G (.event e) w ∧ AtEvents ilm G events w') (by rw [AtEvents, hs])
    | .error a => decidable_of_iff (G (.event e) w) (by rw [AtEvents, hs]; exact (and_true _).symm.to_iff)

theorem run_of_runEvents {set : Setting σ} {G : Action → World σ → Prop} {events : List Event}
    {w w' : World σ} (hw : (daemon ilm set).Run G w) (hG : AtEvents ilm G events w)
    (h : runEvents ilm events w = .ok w') : (daemon ilm set).Run G w' := by
  induction events generalizing w with
  | nil =>
    cases h
    exact hw
  | cons e events ih =>
    simp only [runEvents] at h
    obtain ⟨hg, hrest⟩ := hG
    cases hs : e.handle ilm w with
    | ok r =>
      rw [hs] at h hrest
      have hstep : (daemon ilm set).step (.event e) w r.2 := hs
      exact ih (hw.step hg hstep) hrest h
    | error a =>
      rw [hs] at h
      cases h

theorem atEvents_true (events : List Event) (w : World σ) :
    AtEvents ilm (fun _ _ => True) events w := by
  induction events generalizing w with
  | nil => trivial
  | cons e events ih =>
    refine ⟨trivial, ?_⟩
    cases e.handle ilm w with
    | ok r => exact ih r.2
    | error a => trivial

variable (ilm) in
/-- A condition on every event after `parser_init`. -/
def Along (G : Action → World σ → Prop) (boot : Boot) (events : List Event) (w : World σ) : Prop :=
  match parserInit ilm boot w with
  | .ok (_, w') => AtEvents ilm G events w'
  | .error _ => True

instance Along.decidable {G : Action → World σ → Prop} [∀ e w, Decidable (G (.event e) w)]
    (boot : Boot) (events : List Event) (w : World σ) : Decidable (Along ilm G boot events w) := by
  unfold Along
  split <;> infer_instance

theorem run_of_execute {set : Setting σ} {G : Action → World σ → Prop} {boot : Boot}
    {events : List Event} {w w' : World σ} (hstart : set.start boot w)
    (hG : Along ilm G boot events w) (h : execute ilm boot events w = .ok w') :
    (daemon ilm set).Run G w' := by
  simp only [execute] at h
  unfold Along at hG
  cases hinit : parserInit ilm boot w with
  | ok r =>
    rw [hinit] at h hG
    exact run_of_runEvents (.init ⟨boot, w, hstart, hinit⟩) hG h
  | error a =>
    rw [hinit] at h
    cases h

theorem reachable_of_execute {set : Setting σ} {boot : Boot} {events : List Event}
    {w w' : World σ} (hstart : set.start boot w) (h : execute ilm boot events w = .ok w') :
    (daemon ilm set).Reachable w' := by
  refine run_of_execute hstart ?_ h
  unfold Along
  split
  · exact atEvents_true events _
  · trivial

/-! Objects and messages as clients write them, for runs on fixed inputs. -/

def surfaceObject (id : Int64) : Json := .object [("id", .integer id)]

def layerObject (id : Int64) (surfaces : List Json) : Json :=
  .object [("id", .integer id), ("surfaces", .array surfaces)]

def screenObject (id : Int64) (order : String) (layers : List Json) : Json :=
  .object [("id", .integer id), ("insert_order", .string order), ("layers", .array layers)]

def message (command key : String) (objects : List Json) : Event :=
  .message (some (.object [("command", .string command), (key, .array objects)]))

end Execute

end UhmiIviWm
