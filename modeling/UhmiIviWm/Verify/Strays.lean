import UhmiIviWm.Lib.Occurrences
import UhmiIviWm.Verify.Faithful
import UhmiIviWm.Verify.Reset

/-!
# Objects without an id

An object of a `screens`, `layers` or `surfaces` array may have no id, or one that
is not an integer. `parse_id` then reports an error and leaves its destination
alone. Where its result is looked at, the handler returns; where it is not, the
handler goes on with the zero the destination was set to, and takes the object for
that of screen, layer or surface 0. `Command.changes` lists what a message changes,
and, for the objects with ids alone, what it asks for; the two are the same where no
such object gets through (`ids_required`).
-/

namespace UhmiIviWm

open Lib Lib.CallPlan Lib.KeyedList Lib.Occurrences

variable {σ : Type} {ilm : Ilm σ}

/-! ## Objects -/

def screenObjects (jobject : Option Json) : List Json := (parseScreens jobject).getD []

def layerObjects (jobject : Option Json) : List Json := (parseLayers jobject).getD []

def surfaceObjects (jobject : Option Json) : List Json := (parseSurfaces jobject).getD []

/-- The objects in front of the first one without an id. -/
def leading (objs : List Json) : List Json := objs.takeWhile hasId

/-- The calls that change the tree or the store on behalf of an object of a document. -/
def Call.touches : Call → Bool
  | .openScreen _ | .putLayer .. | .putSurface .. => true
  | .removeLayer _ | .removeSurface .. | .modifyLayer .. | .modifySurface .. => true
  | _ => false

/-! ## What a message changes

For the objects that `keep` keeps, and what is nested in them. -/

section Changes

variable (keep : Json → Bool) (wm : Wm)

/-- The array is there and all its objects have ids. -/
def complete (array : Option (List Json)) : Bool := array.any (·.all hasId)

def insertInfoOf (screenJobj : Json) : Option InsertInfo :=
  match parseInsertInfo (some screenJobj) insertInfoDefault with
  | .ok (_, insertInfo) => some insertInfo
  | .error _ => none

def addLayerChanges (screenJobj : Json) : List Call :=
  match insertInfoOf screenJobj with
  | none => []
  | some insertInfo =>
    if wm.screenIds.contains (idOf screenJobj) then
      (leading (layerObjects (some screenJobj))).map fun layerJobj =>
        .putLayer (idOf screenJobj) layerJobj (idOf layerJobj) insertInfo
    else []

/-- `parse_add_layer_command` goes on to the next screen object. -/
def addLayerPasses (screenJobj : Json) : Bool :=
  (insertInfoOf screenJobj).isSome &&
    (!wm.screenIds.contains (idOf screenJobj) || complete (parseLayers (some screenJobj)))

def addSurfaceLayerChanges (insertInfo : InsertInfo) (layerJobj : Json) : List Call :=
  if wm.layerIds.contains (idOf layerJobj) then
    (leading (surfaceObjects (some layerJobj))).map fun surfaceJobj =>
      .putSurface (idOf layerJobj) surfaceJobj (idOf surfaceJobj) insertInfo
  else []

/-- `parse_add_surface_command` goes on to the next layer object. -/
def addSurfaceLayerPasses (layerJobj : Json) : Bool :=
  !wm.layerIds.contains (idOf layerJobj) || complete (parseSurfaces (some layerJobj))

/-- The layer objects of a screen object that `parse_add_surface_command` gets to. -/
def addSurfaceLayers (screenJobj : Json) : List Json :=
  reached (addSurfaceLayerPasses wm) (layerObjects (some screenJobj))

def addSurfaceChanges (screenJobj : Json) : List Call :=
  match insertInfoOf screenJobj with
  | none => []
  | some insertInfo => ((addSurfaceLayers wm screenJobj).filter keep).flatMap
      (addSurfaceLayerChanges wm insertInfo)

/-- `parse_add_surface_command` goes on to the next screen object. -/
def addSurfacePasses (screenJobj : Json) : Bool :=
  (insertInfoOf screenJobj).isSome &&
    (parseLayers (some screenJobj)).any (·.all (addSurfaceLayerPasses wm))

def removeSurfaceChanges (layerJobj : Json) : List Call :=
  if hasId layerJobj && wm.layerIds.contains (idOf layerJobj) then
    (leading (surfaceObjects (some layerJobj))).map fun surfaceJobj =>
      .removeSurface (idOf layerJobj) (idOf surfaceJobj)
  else []

/-- `parse_remove_surface_command` goes on to the next layer object. -/
def removeSurfacePasses (layerJobj : Json) : Bool :=
  hasId layerJobj &&
    (!wm.layerIds.contains (idOf layerJobj) || complete (parseSurfaces (some layerJobj)))

def layerChanges (screenJobj layerJobj : Json) : List Call :=
  .putLayer (idOf screenJobj) layerJobj (idOf layerJobj) insertInfoDefault ::
    ((surfaceObjects (some layerJobj)).filter keep).map fun surfaceJobj =>
      .putSurface (idOf layerJobj) surfaceJobj (idOf surfaceJobj) insertInfoDefault

def screenChanges (screenJobj : Json) : List Call :=
  .openScreen (idOf screenJobj) ::
    ((layerObjects (some screenJobj)).filter keep).flatMap (layerChanges keep screenJobj)

/-- What the screen objects of a layout document change. -/
def documentChanges (screenAry : List Json) : List Call :=
  (screenAry.filter keep).flatMap (screenChanges keep)

variable (known : Id → Bool)

/-- What a message changes, `known` being the screens ilm knows. -/
def Command.changes (body : Option Json) : Command → List Call
  | .addLayer => ((reached (addLayerPasses wm) (screenObjects body)).filter keep).flatMap
      (addLayerChanges wm)
  | .addSurface => ((reached (addSurfacePasses wm) (screenObjects body)).filter keep).flatMap
      (addSurfaceChanges keep wm)
  | .removeLayer => ((leading (layerObjects body)).filter keep).map fun layerJobj =>
      .removeLayer (idOf layerJobj)
  | .modifyLayer => ((leading (layerObjects body)).filter keep).map fun layerJobj =>
      .modifyLayer (idOf layerJobj) layerJobj
  | .removeSurface => ((reached (removeSurfacePasses wm) (layerObjects body)).filter keep).flatMap
      (removeSurfaceChanges wm)
  | .modifySurface => (((surfaceObjects body).takeWhile fun surfaceJobj =>
      hasId surfaceJobj && wm.recordIds.contains (idOf surfaceJobj)).filter keep).map
        fun surfaceJobj => .modifySurface (idOf surfaceJobj) surfaceJobj
  | .initialScreen => documentChanges keep (processed known body)

/-- The object has an id, and the surface it names has a record. -/
def recorded (surfaceJobj : Json) : Bool :=
  hasId surfaceJobj && wm.recordIds.contains (idOf surfaceJobj)

/-- The handler of the command goes through its whole message. -/
def Command.passes (body : Option Json) : Command → Bool
  | .addLayer => (parseScreens body).any (·.all (addLayerPasses wm))
  | .addSurface => (parseScreens body).any (·.all (addSurfacePasses wm))
  | .removeLayer | .modifyLayer => complete (parseLayers body)
  | .removeSurface => (parseLayers body).any (·.all (removeSurfacePasses wm))
  | .modifySurface => (parseSurfaces body).any (·.all (recorded wm))
  | .initialScreen => (screenObjects body).all fun screenJobj => known (idOf screenJobj)

end Changes

/-! ## What the plans change -/

/-- A round of a loop changes this much, and the loop goes on after it or not. -/
structure Round (p : Plan Call Abort Int) (changes : List Call) (pass : Bool) : Prop where
  changes : p.calls.filter Call.touches = changes
  passes : pass = true → ∃ r, p.out = .ok r ∧ 0 ≤ r
  fails : pass = false → ∀ r, p.out = .ok r → r < 0

namespace Round

theorem done : Round (pure 0) [] true := ⟨rfl, fun _ => ⟨0, rfl, Int.le_refl 0⟩, nofun⟩

theorem failed : Round (pure (-1)) [] false := by
  refine ⟨rfl, nofun, fun _ r h => ?_⟩
  cases h
  omega

theorem loop {p : Json → Plan Call Abort Int} {changes : Json → List Call} {pass : Json → Bool}
    (h : ∀ x, Round (p x) (changes x) (pass x)) (xs : List Json) :
    Round (forEach xs p) ((reached pass xs).flatMap changes) (xs.all pass) := by
  obtain ⟨hpasses, hfails⟩ := Plan.forEach_out_nonneg (fun x => (h x).passes)
    (fun x => (h x).fails) xs
  refine ⟨?_, hpasses, hfails⟩
  rw [Plan.forEach_calls_reached (fun x => (h x).passes) (fun x => (h x).fails),
    List.filter_flatMap]
  exact congrArg (List.flatMap · _) (funext fun x => (h x).changes)

/-- A round that depends on an array being there. -/
theorem array {array : Option (List Json)} {p : Plan Call Abort Int}
    {q : List Json → Plan Call Abort Int} (changes : List Json → List Call)
    (pass : List Json → Bool) (hp : p = match array with
      | none => pure (-1)
      | some objs => q objs) (hnil : changes [] = [])
    (h : ∀ objs, Round (q objs) (changes objs) (pass objs)) :
    Round p (changes (array.getD [])) (array.any pass) := by
  subst hp
  cases array with
  | none =>
    rw [Option.getD_none, hnil]
    exact failed
  | some objs => exact h objs

/-- A batch of objects each of which makes one change, up to the first that is not good. -/
theorem batch {p : Plan Call Abort Int} {objs : List Json} {good : Json → Bool} {op : Json → Call}
    (hp : p = ⟨(objs.takeWhile good).map op, .ok (if objs.all good then 0 else -1)⟩)
    (hop : ∀ obj, (op obj).touches = true) :
    Round p ((objs.takeWhile good).map op) (objs.all good) := by
  subst hp
  refine ⟨List.filter_eq_self.mpr fun call hcall => ?_, fun hall => ?_, fun hall r h => ?_⟩
  · obtain ⟨obj, -, rfl⟩ := List.mem_map.mp hcall
    exact hop obj
  · exact ⟨0, by rw [hall]; rfl, Int.le_refl 0⟩
  · dsimp only at h
    rw [hall, if_neg Bool.false_ne_true] at h
    cases h
    omega

/-- A batch of objects with ids, each of which makes one change. -/
theorem guarded (op : Id → Json → Call) (hop : ∀ id obj, (op id obj).touches = true)
    (objs : List Json) :
    Round (forEach objs fun obj =>
      match parseId (some obj) with
      | none => pure (-1)
      | some id => do
        Plan.call (op id obj)
        pure 0) ((leading objs).map fun obj => op (idOf obj) obj) (objs.all hasId) :=
  .batch (forEach_parseId objs op) fun obj => hop (idOf obj) obj

/-- A round of changes, and a call that changes nothing, made if it passes. -/
theorem andPush {p : Plan Call Abort Int} {changes : List Call} {pass : Bool}
    (h : Round p changes pass) {push : Call} (hpush : push.touches = false) :
    Round (p >>= fun ret => if ret < 0 then pure ret else do
      Plan.call push
      pure 0) changes pass := by
  cases ho : p.out with
  | error e =>
    rw [Plan.bind_of_error ho]
    refine ⟨h.changes, fun hpass => ?_, nofun⟩
    obtain ⟨r, hr, -⟩ := h.passes hpass
    cases hr.symm.trans ho
  | ok r =>
    rw [Plan.bind_of_ok ho]
    by_cases hr : r < 0
    · rw [if_pos hr]
      refine ⟨?_, fun hpass => ?_, fun _ r' hr' => ?_⟩
      · rw [← h.changes]
        exact congrArg (List.filter Call.touches) (List.append_nil _)
      · obtain ⟨r', hr', hnonneg⟩ := h.passes hpass
        cases hr'.symm.trans ho
        exact absurd hr (Int.not_lt.mpr hnonneg)
      · cases hr'
        exact hr
    · rw [if_neg hr]
      refine ⟨?_, fun _ => ⟨0, rfl, Int.le_refl 0⟩, fun hfail => absurd (h.fails hfail r ho) hr⟩
      have hend : [push].filter Call.touches = [] := by
        rw [List.filter_cons_of_neg (by rw [hpush]; exact Bool.false_ne_true), List.filter_nil]
      refine (List.filter_append _ [push]).trans ?_
      rw [h.changes, hend, List.append_nil]

end Round

section Plans

variable {wm : Wm}

theorem isSome_screen (screenId : Id) :
    (getListElement wm.screenHead screenId).isSome = wm.screenIds.contains screenId := by
  rw [Bool.eq_iff_iff, getListElement_isSome, List.contains_iff_mem]
  rfl

theorem isSome_layer (layerId : Id) :
    (getLayer wm.screenHead layerId).isSome = wm.layerIds.contains layerId := by
  rw [Bool.eq_iff_iff, getLayer_isSome, List.contains_iff_mem]
  rfl

theorem isSome_record (surfaceId : Id) :
    (getListElement wm.surfacePropertiesHead surfaceId).isSome =
      wm.recordIds.contains surfaceId := by
  rw [Bool.eq_iff_iff, getListElement_isSome, List.contains_iff_mem]
  rfl

theorem round_addLayerScreen (screenJobj : Json) :
    Round (planAddLayerScreen wm screenJobj) (addLayerChanges wm screenJobj)
      (addLayerPasses wm screenJobj) := by
  unfold planAddLayerScreen addLayerChanges addLayerPasses insertInfoOf
  cases parseInsertInfo (some screenJobj) insertInfoDefault with
  | error e => exact ⟨rfl, nofun, nofun⟩
  | ok r =>
    rw [Plan.bind_of_ok rfl, ← isSome_screen]
    unfold idOf
    cases (getListElement wm.screenHead ((parseId (some screenJobj)).getD 0)).isSome with
    | false => exact .done
    | true =>
      let op (id : Id) (obj : Json) : Call := .putLayer (idOf screenJobj) obj id r.2
      exact .array (fun objs => (leading objs).map fun obj => op (idOf obj) obj) (·.all hasId)
        rfl rfl fun objs => .andPush (.guarded op (fun _ _ => rfl) objs) rfl

theorem round_addSurfaceLayer (insertInfo : InsertInfo) (layerJobj : Json) :
    Round (planAddSurfaceLayer wm insertInfo layerJobj)
      (addSurfaceLayerChanges wm insertInfo layerJobj) (addSurfaceLayerPasses wm layerJobj) := by
  unfold planAddSurfaceLayer addSurfaceLayerChanges addSurfaceLayerPasses
  rw [← isSome_layer]
  unfold idOf
  dsimp only
  cases (getLayer wm.screenHead ((parseId (some layerJobj)).getD 0)).isSome with
  | false => exact .done
  | true =>
    let op (id : Id) (obj : Json) : Call := .putSurface (idOf layerJobj) obj id insertInfo
    exact .array (fun objs => (leading objs).map fun obj => op (idOf obj) obj) (·.all hasId)
      rfl rfl fun objs => .andPush (.guarded op (fun _ _ => rfl) objs) rfl

theorem round_addSurfaceScreen (screenJobj : Json) :
    Round (planAddSurfaceScreen wm screenJobj) (addSurfaceChanges (fun _ => true) wm screenJobj)
      (addSurfacePasses wm screenJobj) := by
  unfold planAddSurfaceScreen addSurfaceChanges addSurfacePasses insertInfoOf addSurfaceLayers
  rw [List.filter_true]
  cases parseInsertInfo (some screenJobj) insertInfoDefault with
  | error e => exact ⟨rfl, nofun, nofun⟩
  | ok r =>
    rw [Plan.bind_of_ok rfl]
    exact .array (fun objs => (reached (addSurfaceLayerPasses wm) objs).flatMap
      (addSurfaceLayerChanges wm r.2)) (·.all (addSurfaceLayerPasses wm)) rfl rfl
        fun objs => .loop (round_addSurfaceLayer r.2) objs

theorem round_removeSurfaceLayer (layerJobj : Json) :
    Round (planRemoveSurfaceLayer wm layerJobj) (removeSurfaceChanges wm layerJobj)
      (removeSurfacePasses wm layerJobj) := by
  unfold planRemoveSurfaceLayer removeSurfaceChanges removeSurfacePasses
  cases hid : parseId (some layerJobj) with
  | none =>
    have hnot : hasId layerJobj = false := by rw [hasId, hid]; rfl
    rw [hnot]
    exact .failed
  | some layerId =>
    have hhas : hasId layerJobj = true := by rw [hasId, hid]; rfl
    have hidOf : idOf layerJobj = layerId := by rw [idOf, hid]; rfl
    rw [hhas, hidOf, ← isSome_layer]
    dsimp only
    cases (getLayer wm.screenHead layerId).isSome with
    | false => exact .done
    | true =>
      let op (id : Id) (_ : Json) : Call := .removeSurface layerId id
      exact .array (fun objs => (leading objs).map fun obj => op (idOf obj) obj) (·.all hasId)
        rfl rfl fun objs => .guarded op (fun _ _ => rfl) objs

theorem hasRecord_eq_recorded : hasRecord wm = recorded wm := by
  funext obj
  rw [hasRecord, recorded, ← isSome_record, hasId, idOf]
  cases parseId (some obj) with
  | none => rfl
  | some id => rfl

theorem round_modifySurface (objs : List Json) :
    Round (forEach objs fun surfaceJobj =>
      match parseId (some surfaceJobj) with
      | none => pure (-1)
      | some surfaceId =>
        match (getListElement wm.surfacePropertiesHead surfaceId).isSome with
        | false => pure (-1)
        | true => do
          Plan.call (.modifySurface surfaceId surfaceJobj)
          pure 0)
      ((objs.takeWhile (recorded wm)).map fun obj => .modifySurface (idOf obj) obj)
      (objs.all (recorded wm)) := by
  rw [← hasRecord_eq_recorded]
  exact .batch (forEach_hasRecord wm objs) fun _ => rfl

/-- What an incremental command changes, and whether it goes through its whole message. -/
theorem round_of_plan {ilm : Ilm σ} (known : Id → Bool) (body : Option Json) {command : Command}
    (hcommand : command ≠ .initialScreen) (w : World σ) :
    Round ((command.plan ilm body).plan w) (command.changes (fun _ => true) w.wm known body)
      (command.passes w.wm known body) := by
  cases command with
  | addLayer =>
    rw [Command.changes, List.filter_true]
    exact .array (fun objs => (reached (addLayerPasses w.wm) objs).flatMap (addLayerChanges w.wm))
      (·.all (addLayerPasses w.wm)) rfl rfl fun objs => .loop round_addLayerScreen objs
  | addSurface =>
    rw [Command.changes, List.filter_true]
    exact .array (fun objs => (reached (addSurfacePasses w.wm) objs).flatMap
      (addSurfaceChanges (fun _ => true) w.wm)) (·.all (addSurfacePasses w.wm)) rfl rfl
        fun objs => .loop round_addSurfaceScreen objs
  | removeLayer =>
    rw [Command.changes, List.filter_true]
    exact .array (fun objs => (leading objs).map fun obj => .removeLayer (idOf obj))
      (·.all hasId) rfl rfl
        fun objs => .guarded (fun id _ => .removeLayer id) (fun _ _ => rfl) objs
  | modifyLayer =>
    rw [Command.changes, List.filter_true]
    exact .array (fun objs => (leading objs).map fun obj => .modifyLayer (idOf obj) obj)
      (·.all hasId) rfl rfl fun objs => .guarded .modifyLayer (fun _ _ => rfl) objs
  | removeSurface =>
    rw [Command.changes, List.filter_true]
    exact .array (fun objs => (reached (removeSurfacePasses w.wm) objs).flatMap
      (removeSurfaceChanges w.wm)) (·.all (removeSurfacePasses w.wm)) rfl rfl
        fun objs => .loop round_removeSurfaceLayer objs
  | modifySurface =>
    rw [Command.changes, List.filter_true]
    exact .array (fun objs => (objs.takeWhile (recorded w.wm)).map fun obj =>
      .modifySurface (idOf obj) obj) (·.all (recorded w.wm)) rfl rfl round_modifySurface
  | initialScreen => exact absurd rfl hcommand

/-- What an incremental command changes. -/
theorem changes_of_plan {ilm : Ilm σ} (known : Id → Bool) (body : Option Json) {command : Command}
    (hcommand : command ≠ .initialScreen) (w : World σ) :
    ((command.plan ilm body).plan w).calls.filter Call.touches =
      command.changes (fun _ => true) w.wm known body :=
  (round_of_plan known body hcommand w).changes

end Plans

/-! ## Documents -/

section Documents

theorem takeWhile_append_of_not_all {α : Type} {p : α → Bool} {xs ys : List α}
    (h : xs.all p = false) : (xs ++ ys).takeWhile p = xs.takeWhile p := by
  induction xs with
  | nil => cases h
  | cons x xs ih =>
    rw [List.all_cons] at h
    rw [List.cons_append, List.takeWhile_cons, List.takeWhile_cons]
    cases hx : p x with
    | false => rfl
    | true =>
      rw [hx, Bool.true_and] at h
      rw [if_pos rfl, if_pos rfl, ih h]

theorem documentChanges_append (keep : Json → Bool) (screenAry rest : List Json) :
    documentChanges keep (screenAry ++ rest) =
      documentChanges keep screenAry ++ documentChanges keep rest := by
  rw [documentChanges, List.filter_append, List.flatMap_append]
  rfl

theorem filter_screenCalls (screenJobj : Json) :
    (screenCalls screenJobj).filter Call.touches = screenChanges (fun _ => true) screenJobj := by
  have hlayer : ∀ layerJobj : Json,
      (layerCalls (idOf screenJobj) layerJobj).filter Call.touches =
        layerChanges (fun _ => true) screenJobj layerJobj := by
    intro layerJobj
    rw [layerChanges, List.filter_true]
    refine List.filter_eq_self.mpr fun call hcall => ?_
    rcases List.mem_cons.mp hcall with rfl | hcall
    · rfl
    · obtain ⟨surfaceJobj, -, rfl⟩ := List.mem_map.mp hcall
      rfl
  rw [screenChanges, List.filter_true]
  refine congrArg (Call.openScreen (idOf screenJobj) :: ·) ((List.filter_append _ _).trans ?_)
  rw [List.filter_flatMap]
  refine (List.append_nil _).trans ?_
  exact congrArg (List.flatMap · _) (funext hlayer)

variable {ilm : Ilm σ} {known : Id → Bool}

/-- Where the plan runs to its end, it changes what the screen objects ask for up to the first
whose screen is not known, and reports whether there is such a one. -/
def Processes (known : Id → Bool) (p : StatePlan (Call.sem ilm) Int) (screenAry : List Json) :
    Prop :=
  ∀ w w' ret, ilm.Knows known w.ilm → (p.plan w).run (Call.sem ilm) w = .ok (ret, w') →
    (p.plan w).calls.filter Call.touches = documentChanges (fun _ => true)
        (screenAry.takeWhile fun screenJobj => known (idOf screenJobj)) ∧
      (ret < 0 ↔ screenAry.all (fun screenJobj => known (idOf screenJobj)) = false)

namespace Processes

theorem nothing : Processes known (pure 0 : StatePlan (Call.sem ilm) Int) [] := by
  intro w w' ret _ h
  cases h
  exact ⟨rfl, by simp⟩

theorem loop {α : Type} (hkeep : ilm.Keeps (ilm.Knows known))
    {p : α → StatePlan (Call.sem ilm) Int} {f : α → List Json}
    (h : ∀ x, Processes known (p x) (f x)) (xs : List α) :
    Processes known (forEach xs p) (xs.flatMap f) := by
  induction xs with
  | nil => exact nothing
  | cons x xs ih =>
    intro w w' ret hk hrun
    obtain ⟨r, t, hfirst, hrest⟩ := StatePlan.run_bind_eq_ok.mp hrun
    obtain ⟨hcalls, hneg⟩ := h x w t r hk hfirst
    have hk' : ilm.Knows known t.ilm := runCalls_keeps_ilm hkeep hk (Plan.run_eq_ok.mp hfirst).2
    rw [forEach, StatePlan.calls_bind hfirst, List.filter_append, hcalls, List.flatMap_cons,
      List.all_append]
    by_cases hr : r < 0
    · rw [if_pos hr] at hrest ⊢
      cases hrest
      have hnot := hneg.mp hr
      rw [takeWhile_append_of_not_all hnot, hnot, Bool.false_and]
      exact ⟨List.append_nil _, iff_of_true hr rfl⟩
    · rw [if_neg hr] at hrest ⊢
      obtain ⟨hcalls', hneg'⟩ := ih t w' ret hk' hrest
      have hall : (f x).all (fun screenJobj => known (idOf screenJobj)) = true :=
        Bool.not_eq_false _ ▸ fun hnot => hr (hneg.mpr hnot)
      rw [hcalls', hneg', hall, Bool.true_and,
        List.takeWhile_append_of_pos (List.all_eq_true.mp hall),
        List.takeWhile_eq_self_iff.mpr (List.all_eq_true.mp hall), documentChanges_append]
      exact ⟨rfl, Iff.rfl⟩

/-- A screen object of a document. -/
theorem screen (screenJobj : Json) :
    Processes known (do
      let screenId := (parseId (some screenJobj)).getD 0
      let found ← StatePlan.looks fun w => (ilm.getPropertiesOfScreen screenId w.ilm).1
      StatePlan.call (.findScreen screenId)
      if found = false then pure (-1) else
        StatePlan.fixed ⟨screenCalls screenJobj, .ok 0⟩ : StatePlan (Call.sem ilm) Int)
      [screenJobj] := by
  intro w w' ret hk hrun
  obtain ⟨found, t, hlook, hrun⟩ := StatePlan.run_bind_eq_ok.mp hrun
  cases hlook
  obtain ⟨u, t, hfind, hrest⟩ := StatePlan.run_bind_eq_ok.mp hrun
  have hknown : (ilm.getPropertiesOfScreen ((parseId (some screenJobj)).getD 0) w.ilm).1 =
      known (idOf screenJobj) := hk _
  rw [StatePlan.calls_bind rfl, StatePlan.calls_bind hfind]
  dsimp only at hrest ⊢
  by_cases hfound : (ilm.getPropertiesOfScreen ((parseId (some screenJobj)).getD 0) w.ilm).1 = false
  · have hscreen : known (idOf screenJobj) = false := hknown.symm.trans hfound
    rw [if_pos hfound] at hrest ⊢
    cases hrest
    rw [List.takeWhile_cons_of_neg (by rw [hscreen]; exact nofun), List.all_cons, hscreen]
    exact ⟨rfl, iff_of_true (by omega) rfl⟩
  · have hscreen : known (idOf screenJobj) = true := by
      rw [← hknown]
      exact eq_true_of_ne_false hfound
    rw [if_neg hfound] at hrest ⊢
    cases (Plan.run_eq_ok.mp hrest).1
    have htake : [screenJobj].takeWhile (fun screenJobj => known (idOf screenJobj)) =
        [screenJobj] := List.takeWhile_cons_of_pos hscreen
    have hchanges : documentChanges (fun _ => true) [screenJobj] =
        screenChanges (fun _ => true) screenJobj := List.append_nil _
    rw [htake, hchanges, List.all_cons, hscreen]
    exact ⟨filter_screenCalls screenJobj, iff_of_false (Int.lt_irrefl 0) nofun⟩

theorem document (hkeep : ilm.Keeps (ilm.Knows known)) (screenAry : List Json) :
    Processes known (documentPlan ilm screenAry) screenAry := by
  have hloop := loop hkeep screen screenAry
  rwa [List.flatMap_singleton'] at hloop

theorem afterRead {α : Type} {r : Except Abort α} {p : α → StatePlan (Call.sem ilm) Int}
    {screenAry : List Json} (h : ∀ a, r = .ok a → Processes known (p a) screenAry) :
    Processes known (StatePlan.fixed (Plan.ofExcept r) >>= p) screenAry := by
  intro w w' ret hk hrun
  obtain ⟨a, t, hread, hrest⟩ := StatePlan.run_bind_eq_ok.mp hrun
  obtain ⟨hr, hcalls⟩ := Plan.run_eq_ok.mp hread
  cases hcalls
  rw [StatePlan.calls_bind hread]
  exact h a hr w w' ret hk hrest

/-- A target of the configuration. -/
theorem target (hkeep : ilm.Keeps (ilm.Knows known)) (localHostname : String) (targetJobj : Json) :
    Processes known (do
      let ret ← StatePlan.fixed (Plan.ofExcept (parseHostname localHostname (some targetJobj)))
      if ret < 0 then pure 0 else do
        let ret ← documentPlan ilm ((parseScreens (some targetJobj)).getD [])
        if ret < 0 then pure (-1) else pure 0 : StatePlan (Call.sem ilm) Int)
      (targetScreens localHostname targetJobj) := by
  refine afterRead fun host hhost => ?_
  rw [parseHostname_ok hhost]
  by_cases hneg : host < 0
  · rw [if_pos hneg, if_pos hneg]
    exact nothing
  · rw [if_neg hneg, if_neg hneg]
    intro w w' ret hk hrun
    obtain ⟨r, t, hdocument, hend⟩ := StatePlan.run_bind_eq_ok.mp hrun
    obtain ⟨hchanges, hr⟩ := document hkeep _ w t r hk hdocument
    rw [StatePlan.calls_bind hdocument, ← hr, ← hchanges]
    by_cases hret : r < 0
    · rw [if_pos hret] at hend ⊢
      cases hend
      exact ⟨congrArg _ (List.append_nil _), iff_of_true (by omega) hret⟩
    · rw [if_neg hret] at hend ⊢
      cases hend
      exact ⟨congrArg _ (List.append_nil _), iff_of_false (Int.lt_irrefl 0) hret⟩

theorem config (hkeep : ilm.Keeps (ilm.Knows known)) (localHostname : String) (rootJobj : Json) :
    Processes known (configPlan ilm localHostname (some rootJobj))
      (configScreens localHostname rootJobj) :=
  afterRead fun _ _ => loop hkeep (target hkeep localHostname) _

end Processes

end Documents

/-! ## Objects without an id that get through -/

/-- The screen objects have ids, and so has all that is nested in them. -/
def AllHaveIds (screenAry : List Json) : Prop :=
  ∀ screenJobj ∈ screenAry, hasId screenJobj = true ∧
    ∀ layerJobj ∈ layerObjects (some screenJobj), hasId layerJobj = true ∧
      ∀ surfaceJobj ∈ surfaceObjects (some layerJobj), hasId surfaceJobj = true

/-- No object without an id is taken for element 0. -/
def Command.NoStray (known : Id → Bool) (wm : Wm) (body : Option Json) : Command → Prop
  | .addLayer => ∀ screenJobj ∈ reached (addLayerPasses wm) (screenObjects body),
      (insertInfoOf screenJobj).isSome = true → idOf screenJobj ∈ wm.screenIds →
        leading (layerObjects (some screenJobj)) ≠ [] → hasId screenJobj = true
  | .addSurface => ∀ screenJobj ∈ reached (addSurfacePasses wm) (screenObjects body),
      (insertInfoOf screenJobj).isSome = true → ∀ layerJobj ∈ addSurfaceLayers wm screenJobj,
        idOf layerJobj ∈ wm.layerIds → leading (surfaceObjects (some layerJobj)) ≠ [] →
          hasId screenJobj = true ∧ hasId layerJobj = true
  | .initialScreen => AllHaveIds (processed known body)
  | _ => True

section Stray

variable {wm : Wm}

theorem map_filter_eq_iff {α β : Type} {keep : α → Bool} {f : α → β} {xs : List α} :
    (xs.filter keep).map f = xs.map f ↔ ∀ x ∈ xs, keep x = true := by
  constructor
  · intro h
    have hlength := congrArg List.length h
    rw [List.length_map, List.length_map] at hlength
    exact List.length_filter_eq_length_iff.mp hlength
  · intro h
    rw [List.filter_eq_self.mpr h]

theorem filter_leading (objs : List Json) : (leading objs).filter hasId = leading objs :=
  List.filter_eq_self.mpr fun _ hobj => List.mem_takeWhile_imp hobj

theorem addLayerChanges_eq_nil {screenJobj : Json} :
    addLayerChanges wm screenJobj = [] ↔ ¬ ((insertInfoOf screenJobj).isSome = true ∧
      idOf screenJobj ∈ wm.screenIds ∧ leading (layerObjects (some screenJobj)) ≠ []) := by
  unfold addLayerChanges
  cases insertInfoOf screenJobj with
  | none => simp
  | some insertInfo =>
    by_cases hscreen : idOf screenJobj ∈ wm.screenIds
    · simp [hscreen]
    · simp [hscreen]

theorem addSurfaceLayerChanges_eq_nil {insertInfo : InsertInfo} {layerJobj : Json} :
    addSurfaceLayerChanges wm insertInfo layerJobj = [] ↔
      ¬ (idOf layerJobj ∈ wm.layerIds ∧ leading (surfaceObjects (some layerJobj)) ≠ []) := by
  unfold addSurfaceLayerChanges
  by_cases hlayer : idOf layerJobj ∈ wm.layerIds
  · simp [hlayer]
  · simp [hlayer]

theorem addSurfaceChanges_sublist (screenJobj : Json) :
    (addSurfaceChanges hasId wm screenJobj).Sublist
      (addSurfaceChanges (fun _ => true) wm screenJobj) := by
  unfold addSurfaceChanges
  cases insertInfoOf screenJobj with
  | none => exact List.Sublist.refl _
  | some insertInfo =>
    dsimp only
    rw [List.filter_true]
    exact (List.filter_sublist).flatMap _

theorem layerChanges_sublist (screenJobj layerJobj : Json) :
    (layerChanges hasId screenJobj layerJobj).Sublist
      (layerChanges (fun _ => true) screenJobj layerJobj) := by
  unfold layerChanges
  rw [List.filter_true]
  exact (List.filter_sublist.map _).cons_cons _

theorem screenChanges_sublist (screenJobj : Json) :
    (screenChanges hasId screenJobj).Sublist (screenChanges (fun _ => true) screenJobj) := by
  unfold screenChanges
  rw [List.filter_true]
  refine List.Sublist.cons_cons _ ((List.filter_sublist.flatMap _).trans ?_)
  exact List.Sublist.flatMap_right _ fun layerJobj _ => layerChanges_sublist screenJobj layerJobj

theorem layerChanges_eq_iff (screenJobj layerJobj : Json) :
    layerChanges hasId screenJobj layerJobj = layerChanges (fun _ => true) screenJobj layerJobj ↔
      ∀ surfaceJobj ∈ surfaceObjects (some layerJobj), hasId surfaceJobj = true := by
  rw [layerChanges, layerChanges, List.filter_true, List.cons_eq_cons, map_filter_eq_iff]
  simp only [true_and]

theorem screenChanges_eq_iff (screenJobj : Json) :
    screenChanges hasId screenJobj = screenChanges (fun _ => true) screenJobj ↔
      ∀ layerJobj ∈ layerObjects (some screenJobj), hasId layerJobj = true ∧
        ∀ surfaceJobj ∈ surfaceObjects (some layerJobj), hasId surfaceJobj = true := by
  rw [screenChanges, screenChanges, List.filter_true, List.cons_eq_cons,
    filter_flatMap_eq_iff fun layerJobj _ => layerChanges_sublist screenJobj layerJobj]
  simp only [true_and, layerChanges_eq_iff]
  refine forall₂_congr fun layerJobj _ => ?_
  by_cases hid : hasId layerJobj = true
  · rw [if_pos hid, and_iff_right hid]
  · rw [if_neg hid]
    exact iff_of_false nofun fun h => hid h.1

theorem documentChanges_eq_iff (screenAry : List Json) :
    documentChanges hasId screenAry = documentChanges (fun _ => true) screenAry ↔
      AllHaveIds screenAry := by
  rw [documentChanges, documentChanges, List.filter_true,
    filter_flatMap_eq_iff fun screenJobj _ => screenChanges_sublist screenJobj]
  refine forall₂_congr fun screenJobj _ => ?_
  by_cases hid : hasId screenJobj = true
  · rw [if_pos hid, and_iff_right hid, screenChanges_eq_iff]
  · rw [if_neg hid]
    exact iff_of_false nofun fun h => hid h.1

theorem addSurfaceChanges_eq_iff (screenJobj : Json) :
    (if hasId screenJobj = true then
        addSurfaceChanges hasId wm screenJobj = addSurfaceChanges (fun _ => true) wm screenJobj
      else addSurfaceChanges (fun _ => true) wm screenJobj = []) ↔
      ((insertInfoOf screenJobj).isSome = true → ∀ layerJobj ∈ addSurfaceLayers wm screenJobj,
        idOf layerJobj ∈ wm.layerIds → leading (surfaceObjects (some layerJobj)) ≠ [] →
          hasId screenJobj = true ∧ hasId layerJobj = true) := by
  unfold addSurfaceChanges
  cases insertInfoOf screenJobj with
  | none => simp
  | some insertInfo =>
    simp only [List.filter_true, Option.isSome_some, forall_const]
    by_cases hid : hasId screenJobj = true
    · rw [if_pos hid, filter_flatMap_eq_iff fun _ _ => List.Sublist.refl _]
      refine forall₂_congr fun layerJobj _ => ?_
      by_cases hlayer : hasId layerJobj = true
      · simp [hid, hlayer]
      · rw [if_neg hlayer, addSurfaceLayerChanges_eq_nil]
        simp [hlayer]
    · rw [if_neg hid, List.flatMap_eq_nil_iff]
      refine forall₂_congr fun layerJobj _ => ?_
      rw [addSurfaceLayerChanges_eq_nil]
      simp [hid]

/-- What the objects with ids ask for is all that changes just where no other gets through. -/
theorem changes_eq_iff (known : Id → Bool) (body : Option Json) (command : Command) :
    command.changes (fun _ => true) wm known body = command.changes hasId wm known body ↔
      command.NoStray known wm body := by
  rw [eq_comm]
  cases command with
  | addLayer =>
    rw [Command.changes, Command.changes, List.filter_true,
      filter_flatMap_eq_iff fun _ _ => List.Sublist.refl _]
    refine forall₂_congr fun screenJobj _ => ?_
    by_cases hid : hasId screenJobj = true
    · simp [hid]
    · rw [if_neg hid, addLayerChanges_eq_nil]
      simp [hid]
  | addSurface =>
    rw [Command.changes, Command.changes, List.filter_true,
      filter_flatMap_eq_iff fun screenJobj _ => addSurfaceChanges_sublist screenJobj]
    exact forall₂_congr fun screenJobj _ => addSurfaceChanges_eq_iff screenJobj
  | removeLayer | modifyLayer =>
    rw [Command.changes, Command.changes, List.filter_true, filter_leading]
    exact iff_of_true rfl trivial
  | removeSurface =>
    rw [Command.changes, Command.changes, List.filter_true,
      filter_flatMap_eq_iff fun _ _ => List.Sublist.refl _]
    refine iff_of_true (fun layerJobj _ => ?_) trivial
    unfold removeSurfaceChanges
    by_cases hid : hasId layerJobj = true
    · rw [if_pos hid]
    · rw [if_neg hid, eq_false_of_ne_true hid]
      rfl
  | modifySurface =>
    rw [Command.changes, Command.changes, List.filter_true, map_filter_eq_iff]
    refine iff_of_true (fun surfaceJobj hobj => ?_) trivial
    have hgood : (hasId surfaceJobj && wm.recordIds.contains (idOf surfaceJobj)) = true :=
      List.mem_takeWhile_imp
        (p := fun surfaceJobj => hasId surfaceJobj && wm.recordIds.contains (idOf surfaceJobj)) hobj
    exact (Bool.and_eq_true_iff.mp hgood).1
  | initialScreen => exact documentChanges_eq_iff _

end Stray

/-! ## The outcome -/

section Outcome

variable {ilm : Ilm σ} {known : Id → Bool}

/-- The layout a message starts to change. -/
def Command.base (wm : Wm) : Command → Wm
  | .initialScreen => removeAll wm
  | _ => wm

/-- A call that does not touch the layout can be left out. -/
theorem foldl_filter_touches {calls : List Call}
    (h : ∀ call ∈ calls, call.touches = false → ∀ wm, call.layout wm = wm) (wm : Wm) :
    calls.foldl (fun wm call => call.layout wm) wm =
      (calls.filter Call.touches).foldl (fun wm call => call.layout wm) wm := by
  induction calls generalizing wm with
  | nil => rfl
  | cons call calls ih =>
    obtain ⟨hcall, hrest⟩ := List.forall_mem_cons.mp h
    rw [List.foldl_cons, List.filter_cons]
    cases ht : call.touches with
    | true =>
      rw [if_pos rfl, List.foldl_cons]
      exact ih hrest _
    | false =>
      rw [if_neg Bool.false_ne_true, hcall ht]
      exact ih hrest _

theorem layout_of_document {call : Call} (hdoc : call.ofDocument) (ht : call.touches = false)
    (wm : Wm) : call.layout wm = wm := by
  cases call <;> first | rfl | exact hdoc.elim | cases ht

theorem layout_of_command {wm : Wm} {command : Command} (hcommand : command ≠ .initialScreen)
    {call : Call} (h : Call.Of wm command call) (ht : call.touches = false) (wm' : Wm) :
    call.layout wm' = wm' := by
  cases call with
  | removeAll | addScreen => cases command <;> first | exact h.elim | exact absurd rfl hcommand
  | _ => first | rfl | cases ht

/-- The calls of an `initial_screen` that is handled. -/
theorem calls_of_initScreen (hkeep : ilm.Keeps (ilm.Knows known)) {body : Option Json}
    {w w' : World σ} {ret : Int} (hk : ilm.Knows known w.ilm)
    (h : ((initScreenPlan ilm body).plan w).run (Call.sem ilm) w = .ok (ret, w')) :
    ∃ rest, ((initScreenPlan ilm body).plan w).calls = .removeAll :: rest ∧
      rest.filter Call.touches = documentChanges (fun _ => true) (processed known body) ∧
      ∀ call ∈ rest, call.touches = false → ∀ wm, call.layout wm = wm := by
  obtain ⟨version, t, hread, hrest⟩ := StatePlan.run_bind_eq_ok.mp h
  cases (Plan.run_eq_ok.mp hread).2
  obtain ⟨u, t, hremove, hrest⟩ := StatePlan.run_bind_eq_ok.mp hrest
  obtain ⟨r, v, hdocument, hend⟩ := StatePlan.run_bind_eq_ok.mp hrest
  have hkt : ilm.Knows known t.ilm := runCalls_keeps_ilm hkeep hk (Plan.run_eq_ok.mp hremove).2
  obtain ⟨hchanges, -⟩ := Processes.document hkeep _ t v r hkt hdocument
  have hdoc : ∀ call ∈ ((documentPlan ilm ((parseScreens body).getD [])).plan t).calls,
      call.touches = false → ∀ wm, call.layout wm = wm :=
    fun call hcall => layout_of_document ((documentPlan_within _ fun _ => True).calls t call hcall)
  rw [initScreenPlan, StatePlan.calls_bind hread, StatePlan.calls_bind hremove,
    StatePlan.calls_bind hdocument]
  refine ⟨((documentPlan ilm ((parseScreens body).getD [])).plan t).calls ++ _, rfl, ?_, ?_⟩
  · rw [List.filter_append, hchanges]
    split <;> exact List.append_nil _
  · intro call hcall ht
    rcases List.mem_append.mp hcall with hcall | hcall
    · exact hdoc call hcall ht
    · split at hcall
      · exact nomatch hcall
      · obtain rfl : call = .setCallback := List.mem_singleton.mp hcall
        exact fun _ => rfl

/-- What a handled message changes, and what it leaves. -/
theorem changes_of_message (hkeep : ilm.Keeps (ilm.Knows known)) {body : Option Json}
    {command : Command} (hcommand : commandOf body = some command) {w w' : World σ}
    (hk : ilm.Knows known w.ilm) (h : (Event.message body).handle ilm w = .ok ((), w')) :
    ((Event.message body).calls ilm w).filter Call.touches =
        command.changes (fun _ => true) w.wm known body ∧
      w'.wm = (((Event.message body).calls ilm w).filter Call.touches).foldl
        (fun wm call => call.layout wm) (command.base w.wm) := by
  rw [calls_of_message hcommand h, wm_of_message hcommand h]
  by_cases hscreen : command = .initialScreen
  · subst hscreen
    obtain ⟨ret, hrun⟩ := handler_of_message hcommand h
    rw [Command.handler_follows] at hrun
    obtain ⟨rest, hplan, hchanges, hstill⟩ := calls_of_initScreen hkeep hk hrun
    have hplan : ((Command.initialScreen.plan ilm body).plan w).calls = .removeAll :: rest := hplan
    rw [hplan]
    exact ⟨hchanges, foldl_filter_touches hstill _⟩
  · refine ⟨changes_of_plan known body hscreen w, ?_⟩
    have hbase : command.base w.wm = w.wm := by
      cases command <;> first | rfl | exact absurd rfl hscreen
    rw [hbase]
    exact foldl_filter_touches
      (fun call hcall => layout_of_command hscreen (Command.plan_calls command w call hcall)) _

/-- The screen objects of the configuration that are processed. -/
def Boot.processed (boot : Boot) (known : Id → Bool) : List Json :=
  match boot.config with
  | some (some rootJobj) => (configScreens boot.localHostname rootJobj).takeWhile fun screenJobj =>
      known (idOf screenJobj)
  | _ => []

/-- The calls at the end of `parser_init`. -/
def Call.ofDefault : Call → Prop
  | .addScreen _ | .askScreenIds | .setCallback => True
  | _ => False

theorem finishPlan_within : (finishPlan ilm).Within Call.ofDefault (fun _ => True) := by
  refine .seq (.looks _) fun empty => .ite ?_ (.call trivial)
  refine .seq (.looks _) fun screenArray => .seq (.call trivial) fun _ => ?_
  refine .seq (.calls_of fun call hcall => ?_) fun _ => .call trivial
  obtain ⟨screenId, -, rfl⟩ := List.mem_map.mp hcall
  trivial

/-- They add the default screens, and touch nothing else. -/
theorem calls_ofDefault {calls : List Call} (h : ∀ call ∈ calls, call.ofDefault) :
    calls.filter Call.touches = [] ∧ ∃ screenIds : List Id, ∀ wm,
      calls.foldl (fun wm call => call.layout wm) wm = screenIds.foldl addScreen wm := by
  induction calls with
  | nil => exact ⟨rfl, [], fun _ => rfl⟩
  | cons call calls ih =>
    obtain ⟨hcall, hrest⟩ := List.forall_mem_cons.mp h
    obtain ⟨hnone, screenIds, hfold⟩ := ih hrest
    cases call with
    | addScreen screenId => exact ⟨hnone, screenId :: screenIds, fun wm => hfold _⟩
    | askScreenIds | setCallback => exact ⟨hnone, screenIds, fun wm => hfold _⟩
    | _ => exact hcall.elim

/-- What `parser_init` changes, and what it leaves. -/
theorem changes_of_boot (hkeep : ilm.Keeps (ilm.Knows known)) {boot : Boot} {w w' : World σ}
    (hk : ilm.Knows known w.ilm) (h : parserInit ilm boot w = .ok ((), w')) :
    (boot.calls ilm w).filter Call.touches =
        documentChanges (fun _ => true) (boot.processed known) ∧
      ∃ screenIds : List Id, w'.wm = screenIds.foldl addScreen
        (((boot.calls ilm w).filter Call.touches).foldl (fun wm call => call.layout wm)
          w.cleared.wm) := by
  rw [parserInit_eq] at h
  -- the calls for the configuration, and those of the end
  have hsplit : ∃ config rest, boot.calls ilm w = config ++ rest ∧
      config.filter Call.touches = documentChanges (fun _ => true) (boot.processed known) ∧
      (∀ call ∈ config, call.ofDocument) ∧ ∀ call ∈ rest, call.ofDefault := by
    unfold Boot.calls Boot.processed
    unfold Boot.plan at h ⊢
    cases hconfig : boot.config with
    | none =>
      rw [hconfig] at h
      exact ⟨[], _, rfl, rfl, nofun, finishPlan_within.calls w.cleared⟩
    | some file =>
      rw [hconfig] at h
      obtain ⟨ret, t, hdocuments, hfinish⟩ := StatePlan.run_bind_eq_ok.mp h
      refine ⟨_, _, StatePlan.calls_bind hdocuments, ?_, (configPlan_within _ _).calls w.cleared,
        finishPlan_within.calls t⟩
      cases file with
      | none => rfl
      | some rootJobj => exact (Processes.config hkeep _ _ w.cleared t ret hk hdocuments).1
  obtain ⟨config, rest, hcalls, hchanges, hdoc, hdefault⟩ := hsplit
  obtain ⟨hnone, screenIds, hfold⟩ := calls_ofDefault hdefault
  have hwm : w'.wm = (boot.calls ilm w).foldl (fun wm call => call.layout wm) w.cleared.wm :=
    runCalls_wm (Plan.run_eq_ok.mp h).2
  rw [hwm, hcalls, List.filter_append, hnone, List.append_nil]
  refine ⟨hchanges, screenIds, ?_⟩
  rw [List.foldl_append, hfold,
    foldl_filter_touches fun call hcall => layout_of_document (hdoc call hcall)]

end Outcome

/-! ## Only objects with ids touch anything -/

/-- What a message asks for through its objects with ids, nested in objects with ids. -/
def asked (known : Id → Bool) (wm : Wm) (body : Option Json) (command : Command) : List Call :=
  command.changes hasId wm known body

/-- Messages and configurations that are handled to their end: the layout is what the changes
make, and the changes are those the objects with ids ask for just where no other gets through. -/
theorem ids_required {ilm : Ilm σ} {known : Id → Bool} (hkeep : ilm.Keeps (ilm.Knows known)) :
    (∀ body command w w', commandOf body = some command → ilm.Knows known w.ilm →
      (Event.message body).handle ilm w = .ok ((), w') →
      let changes := ((Event.message body).calls ilm w).filter Call.touches
      w'.wm = changes.foldl (fun wm call => call.layout wm) (command.base w.wm) ∧
        (changes = asked known w.wm body command ↔ command.NoStray known w.wm body)) ∧
    ∀ boot w w', ilm.Knows known w.ilm → parserInit ilm boot w = .ok ((), w') →
      let changes := (boot.calls ilm w).filter Call.touches
      (∃ screenIds : List Id, w'.wm = screenIds.foldl addScreen
        (changes.foldl (fun wm call => call.layout wm) w.cleared.wm)) ∧
        (changes = documentChanges hasId (boot.processed known) ↔
          AllHaveIds (boot.processed known)) := by
  refine ⟨fun body command w w' hcommand hk h => ?_, fun boot w w' hk h => ?_⟩
  · obtain ⟨hchanges, hwm⟩ := changes_of_message hkeep hcommand hk h
    refine ⟨hwm, ?_⟩
    rw [hchanges]
    exact changes_eq_iff known body command
  · obtain ⟨hchanges, hwm⟩ := changes_of_boot hkeep hk h
    refine ⟨hwm, ?_⟩
    rw [hchanges, eq_comm]
    exact documentChanges_eq_iff _

/-- A screen object with no id. -/
def strayBody : Option Json :=
  some (.object [("command", .string "add_layer"), ("screens", .array
    [.object [("insert_order", .string "append"), ("layers", .array [layerObject 3000 []])]])])

theorem ids_required_stray : ∃ w w' v : World Compositor,
    ((Event.message strayBody).handle (Compositor.ilm false) w = .ok ((), w') ∧
      (((Event.message strayBody).calls (Compositor.ilm false) w).filter Call.touches =
          asked (fun id => [0].contains id) w.wm strayBody .addLayer ↔
        Command.addLayer.NoStray (fun id => [0].contains id) w.wm strayBody)) ∧
    parserInit (Compositor.ilm false) ⟨"host", none⟩ (World.fresh [0]) = .ok ((), v) ∧
      ∃ screenIds : List Id, v.wm = screenIds.foldl addScreen
        ((((Boot.mk "host" none).calls (Compositor.ilm false) (World.fresh [0])).filter
          Call.touches).foldl (fun wm call => call.layout wm)
            (World.fresh [0] : World Compositor).cleared.wm) := by
  have hkeep := Compositor.keeps_known false [0]
  obtain ⟨w, w', -, hscreens, hw, -⟩ :=
    exists_handled [] strayBody (·.ilm.screens = [0]) (fun _ => true) (by decide +kernel)
  have hend : endsWith (fun _ => true)
      (execute (Compositor.ilm false) ⟨"host", none⟩ [] (World.fresh [0])) = true := by
    decide +kernel
  obtain ⟨v, hv, -⟩ := exists_of_endsWith hend
  have hboot : parserInit (Compositor.ilm false) ⟨"host", none⟩ (World.fresh [0]) =
      .ok ((), v) := by
    rw [execute] at hv
    revert hv
    cases parserInit (Compositor.ilm false) ⟨"host", none⟩ (World.fresh [0]) with
    | ok r =>
      intro hv
      cases hv
      rfl
    | error e =>
      intro hv
      cases hv
  refine ⟨w, w', v, ⟨hw, ?_⟩, hboot, ?_⟩
  · exact ((ids_required hkeep).1 strayBody .addLayer w w' (by decide)
      (fun _ => by rw [← hscreens]; rfl) hw).2
  · exact ((ids_required hkeep).2 ⟨"host", none⟩ (World.fresh [0]) v (fun _ => rfl) hboot).1

/-- A layer is put into screen 0 though no screen object has an id. -/
theorem stray_changes_screen : ¬ ∀ (body : Option Json) (command : Command)
    (w w' : World Compositor), commandOf body = some command → oneScreen.Reachable w →
      (Event.message body).handle (Compositor.ilm false) w = .ok ((), w') →
      w'.wm = (asked (fun id => w.ilm.screens.contains id) w.wm body command).foldl
        (fun wm call => call.layout wm) (command.base w.wm) := by
  intro h
  obtain ⟨w, w', hreach, hnone, hw, hlayers⟩ := exists_handled [] strayBody (·.wm.layerIds = [])
    (fun w => decide (w.wm.layerIds = [3000])) (by decide +kernel)
  have hasked : asked (fun id => w.ilm.screens.contains id) w.wm strayBody .addLayer = [] := by
    have hreached : reached (addLayerPasses w.wm) (screenObjects strayBody) =
        screenObjects strayBody := congrArg (List.cons _) (ite_self [])
    rw [asked, Command.changes, hreached]
    rfl
  have hwm : w'.wm = w.wm := by
    rw [h strayBody .addLayer w w' (by decide) hreach hw, hasked]
    rfl
  rw [hwm, hnone] at hlayers
  cases of_decide_eq_true hlayers

end UhmiIviWm
