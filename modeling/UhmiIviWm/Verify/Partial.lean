import UhmiIviWm.Model.Compositor
import UhmiIviWm.Verify.Documents

/-!
# Failed commands are applied in part

No handler takes back what it has done when it returns `-1` from inside a loop.
What such a command leaves behind is exactly what it makes of its message cut off
in front of the object that made it fail, and with that object the message fails
already, whatever is nested in it (`Cut`): the loops look at nothing behind the
object they have reached. `CutsOff` says so for the plan of one object, and
`CutsOff.loop` carries it through the loops of a handler.
-/

namespace UhmiIviWm

open Lib.CallPlan

/-! ## Cutting messages -/

namespace Json

/-- The object with another array under `key`. -/
def withArray (key : String) (xs : List Json) : Json → Json
  | .object fields => .object (fields.map fun f => if f.1 = key then (f.1, .array xs) else f)
  | j => j

theorem jsonObjectGet_withArray (key : String) (xs : List Json) (j : Json) (k : String) :
    jsonObjectGet (some (j.withArray key xs)) k =
      if k = key then (jsonObjectGet (some j) k).map fun _ => .array xs
      else jsonObjectGet (some j) k := by
  cases j with
  | object fields =>
    simp only [withArray, jsonObjectGet]
    induction fields with
    | nil => simp
    | cons f rest ih =>
      obtain ⟨name, value⟩ := f
      have hlookup : ∀ (v : Json) (l : List (String × Json)), List.lookup k ((name, v) :: l) =
          if k = name then some v else List.lookup k l := by
        intro v l
        by_cases hname : k = name
        · simp [hname]
        · simp [List.lookup_cons, hname, beq_eq_false_iff_ne.mpr hname]
      have hfield : (if name = key then (name, array xs) else (name, value)) =
          (name, if name = key then array xs else value) := by split <;> rfl
      rw [List.map_cons, hfield, hlookup, hlookup, ih]
      by_cases hname : k = name
      · subst hname
        by_cases hkey : k = key <;> simp [hkey]
      · simp only [if_neg hname]
  | _ => simp [withArray, jsonObjectGet]

theorem getJsonArray_withArray {j : Json} {key : String} {xs ys : List Json}
    (h : getJsonArray (some j) key = some xs) :
    getJsonArray (some (j.withArray key ys)) key = some ys := by
  unfold getJsonArray at h ⊢
  rw [jsonObjectGet_withArray, if_pos rfl]
  cases hget : jsonObjectGet (some j) key with
  | none =>
    rw [hget] at h
    cases h
  | some v => rfl

theorem jsonObjectGet_withArray_ne {key k : String} (hne : k ≠ key) (xs : List Json) (j : Json) :
    jsonObjectGet (some (j.withArray key xs)) k = jsonObjectGet (some j) k := by
  rw [jsonObjectGet_withArray, if_neg hne]

theorem getJsonIntegerValue_withArray {key k : String} (hne : k ≠ key) (xs : List Json)
    (j : Json) :
    getJsonIntegerValue (some (j.withArray key xs)) k = getJsonIntegerValue (some j) k := by
  rw [getJsonIntegerValue, getJsonIntegerValue, jsonObjectGet_withArray_ne hne]

theorem getJsonStringValue_withArray {key k : String} (hne : k ≠ key) (capacity : Nat)
    (xs : List Json) (j : Json) :
    getJsonStringValue capacity (some (j.withArray key xs)) k =
      getJsonStringValue capacity (some j) k := by
  rw [getJsonStringValue, getJsonStringValue, jsonObjectGet_withArray_ne hne]

/-- The object with nothing in its arrays. -/
def bare : Json → Json
  | .object fields => .object (fields.map fun f => match f.2 with
    | .array _ => (f.1, .array [])
    | _ => f)
  | j => j

theorem jsonObjectGet_bare (j : Json) (k : String) :
    jsonObjectGet (some j.bare) k = (jsonObjectGet (some j) k).map fun v =>
      match v with
      | .array _ => .array []
      | v => v := by
  cases j with
  | object fields =>
    simp only [bare, jsonObjectGet]
    induction fields with
    | nil => rfl
    | cons f rest ih =>
      obtain ⟨name, value⟩ := f
      rw [List.map_cons]
      by_cases hname : k = name
      · subst hname
        cases value <;> simp
      · cases value <;> simpa [List.lookup_cons, beq_eq_false_iff_ne.mpr hname] using ih
  | _ => rfl

theorem getJsonArray_bare (j : Json) (key : String) :
    getJsonArray (some j.bare) key = (getJsonArray (some j) key).map fun _ => [] := by
  rw [getJsonArray, getJsonArray, jsonObjectGet_bare]
  cases jsonObjectGet (some j) key with
  | none => rfl
  | some v => cases v <;> rfl

theorem getJsonIntegerValue_bare (j : Json) (key : String) :
    getJsonIntegerValue (some j.bare) key = getJsonIntegerValue (some j) key := by
  rw [getJsonIntegerValue, getJsonIntegerValue, jsonObjectGet_bare]
  cases jsonObjectGet (some j) key with
  | none => rfl
  | some v => cases v <;> rfl

theorem getJsonStringValue_bare (capacity : Nat) (j : Json) (key : String) :
    getJsonStringValue capacity (some j.bare) key = getJsonStringValue capacity (some j) key := by
  rw [getJsonStringValue, getJsonStringValue, jsonObjectGet_bare]
  cases jsonObjectGet (some j) key with
  | none => rfl
  | some v => cases v <;> rfl

end Json

/-- The message, or object, `j` up to some object in one of the arrays in it, without that
object (`j'`), and with that object but nothing nested in it (`j''`): the arrays on the way
end there. -/
inductive Cut : Json → Json → Json → Prop
  | here {j : Json} {key : String} {done rest : List Json} {x : Json} :
    getJsonArray (some j) key = some (done ++ x :: rest) →
      Cut (j.withArray key done) (j.withArray key (done ++ [x.bare])) j
  | inside {j : Json} {key : String} {done rest : List Json} {x x' x'' : Json} :
    getJsonArray (some j) key = some (done ++ x :: rest) → Cut x' x'' x →
      Cut (j.withArray key (done ++ [x'])) (j.withArray key (done ++ [x''])) j

/-! ## Plans of objects -/

def Call.pushes : Call → Prop
  | .pushScreen _ | .pushLayer _ => True
  | _ => False

/-- `p'` makes the calls of `p`, and perhaps pushes, and ends well. -/
def EndsAs (p' p : Plan Call Abort Int) : Prop :=
  p'.out = .ok 0 ∧ ∃ pushes, p'.calls = p.calls ++ pushes ∧ ∀ call ∈ pushes, call.pushes

/-- `p` is the loop `q`, followed by pushes where `q` ends well. -/
structure Finishes (p q : Plan Call Abort Int) : Prop where
  fails : ∀ r < 0, p.out = .ok r → p = q
  stops : ∀ r < 0, q.out = .ok r → p = q
  ends : q.out = .ok 0 → EndsAs p q

theorem Finishes.refl (p : Plan Call Abort Int) : Finishes p p :=
  ⟨fun _ _ _ => rfl, fun _ _ _ => rfl, fun h => ⟨h, [], (List.append_nil _).symm, nofun⟩⟩

theorem Finishes.push {q : Plan Call Abort Int} {call : Call} (hpush : call.pushes) :
    Finishes (do
      let ret ← q
      if ret < 0 then pure ret else do
        Plan.call call
        pure 0) q := by
  have hstops : ∀ r < 0, q.out = .ok r → (do
      let ret ← q
      if ret < 0 then pure ret else do
        Plan.call call
        pure 0) = q := by
    intro r hr hq
    obtain ⟨calls, out⟩ := q
    obtain rfl : out = .ok r := hq
    rw [Plan.bind_of_ok rfl, if_pos hr]
    exact congrArg (Plan.mk · (.ok r)) (List.append_nil calls)
  refine ⟨fun r hr h => ?_, hstops, fun hq => ?_⟩
  · cases hq : q.out with
    | error e =>
      rw [Plan.bind_of_error hq] at h
      cases h
    | ok r' =>
      by_cases hr' : r' < 0
      · exact hstops r' hr' hq
      · rw [Plan.bind_of_ok hq, if_neg hr'] at h
        cases h
        exact absurd hr (Int.lt_irrefl 0)
  · rw [Plan.bind_of_ok hq, if_neg (Int.lt_irrefl 0)]
    refine ⟨rfl, [call], rfl, fun c hc => ?_⟩
    rw [List.mem_singleton.mp hc]
    exact hpush

/-- A plan that fails on an object has made no call, and nothing nested in the object
matters, or it ends well on the object cut off where it failed, and fails alike with what it
failed at. -/
def CutsOff (p : Json → Plan Call Abort Int) : Prop :=
  ∀ obj, ∀ r < 0, (p obj).out = .ok r →
    (p obj).calls = [] ∧ p obj.bare = p obj ∨
      ∃ obj' obj'', Cut obj' obj'' obj ∧ EndsAs (p obj') (p obj) ∧ p obj'' = p obj

/-- The plan of an object that loops over the objects of one of its arrays. -/
theorem CutsOff.loop {p body : Json → Plan Call Abort Int} {obj : Json} {key : String}
    {xs : List Json} (hbody : CutsOff body) (harray : getJsonArray (some obj) key = some xs)
    (hobj : Finishes (p obj) (forEach xs body))
    (hcut : ∀ ys, Finishes (p (obj.withArray key ys)) (forEach ys body)) {r : Int} (hr : r < 0)
    (h : (p obj).out = .ok r) :
    ∃ obj' obj'', Cut obj' obj'' obj ∧ EndsAs (p obj') (p obj) ∧ p obj'' = p obj := by
  have hplan := hobj.fails r hr h
  rw [hplan] at h ⊢
  obtain ⟨done, x, rest, rfl, hdone, hx⟩ := Plan.forEach_eq_neg hr h
  have hleft : ∀ (y : Json) (ys : List Json), body y = body x →
      forEach (done ++ y :: ys) body =
        ⟨(done.flatMap fun y => (body y).calls) ++ (body x).calls, .ok r⟩ := by
    intro y ys hy
    rw [Plan.forEach_left hr hdone (hy ▸ hx), hy]
  -- with the object it fails at, the loop fails alike
  have hlast : ∀ y, body y = body x →
      p (obj.withArray key (done ++ [y])) = forEach (done ++ x :: rest) body := by
    intro y hy
    rw [(hcut (done ++ [y])).stops r hr (by rw [hleft y [] hy]), hleft y [] hy, hleft x rest rfl]
  rcases hbody x r hr hx with ⟨hnone, hbare⟩ |
    ⟨x', x'', hcut', ⟨hend, pushes, hpushes, hall⟩, hfails⟩
  · have hround := Plan.forEach_of_nonneg hdone
    obtain ⟨hend, more, hmore, hall⟩ := (hcut done).ends (by rw [hround])
    refine ⟨_, _, .here harray, ⟨hend, more, ?_, hall⟩, hlast x.bare hbare⟩
    rw [hmore, hleft x rest rfl, hround, hnone, List.append_nil]
  · have hnonneg : ∀ y ∈ done ++ [x'], ∃ r, (body y).out = .ok r ∧ 0 ≤ r := by
      intro y hy
      rcases List.mem_append.mp hy with hy | hy
      · exact hdone y hy
      · rw [List.mem_singleton.mp hy]
        exact ⟨0, hend, Int.le_refl 0⟩
    have hround := Plan.forEach_of_nonneg hnonneg
    obtain ⟨hend, more, hmore, hall'⟩ := (hcut (done ++ [x'])).ends (by rw [hround])
    refine ⟨_, _, .inside harray hcut', ⟨hend, pushes ++ more, ?_, fun call hcall => ?_⟩,
      hlast x'' hfails⟩
    · rw [hmore, hleft x rest rfl, hround, List.flatMap_append, List.flatMap_singleton, hpushes]
      simp only [List.append_assoc]
    · exact (List.mem_append.mp hcall).elim (hall call) (hall' call)

/-! ## The incremental commands -/

theorem CutsOff.leaf {p : Json → Plan Call Abort Int}
    (h : ∀ obj, ∀ r < 0, (p obj).out = .ok r → (p obj).calls = [] ∧ p obj.bare = p obj) :
    CutsOff p :=
  fun obj r hr hout => .inl (h obj r hr hout)

theorem parseId_bare (j : Json) : parseId (some j.bare) = parseId (some j) :=
  Json.getJsonIntegerValue_bare j jsonKeyId

theorem parseInsertInfo_bare (j : Json) (info : InsertInfo) :
    parseInsertInfo (some j.bare) info = parseInsertInfo (some j) info := by
  simp only [parseInsertInfo, Json.getJsonStringValue_bare, Json.getJsonIntegerValue_bare]

/-- An object that is one call, once it has an id. -/
theorem cutsOff_call (call : Json → Id → Call) :
    CutsOff (fun obj => match parseId (some obj) with
      | none => pure (-1)
      | some id => do
        Plan.call (call obj id)
        pure 0) := by
  refine .leaf fun obj r hr h => ?_
  cases hid : parseId (some obj) with
  | none => exact ⟨rfl, by rw [parseId_bare, hid]⟩
  | some id =>
    rw [hid] at h
    cases h
    exact absurd hr (Int.lt_irrefl 0)

section Commands

variable {wm : Wm}

theorem parseId_withArray {key : String} (hne : jsonKeyId ≠ key) (xs : List Json) (j : Json) :
    parseId (some (j.withArray key xs)) = parseId (some j) :=
  Json.getJsonIntegerValue_withArray hne xs j

theorem parseInsertInfo_withArray {key : String} (horder : jsonKeyInsertodr ≠ key)
    (href : jsonKeyRefid ≠ key) (xs : List Json) (j : Json) (info : InsertInfo) :
    parseInsertInfo (some (j.withArray key xs)) info = parseInsertInfo (some j) info := by
  simp only [parseInsertInfo, Json.getJsonStringValue_withArray horder,
    Json.getJsonIntegerValue_withArray href]

theorem cutsOff_addLayerScreen : CutsOff (planAddLayerScreen wm) := by
  intro obj r hr h
  cases hinfo : parseInsertInfo (some obj) insertInfoDefault with
  | error e =>
    simp only [planAddLayerScreen, hinfo] at h
    cases h
  | ok info =>
    cases hscreen : (getListElement wm.screenHead ((parseId (some obj)).getD 0)).isSome with
    | false =>
      simp only [planAddLayerScreen, hinfo, hscreen] at h
      cases h
      exact absurd hr (Int.lt_irrefl 0)
    | true =>
      cases hlayers : parseLayers (some obj) with
      | none =>
        have hnone : parseLayers (some obj.bare) = none :=
          (Json.getJsonArray_bare obj jsonKeyLayers).trans (congrArg (Option.map _) hlayers)
        refine .inl ?_
        simp only [planAddLayerScreen, parseId_bare, parseInsertInfo_bare, hinfo, hscreen, hlayers,
          hnone]
        exact ⟨rfl, trivial⟩
      | some layerAry =>
        have hplan : ∀ j ys, parseId (some j) = parseId (some obj) →
            parseInsertInfo (some j) insertInfoDefault = .ok info →
            parseLayers (some j) = some ys →
            Finishes (planAddLayerScreen wm j) (forEach ys fun layerJobj =>
              match parseId (some layerJobj) with
              | none => pure (-1)
              | some layerId => do
                Plan.call (.putLayer ((parseId (some obj)).getD 0) layerJobj layerId info.2)
                pure 0) := by
          intro j ys hid hinfo hlayers
          simp only [planAddLayerScreen, hid, hinfo, hscreen, hlayers]
          exact .push trivial
        refine .inr (CutsOff.loop (cutsOff_call _) hlayers (hplan obj layerAry rfl hinfo hlayers)
          (fun ys => hplan _ ys ?_ ?_ ?_) hr h)
        · exact parseId_withArray (by decide) ys obj
        · rw [parseInsertInfo_withArray (by decide) (by decide)]
          exact hinfo
        · exact Json.getJsonArray_withArray hlayers

theorem cutsOff_addSurfaceLayer (info : InsertInfo) : CutsOff (planAddSurfaceLayer wm info) := by
  intro obj r hr h
  cases hlayer : (getLayer wm.screenHead ((parseId (some obj)).getD 0)).isSome with
  | false =>
    simp only [planAddSurfaceLayer, hlayer] at h
    cases h
    exact absurd hr (Int.lt_irrefl 0)
  | true =>
    cases hsurfaces : parseSurfaces (some obj) with
    | none =>
      have hnone : parseSurfaces (some obj.bare) = none :=
        (Json.getJsonArray_bare obj jsonKeySurfaces).trans (congrArg (Option.map _) hsurfaces)
      refine .inl ?_
      simp only [planAddSurfaceLayer, parseId_bare, hlayer, hsurfaces, hnone]
      exact ⟨rfl, trivial⟩
    | some surfaceAry =>
      have hplan : ∀ j ys, parseId (some j) = parseId (some obj) →
          parseSurfaces (some j) = some ys →
          Finishes (planAddSurfaceLayer wm info j) (forEach ys fun surfaceJobj =>
            match parseId (some surfaceJobj) with
            | none => pure (-1)
            | some surfaceId => do
              Plan.call (.putSurface ((parseId (some obj)).getD 0) surfaceJobj surfaceId info)
              pure 0) := by
        intro j ys hid hsurfaces
        simp only [planAddSurfaceLayer, hid, hlayer, hsurfaces]
        exact .push trivial
      refine .inr (CutsOff.loop (cutsOff_call _) hsurfaces (hplan obj surfaceAry rfl hsurfaces)
        (fun ys => hplan _ ys ?_ ?_) hr h)
      · exact parseId_withArray (by decide) ys obj
      · exact Json.getJsonArray_withArray hsurfaces

theorem cutsOff_addSurfaceScreen : CutsOff (planAddSurfaceScreen wm) := by
  intro obj r hr h
  cases hinfo : parseInsertInfo (some obj) insertInfoDefault with
  | error e =>
    simp only [planAddSurfaceScreen, hinfo] at h
    cases h
  | ok info =>
    cases hlayers : parseLayers (some obj) with
    | none =>
      have hnone : parseLayers (some obj.bare) = none :=
        (Json.getJsonArray_bare obj jsonKeyLayers).trans (congrArg (Option.map _) hlayers)
      refine .inl ?_
      simp only [planAddSurfaceScreen, parseInsertInfo_bare, hinfo, hlayers, hnone]
      exact ⟨rfl, trivial⟩
    | some layerAry =>
      have hplan : ∀ j ys, parseInsertInfo (some j) insertInfoDefault = .ok info →
          parseLayers (some j) = some ys →
          Finishes (planAddSurfaceScreen wm j)
            (forEach ys (planAddSurfaceLayer wm info.2)) := by
        intro j ys hinfo hlayers
        simp only [planAddSurfaceScreen, hinfo, hlayers]
        exact .refl _
      refine .inr (CutsOff.loop (cutsOff_addSurfaceLayer _) hlayers
        (hplan obj layerAry hinfo hlayers) (fun ys => hplan _ ys ?_ ?_) hr h)
      · rw [parseInsertInfo_withArray (by decide) (by decide)]
        exact hinfo
      · exact Json.getJsonArray_withArray hlayers

theorem cutsOff_removeSurfaceLayer : CutsOff (planRemoveSurfaceLayer wm) := by
  intro obj r hr h
  cases hid : parseId (some obj) with
  | none =>
    refine .inl ?_
    simp only [planRemoveSurfaceLayer, parseId_bare, hid]
    exact ⟨rfl, trivial⟩
  | some layerId =>
    cases hlayer : (getLayer wm.screenHead layerId).isSome with
    | false =>
      simp only [planRemoveSurfaceLayer, hid, hlayer] at h
      cases h
      exact absurd hr (Int.lt_irrefl 0)
    | true =>
      cases hsurfaces : parseSurfaces (some obj) with
      | none =>
        have hnone : parseSurfaces (some obj.bare) = none :=
          (Json.getJsonArray_bare obj jsonKeySurfaces).trans (congrArg (Option.map _) hsurfaces)
        refine .inl ?_
        simp only [planRemoveSurfaceLayer, parseId_bare, hid, hlayer, hsurfaces, hnone]
        exact ⟨rfl, trivial⟩
      | some surfaceAry =>
        have hplan : ∀ j ys, parseId (some j) = some layerId → parseSurfaces (some j) = some ys →
            Finishes (planRemoveSurfaceLayer wm j) (forEach ys fun surfaceJobj =>
              match parseId (some surfaceJobj) with
              | none => pure (-1)
              | some surfaceId => do
                Plan.call (.removeSurface layerId surfaceId)
                pure 0) := by
          intro j ys hid hsurfaces
          simp only [planRemoveSurfaceLayer, hid, hlayer, hsurfaces]
          exact .refl _
        refine .inr (CutsOff.loop (cutsOff_call fun _ => .removeSurface layerId) hsurfaces
          (hplan obj surfaceAry hid hsurfaces) (fun ys => hplan _ ys ?_ ?_) hr h)
        · rw [parseId_withArray (by decide)]
          exact hid
        · exact Json.getJsonArray_withArray hsurfaces

theorem cutsOff_modifySurface :
    CutsOff (fun surfaceJobj => match parseId (some surfaceJobj) with
      | none => pure (-1)
      | some surfaceId =>
        match (getListElement wm.surfacePropertiesHead surfaceId).isSome with
        | false => pure (-1)
        | true => do
          Plan.call (.modifySurface surfaceId surfaceJobj)
          pure 0) := by
  refine .leaf fun obj r hr h => ?_
  cases hid : parseId (some obj) with
  | none => exact ⟨rfl, by rw [parseId_bare, hid]⟩
  | some surfaceId =>
    simp only [parseId_bare, hid] at h ⊢
    cases hrecord : (getListElement wm.surfacePropertiesHead surfaceId).isSome with
    | false => exact ⟨rfl, rfl⟩
    | true =>
      rw [hrecord] at h
      cases h
      exact absurd hr (Int.lt_irrefl 0)

end Commands

/-- A command that loops over one array of its message. -/
theorem CutsOff.command {p : Option Json → Plan Call Abort Int} {key : String}
    {body : Json → Plan Call Abort Int} (hbody : CutsOff body)
    (hp : ∀ jobject, p jobject = match getJsonArray jobject key with
      | none => pure (-1)
      | some xs => forEach xs body) {jobject : Option Json} {r : Int} (hr : r < 0)
    (h : (p jobject).out = .ok r) :
    getJsonArray jobject key = none ∧ (p jobject).calls = [] ∨
      ∃ j j' j'', jobject = some j ∧ Cut j' j'' j ∧ EndsAs (p (some j')) (p jobject) ∧
        p (some j'') = p jobject := by
  cases harray : getJsonArray jobject key with
  | none =>
    refine .inl ⟨rfl, ?_⟩
    rw [hp, harray]
    rfl
  | some xs =>
    cases jobject with
    | none => cases harray
    | some j =>
      have hplan : ∀ j ys, getJsonArray (some j) key = some ys →
          Finishes (p (some j)) (forEach ys body) := by
        intro j ys harray
        rw [hp, harray]
        exact .refl _
      obtain ⟨j', j'', hcut, hends, hfails⟩ := CutsOff.loop (p := fun j => p (some j)) hbody harray
        (hplan j xs harray) (fun ys => hplan _ ys (Json.getJsonArray_withArray harray)) hr h
      exact .inr ⟨j, j', j'', rfl, hcut, hends, hfails⟩

/-- The array whose objects a command is about. -/
def Command.objects : Command → Option Json → Option (List Json)
  | .addSurface | .addLayer | .initialScreen => parseScreens
  | .removeSurface | .removeLayer | .modifyLayer => parseLayers
  | .modifySurface => parseSurfaces

/-- An ilm that has every screen and never fails. -/
def Ilm.quiet : Ilm Unit where
  call _ c := (true, c)
  getSurfaceIDs c := ([], c)
  getLayerIDs c := ([], c)
  getPropertiesOfScreen _ c := (true, c)
  getScreenIDs c := (some [], c)

theorem Ilm.quiet_succeeds : Ilm.quiet.Succeeds := ⟨fun _ _ => rfl, fun _ => rfl⟩

variable {σ : Type} {ilm : Ilm σ}

/-- What a command has made of its message when it fails. -/
theorem cuts_command (command : Command) (hcommand : command ≠ .initialScreen)
    {jobject : Option Json} {w : World σ} {r : Int} (hr : r < 0)
    (h : ((command.plan ilm jobject).plan w).out = .ok r) :
    command.objects jobject = none ∧ ((command.plan ilm jobject).plan w).calls = [] ∨
      ∃ j j' j'', jobject = some j ∧ Cut j' j'' j ∧
        EndsAs ((command.plan Ilm.quiet (some j')).plan ⟨w.wm, ()⟩)
          ((command.plan ilm jobject).plan w) ∧
        (command.plan ilm (some j'')).plan w = (command.plan ilm jobject).plan w := by
  cases command with
  | addLayer => exact cutsOff_addLayerScreen.command (fun _ => rfl) hr h
  | addSurface => exact cutsOff_addSurfaceScreen.command (fun _ => rfl) hr h
  | removeSurface => exact cutsOff_removeSurfaceLayer.command (fun _ => rfl) hr h
  | modifySurface => exact cutsOff_modifySurface.command (fun _ => rfl) hr h
  | removeLayer => exact (cutsOff_call fun _ => .removeLayer).command (fun _ => rfl) hr h
  | modifyLayer =>
    exact (cutsOff_call fun obj id => .modifyLayer id obj).command (fun _ => rfl) hr h
  | initialScreen => exact absurd rfl hcommand

/-- Pushes leave the layout alone. -/
theorem runCalls_pushes (hs : ilm.Succeeds) {pushes : List Call}
    (h : ∀ call ∈ pushes, call.pushes) (w : World σ) :
    ∃ c, runCalls (Call.sem ilm) pushes w = .ok ((), ⟨w.wm, c⟩) := by
  induction pushes generalizing w with
  | nil => exact ⟨w.ilm, rfl⟩
  | cons call pushes ih =>
    obtain ⟨hcall, hrest⟩ := List.forall_mem_cons.mp h
    obtain ⟨c, hsem⟩ : ∃ c, call.sem ilm w = .ok ((), ⟨w.wm, c⟩) := by
      cases call with
      | pushScreen | pushLayer => exact Call.sem_returns hs id
      | _ => exact hcall.elim
    obtain ⟨c', hrest⟩ := ih hrest ⟨w.wm, c⟩
    exact ⟨c', runCalls_cons_ok.mpr ⟨_, hsem, hrest⟩⟩

/-! ## `initial_screen` -/

theorem parseVersion_withArray (screenAry : List Json) (j : Json) :
    parseVersion (some (j.withArray jsonKeyScreens screenAry)) = parseVersion (some j) := by
  rw [parseVersion, parseVersion, Json.getJsonStringValue_withArray (by decide)]

/-- A failing `initial_screen` has built the screen objects before the one whose screen was
not found, on an empty tree. -/
theorem initScreen_cut {jobject : Option Json} {w w' : World σ}
    (h : parseInitScreenCommand ilm jobject w = .ok (-1, w')) :
    ∃ j j' j'', jobject = some j ∧ Cut j' j'' j ∧
      parseInitScreenCommand Ilm.quiet (some j') ⟨w.wm, ()⟩ = .ok (0, ⟨w'.wm, ()⟩) ∧
      parseInitScreenCommand ilm (some j'') w = .ok (-1, w') := by
  cases hversion : parseVersion jobject with
  | error e =>
    rw [parseInitScreenCommand_of_error hversion] at h
    cases h
  | ok version =>
    rw [parseInitScreenCommand_of_ok hversion] at h
    obtain ⟨ret, t, hscreens, hend⟩ := Comp.bind_eq_ok.mp h
    by_cases hret : ret < 0
    · rw [if_pos hret] at hend
      cases hend
      obtain ⟨done, screenJobj, rest, t', harray, hdone, ht, hlast⟩ :=
        parseScreenObjects_fails hret hscreens
      have hj : parseScreens jobject = some (done ++ screenJobj :: rest) := by
        cases hj : parseScreens jobject with
        | none =>
          rw [hj] at harray
          exact absurd harray.symm (by simp)
        | some screenAry => exact congrArg some (by rw [← harray, hj]; rfl)
      cases jobject with
      | none => cases hj
      | some j =>
        refine ⟨j, j.withArray jsonKeyScreens done,
          j.withArray jsonKeyScreens (done ++ [screenJobj.bare]), rfl, .here hj, ?_, ?_⟩
        · have hscreens' : parseScreens (some (j.withArray jsonKeyScreens done)) = some done :=
            Json.getJsonArray_withArray hj
          obtain ⟨c, hquiet⟩ := runCalls_transfer Ilm.quiet_succeeds
            (fun _ hmem => ofDocument_documentCalls hmem) () hdone
          rw [parseInitScreenCommand_of_ok ((parseVersion_withArray done j).trans hversion),
            hscreens', Option.getD_some, Comp.bind_apply,
            parseScreenObjects_eq Ilm.quiet.keeps_true (fun _ _ _ _ => rfl) trivial,
            Comp.bind_apply, hquiet, ht]
          rfl
        · have hscreens' : parseScreens
              (some (j.withArray jsonKeyScreens (done ++ [screenJobj.bare]))) =
                some (done ++ [screenJobj.bare]) := Json.getJsonArray_withArray hj
          have hid : idOf screenJobj.bare = idOf screenJobj := by rw [idOf, idOf, parseId_bare]
          rw [parseInitScreenCommand_of_ok ((parseVersion_withArray _ j).trans hversion), hscreens',
            Option.getD_some, Comp.bind_apply, hlast _ hid]
          rfl
    · rw [if_neg hret] at hend
      obtain ⟨_, t, -, hend⟩ := Comp.bind_eq_ok.mp hend
      cases hend

/-- A command that fails leaves what it makes of the objects in front of the one it fails at,
and fails alike where the message ends with that object. -/
theorem failed_command_cut (command : Command) (jobject : Option Json) {w w' : World σ}
    (h : command.handler ilm jobject w = .ok (-1, w')) :
    command.objects jobject = none ∧ w'.wm = w.wm ∨
      ∃ j j' j'', jobject = some j ∧ Cut j' j'' j ∧
        command.handler Ilm.quiet (some j') ⟨w.wm, ()⟩ = .ok (0, ⟨w'.wm, ()⟩) ∧
        command.handler ilm (some j'') w = .ok (-1, w') := by
  by_cases hcommand : command = .initialScreen
  · subst hcommand
    exact .inr (initScreen_cut h)
  · have hhandler := h
    rw [command.handler_follows jobject w] at h
    obtain ⟨hout, hrun⟩ := Plan.run_eq_ok.mp h
    rcases cuts_command command hcommand (by decide : (-1 : Int) < 0) hout with
      ⟨hobjects, hcalls⟩ | ⟨j, j', j'', rfl, hcut, ⟨hend, pushes, hcalls, hpushes⟩, hfails⟩
    · refine .inl ⟨hobjects, ?_⟩
      rw [hcalls] at hrun
      cases hrun
      rfl
    · refine .inr ⟨j, j', j'', rfl, hcut, ?_, ?_⟩
      · rw [command.handler_follows (some j')]
        refine Plan.run_eq_ok.mpr ⟨hend, ?_⟩
        have hplace : ∀ surfaceId,
            .place surfaceId ∉ ((command.plan ilm (some j)).plan w).calls := by
          intro surfaceId hmem
          have hof := command.plan_calls w _ hmem
          cases command <;> exact hof.elim
        obtain ⟨c, hquiet⟩ := runCalls_transfer Ilm.quiet_succeeds hplace () hrun
        obtain ⟨c', hpush⟩ := runCalls_pushes Ilm.quiet_succeeds hpushes ⟨w'.wm, c⟩
        rw [hcalls, runCalls_append_ok]
        exact ⟨_, hquiet, hpush⟩
      · rw [command.handler_follows (some j''), hfails, ← command.handler_follows (some j)]
        exact hhandler

/-- Layer 3000 with surface 10 on the only screen. -/
def layerShown : Except Abort (World Compositor) :=
  execute (Compositor.ilm false) ⟨"host", none⟩
    [message "add_layer" "screens" [screenObject 0 "append" [layerObject 3000 []]],
      message "add_surface" "screens"
        [screenObject 0 "append" [layerObject 3000 [surfaceObject 10]]]]
    (World.fresh [0])

/-- Removes layer 3000 and a layer without an id. -/
def removeTwo : Option Json :=
  some (.object [("command", .string "remove_layer"),
    ("layers", .array [layerObject 3000 [], .object []])])

theorem failed_command_cut_removeTwo :
    ∃ w w' : World Compositor, layerShown = .ok w ∧
      Command.removeLayer.handler (Compositor.ilm false) removeTwo w = .ok (-1, w') ∧
      ∃ j j' j'', removeTwo = some j ∧ Cut j' j'' j ∧
        Command.removeLayer.handler Ilm.quiet (some j') ⟨w.wm, ()⟩ = .ok (0, ⟨w'.wm, ()⟩) ∧
        Command.removeLayer.handler (Compositor.ilm false) (some j'') w = .ok (-1, w') := by
  have hend : endsWith (fun w =>
      match Command.removeLayer.handler (Compositor.ilm false) removeTwo w with
      | .ok (ret, _) => ret == -1
      | .error _ => false) layerShown = true := by decide +kernel
  obtain ⟨w, hw, hfails⟩ := exists_of_endsWith hend
  split at hfails
  · rename_i ret w' hs
    obtain rfl : ret = -1 := by simpa using hfails
    rcases failed_command_cut .removeLayer removeTwo hs with ⟨hnone, -⟩ | hcut
    · exact nomatch hnone
    · exact ⟨w, w', hw, hs, hcut⟩
  · cases hfails

theorem failed_command_changes :
    ¬ ∀ w, (daemon (Compositor.ilm false)
        ⟨fun _ w => w = World.fresh [0], fun c c' => c' = c⟩).Reachable w →
      ∀ command jobject w', commandOf jobject = some command →
        command.handler (Compositor.ilm false) jobject w = .ok (-1, w') →
          w'.wm.screenHead = w.wm.screenHead ∧
            w'.wm.surfacePropertiesHead = w.wm.surfacePropertiesHead := by
  intro h
  have hend : endsWith (fun w =>
      (Command.removeLayer.handler (Compositor.ilm false) removeTwo w).toOption.any fun r =>
        r.1 == -1 && w.wm.layerIds != r.2.wm.layerIds) layerShown = true := by
    decide +kernel
  obtain ⟨w, hw, hfails⟩ := exists_of_endsWith hend
  cases hs : Command.removeLayer.handler (Compositor.ilm false) removeTwo w with
  | ok r =>
    obtain ⟨ret, w'⟩ := r
    rw [hs] at hfails
    obtain ⟨hret, hdiffer⟩ := Bool.and_eq_true_iff.mp hfails
    obtain rfl : ret = -1 := beq_iff_eq.mp hret
    have hsame := (h w (reachable_of_execute rfl hw) .removeLayer removeTwo w' (by decide +kernel)
      hs).1
    rw [Wm.layerIds, Wm.layerIds, hsame, bne_self_eq_false] at hdiffer
    cases hdiffer
  | error e =>
    rw [hs] at hfails
    cases hfails

end UhmiIviWm
