import Mathlib.Data.List.TakeWhile
import UhmiIviWm.Model.Compositor
import UhmiIviWm.Verify.Failures
import UhmiIviWm.Verify.Narrowing
import UhmiIviWm.Verify.Steps

/-!
# Running a layout document

The screen objects of a document are processed one after the other, up to the
first whose screen ilm does not know (`parseScreenObjects_cons`). So a document
that is processed to its end makes the calls of all its screen objects
(`parseScreenObjects_eq`), and one that fails makes those of the screen objects
before the one that made it fail.
-/

namespace UhmiIviWm

open Lib.CallPlan

variable {σ : Type} {ilm : Ilm σ}

/-- The id of an object of a document, zero where it has none. -/
def idOf (obj : Json) : Id := (parseId (some obj)).getD 0

def hasId (obj : Json) : Bool := (parseId (some obj)).isSome

/-- The objects are exactly those of the ids, in order. -/
def HaveIds (objs : List Json) (batch : List Id) : Prop :=
  objs.map (fun obj => parseId (some obj)) = batch.map some

theorem HaveIds.hasId {objs : List Json} {batch : List Id} (h : HaveIds objs batch) :
    ∀ obj ∈ objs, UhmiIviWm.hasId obj = true := by
  intro obj hobj
  have hmem : parseId (some obj) ∈ batch.map some := h ▸ List.mem_map_of_mem hobj
  obtain ⟨id, -, hid⟩ := List.mem_map.mp hmem
  rw [UhmiIviWm.hasId, ← hid]
  rfl

theorem HaveIds.map_idOf {objs : List Json} {batch : List Id} (h : HaveIds objs batch) :
    objs.map idOf = batch := by
  have hmap := congrArg (List.map fun id : Option Id => id.getD 0) h
  rw [List.map_map, List.map_map] at hmap
  exact hmap.trans (List.map_id' batch)

theorem idOf_eq {obj : Json} {n : Int64} (h : integerAt obj jsonKeyId = some n) :
    idOf obj = low32 n := by
  rw [idOf, parseId, getJsonIntegerValue_eq, h]
  rfl

theorem HaveIntegers.haveIds {objs : List Json} {ns : List Int64} (h : HaveIntegers objs ns) :
    HaveIds objs (ns.map low32) := by
  have hmap := congrArg (List.map (Option.map low32)) h
  rw [List.map_map, List.map_map] at hmap
  rw [HaveIds, List.map_map]
  refine (List.map_congr_left fun obj _ => ?_).trans hmap
  exact getJsonIntegerValue_eq obj jsonKeyId

/-- A loop over objects that ends at the first without an id. -/
theorem forEach_parseId (objs : List Json) (op : Id → Json → Call) :
    (forEach objs fun obj =>
      match parseId (some obj) with
      | none => pure (-1)
      | some id => do
        Plan.call (op id obj)
        pure 0 : Plan Call Abort Int) =
      ⟨(objs.takeWhile hasId).map fun obj => op (idOf obj) obj,
        .ok (if objs.all hasId then 0 else -1)⟩ := by
  refine Plan.forEach_guarded hasId (fun obj => op (idOf obj) obj) (fun obj hobj => ?_)
    fun obj hobj => ?_
  · obtain ⟨id, hid⟩ := Option.isSome_iff_exists.mp hobj
    rw [idOf, hid]
    rfl
  · have hid : parseId (some obj) = none := by simpa [hasId] using hobj
    rw [hid]

theorem forEach_parseId_of_all {objs : List Json} (h : ∀ obj ∈ objs, hasId obj = true)
    (op : Id → Json → Call) :
    (forEach objs fun obj =>
      match parseId (some obj) with
      | none => pure (-1)
      | some id => do
        Plan.call (op id obj)
        pure 0 : Plan Call Abort Int) = ⟨objs.map fun obj => op (idOf obj) obj, .ok 0⟩ := by
  rw [forEach_parseId, List.takeWhile_eq_self_iff.mpr h, List.all_eq_true.mpr h]
  rfl

/-- The object names a surface with a record. -/
def hasRecord (wm : Wm) (obj : Json) : Bool :=
  (parseId (some obj)).any fun surfaceId =>
    (getListElement wm.surfacePropertiesHead surfaceId).isSome

/-- A batch of objects each of which modifies the surface it names. -/
theorem forEach_hasRecord (wm : Wm) (objs : List Json) :
    (forEach objs fun surfaceJobj =>
      match parseId (some surfaceJobj) with
      | none => pure (-1)
      | some surfaceId =>
        match (getListElement wm.surfacePropertiesHead surfaceId).isSome with
        | false => pure (-1)
        | true => do
          Plan.call (.modifySurface surfaceId surfaceJobj)
          pure 0 : Plan Call Abort Int) =
      ⟨(objs.takeWhile (hasRecord wm)).map fun obj => .modifySurface (idOf obj) obj,
        .ok (if objs.all (hasRecord wm) then 0 else -1)⟩ := by
  refine Plan.forEach_guarded (hasRecord wm) (fun obj => Call.modifySurface (idOf obj) obj)
    (fun obj hobj => ?_) fun obj hobj => ?_
  · rw [hasRecord, Option.any_eq_true] at hobj
    obtain ⟨surfaceId, hid, hrecord⟩ := hobj
    rw [idOf, hid]
    dsimp only
    rw [hrecord]
    rfl
  · cases hid : parseId (some obj) with
    | none => rfl
    | some surfaceId =>
      have hrecord : (getListElement wm.surfacePropertiesHead surfaceId).isSome = false := by
        simpa [hasRecord, hid] using hobj
      dsimp only
      rw [hrecord]

/-- The calls for the screen objects, all screens being found. -/
def documentCalls (screenAry : List Json) : List Call :=
  screenAry.flatMap fun screenJobj => .findScreen (idOf screenJobj) :: screenCalls screenJobj

theorem ofDocument_documentCalls {screenAry : List Json} {call : Call}
    (h : call ∈ documentCalls screenAry) : call.ofDocument := by
  obtain ⟨screenJobj, -, h⟩ := List.mem_flatMap.mp h
  rcases List.mem_cons.mp h with rfl | h
  · trivial
  · exact ofDocument_of_mem h

theorem parseScreenObjects_cons (screenJobj : Json) (rest : List Json) (w : World σ) :
    parseScreenObjects ilm (screenJobj :: rest) w =
      if (ilm.getPropertiesOfScreen (idOf screenJobj) w.ilm).1 = false then
        .ok (-1, ⟨w.wm, (ilm.getPropertiesOfScreen (idOf screenJobj) w.ilm).2⟩)
      else (runCalls (Call.sem ilm) (.findScreen (idOf screenJobj) :: screenCalls screenJobj) >>=
        fun _ => parseScreenObjects ilm rest) w := by
  have hsplit : parseScreenObjects ilm (screenJobj :: rest) =
      parseScreenObjects ilm [screenJobj] >>= fun r =>
        if r < 0 then pure r else parseScreenObjects ilm rest := forEach_cons _ _ _
  have hfind : (Plan.call (.findScreen (idOf screenJobj)) : Plan Call Abort Unit).run
      (Call.sem ilm) w =
        .ok ((), ⟨w.wm, (ilm.getPropertiesOfScreen (idOf screenJobj) w.ilm).2⟩) := rfl
  rw [hsplit, Comp.bind_apply, parseScreenObjects_follows [screenJobj] w]
  simp only [documentPlan, forEach, StatePlan.plan_bind, Plan.run_goOn, StatePlan.looks,
    StatePlan.call, StatePlan.fixed, Plan.run_pure]
  rw [show (parseId (some screenJobj)).getD 0 = idOf screenJobj from rfl, hfind]
  dsimp only
  by_cases hfound : (ilm.getPropertiesOfScreen (idOf screenJobj) w.ilm).1 = false
  · simp only [if_pos hfound]
    rfl
  · simp only [if_neg hfound]
    rw [Comp.bind_apply]
    have hcalls : runCalls (Call.sem ilm) (.findScreen (idOf screenJobj) :: screenCalls screenJobj)
        w = runCalls (Call.sem ilm) (screenCalls screenJobj)
          ⟨w.wm, (ilm.getPropertiesOfScreen (idOf screenJobj) w.ilm).2⟩ := rfl
    rw [hcalls]
    simp only [Plan.run, Comp.bind_apply]
    cases runCalls (Call.sem ilm) (screenCalls screenJobj) _ with
    | ok r => rfl
    | error e => rfl

/-- Calls keep what ilm keeps. -/
theorem runCalls_keeps_ilm {I : σ → Prop} (hI : ilm.Keeps I) {calls : List Call} {w w' : World σ}
    (hw : I w.ilm) (h : runCalls (Call.sem ilm) calls w = .ok ((), w')) : I w'.ilm := by
  refine runCalls_induction (P := fun w _ => I w.ilm) (G := fun _ _ _ => True) ?_ hw
    (.of_forall (fun _ _ _ _ => trivial) w) h
  intro call rest s s' hs _ hrun
  rcases call.sem_ends hI hs with ⟨c, hsem, hc⟩ | ⟨e, hsem, -⟩
  · rw [hsem] at hrun
    cases hrun
    exact hc
  · rw [hsem] at hrun
    cases hrun

/-- The compositor keeps its screens. -/
theorem Compositor.keeps_screens (strict : Bool) (P : List Id → Prop) :
    (Compositor.ilm strict).Keeps fun c => P c.screens := by
  refine ⟨fun op c hc => ?_, fun _ h => h, fun _ h => h, fun _ _ h => h, fun _ h => h⟩
  have hscreens : ((Compositor.ilm strict).call op c).2.screens = c.screens := by
    simp only [Compositor.ilm]
    split
    · cases op <;> rfl
    · rfl
  rwa [hscreens]

/-- A document all of whose screens are found makes the calls of its screen objects. -/
theorem parseScreenObjects_eq {I : σ → Prop} (hI : ilm.Keeps I) {screenAry : List Json}
    (hfound : ∀ screenJobj ∈ screenAry, ∀ c, I c →
      (ilm.getPropertiesOfScreen (idOf screenJobj) c).1 = true) {w : World σ} (hw : I w.ilm) :
    parseScreenObjects ilm screenAry w =
      (runCalls (Call.sem ilm) (documentCalls screenAry) >>= fun _ => pure 0) w := by
  induction screenAry generalizing w with
  | nil => rfl
  | cons screenJobj rest ih =>
    obtain ⟨hfirst, hrest⟩ := List.forall_mem_cons.mp hfound
    rw [parseScreenObjects_cons, hfirst w.ilm hw, if_neg nofun, documentCalls, List.flatMap_cons,
      Comp.bind_apply, Comp.bind_apply, runCalls_append, Comp.bind_apply]
    cases hcalls : runCalls (Call.sem ilm)
        (.findScreen (idOf screenJobj) :: screenCalls screenJobj) w with
    | ok r => exact (ih hrest (runCalls_keeps_ilm hI hw hcalls)).trans (Comp.bind_apply _ _ _)
    | error e => rfl

/-- A document that fails has made the calls of the screen objects before the one whose
screen was not found, and fails alike where it ends with any object for that screen. -/
theorem parseScreenObjects_fails {screenAry : List Json} {w w' : World σ} {ret : Int}
    (hret : ret < 0) (h : parseScreenObjects ilm screenAry w = .ok (ret, w')) :
    ∃ done screenJobj rest t, screenAry = done ++ screenJobj :: rest ∧
      runCalls (Call.sem ilm) (documentCalls done) w = .ok ((), t) ∧ w'.wm = t.wm ∧
      ∀ obj, idOf obj = idOf screenJobj →
        parseScreenObjects ilm (done ++ [obj]) w = .ok (-1, w') := by
  induction screenAry generalizing w with
  | nil =>
    cases h
    exact absurd hret (Int.lt_irrefl 0)
  | cons screenJobj rest ih =>
    rw [parseScreenObjects_cons] at h
    split at h
    · rename_i hunknown
      cases h
      refine ⟨[], screenJobj, rest, w, rfl, rfl, rfl, fun obj hid => ?_⟩
      rw [List.nil_append, parseScreenObjects_cons, hid, if_pos hunknown]
    · rename_i hfound
      obtain ⟨u, v, hcalls, hrest⟩ := Comp.bind_eq_ok.mp h
      obtain ⟨done, failing, rest, t, rfl, hdone, ht, hlast⟩ := ih hrest
      refine ⟨screenJobj :: done, failing, rest, t, rfl, ?_, ht, fun obj hid => ?_⟩
      · rw [documentCalls, List.flatMap_cons, runCalls_append_ok]
        exact ⟨v, hcalls, hdone⟩
      · rw [List.cons_append, parseScreenObjects_cons, if_neg hfound]
        exact Comp.bind_eq_ok.mpr ⟨u, v, hcalls, hlast obj hid⟩

/-! ## `initial_screen` -/

theorem parseInitScreenCommand_of_ok {jobject : Option Json} {version : Int}
    (hversion : parseVersion jobject = .ok version) (w : World σ) :
    parseInitScreenCommand ilm jobject w =
      (do
        let ret ← parseScreenObjects ilm ((parseScreens jobject).getD [])
        if ret < 0 then pure (-1) else do
          Call.sem ilm .setCallback
          pure 0) ⟨removeAll w.wm, w.ilm⟩ := by
  rw [parseInitScreenCommand, hversion]
  rfl

theorem parseInitScreenCommand_of_error {jobject : Option Json} {e : Abort}
    (hversion : parseVersion jobject = .error e) (w : World σ) :
    parseInitScreenCommand ilm jobject w = .error e := by
  rw [parseInitScreenCommand, hversion]
  rfl

end UhmiIviWm
