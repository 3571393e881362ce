import UhmiIviWm.Lib.PairedCalls
import UhmiIviWm.Model.Compositor
import UhmiIviWm.Verify.Commit
import UhmiIviWm.Verify.Steps

/-!
# Uninitialised locals

`decide_add_or_update_layer` and `decide_add_or_update_surface` fill in a local
struct that nothing has initialised. What they leave out of it is read all the
same: a layer object that is not complete keeps the layout of the struct, or all
of it, and a surface that is new to its layer always takes its count from it.
Two runs that start with different memory therefore go alike as long as the
parts read happen to agree (`uninit_unread`). No call can do with less: what it
puts is the same just where what it reads is (`layerToPut_withUninit`,
`surfaceToPut_withUninit`).
-/

namespace UhmiIviWm

open Lib Lib.CallPlan

variable {σ : Type}

/-! ## What a call reads -/

/-- The parts of the uninitialised local that the call reads are the same in both layouts. -/
def Call.ReadsSame : Call → Wm → Wm → Prop
  | .putLayer _ obj layerId _, wm, wm' =>
    getLayer wm.screenHead layerId = none →
      obj.HasSize ∧
          (obj.HasLayout ∨ (wm.uninit 0).layerProp.lp = (wm'.uninit 0).layerProp.lp) ∨
        (wm.uninit 0).layerProp = (wm'.uninit 0).layerProp
  | .putSurface layerElm obj surfaceId _, wm, wm' =>
    getSurface wm.screenHead layerElm surfaceId = none →
      (wm.uninit 0).surfaceProp.referredCnt = (wm'.uninit 0).surfaceProp.referredCnt ∧
        (obj.HasLayout ∨ (wm.uninit 0).surfaceProp.lp = (wm'.uninit 0).surfaceProp.lp)
  | _, _, _ => True

section Reads

variable {obj : Json}

theorem parseAddProperties_eq_iff {dst dst' : LayoutProperties} :
    (parseAddProperties dst (some obj)).2 = (parseAddProperties dst' (some obj)).2 ↔
      obj.HasLayout ∨ dst = dst' := by
  rcases parseAddProperties_cases dst obj with ⟨lp, hlp, h⟩ | ⟨hnot, h⟩
  · rcases parseAddProperties_cases dst' obj with ⟨lp', hlp', h'⟩ | ⟨hnot', -⟩
    · refine iff_of_true ?_ (.inl hlp.hasLayout)
      rw [h, h']
      exact Option.some.inj (hlp.read.symm.trans hlp'.read)
    · exact absurd hlp.hasLayout hnot'
  · rcases parseAddProperties_cases dst' obj with ⟨lp', hlp', -⟩ | ⟨-, h'⟩
    · exact absurd hlp'.hasLayout hnot
    · rw [h, h']
      exact (or_iff_right hnot).symm

theorem parseLayerProperties_eq_iff {dst dst' : LayerProperties} :
    (parseLayerProperties dst (some obj) .add).2 = (parseLayerProperties dst' (some obj) .add).2 ↔
      obj.HasSize ∧ (obj.HasLayout ∨ dst.lp = dst'.lp) ∨ dst = dst' := by
  by_cases hsize : obj.HasSize
  · obtain ⟨width, hwidth⟩ := Option.isSome_iff_exists.mp hsize.1
    obtain ⟨height, hheight⟩ := Option.isSome_iff_exists.mp hsize.2
    have hparse : ∀ d : LayerProperties, (parseLayerProperties d (some obj) .add).2 =
        ⟨width, height, (parseAddProperties d.lp (some obj)).2⟩ := by
      intro d
      simp only [parseLayerProperties, if_true, hwidth, hheight]
    rw [hparse, hparse, LayerProperties.mk.injEq, parseAddProperties_eq_iff]
    constructor
    · rintro ⟨-, -, h⟩
      exact .inl ⟨hsize, h⟩
    · rintro (⟨-, h⟩ | rfl)
      · exact ⟨rfl, rfl, h⟩
      · exact ⟨rfl, rfl, .inr rfl⟩
  · rw [parseLayerProperties_of_not_hasSize dst hsize, parseLayerProperties_of_not_hasSize dst' hsize]
    exact (or_iff_right fun h => hsize h.1).symm

theorem parseSurfaceProperties_eq_iff {dst dst' : SurfaceProperties} :
    (parseSurfaceProperties dst (some obj) .add).2 =
        (parseSurfaceProperties dst' (some obj) .add).2 ↔
      dst.referredCnt = dst'.referredCnt ∧ (obj.HasLayout ∨ dst.lp = dst'.lp) := by
  simp only [parseSurfaceProperties, if_true, SurfaceProperties.mk.injEq, parseAddProperties_eq_iff]

end Reads

/-! ## One call -/

/-- The layout with other memory under its locals. -/
def Wm.withUninit (wm : Wm) (uninit : Nat → Frame) : Wm := { wm with uninit }

/-- Equal trees and stores, and the same ilm state. -/
structure World.Same (w w' : World σ) : Prop where
  screenHead : w'.wm.screenHead = w.wm.screenHead
  surfacePropertiesHead : w'.wm.surfacePropertiesHead = w.wm.surfacePropertiesHead
  ilm : w'.ilm = w.ilm

theorem World.Same.wm {w w' : World σ} (h : w.Same w') :
    w'.wm = w.wm.withUninit w'.wm.uninit := by
  obtain ⟨⟨screenHead, store, uninit⟩, c⟩ := w'
  obtain ⟨rfl, rfl, -⟩ := h
  rfl

section Calls

variable {wm : Wm} {uninit : Nat → Frame}

/-- The properties a call puts are the same just where what it reads is. -/
theorem layerToPut_withUninit {screenElm layerId : Id} {obj : Json} {info : InsertInfo} :
    (wm.withUninit uninit).layerToPut obj layerId = wm.layerToPut obj layerId ↔
      (Call.putLayer screenElm obj layerId info).ReadsSame wm (wm.withUninit uninit) := by
  simp only [Wm.layerToPut, Call.ReadsSame, Wm.withUninit]
  cases h : getLayer wm.screenHead layerId with
  | none =>
    simp only [ListElement.mk.injEq, true_and, and_true, forall_const]
    rw [eq_comm, parseLayerProperties_eq_iff]
  | some e => simp only [reduceCtorEq, false_implies]

theorem surfaceToPut_withUninit {layerElm surfaceId : Id} {obj : Json} {info : InsertInfo} :
    (wm.withUninit uninit).surfaceToPut layerElm obj surfaceId =
        wm.surfaceToPut layerElm obj surfaceId ↔
      (Call.putSurface layerElm obj surfaceId info).ReadsSame wm (wm.withUninit uninit) := by
  simp only [Wm.surfaceToPut, Call.ReadsSame, Wm.withUninit]
  cases h : getSurface wm.screenHead layerElm surfaceId with
  | none =>
    simp only [Option.some.injEq, forall_const]
    rw [eq_comm, parseSurfaceProperties_eq_iff]
  | some e => simp only [reduceCtorEq, false_implies]

/-- A call that reads the same says the same to ilm, whatever library that is. -/
theorem Call.talk_withUninit {call : Call} (h : call.ReadsSame wm (wm.withUninit uninit))
    {τ : Type} (lib : Ilm τ) : call.talk lib (wm.withUninit uninit) = call.talk lib wm := by
  cases call with
  | putLayer screenElm obj layerId info =>
    simp only [Call.talk, layerToPut_withUninit.mpr h]
  | putSurface layerElm obj surfaceId info =>
    simp only [Call.talk, surfaceToPut_withUninit.mpr h]
  | _ => rfl

theorem Call.layout_withUninit {call : Call} (h : call.ReadsSame wm (wm.withUninit uninit)) :
    (call.layout (wm.withUninit uninit)).screenHead = (call.layout wm).screenHead ∧
      (call.layout (wm.withUninit uninit)).surfacePropertiesHead =
        (call.layout wm).surfacePropertiesHead := by
  cases call with
  | putLayer screenElm obj layerId info =>
    simp only [Call.layout, layerToPut_withUninit.mpr h]
    simp only [Wm.withUninit]
    cases getLayer wm.screenHead layerId <;> exact ⟨rfl, rfl⟩
  | putSurface layerElm obj surfaceId info =>
    simp only [Call.layout, surfaceToPut_withUninit.mpr h]
    simp only [Wm.withUninit]
    cases wm.surfaceToPut layerElm obj surfaceId with
    | none => exact ⟨rfl, rfl⟩
    | some prop => cases getSurface wm.screenHead layerElm surfaceId <;> exact ⟨rfl, rfl⟩
  | removeLayer layerId =>
    simp only [Call.layout, UhmiIviWm.removeLayer, Wm.withUninit]
    split <;> exact ⟨rfl, rfl⟩
  | removeSurface layerElm surfaceId =>
    simp only [Call.layout, UhmiIviWm.removeSurface, Wm.withUninit]
    split <;> exact ⟨rfl, rfl⟩
  | modifyLayer layerId obj =>
    simp only [Call.layout, Wm.withUninit]
    split <;> exact ⟨rfl, rfl⟩
  | modifySurface surfaceId obj =>
    simp only [Call.layout, Wm.withUninit]
    split <;> exact ⟨rfl, rfl⟩
  | openScreen screenId =>
    simp only [Call.layout, Wm.withUninit]
    split <;> exact ⟨rfl, rfl⟩
  | _ => exact ⟨rfl, rfl⟩

end Calls

/-- The condition on a call made side by side in two worlds. -/
def SameReads (w w' : World σ) (call : Call) : Prop := call.ReadsSame w.wm w'.wm

section Plans

variable {ilm : Ilm σ}

theorem Call.sem_alike (call : Call) (w w' : World σ) (hw : w.Same w') (h : SameReads w w' call) :
    Alike World.Same (call.sem ilm w) (call.sem ilm w') := by
  rw [SameReads, hw.wm] at h
  rw [Call.sem_eq, Call.sem_eq, hw.ilm, hw.wm, Call.talk_withUninit h]
  obtain ⟨hscreens, hstore⟩ := Call.layout_withUninit h
  cases call.talk ilm w.wm w.ilm with
  | ok r => exact .ok () ⟨hscreens, hstore, rfl⟩
  | error e => exact .error e

/-! ## Plans read no local -/

/-- The plans of the model, in two worlds that are the same. -/
abbrev Blind {α : Type} (p : StatePlan (Call.sem ilm) α) : Prop :=
  StatePlan.Blind World.Same SameReads p

theorem blind_document (screenAry : List Json) : Blind (documentPlan ilm screenAry) := by
  refine .loop Call.sem_alike fun screenJobj => ?_
  refine .seq Call.sem_alike (.looks fun w w' hw => by rw [hw.ilm]) fun found => ?_
  exact .seq Call.sem_alike (.fixed _) fun _ => .ite (.ret _) (.fixed _)

theorem blind_config (localHostname : String) (file : Option Json) :
    Blind (configPlan ilm localHostname file) := by
  cases file with
  | none => exact .ret _
  | some rootJobj =>
    refine .seq Call.sem_alike (.fixed _) fun _ => .loop Call.sem_alike fun targetJobj => ?_
    refine .seq Call.sem_alike (.fixed _) fun ret => .ite (.ret _) ?_
    exact .seq Call.sem_alike (blind_document _) fun ret => .ite (.ret _) (.ret _)

theorem blind_finish : Blind (finishPlan ilm) := by
  refine .seq Call.sem_alike (.looks fun w w' hw => by rw [hw.screenHead]) fun empty => ?_
  refine .ite ?_ (.fixed _)
  refine .seq Call.sem_alike (.looks fun w w' hw => by rw [hw.ilm]) fun screenArray => ?_
  exact .seq Call.sem_alike (.fixed _) fun _ => .seq Call.sem_alike (.fixed _) fun _ => .fixed _

theorem Boot.blind (boot : Boot) : Blind (boot.plan ilm) := by
  unfold Boot.plan
  cases boot.config with
  | none => exact blind_finish
  | some file => exact .seq Call.sem_alike (blind_config _ _) fun _ => blind_finish

theorem Command.blind (command : Command) (jobject : Option Json) :
    Blind (command.plan ilm jobject) := by
  -- a plan of an incremental command is a function of the two lists
  have hlists : ∀ plan : Wm → Plan Call Abort Int,
      (∀ wm uninit, plan (wm.withUninit uninit) = plan wm) →
      Blind (⟨fun w => plan w.wm⟩ : StatePlan (Call.sem ilm) Int) := by
    intro plan hplan w w' hw _
    change plan w'.wm = plan w.wm
    rw [hw.wm, hplan]
  cases command with
  | addSurface => exact hlists (planAddSurface · jobject) fun _ _ => rfl
  | removeSurface => exact hlists (planRemoveSurface · jobject) fun _ _ => rfl
  | modifySurface => exact hlists (planModifySurface · jobject) fun _ _ => rfl
  | addLayer => exact hlists (planAddLayer · jobject) fun _ _ => rfl
  | removeLayer => exact .fixed _
  | modifyLayer => exact .fixed _
  | initialScreen =>
    refine .seq Call.sem_alike (.fixed _) fun _ => .seq Call.sem_alike (.fixed _) fun _ => ?_
    refine .seq Call.sem_alike (blind_document _) fun ret => .ite (.ret _) ?_
    exact .seq Call.sem_alike (.fixed _) fun _ => .ret _

theorem Event.blind (e : Event) : Blind (e.plan ilm) := by
  match e with
  | .record ⟨.creationDelection, id⟩ => exact .fixed _
  | .record ⟨.surfacePropChange, id⟩ => exact .fixed _
  | .message body =>
    refine .seq Call.sem_alike (.fixed _) fun _ => .seq Call.sem_alike (.fixed _) fun name => ?_
    cases name.bind commandOfName with
    | none => exact .ret _
    | some command => exact .seq Call.sem_alike (command.blind body) fun _ => .ret _

end Plans

/-! ## Runs -/

/-- What a run is given step after step: an event, or a change of the compositor
by the rest of the system. -/
inductive Input (σ : Type) where
  | event (e : Event)
  | env (change : σ → σ)

section Runs

variable (ilm : Ilm σ)

def Input.perform : Input σ → WmM σ Unit
  | .event e => e.handle ilm
  | .env change => fun w => .ok ((), { w with ilm := change w.ilm })

/-- The calls of the handler, in the world it starts in. -/
def Input.calls : Input σ → World σ → List Call
  | .event e, w => e.calls ilm w
  | .env _, _ => []

/-- `parser_init`, then the inputs. -/
def runInputs (boot : Boot) (inputs : List (Input σ)) : WmM σ Unit := do
  parserInit ilm boot
  runCalls (Input.perform ilm) inputs

/-- Every call of the run that is made, one that aborts included, and the world it is made
in. -/
def conversation (boot : Boot) (inputs : List (Input σ)) (w : World σ) : List (Call × World σ) :=
  made (Call.sem ilm) (boot.calls ilm w) w.cleared ++
    match parserInit ilm boot w with
    | .ok (_, w₁) => (made (Input.perform ilm) inputs w₁).flatMap fun p =>
        made (Call.sem ilm) (p.1.calls ilm p.2) p.2
    | .error _ => []

/-- Whenever the two runs make a call, what it reads of its locals is the same in both. -/
structure ReadAlike (boot : Boot) (inputs : List (Input σ)) (w w' : World σ) : Prop where
  init : PairEach (Call.sem ilm) SameReads (boot.calls ilm w) w.cleared w'.cleared
  run : ∀ w₁ w₁', parserInit ilm boot w = .ok ((), w₁) → parserInit ilm boot w' = .ok ((), w₁') →
    PairEach (Input.perform ilm)
      (fun w w' input => PairEach (Call.sem ilm) SameReads (input.calls ilm w) w w') inputs w₁ w₁'

end Runs

/-- The same call, made from equal trees, stores and ilm states, with the same to say to
any library. -/
structure SameCall (p p' : Call × World σ) : Prop where
  call : p'.1 = p.1
  same : p.2.Same p'.2
  talk : ∀ {τ : Type} (lib : Ilm τ), p'.1.talk lib p'.2.wm = p.1.talk lib p.2.wm

section Runs

variable {ilm : Ilm σ} {w w' : World σ}

theorem made_sameCall {calls : List Call} (hw : w.Same w')
    (h : PairEach (Call.sem ilm) SameReads calls w w') :
    List.Forall₂ SameCall (made (Call.sem ilm) calls w) (made (Call.sem ilm) calls w') := by
  refine (made_alike Call.sem_alike hw h).imp ?_
  rintro ⟨call, v⟩ ⟨call', v'⟩ ⟨hcall, hv, hreads⟩
  obtain rfl : call = call' := hcall
  refine ⟨rfl, hv, fun lib => ?_⟩
  rw [SameReads, hv.wm] at hreads
  dsimp only
  rw [hv.wm]
  exact Call.talk_withUninit hreads lib

theorem Event.handle_alike (e : Event) (hw : w.Same w')
    (h : PairEach (Call.sem ilm) SameReads (e.calls ilm w) w w') :
    e.calls ilm w' = e.calls ilm w ∧ Alike World.Same (e.handle ilm w) (e.handle ilm w') := by
  have hplan := e.blind w w' hw h
  refine ⟨congrArg Plan.calls hplan, ?_⟩
  rw [e.handle_follows, e.handle_follows, hplan]
  exact Plan.run_alike Call.sem_alike hw h

theorem Input.perform_alike (input : Input σ) (w w' : World σ) (hw : w.Same w')
    (h : PairEach (Call.sem ilm) SameReads (input.calls ilm w) w w') :
    Alike World.Same (input.perform ilm w) (input.perform ilm w') := by
  cases input with
  | event e => exact (e.handle_alike hw h).2
  | env change => exact .ok () ⟨hw.screenHead, hw.surfacePropertiesHead, congrArg change hw.ilm⟩

theorem Input.made_sameCall (input : Input σ) (hw : w.Same w')
    (h : PairEach (Call.sem ilm) SameReads (input.calls ilm w) w w') :
    List.Forall₂ SameCall (made (Call.sem ilm) (input.calls ilm w) w)
      (made (Call.sem ilm) (input.calls ilm w') w') := by
  cases input with
  | event e =>
    have hcalls := (e.handle_alike hw h).1
    change List.Forall₂ SameCall (made _ (e.calls ilm w) w) (made _ (e.calls ilm w') w')
    rw [hcalls]
    exact UhmiIviWm.made_sameCall hw h
  | env change => exact .nil

theorem World.Same.cleared (h : w'.ilm = w.ilm) : w.cleared.Same w'.cleared := ⟨rfl, rfl, h⟩

theorem parserInit_alike {boot : Boot} (hw : w'.ilm = w.ilm)
    (h : PairEach (Call.sem ilm) SameReads (boot.calls ilm w) w.cleared w'.cleared) :
    boot.calls ilm w' = boot.calls ilm w ∧
      Alike World.Same (parserInit ilm boot w) (parserInit ilm boot w') := by
  have hplan := boot.blind w.cleared w'.cleared (.cleared hw) h
  refine ⟨congrArg Plan.calls hplan, ?_⟩
  rw [parserInit_eq, parserInit_eq, hplan]
  exact Plan.run_alike Call.sem_alike (.cleared hw) h

end Runs

/-- Two runs that start with the same compositor, whatever is in their memory. -/
theorem uninit_unread (ilm : Ilm σ) {boot : Boot} {inputs : List (Input σ)} {w w' : World σ}
    (hw : w'.ilm = w.ilm) (h : ReadAlike ilm boot inputs w w') :
    Alike World.Same (runInputs ilm boot inputs w) (runInputs ilm boot inputs w') ∧
      List.Forall₂ SameCall (conversation ilm boot inputs w)
        (conversation ilm boot inputs w') := by
  obtain ⟨hcalls, hboth⟩ := parserInit_alike hw h.init
  refine ⟨.bind hboth fun _ w₁ w₁' h₁ h₁' hsame => ?_, ?_⟩
  · exact runCalls_alike Input.perform_alike hsame (h.run w₁ w₁' h₁ h₁')
  · have hinit : List.Forall₂ SameCall (made (Call.sem ilm) (boot.calls ilm w) w.cleared)
        (made (Call.sem ilm) (boot.calls ilm w') w'.cleared) := by
      rw [hcalls]
      exact made_sameCall (.cleared hw) h.init
    refine List.rel_append hinit ?_
    have hrun := h.run
    generalize parserInit ilm boot w = r at hboth hrun
    generalize parserInit ilm boot w' = r' at hboth hrun
    cases hboth with
    | ok u hsame =>
      have hmade := made_alike Input.perform_alike hsame (hrun _ _ rfl rfl)
      refine List.rel_flatMap hmade fun p p' ⟨hinput, hp, hreads⟩ => ?_
      rw [← hinput]
      exact p.1.made_sameCall hp hreads
    | error e => exact .nil

/-! ## Two memories -/

/-- What the memory under the locals holds in the second of two runs. -/
def leftovers : Frame :=
  ⟨⟨1, 2, ⟨1, 2, 3, 4, 5, 6, 7, 8, .ofBits 1, 9⟩⟩, ⟨5, ⟨1, 2, 3, 4, 5, 6, 7, 8, .ofBits 1, 9⟩⟩⟩

/-- A layer object with every field. -/
def completeLayer (id : Int64) : Json :=
  .object [("id", .integer id), ("width", .integer 800), ("height", .integer 600),
    ("src_x", .integer 0), ("src_y", .integer 0), ("src_w", .integer 800), ("src_h", .integer 600),
    ("dst_x", .integer 0), ("dst_y", .integer 0), ("dst_w", .integer 800), ("dst_h", .integer 600),
    ("opacity", .integer 1), ("visibility", .integer 1)]

/-- A default start and an `add_layer` of a complete layer. -/
theorem uninit_unread_completeLayer :
    let inputs : List (Input Compositor) :=
      [.event (message "add_layer" "screens" [screenObject 0 "append" [completeLayer 3000]])]
    let w : World Compositor := World.fresh [0]
    let w' : World Compositor := ⟨w.wm.withUninit fun _ => leftovers, w.ilm⟩
    Alike World.Same (runInputs (Compositor.ilm false) ⟨"host", none⟩ inputs w)
        (runInputs (Compositor.ilm false) ⟨"host", none⟩ inputs w') ∧
      List.Forall₂ SameCall (conversation (Compositor.ilm false) ⟨"host", none⟩ inputs w)
        (conversation (Compositor.ilm false) ⟨"host", none⟩ inputs w') := by
  intro inputs w w'
  have hread : ReadAlike (Compositor.ilm false) ⟨"host", none⟩ inputs w w' := by
    refine ⟨⟨trivial, trivial, trivial, trivial⟩, fun w₁ w₁' h₁ h₁' => ?_⟩
    have hcomplete : (completeLayer 3000).HasSize ∧ (completeLayer 3000).HasLayout := by decide
    cases h₁
    cases h₁'
    refine ⟨⟨fun _ => .inl ⟨hcomplete.1, .inl hcomplete.2⟩, ?_⟩, ?_⟩
    · split
      · exact ⟨trivial, by split <;> trivial⟩
      · trivial
    · split <;> trivial
  exact uninit_unread (Compositor.ilm false) rfl hread

/-- A surface added to a layer, over a local that held a count of 0 and over one that held 5. -/
theorem uninit_counted :
    ¬ ∀ (boot : Boot) (inputs : List (Input Compositor)) (w w' : World Compositor),
      w'.ilm = w.ilm →
      Alike World.Same (runInputs (Compositor.ilm false) boot inputs w)
          (runInputs (Compositor.ilm false) boot inputs w') ∧
        List.Forall₂ SameCall (conversation (Compositor.ilm false) boot inputs w)
          (conversation (Compositor.ilm false) boot inputs w') := by
  intro h
  have hboth := (h ⟨"host", none⟩
    [.event (message "add_layer" "screens" [screenObject 0 "append" [layerObject 3000 []]]),
      .event (message "add_surface" "screens"
        [screenObject 0 "append" [layerObject 3000 [surfaceObject 10]]])]
    (World.fresh [0]) ⟨(World.fresh [0]).wm.withUninit fun _ => leftovers, .empty [0]⟩ rfl).1
  have hcounts : ∀ r r' : Except Abort (Unit × World Compositor), Alike World.Same r r' →
      r'.toOption.map (fun p => p.2.wm.surfacePropertiesHead.map (·.prop.referredCnt)) =
        r.toOption.map fun p => p.2.wm.surfacePropertiesHead.map (·.prop.referredCnt) := by
    intro r r' hr
    cases hr with
    | ok u hsame =>
      simp only [Except.toOption, Option.map_some, hsame.surfacePropertiesHead]
    | error e => rfl
  exact absurd (hcounts _ _ hboth) (by decide +kernel)

end UhmiIviWm
