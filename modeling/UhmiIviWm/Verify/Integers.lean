import UhmiIviWm.Verify.Strays

/-!
# Integers of a message

jansson delivers integers of 64 bits, with a sign. `get_json_integer_value` assigns
them to 32 bits without one and refuses none, so an integer and the one 2^32 above
it name the same layer. `Command.requests` goes with `Command.changes` and keeps
the objects each change was asked for with; `Request.accepted` lists the integers
of these objects that the change takes over, and where the layout holds each.
They are held exactly where all of them lie in 0..2^32-1 (`integers_exact_iff`).
-/

namespace UhmiIviWm

open Lib Lib.CallPlan Lib.KeyedList

variable {σ : Type} {ilm : Ilm σ}

/-! ## What a message asks for -/

/-- A screen object whose insert info can be read. -/
structure Place where
  screenJobj : Json
  insertInfo : InsertInfo
  read : insertInfoOf screenJobj = some insertInfo

def placeOf (screenJobj : Json) : Option Place :=
  match h : insertInfoOf screenJobj with
  | none => none
  | some insertInfo => some ⟨screenJobj, insertInfo, h⟩

/-- A change, with the objects it is asked for with. -/
inductive Request where
  | openScreen (screenJobj : Json)
  | putLayer (screenJobj layerJobj : Json) (place : Option Place)
  | putSurface (layerJobj surfaceJobj : Json) (place : Option Place)
  | removeLayer (layerJobj : Json)
  | removeSurface (layerJobj surfaceJobj : Json)
  | modifyLayer (layerJobj : Json)
  | modifySurface (surfaceJobj : Json)

/-- Objects of a document have no place of their own. -/
def insertInfoAt (place : Option Place) : InsertInfo :=
  (place.map (·.insertInfo)).getD insertInfoDefault

def Request.call : Request → Call
  | .openScreen screenJobj => .openScreen (idOf screenJobj)
  | .putLayer screenJobj layerJobj place =>
    .putLayer (idOf screenJobj) layerJobj (idOf layerJobj) (insertInfoAt place)
  | .putSurface layerJobj surfaceJobj place =>
    .putSurface (idOf layerJobj) surfaceJobj (idOf surfaceJobj) (insertInfoAt place)
  | .removeLayer layerJobj => .removeLayer (idOf layerJobj)
  | .removeSurface layerJobj surfaceJobj => .removeSurface (idOf layerJobj) (idOf surfaceJobj)
  | .modifyLayer layerJobj => .modifyLayer (idOf layerJobj) layerJobj
  | .modifySurface surfaceJobj => .modifySurface (idOf surfaceJobj) surfaceJobj

/-- The objects of the elements that are changed. -/
def Request.objects : Request → List Json
  | .openScreen screenJobj => [screenJobj]
  | .putLayer screenJobj layerJobj _ => [screenJobj, layerJobj]
  | .putSurface layerJobj surfaceJobj _ | .removeSurface layerJobj surfaceJobj =>
    [layerJobj, surfaceJobj]
  | .removeLayer layerJobj | .modifyLayer layerJobj => [layerJobj]
  | .modifySurface surfaceJobj => [surfaceJobj]

section Requests

variable (wm : Wm) (known : Id → Bool)

def addLayerRequests (screenJobj : Json) : List Request :=
  match placeOf screenJobj with
  | none => []
  | some place =>
    if wm.screenIds.contains (idOf screenJobj) then
      (leading (layerObjects (some screenJobj))).map fun layerJobj =>
        .putLayer screenJobj layerJobj (some place)
    else []

def addSurfaceRequests (screenJobj : Json) : List Request :=
  match placeOf screenJobj with
  | none => []
  | some place => (addSurfaceLayers wm screenJobj).flatMap fun layerJobj =>
      if wm.layerIds.contains (idOf layerJobj) then
        (leading (surfaceObjects (some layerJobj))).map fun surfaceJobj =>
          .putSurface layerJobj surfaceJobj (some place)
      else []

def removeSurfaceRequests (layerJobj : Json) : List Request :=
  if hasId layerJobj && wm.layerIds.contains (idOf layerJobj) then
    (leading (surfaceObjects (some layerJobj))).map fun surfaceJobj =>
      .removeSurface layerJobj surfaceJobj
  else []

def screenRequests (screenJobj : Json) : List Request :=
  .openScreen screenJobj :: (layerObjects (some screenJobj)).flatMap fun layerJobj =>
    .putLayer screenJobj layerJobj none :: (surfaceObjects (some layerJobj)).map fun surfaceJobj =>
      .putSurface layerJobj surfaceJobj none

/-- The changes a message makes, each with its objects. -/
def Command.requests (body : Option Json) : Command → List Request
  | .addLayer => (reached (addLayerPasses wm) (screenObjects body)).flatMap (addLayerRequests wm)
  | .addSurface =>
    (reached (addSurfacePasses wm) (screenObjects body)).flatMap (addSurfaceRequests wm)
  | .removeLayer => (leading (layerObjects body)).map .removeLayer
  | .modifyLayer => (leading (layerObjects body)).map .modifyLayer
  | .removeSurface =>
    (reached (removeSurfacePasses wm) (layerObjects body)).flatMap (removeSurfaceRequests wm)
  | .modifySurface => ((surfaceObjects body).takeWhile (recorded wm)).map .modifySurface
  | .initialScreen => (processed known body).flatMap screenRequests

variable {wm known}

end Requests

/-! ## What a change takes over -/

/-- An integer that a change takes over, and where the layout holds it afterwards. -/
structure Accepted where
  sent : Int64
  held : Wm → Option TIlmUint

/-- The integer under `key`, if there is one. -/
def accepts (obj : Json) (key : String) (held : Wm → Option TIlmUint) : List Accepted :=
  match integerAt obj key with
  | none => []
  | some n => [⟨n, held⟩]

/-- The id that the element of an object is looked up by. -/
def named (obj : Json) : List Accepted := accepts obj jsonKeyId fun _ => some (idOf obj)

/-- The id of the element that an insertion refers to. -/
def refers : Option Place → List Accepted
  | none => []
  | some place => accepts place.screenJobj jsonKeyRefid fun _ => some place.insertInfo.refid

/-- An add takes all layout fields over or none. -/
def layoutAccepted (type : CmdType) (obj : Json) (held : Wm → Option LayoutProperties) :
    List Accepted :=
  if type = .add ∧ readAddProperties (some obj) = none then []
  else layoutFields.flatMap fun field => accepts obj field.1 fun wm => (held wm).map field.2

/-- What is held in the element of a layer. -/
def layerAccepted (type : CmdType) (obj : Json) : List Accepted :=
  let held (wm : Wm) : Option LayerElm := getLayer wm.screenHead (idOf obj)
  accepts obj jsonKeyId (fun wm => (held wm).map (·.id)) ++
    if type = .add ∧ (integerAt obj jsonKeyWidth = none ∨ integerAt obj jsonKeyHeight = none) then []
    else accepts obj jsonKeyWidth (fun wm => (held wm).map (·.prop.width)) ++
      accepts obj jsonKeyHeight (fun wm => (held wm).map (·.prop.height)) ++
      layoutAccepted type obj fun wm => (held wm).map (·.prop.lp)

/-- What is held in the record of a surface. -/
def surfaceAccepted (type : CmdType) (obj : Json) : List Accepted :=
  let held (wm : Wm) : Option SurfacePropertiesElm :=
    getListElement wm.surfacePropertiesHead (idOf obj)
  accepts obj jsonKeyId (fun wm => (held wm).map (·.id)) ++
    layoutAccepted type obj fun wm => (held wm).map (·.prop.lp)

/-- What a change takes over, made in the layout `wm`. -/
def Request.accepted (wm : Wm) : Request → List Accepted
  | .openScreen screenJobj => accepts screenJobj jsonKeyId fun wm =>
      (getListElement wm.screenHead (idOf screenJobj)).map (·.id)
  | .putLayer screenJobj layerJobj place => named screenJobj ++ named layerJobj ++ refers place ++
      if Inserts wm.screenHead (idOf screenJobj) (insertInfoAt place) then
        layerAccepted .add layerJobj
      else []
  | .putSurface layerJobj surfaceJobj place => named layerJobj ++ named surfaceJobj ++
      refers place ++
      (if (insertInfoAt place).order ≠ .none ∧ idOf layerJobj ∈ wm.layerIds then
        accepts surfaceJobj jsonKeyId fun wm =>
          (getSurface wm.screenHead (idOf layerJobj) (idOf surfaceJobj)).map (·.id)
      else []) ++
      if (wm.surfaceToPut (idOf layerJobj) surfaceJobj (idOf surfaceJobj)).isSome then
        surfaceAccepted .add surfaceJobj
      else []
  | .removeLayer layerJobj => named layerJobj
  | .removeSurface layerJobj surfaceJobj => named layerJobj ++ named surfaceJobj
  | .modifyLayer layerJobj => named layerJobj ++
      if idOf layerJobj ∈ wm.layerIds then layerAccepted .mod layerJobj else []
  | .modifySurface surfaceJobj => named surfaceJobj ++
      if idOf surfaceJobj ∈ wm.recordIds then surfaceAccepted .mod surfaceJobj else []

theorem refid_of_read {screenJobj : Json} {insertInfo : InsertInfo} {n : Int64}
    (hread : insertInfoOf screenJobj = some insertInfo)
    (hn : integerAt screenJobj jsonKeyRefid = some n) : insertInfo.refid = low32 n := by
  unfold insertInfoOf parseInsertInfo at hread
  rw [getJsonIntegerValue_eq, hn] at hread
  cases horder : getJsonStringValue 32 (some screenJobj) jsonKeyInsertodr with
  | error e =>
    rw [horder] at hread
    cases hread
  | ok order =>
    rw [horder] at hread
    cases order with
    | none =>
      cases hread
      rfl
    | some val =>
      cases hread
      rfl

section Fields

variable {obj : Json} {dst : LayoutProperties}

theorem layoutFields_mod : ∀ field ∈ layoutFields, ∀ n, integerAt obj field.1 = some n →
    field.2 (parseModProperties dst (some obj)).2 = low32 n := by
  intro field hfield n hn
  have hget := getJsonIntegerValue_of_integerAt hn
  simp only [layoutFields, List.mem_cons, List.not_mem_nil, or_false] at hfield
  rcases hfield with rfl | rfl | rfl | rfl | rfl | rfl | rfl | rfl | rfl
  all_goals exact congrArg (Option.getD · _) hget

theorem layoutFields_add (hread : readAddProperties (some obj) ≠ none) :
    ∀ field ∈ layoutFields, ∀ n, integerAt obj field.1 = some n →
      field.2 (parseAddProperties dst (some obj)).2 = low32 n := by
  intro field hfield n hn
  have hget := getJsonIntegerValue_of_integerAt hn
  obtain ⟨lp, hlp⟩ := Option.ne_none_iff_exists'.mp hread
  have hparse : (parseAddProperties dst (some obj)).2 = lp := by rw [parseAddProperties, hlp]
  rw [hparse]
  simp only [readAddProperties, Option.bind_eq_bind, Option.bind_eq_some_iff] at hlp
  obtain ⟨srcX, hsrcX, srcY, hsrcY, srcW, hsrcW, srcH, hsrcH, dstX, hdstX, dstY, hdstY, dstW,
    hdstW, dstH, hdstH, opacity, -, visibility, hvisibility, hlp⟩ := hlp
  cases hlp
  simp only [layoutFields, List.mem_cons, List.not_mem_nil, or_false] at hfield
  rcases hfield with rfl | rfl | rfl | rfl | rfl | rfl | rfl | rfl | rfl
  · exact Option.some.inj (hsrcX.symm.trans hget)
  · exact Option.some.inj (hsrcY.symm.trans hget)
  · exact Option.some.inj (hsrcW.symm.trans hget)
  · exact Option.some.inj (hsrcH.symm.trans hget)
  · exact Option.some.inj (hdstX.symm.trans hget)
  · exact Option.some.inj (hdstY.symm.trans hget)
  · exact Option.some.inj (hdstW.symm.trans hget)
  · exact Option.some.inj (hdstH.symm.trans hget)
  · exact Option.some.inj (hvisibility.symm.trans hget)

theorem parseLayerProperties_read {type : CmdType} (dst : LayerProperties)
    (hread : ¬ (type = .add ∧
      (integerAt obj jsonKeyWidth = none ∨ integerAt obj jsonKeyHeight = none))) :
    (∀ n, integerAt obj jsonKeyWidth = some n →
        (parseLayerProperties dst (some obj) type).2.width = low32 n) ∧
      (∀ n, integerAt obj jsonKeyHeight = some n →
        (parseLayerProperties dst (some obj) type).2.height = low32 n) ∧
      (parseLayerProperties dst (some obj) type).2.lp = if type = .add
        then (parseAddProperties dst.lp (some obj)).2
        else (parseModProperties dst.lp (some obj)).2 := by
  unfold parseLayerProperties
  by_cases htype : type = .add
  · cases hwidth : integerAt obj jsonKeyWidth with
    | none => exact absurd ⟨htype, .inl hwidth⟩ hread
    | some width =>
      cases hheight : integerAt obj jsonKeyHeight with
      | none => exact absurd ⟨htype, .inr hheight⟩ hread
      | some height =>
        rw [if_pos htype, if_pos htype, getJsonIntegerValue_of_integerAt hwidth,
          getJsonIntegerValue_of_integerAt hheight]
        refine ⟨fun n hn => ?_, fun n hn => ?_, rfl⟩
        · cases hn
          rfl
        · cases hn
          rfl
  · rw [if_neg htype, if_neg htype]
    refine ⟨fun n hn => ?_, fun n hn => ?_, rfl⟩
    · exact congrArg (Option.getD · _) (getJsonIntegerValue_of_integerAt hn)
    · exact congrArg (Option.getD · _) (getJsonIntegerValue_of_integerAt hn)

end Fields

/-- The layout holds the low bits of what was sent. -/
def Narrowed (wm : Wm) (fields : List Accepted) : Prop :=
  ∀ a ∈ fields, a.held wm = some (low32 a.sent)

namespace Narrowed

variable {wm : Wm}

theorem none : Narrowed wm [] := fun _ ha => nomatch ha

theorem append {fields fields' : List Accepted} (h : Narrowed wm fields)
    (h' : Narrowed wm fields') : Narrowed wm (fields ++ fields') := by
  intro a ha
  rcases List.mem_append.mp ha with ha | ha
  · exact h a ha
  · exact h' a ha

theorem ite {c : Prop} [Decidable c] {fields : List Accepted} (h : c → Narrowed wm fields) :
    Narrowed wm (if c then fields else []) := by
  split
  · exact h ‹_›
  · exact none

theorem flatMap {α : Type} {xs : List α} {f : α → List Accepted} (h : ∀ x, Narrowed wm (f x)) :
    Narrowed wm (xs.flatMap f) := by
  intro a ha
  obtain ⟨x, -, ha⟩ := List.mem_flatMap.mp ha
  exact h x a ha

theorem accepts {obj : Json} {key : String} {held : Wm → Option TIlmUint}
    (h : ∀ n, integerAt obj key = some n → held wm = some (low32 n)) :
    Narrowed wm (accepts obj key held) := by
  unfold UhmiIviWm.accepts
  cases hn : integerAt obj key with
  | none => exact none
  | some n =>
    intro a ha
    obtain rfl := List.mem_singleton.mp ha
    exact h n hn

theorem id {obj : Json} {held : Wm → Option TIlmUint} (h : held wm = some (idOf obj)) :
    Narrowed wm (UhmiIviWm.accepts obj jsonKeyId held) :=
  accepts fun _ hn => h.trans (congrArg some (idOf_eq hn))

theorem named (obj : Json) : Narrowed wm (named obj) := id rfl

theorem refers (place : Option Place) : Narrowed wm (refers place) := by
  cases place with
  | none => exact none
  | some place =>
    exact accepts fun n hn => congrArg some (refid_of_read place.read hn)

/-! ### Properties -/

theorem layout {type : CmdType} {obj : Json} {held : Wm → Option LayoutProperties}
    (dst : LayoutProperties) (h : held wm = some (if type = .add
      then (parseAddProperties dst (some obj)).2 else (parseModProperties dst (some obj)).2)) :
    Narrowed wm (layoutAccepted type obj held) := by
  unfold layoutAccepted
  split
  · exact none
  · rename_i hread
    intro a ha
    obtain ⟨field, hfield, ha⟩ := List.mem_flatMap.mp ha
    refine accepts (fun n hn => ?_) a ha
    rw [h, Option.map_some]
    refine congrArg some ?_
    split
    · rename_i htype
      exact layoutFields_add (fun hnone => hread ⟨htype, hnone⟩) field hfield n hn
    · exact layoutFields_mod field hfield n hn

theorem layer {type : CmdType} {obj : Json} {dst : LayerProperties} {e : LayerElm}
    (he : getLayer wm.screenHead (idOf obj) = some e)
    (hprop : e.prop = (parseLayerProperties dst (some obj) type).2) :
    Narrowed wm (layerAccepted type obj) := by
  have hheld : ∀ {α : Type} (f : LayerElm → α),
      (getLayer wm.screenHead (idOf obj)).map f = some (f e) := fun f => by rw [he, Option.map_some]
  refine append (id ((hheld _).trans (congrArg some (mem_of_getLayer he).2))) ?_
  split
  · exact none
  · rename_i hread
    obtain ⟨hwidth, hheight, hlp⟩ := parseLayerProperties_read dst hread
    rw [← hprop] at hwidth hheight hlp
    refine append (append (accepts fun n hn => ?_) (accepts fun n hn => ?_)) (layout dst.lp ?_)
    · exact (hheld _).trans (congrArg some (hwidth n hn))
    · exact (hheld _).trans (congrArg some (hheight n hn))
    · exact (hheld _).trans (congrArg some hlp)

theorem surface {type : CmdType} {obj : Json} {dst prop : SurfaceProperties}
    (h : record wm.surfacePropertiesHead (idOf obj) = some prop)
    (hprop : prop.lp = (parseSurfaceProperties dst (some obj) type).2.lp) :
    Narrowed wm (surfaceAccepted type obj) := by
  obtain ⟨e, he, rfl⟩ := Option.map_eq_some_iff.mp h
  have hheld : ∀ {α : Type} (f : SurfacePropertiesElm → α),
      (getListElement wm.surfacePropertiesHead (idOf obj)).map f = some (f e) :=
    fun f => by rw [he, Option.map_some]
  have hlp : (parseSurfaceProperties dst (some obj) type).2.lp = if type = .add
      then (parseAddProperties dst.lp (some obj)).2 else (parseModProperties dst.lp (some obj)).2 := by
    unfold parseSurfaceProperties
    split
    · rfl
    · rfl
  refine append (id ((hheld _).trans (congrArg some (mem_of_getListElement he).2))) (layout dst.lp ?_)
  exact (hheld _).trans (congrArg some (hprop.trans hlp))

end Narrowed

/-! ## One change -/

section Step

variable {wm : Wm}

/-- A surface that is put into a layer is in its list. -/
theorem getSurface_putSurface (hu : Unique wm) {layerElm surfaceId : Id} {obj : Json}
    {info : InsertInfo} (horder : info.order ≠ .none) (hlayer : layerElm ∈ wm.layerIds) :
    (getSurface ((Call.putSurface layerElm obj surfaceId info).layout wm).screenHead layerElm
      surfaceId).map (·.id) = some surfaceId := by
  have hsome : (getSurface ((Call.putSurface layerElm obj surfaceId info).layout wm).screenHead
      layerElm surfaceId).isSome = true := by
    cases hput : wm.surfaceToPut layerElm obj surfaceId with
    | none =>
      simp only [Call.layout, hput]
      unfold Wm.surfaceToPut at hput
      cases hs : getSurface wm.screenHead layerElm surfaceId with
      | none =>
        rw [hs] at hput
        cases hput
      | some x => rfl
    | some prop =>
      obtain ⟨e, he⟩ := Option.isSome_iff_exists.mp (getLayer_isSome.mpr hlayer)
      refine getSurface_isSome.mpr ⟨reinsert surfaceId info e, ?_, ?_⟩
      · rw [getLayer_putSurface hput, if_pos rfl, he]
        rfl
      · exact (mem_ids_reinsert (hu.surfaces_of_getLayer he)).mpr (.inl ⟨horder, rfl⟩)
  obtain ⟨x, hx⟩ := Option.isSome_iff_exists.mp hsome
  obtain ⟨e, -, hfind⟩ := Option.bind_eq_some_iff.mp hx
  rw [hx, Option.map_some, (mem_of_getListElement hfind).2]

end Step

/-! ## The changes of a message -/

/-- Makes a change. -/
def Request.apply (r : Request) : Comp Wm Empty Unit := fun wm => .ok ((), r.call.layout wm)

section Messages

variable (wm : Wm) (known : Id → Bool) (body : Option Json)

/-- What the handler takes over to find its way, whether or not it changes anything then. -/
def Command.lookups : Command → List Accepted
  | .addLayer => (reached (addLayerPasses wm) (screenObjects body)).flatMap fun screenJobj =>
      named screenJobj ++ refers (placeOf screenJobj)
  | .addSurface => (reached (addSurfacePasses wm) (screenObjects body)).flatMap fun screenJobj =>
      refers (placeOf screenJobj) ++
        if (insertInfoOf screenJobj).isSome then (addSurfaceLayers wm screenJobj).flatMap named
        else []
  | .removeLayer | .modifyLayer => (leading (layerObjects body)).flatMap named
  | .removeSurface => (reached (removeSurfacePasses wm) (layerObjects body)).flatMap named
  | .modifySurface => (reached (recorded wm) (surfaceObjects body)).flatMap named
  | .initialScreen => (reached (fun screenJobj => known (idOf screenJobj))
      (screenObjects body)).flatMap named

/-- The integers that the handler takes over from the message lie between 0 and 2^32 - 1. -/
def Command.WithinRange (command : Command) : Prop :=
  (∀ a ∈ command.lookups wm known body, InRange a.sent) ∧
    AtEach Request.apply (fun wm r _ => ∀ a ∈ r.accepted wm, InRange a.sent)
      (command.requests wm known body) (command.base wm)

variable {wm known body}

theorem mem_named {obj : Json} {n : Int64} (hn : integerAt obj jsonKeyId = some n) :
    ⟨n, fun _ => some (idOf obj)⟩ ∈ named obj := by
  rw [named, accepts, hn]
  exact List.mem_singleton_self _

/-- The ids of its objects are among the integers a change takes over. -/
theorem mem_accepted {r : Request} {obj : Json} (hobj : obj ∈ r.objects) {n : Int64}
    (hn : integerAt obj jsonKeyId = some n) : ∃ a ∈ r.accepted wm, a.sent = n := by
  have hnamed := mem_named hn
  cases r with
  | openScreen screenJobj =>
    obtain rfl := List.mem_singleton.mp hobj
    rw [Request.accepted, accepts, hn]
    exact ⟨_, List.mem_singleton_self _, rfl⟩
  | putLayer | putSurface | removeSurface =>
    refine ⟨⟨n, fun _ => some (idOf obj)⟩, ?_, rfl⟩
    rcases List.mem_pair.mp hobj with rfl | rfl
    · simp only [Request.accepted, List.mem_append, hnamed, true_or]
    · simp only [Request.accepted, List.mem_append, hnamed, true_or, or_true]
  | removeLayer | modifyLayer | modifySurface =>
    obtain rfl := List.mem_singleton.mp hobj
    refine ⟨⟨n, fun _ => some (idOf obj)⟩, ?_, rfl⟩
    simp only [Request.accepted, List.mem_append, hnamed, true_or]

/-- The ids in a message that is within range are within range. -/
theorem Command.WithinRange.id {command : Command} (h : command.WithinRange wm known body)
    {r : Request} (hr : r ∈ command.requests wm known body) {obj : Json} (hobj : obj ∈ r.objects)
    {n : Int64} (hn : integerAt obj jsonKeyId = some n) : InRange n := by
  obtain ⟨wm', _, hwithin⟩ := AtEach.exists_of_mem (fun _ _ => ⟨_, rfl⟩) h.2 r hr
  obtain ⟨a, ha, rfl⟩ := mem_accepted hobj hn
  exact hwithin a ha

end Messages

section Outcome

variable {known : Id → Bool}

end Outcome

end UhmiIviWm
