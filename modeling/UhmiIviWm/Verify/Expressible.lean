import UhmiIviWm.Verify.Faithful
import UhmiIviWm.Verify.Records
import UhmiIviWm.Verify.Reset
import UhmiIviWm.Verify.Strings

/-!
# Every layout can be written down

However a layout has come about, there is a document that says the same (`Wm.docs`): the
tree it stands for is the tree of the layout (`tree_of_docs`). As an `initial_screen`
message (`snapshot`) it leads from any layout back to this one (`snapshot_restores`).
-/

namespace UhmiIviWm

open Lib Lib.CallPlan Lib.KeyedList Lib.Occurrences Lib.TransitionSystem

/-! ## The document of a layout -/

/-- The layout stored for a surface. -/
def Wm.layoutOf (wm : Wm) (surfaceId : Id) : LayoutProperties :=
  ((record wm.surfacePropertiesHead surfaceId).getD .zero).lp

def Wm.surfaceDoc (wm : Wm) (x : SurfaceElm) : SurfaceDoc := ⟨x.id, wm.layoutOf x.id⟩

def Wm.layerDoc (wm : Wm) (e : LayerElm) : LayerDoc :=
  ⟨e.id, e.prop, e.listHead.map wm.surfaceDoc⟩

/-- The screens of the layout with all that is on them. -/
def Wm.docs (wm : Wm) : List ScreenDoc :=
  wm.screenHead.map fun s => ⟨s.id, s.listHead.map wm.layerDoc⟩

section Docs

variable {wm : Wm}

theorem screens_docs : (Outline.of wm.docs).screens = wm.screenIds :=
  List.map_map

theorem layers_docs : (Outline.of wm.docs).layers =
    wm.screenHead.flatMap fun s => s.listHead.map fun e => ⟨s.id, e.id, e.prop⟩ := by
  rw [Outline.of, Wm.docs, List.flatMap_map]
  refine congrArg (List.flatMap · _) (funext fun s => ?_)
  exact List.map_map

theorem surfaces_docs : (Outline.of wm.docs).surfaces =
    (layersOf wm.screenHead).flatMap fun e =>
      e.listHead.map fun x => ⟨e.id, x.id, wm.layoutOf x.id⟩ := by
  have hsurfaces : (Outline.of wm.docs).surfaces = wm.docs.flatMap fun s =>
      s.layers.flatMap fun l => l.surfaces.map fun x => ⟨l.id, x.id, x.layout⟩ := rfl
  rw [hsurfaces, Wm.docs, List.flatMap_map, layersOf, List.flatMap_assoc]
  refine congrArg (List.flatMap · _) (funext fun s => ?_)
  rw [List.flatMap_map]
  refine congrArg (List.flatMap · _) (funext fun e => ?_)
  exact List.map_map

theorem layerIds_docs : (Outline.of wm.docs).layers.map (·.id) = wm.layerIds := by
  rw [layers_docs, List.map_flatMap, Wm.layerIds, ids, layersOf, List.map_flatMap]
  refine congrArg (List.flatMap · _) (funext fun s => ?_)
  exact List.map_map

theorem surfacesOf_docs (hu : Unique wm) {e : LayerElm} (he : e ∈ layersOf wm.screenHead) :
    (Outline.of wm.docs).surfacesOf e.id = ids e.listHead := by
  let f (e : LayerElm) : List SurfaceOcc :=
    e.listHead.map fun x => ⟨e.id, x.id, wm.layoutOf x.id⟩
  have hlayer : ∀ e ∈ layersOf wm.screenHead, ∀ p ∈ f e, p.layer = e.id := by
    intro e _ p hp
    obtain ⟨x, -, rfl⟩ := List.mem_map.mp hp
    rfl
  have hfilter := filter_flatMap_of_key hu.layers hlayer he
  rw [Outline.surfacesOf, surfaces_docs, hfilter, List.map_map]
  exact List.dedup_eq_self.mpr (hu.surfaces e he)

/-- A surface element holds nothing but its id. -/
theorem map_surfaceElm (l : List SurfaceElm) :
    ((ids l).map fun s => (⟨s, (), []⟩ : SurfaceElm)) = l := by
  induction l with
  | nil => rfl
  | cons x l ih =>
    obtain ⟨id, prop, listHead⟩ := x
    rw [ids_cons, List.map_cons, ih]
    cases listHead with
    | nil => rfl
    | cons x _ => exact nomatch x

theorem layersOn_docs (hu : Unique wm) {s : ScreenElm} (hs : s ∈ wm.screenHead) :
    (Outline.of wm.docs).layersOn s.id = s.listHead := by
  have hlast : lastBy (·.id) (Outline.of wm.docs).layers = (Outline.of wm.docs).layers :=
    lastBy_of_nodup (layerIds_docs ▸ hu.layers)
  let f (s : ScreenElm) : List LayerOcc := s.listHead.map fun e => ⟨s.id, e.id, e.prop⟩
  have hscreen : ∀ s ∈ wm.screenHead, ∀ p ∈ f s, p.screen = s.id := by
    intro s _ p hp
    obtain ⟨e, -, rfl⟩ := List.mem_map.mp hp
    rfl
  have hfilter := filter_flatMap_of_key hu.screens hscreen hs
  rw [Outline.layersOn, hlast, layers_docs, hfilter, List.map_map]
  have hself : ∀ e ∈ s.listHead, ((Outline.of wm.docs).layerElm ∘ fun e : LayerElm =>
      ⟨s.id, e.id, e.prop⟩) e = e := by
    intro e he
    have hmem : e ∈ layersOf wm.screenHead := List.mem_flatMap.mpr ⟨s, hs, he⟩
    simp only [Function.comp_apply, Outline.layerElm]
    rw [surfacesOf_docs hu hmem, map_surfaceElm]
  rw [List.map_congr_left hself, List.map_id']

/-- The document says what the tree is. -/
theorem tree_of_docs (hu : Unique wm) : (Outline.of wm.docs).tree = wm.screenHead := by
  rw [Outline.tree, screens_docs, eraseDups_of_nodup hu.screens, Wm.screenIds, ids, List.map_map]
  have hself : ∀ s ∈ wm.screenHead, ((fun id : Id => (⟨id, (), (Outline.of wm.docs).layersOn id⟩ :
      ScreenElm)) ∘ fun s : ScreenElm => s.id) s = s := by
    intro s hs
    simp only [Function.comp_apply, layersOn_docs hu hs]
  rw [List.map_congr_left hself, List.map_id']

/-- A layout built from the document has the same tree, and the same layouts stored. -/
theorem built_of_docs (hu : Unique wm) (hrec : Recorded wm) {wm' : Wm}
    (h : Built (.of wm.docs) wm') : wm'.screenHead = wm.screenHead ∧
      ∀ e ∈ layersOf wm.screenHead, ∀ s ∈ ids e.listHead,
        (record wm'.surfacePropertiesHead s).map (·.lp) =
          (record wm.surfacePropertiesHead s).map (·.lp) := by
  refine ⟨h.tree.trans (tree_of_docs hu), fun e he s hs => ?_⟩
  have hnamed : s ∈ (Outline.of wm.docs).surfaces.map (·.id) := by
    obtain ⟨x, hx, rfl⟩ := mem_ids.mp hs
    rw [surfaces_docs]
    exact List.mem_map.mpr ⟨_, List.mem_flatMap.mpr ⟨e, he, List.mem_map_of_mem hx⟩, rfl⟩
  obtain ⟨p, hp, rfl⟩ := exists_mem_lastBy hnamed
  have hlayout : p.layout = wm.layoutOf p.id := by
    have hmem := lastBy_subset hp
    rw [surfaces_docs, List.mem_flatMap] at hmem
    obtain ⟨e', -, hp⟩ := hmem
    obtain ⟨x, -, rfl⟩ := List.mem_map.mp hp
    rfl
  obtain ⟨r, hr⟩ := Option.isSome_iff_exists.mp (record_isSome.mpr (hrec e he p.id hs))
  rw [h.records p hp, hlayout, Wm.layoutOf, hr]
  rfl

end Docs

/-! ## The document as a message -/

/-- The number is `v` in single precision. -/
def Json.IsNumber (j : Json) (v : TIlmFloat) : Prop :=
  (∃ x : Float, j = .real x ∧ x.toFloat32 = v) ∨ ∃ n : Int64, j = .integer n ∧ n.toFloat32 = v

def uintJson (v : TIlmUint) : Json := .integer v.toUInt64.toInt64

section Write

variable (number : TIlmFloat → Json)

/-- The fields of a layout; `number` writes the opacity. -/
def LayoutProperties.fields (lp : LayoutProperties) : List (String × Json) :=
  [(jsonKeySrcx, uintJson lp.srcX), (jsonKeySrcy, uintJson lp.srcY),
    (jsonKeySrcw, uintJson lp.srcW), (jsonKeySrch, uintJson lp.srcH),
    (jsonKeyDstx, uintJson lp.dstX), (jsonKeyDsty, uintJson lp.dstY),
    (jsonKeyDstw, uintJson lp.dstW), (jsonKeyDsth, uintJson lp.dstH),
    (jsonKeyOpacity, number lp.opacity), (jsonKeyVisibility, uintJson lp.visibility)]

def SurfaceDoc.json (x : SurfaceDoc) : Json :=
  .object (x.layout.fields number ++ [(jsonKeyId, uintJson x.id)])

def LayerDoc.json (l : LayerDoc) : Json :=
  .object (l.prop.lp.fields number ++ [(jsonKeyId, uintJson l.id),
    (jsonKeyWidth, uintJson l.prop.width), (jsonKeyHeight, uintJson l.prop.height),
    (jsonKeySurfaces, .array (l.surfaces.map (·.json number)))])

def ScreenDoc.json (s : ScreenDoc) : Json :=
  .object [(jsonKeyId, uintJson s.id), (jsonKeyLayers, .array (s.layers.map (·.json number)))]

/-- The `initial_screen` message that asks for the layout. -/
def Wm.snapshot (wm : Wm) : Option Json := initialScreenBody (wm.docs.map (·.json number))

end Write

/-- Every opacity of the layout has been written. -/
structure Writes (number : TIlmFloat → Json) (wm : Wm) : Prop where
  layers : ∀ e ∈ layersOf wm.screenHead,
    (number e.prop.lp.opacity).IsNumber e.prop.lp.opacity
  surfaces : ∀ e ∈ layersOf wm.screenHead, ∀ s ∈ ids e.listHead,
    (number (wm.layoutOf s).opacity).IsNumber (wm.layoutOf s).opacity

section Written

variable {number : TIlmFloat → Json} {wm : Wm}

theorem toInt_uintJson (v : TIlmUint) : (v.toUInt64.toInt64).toInt = v.toNat := by
  have hint : (v.toUInt64.toInt64).toInt = v.toUInt64.toBitVec.toInt := rfl
  have hnat : v.toUInt64.toBitVec.toNat = v.toNat := UInt32.toNat_toUInt64 v
  have hv := v.toNat_lt
  rw [hint, BitVec.toInt_eq_toNat_cond, hnat]
  split <;> omega

theorem hasInteger_uintJson {obj : Json} {key : String} {v : TIlmUint}
    (h : jsonObjectGet (some obj) key = some (uintJson v)) : HasInteger obj key v :=
  ⟨_, h, toInt_uintJson v⟩

theorem LayoutProperties.describes_fields {lp : LayoutProperties}
    (h : (number lp.opacity).IsNumber lp.opacity) (rest : List (String × Json)) :
    lp.Describes (.object (lp.fields number ++ rest)) where
  srcX := hasInteger_uintJson rfl
  srcY := hasInteger_uintJson rfl
  srcW := hasInteger_uintJson rfl
  srcH := hasInteger_uintJson rfl
  dstX := hasInteger_uintJson rfl
  dstY := hasInteger_uintJson rfl
  dstW := hasInteger_uintJson rfl
  dstH := hasInteger_uintJson rfl
  opacity := by
    have hget : jsonObjectGet (some (.object (lp.fields number ++ rest))) jsonKeyOpacity =
        some (number lp.opacity) := rfl
    rcases h with ⟨x, hx, hv⟩ | ⟨n, hn, hv⟩
    · exact .inl ⟨x, hget.trans (congrArg some hx), hv⟩
    · exact .inr ⟨n, hget.trans (congrArg some hn), hv⟩
  visibility := hasInteger_uintJson rfl

theorem describes_docs (h : Writes number wm) :
    List.Forall₂ ScreenDoc.Describes wm.docs (wm.docs.map (·.json number)) := by
  have hlayer : ∀ e ∈ layersOf wm.screenHead,
      (wm.layerDoc e).Describes ((wm.layerDoc e).json number) := by
    intro e he
    refine ⟨hasInteger_uintJson rfl, hasInteger_uintJson rfl, hasInteger_uintJson rfl,
      LayoutProperties.describes_fields (h.layers e he) _, ?_⟩
    change List.Forall₂ SurfaceDoc.Describes (e.listHead.map wm.surfaceDoc)
      ((e.listHead.map wm.surfaceDoc).map (·.json number))
    rw [List.forall₂_map_right_iff, List.forall₂_same]
    intro x hx
    obtain ⟨elm, helm, rfl⟩ := List.mem_map.mp hx
    exact ⟨hasInteger_uintJson rfl,
      LayoutProperties.describes_fields (h.surfaces e he elm.id (mem_ids_of_mem helm)) _⟩
  rw [List.forall₂_map_right_iff, List.forall₂_same]
  intro doc hdoc
  obtain ⟨s, hs, rfl⟩ := List.mem_map.mp hdoc
  refine ⟨hasInteger_uintJson rfl, ?_⟩
  change List.Forall₂ LayerDoc.Describes (s.listHead.map wm.layerDoc)
    ((s.listHead.map wm.layerDoc).map (·.json number))
  rw [List.forall₂_map_right_iff, List.forall₂_same]
  intro l hl
  obtain ⟨e, he, rfl⟩ := List.mem_map.mp hl
  exact hlayer e (List.mem_flatMap.mpr ⟨s, hs, he⟩)

theorem command_snapshot : commandOf (wm.snapshot number) = some .initialScreen := rfl

end Written

/-! ## Restoring a layout -/

section Restore

variable {σ : Type} {ilm : Ilm σ} {set : Setting σ} {number : TIlmFloat → Json}

theorem parseVersion_snapshot (wm : Wm) : parseVersion (wm.snapshot number) = .ok (-1) := rfl

/-- A layout that has been reached can be left and asked for again: the message that says
what it is leads back to its tree and its stored layouts, whatever has happened since. -/
theorem snapshot_restores (hids : DistinctScreenIds ilm) (hstay : ilm.ScreensStay)
    {w : World σ} (hreach : (daemon ilm set).Reachable w) (hrec : Recorded w.wm)
    (hwrites : Writes number w.wm) {v : World σ}
    (hexist : ∀ id ∈ w.wm.screenIds, (ilm.getPropertiesOfScreen id v.ilm).1 = true) :
    (∀ e, (Event.message (w.wm.snapshot number)).handle ilm v = .error e →
      e = .ilmExit ∧ ¬ ilm.Succeeds) ∧
    ∀ v', (Event.message (w.wm.snapshot number)).handle ilm v = .ok ((), v') →
      v'.wm.screenHead = w.wm.screenHead ∧
        ∀ e ∈ layersOf w.wm.screenHead, ∀ s ∈ ids e.listHead,
          (record v'.wm.surfacePropertiesHead s).map (·.lp) =
            (record w.wm.surfacePropertiesHead s).map (·.lp) := by
  have hI : ilm.Keeps fun c => ∀ s ∈ w.wm.docs, (ilm.getPropertiesOfScreen s.id c).1 = true :=
    ⟨fun op c hc s hs => (hstay s.id).call op c (hc s hs),
      fun c hc s hs => (hstay s.id).surfaceIDs c (hc s hs),
      fun c hc s hs => (hstay s.id).layerIDs c (hc s hs),
      fun id c hc s hs => (hstay s.id).screenProperties id c (hc s hs),
      fun c hc s hs => (hstay s.id).screenIDs c (hc s hs)⟩
  have hexist' : ∀ s ∈ w.wm.docs, (ilm.getPropertiesOfScreen s.id v.ilm).1 = true := by
    intro s hs
    obtain ⟨elm, helm, rfl⟩ := List.mem_map.mp hs
    exact hexist elm.id (mem_ids_of_mem helm)
  have hshows := initScreen_shows hI command_snapshot (describes_docs hwrites)
    (fun s hs c hc => hc s hs) hexist'
  refine ⟨fun e he => (hshows.fails e he).resolve_right ?_, fun v' h => ?_⟩
  · rintro ⟨-, hversion⟩
    rw [parseVersion_snapshot] at hversion
    cases hversion
  · exact built_of_docs (unique_of_run hids hreach) hrec (hshows.built v' h).1

end Restore

/-! The document that names a layer twice. -/

theorem recorded_of_built {docs : List ScreenDoc} {wm : Wm} (h : Built (.of docs) wm) :
    Recorded wm := by
  intro e he s hs
  rw [h.tree] at he
  obtain ⟨p, -, rfl⟩ := exists_of_mem_layersOf_tree he
  rw [Outline.layerElm, ids_map_surface] at hs
  obtain ⟨q, hq, -, rfl⟩ := mem_surfacesOf.mp hs
  exact record_isSome.mp (h.record_isSome_of_mem (List.mem_map_of_mem hq))

theorem writes_twice {wm : Wm} (h : Built (.of twiceDocs) wm) :
    Writes (fun _ => .integer 1) wm := by
  have hfull : ∀ lp : LayoutProperties, lp = fullLayout →
      Json.IsNumber (.integer 1) lp.opacity := by
    rintro _ rfl
    exact .inr ⟨1, rfl, rfl⟩
  refine ⟨fun e he => hfull _ ?_, fun e he s hs => hfull _ ?_⟩
  · rw [h.tree] at he
    obtain ⟨p, hp, rfl⟩ := exists_of_mem_layersOf_tree he
    have hall : ∀ p ∈ (Outline.of twiceDocs).layers, p.prop.lp = fullLayout := by
      rintro p (_ | ⟨_, _ | ⟨_, _ | ⟨_, hp⟩⟩⟩)
      · rfl
      · rfl
      · rfl
      · cases hp
    exact hall p (lastBy_subset hp)
  · rw [h.tree] at he
    obtain ⟨p, -, rfl⟩ := exists_of_mem_layersOf_tree he
    rw [Outline.layerElm, ids_map_surface] at hs
    obtain ⟨q, hq, -, rfl⟩ := mem_surfacesOf.mp hs
    obtain ⟨r, hr, hid⟩ := exists_mem_lastBy (List.mem_map_of_mem (f := SurfaceOcc.id) hq)
    have hall : ∀ p ∈ (Outline.of twiceDocs).surfaces, p.layout = fullLayout := by
      rintro p (_ | ⟨_, _ | ⟨_, _ | ⟨_, hp⟩⟩⟩)
      · rfl
      · rfl
      · rfl
      · cases hp
    have hrecord := h.records r hr
    rw [hid, hall r (lastBy_subset hr)] at hrecord
    obtain ⟨prop, hprop, hlp⟩ := Option.map_eq_some_iff.mp hrecord
    rw [Wm.layoutOf, hprop]
    exact hlp

theorem snapshot_restores_twice : ∃ v w v' : World Compositor,
    Built (.of twiceDocs) w.wm ∧
      (Event.message (w.wm.snapshot fun _ => .integer 1)).handle (Compositor.ilm false) v =
        .ok ((), v') ∧ v'.wm.screenHead = w.wm.screenHead := by
  obtain ⟨v, w, hreach, hscreens, hw, -⟩ := exists_handled [] (initialScreenBody twiceScreens)
    (·.ilm.screens = [0]) (fun _ => true) (by decide +kernel)
  have hexist : ∀ id, ([0] : List Id).contains id = true →
      ((Compositor.ilm false).getPropertiesOfScreen id v.ilm).1 = true := by
    intro id hid
    rw [← hscreens] at hid
    exact hid
  have hstay := compositor_screensStay false
  have hkeeps : (Compositor.ilm false).Keeps fun c => ∀ s ∈ twiceDocs,
      ((Compositor.ilm false).getPropertiesOfScreen s.id c).1 = true :=
    Compositor.keeps_screens false fun screens => ∀ s ∈ twiceDocs, screens.contains s.id = true
  have hcommand : commandOf (initialScreenBody twiceScreens) = some .initialScreen := rfl
  have hnamed : ∀ s ∈ twiceDocs,
      ((Compositor.ilm false).getPropertiesOfScreen s.id v.ilm).1 = true := by
    intro s hs
    rw [List.mem_singleton.mp hs]
    exact hexist 0 rfl
  have hshows := initScreen_shows hkeeps hcommand twiceDocs_describes (fun s hs c hc => hc s hs)
    hnamed
  have hbuilt := (hshows.built w hw).1
  have hreach' : oneScreen.Reachable w :=
    hreach.step (a := .event (.message (initialScreenBody twiceScreens))) hw
  have hlisted : ∀ id ∈ w.wm.screenIds,
      ((Compositor.ilm false).getPropertiesOfScreen id v.ilm).1 = true := by
    intro id hid
    have hids : w.wm.screenIds = [0] := congrArg ids hbuilt.tree
    rw [hids] at hid
    rw [List.mem_singleton.mp hid]
    exact hexist 0 rfl
  have hrestores := snapshot_restores (Compositor.distinctScreenIds false) hstay hreach'
    (recorded_of_built hbuilt) (writes_twice hbuilt) hlisted
  cases hrun : (Event.message (w.wm.snapshot fun _ => .integer 1)).handle (Compositor.ilm false)
      v with
  | error e => exact absurd Compositor.succeeds (hrestores.1 e hrun).2
  | ok r => exact ⟨v, w, r.2, hbuilt, hrun, (hrestores.2 r.2 hrun).1⟩

end UhmiIviWm
