import UhmiIviWm.Model.Compositor
import UhmiIviWm.Verify.Outline

/-!
# Layout documents are built faithfully

`ScreenDoc` and its parts are what a well-formed document means, `Describes` says
that a JSON object means it. The calls of a document that is described by `docs`
add the names of its outline, `Outline.of docs`, to a layout built so far
(`Draws`, `Drawing.step`). So a document processed from an empty tree leaves the
tree of its outline (`Shows`), whether it comes in an `initial_screen` message or
in the targets of the configuration file.
-/

namespace UhmiIviWm

open Lib Lib.CallPlan Lib.KeyedList Lib.Occurrences

/-! ## Documents -/

structure SurfaceDoc where
  id : Id
  layout : LayoutProperties

structure LayerDoc where
  id : Id
  prop : LayerProperties
  surfaces : List SurfaceDoc

structure ScreenDoc where
  id : Id
  layers : List LayerDoc

structure SurfaceDoc.Describes (x : SurfaceDoc) (obj : Json) : Prop where
  id : HasInteger obj jsonKeyId x.id
  layout : x.layout.Describes obj

structure LayerDoc.Describes (l : LayerDoc) (obj : Json) : Prop where
  id : HasInteger obj jsonKeyId l.id
  width : HasInteger obj jsonKeyWidth l.prop.width
  height : HasInteger obj jsonKeyHeight l.prop.height
  layout : l.prop.lp.Describes obj
  surfaces : List.Forall₂ SurfaceDoc.Describes l.surfaces ((parseSurfaces (some obj)).getD [])

structure ScreenDoc.Describes (s : ScreenDoc) (obj : Json) : Prop where
  id : HasInteger obj jsonKeyId s.id
  layers : List.Forall₂ LayerDoc.Describes s.layers ((parseLayers (some obj)).getD [])

/-- What the document names. -/
def Outline.of (docs : List ScreenDoc) : Outline where
  screens := docs.map (·.id)
  layers := docs.flatMap fun s => s.layers.map fun l => ⟨s.id, l.id, l.prop⟩
  surfaces := docs.flatMap fun s => s.layers.flatMap fun l =>
    l.surfaces.map fun x => ⟨l.id, x.id, x.layout⟩

section Reads

variable {obj : Json}

theorem HasInteger.idOf {v : Id} (h : HasInteger obj jsonKeyId v) : idOf obj = v := by
  rw [UhmiIviWm.idOf, parseId, h.get]
  rfl

theorem SurfaceDoc.Describes.parse {x : SurfaceDoc} (h : x.Describes obj)
    (dst : SurfaceProperties) :
    (parseSurfaceProperties dst (some obj) .add).2.lp = x.layout := by
  simp only [parseSurfaceProperties, parseAddProperties, h.layout.read, if_true]

theorem LayerDoc.Describes.parse {l : LayerDoc} (h : l.Describes obj) (dst : LayerProperties) :
    (parseLayerProperties dst (some obj) .add).2 = l.prop := by
  simp only [parseLayerProperties, parseAddProperties, h.width.get, h.height.get, h.layout.read,
    if_true]

end Reads

/-! ## The calls of a document -/

/-- The calls that name nothing. -/
def Call.namesNothing : Call → Prop
  | .findScreen _ | .pushScreen _ | .setCallback => True
  | _ => False

/-- The calls add what is between the outlines `o` and `o'`. -/
inductive Draws : Outline → List Call → Outline → Prop
  | done (o : Outline) : Draws o [] o
  | screen {o o' : Outline} {rest : List Call} (s : Id) :
    Draws (o.addScreen s) rest o' → Draws o (.openScreen s :: rest) o'
  | layer {o o' : Outline} {rest : List Call} (p : LayerOcc) (obj : Json) :
    p.screen ∈ o.screens → (∀ dst, (parseLayerProperties dst (some obj) .add).2 = p.prop) →
      Draws (o.addLayer p) rest o' →
        Draws o (.putLayer p.screen obj p.id insertInfoDefault :: rest) o'
  | surface {o o' : Outline} {rest : List Call} (p : SurfaceOcc) (obj : Json) :
    p.layer ∈ o.layers.map (·.id) →
      (∀ dst, (parseSurfaceProperties dst (some obj) .add).2.lp = p.layout) →
        Draws (o.addSurface p) rest o' →
          Draws o (.putSurface p.layer obj p.id insertInfoDefault :: rest) o'
  | other {o o' : Outline} {rest : List Call} (call : Call) :
    call.namesNothing → Draws o rest o' → Draws o (call :: rest) o'

theorem Draws.append {o o' o'' : Outline} {xs ys : List Call} (hx : Draws o xs o')
    (hy : Draws o' ys o'') : Draws o (xs ++ ys) o'' := by
  induction hx with
  | done => exact hy
  | screen s _ ih => exact .screen s (ih hy)
  | layer p obj hs hprop _ ih => exact .layer p obj hs hprop (ih hy)
  | surface p obj hl hlayout _ ih => exact .surface p obj hl hlayout (ih hy)
  | other call hnames _ ih => exact .other call hnames (ih hy)

section Draw

variable {o : Outline}

theorem draws_surfaces {layerId : Id} (hl : layerId ∈ o.layers.map (·.id))
    {surfaces : List SurfaceDoc} {surfaceAry : List Json}
    (h : List.Forall₂ SurfaceDoc.Describes surfaces surfaceAry) :
    Draws o (surfaceAry.map fun obj => .putSurface layerId obj (idOf obj) insertInfoDefault)
      (o.append ⟨[], [], surfaces.map fun x => ⟨layerId, x.id, x.layout⟩⟩) := by
  induction h generalizing o with
  | nil => simpa [Outline.append] using Draws.done o
  | @cons x obj xs objs hx _ ih =>
    rw [List.map_cons, hx.id.idOf]
    refine .surface ⟨layerId, x.id, x.layout⟩ obj hl hx.parse ?_
    have hrest := ih (o := o.addSurface ⟨layerId, x.id, x.layout⟩) hl
    simpa [Outline.append, Outline.addSurface] using hrest

theorem draws_layer {screenId : Id} (hs : screenId ∈ o.screens) {l : LayerDoc} {obj : Json}
    (h : l.Describes obj) :
    Draws o (layerCalls screenId obj) (o.append ⟨[], [⟨screenId, l.id, l.prop⟩],
      l.surfaces.map fun x => ⟨l.id, x.id, x.layout⟩⟩) := by
  have hid : (parseId (some obj)).getD 0 = l.id := h.id.idOf
  rw [layerCalls, hid]
  refine .layer ⟨screenId, l.id, l.prop⟩ obj hs h.parse ?_
  have hmem : l.id ∈ (o.addLayer ⟨screenId, l.id, l.prop⟩).layers.map (·.id) := by
    simp [Outline.addLayer]
  have hrest := draws_surfaces hmem h.surfaces
  simp only [Outline.append, Outline.addLayer, List.append_nil] at hrest ⊢
  exact hrest

theorem draws_layers {screenId : Id} (hs : screenId ∈ o.screens) {layers : List LayerDoc}
    {layerAry : List Json} (h : List.Forall₂ LayerDoc.Describes layers layerAry) :
    Draws o (layerAry.flatMap (layerCalls screenId)) (o.append ⟨[],
      layers.map fun l => ⟨screenId, l.id, l.prop⟩,
      layers.flatMap fun l => l.surfaces.map fun x => ⟨l.id, x.id, x.layout⟩⟩) := by
  induction h generalizing o with
  | nil => simpa [Outline.append] using Draws.done o
  | @cons l obj ls objs hl _ ih =>
    rw [List.flatMap_cons]
    refine (draws_layer hs hl).append ?_
    have hrest := ih (o := o.append ⟨[], [⟨screenId, l.id, l.prop⟩],
      l.surfaces.map fun x => ⟨l.id, x.id, x.layout⟩⟩) (by simpa [Outline.append] using hs)
    simpa [Outline.append] using hrest

/-- The calls of a document add what the document names. -/
theorem draws_document {docs : List ScreenDoc} {screenAry : List Json}
    (h : List.Forall₂ ScreenDoc.Describes docs screenAry) :
    Draws o (documentCalls screenAry) (o.append (.of docs)) := by
  induction h generalizing o with
  | nil => simpa [Outline.append, Outline.of, documentCalls] using Draws.done o
  | @cons s obj ss objs hs _ ih =>
    have hid : (parseId (some obj)).getD 0 = s.id := hs.id.idOf
    have hmem : s.id ∈ (o.addScreen s.id).screens := by simp [Outline.addScreen]
    have hrest := ih (o := (o.addScreen s.id).append ⟨[],
      s.layers.map fun l => ⟨s.id, l.id, l.prop⟩,
      s.layers.flatMap fun l => l.surfaces.map fun x => ⟨l.id, x.id, x.layout⟩⟩)
    have hdraws := (draws_layers hmem hs.layers).append (.other (.pushScreen s.id) trivial hrest)
    rw [documentCalls, List.flatMap_cons, screenCalls, hid, List.cons_append, List.cons_append,
      List.append_assoc]
    refine .other _ trivial (.screen s.id ?_)
    simpa [Outline.append, Outline.addScreen, Outline.of, documentCalls] using hdraws

end Draw

/-! ## Running the calls -/

namespace Outline.Anchored

variable {o : Outline}

theorem addScreen (h : o.Anchored) (s : Id) : (o.addScreen s).Anchored :=
  ⟨fun p hp => List.mem_append_left _ (h.layers p hp), h.surfaces⟩

theorem addLayer (h : o.Anchored) {p : LayerOcc} (hp : p.screen ∈ o.screens) :
    (o.addLayer p).Anchored := by
  refine ⟨fun q hq => ?_, fun q hq => ?_⟩
  · rcases List.mem_append.mp hq with hq | hq
    · exact h.layers q hq
    · rwa [List.mem_singleton.mp hq]
  · rw [Outline.addLayer, List.map_append]
    exact List.mem_append_left _ (h.surfaces q hq)

theorem addSurface (h : o.Anchored) {p : SurfaceOcc} (hp : p.layer ∈ o.layers.map (·.id)) :
    (o.addSurface p).Anchored := by
  refine ⟨h.layers, fun q hq => ?_⟩
  rcases List.mem_append.mp hq with hq | hq
  · exact h.surfaces q hq
  · rwa [List.mem_singleton.mp hq]

end Outline.Anchored

/-- The layout is that of an outline to which the calls add up to `o'`. -/
def Drawing (o' : Outline) (wm : Wm) (calls : List Call) : Prop :=
  ∃ o, o.Anchored ∧ Built o wm ∧ Draws o calls o'

theorem Drawing.step {o' : Outline} {wm : Wm} {call : Call} {rest : List Call}
    (h : Drawing o' wm (call :: rest)) : Drawing o' (call.layout wm) rest := by
  obtain ⟨o, ha, hb, hdraws⟩ := h
  cases hdraws with
  | screen s hrest => exact ⟨_, ha.addScreen s, hb.openScreen ha s, hrest⟩
  | layer p obj hs hprop hrest => exact ⟨_, ha.addLayer hs, hb.putLayer ha p hprop, hrest⟩
  | surface p obj hl hlayout hrest => exact ⟨_, ha.addSurface hl, hb.putSurface p hlayout, hrest⟩
  | other _ hnames hrest =>
    refine ⟨o, ha, ?_, hrest⟩
    cases call <;> first | exact hb | exact hnames.elim

/-- No lookup of a document's calls fails. -/
theorem Drawing.recorded {o' : Outline} {wm : Wm} {call : Call} {rest : List Call}
    (h : Drawing o' wm (call :: rest)) : ¬ Unrecorded wm call := by
  obtain ⟨o, ha, hb, hdraws⟩ := h
  cases hdraws with
  | screen | layer => exact id
  | surface p obj hl hlayout hrest =>
    obtain ⟨prop, -, -, hrecord⟩ := hb.surfaceToPut_eq p hlayout
    exact fun ⟨hno, hs⟩ => hno (record_isSome.mp (hrecord hs))
  | other _ hnames =>
    cases call <;> first | exact id | exact hnames.elim

section Run

variable {σ : Type} {ilm : Ilm σ}

/-- The screens that exist stay. -/
def Ilm.ScreensStay (ilm : Ilm σ) : Prop :=
  ∀ id, ilm.Keeps fun c => (ilm.getPropertiesOfScreen id c).1 = true

theorem runCalls_draws {I : σ → Prop} (hI : ilm.Keeps I) {o' : Outline} {calls : List Call}
    {w : World σ} (hw : I w.ilm) (h : Drawing o' w.wm calls) :
    (∃ w', runCalls (Call.sem ilm) calls w = .ok ((), w') ∧ o'.Anchored ∧ Built o' w'.wm ∧
      I w'.ilm) ∨
    ∃ e, runCalls (Call.sem ilm) calls w = .error e ∧ e = .ilmExit ∧ ¬ ilm.Succeeds := by
  have hstep : ∀ (call : Call) (rest : List Call) (w : World σ),
      Drawing o' w.wm (call :: rest) ∧ I w.ilm →
        (∃ w', call.sem ilm w = .ok ((), w') ∧ Drawing o' w'.wm rest ∧ I w'.ilm) ∨
          ∃ e, call.sem ilm w = .error e ∧ e = .ilmExit ∧ ¬ ilm.Succeeds := by
    rintro call rest w ⟨hdrawing, hw⟩
    rcases call.sem_ends hI hw with ⟨c, hsem, hc⟩ | ⟨e, hsem, hcrash⟩
    · exact .inl ⟨_, hsem, hdrawing.step, hc⟩
    · exact .inr ⟨e, hsem, hcrash.resolve_right fun ⟨_, hmissing⟩ => hdrawing.recorded hmissing⟩
  rcases runCalls_ends (P := fun (w : World σ) rest => Drawing o' w.wm rest ∧ I w.ilm) hstep ⟨h, hw⟩ with
    ⟨w', hrun, ⟨o, ha, hb, hdone⟩, hc⟩ | hfails
  · cases hdone
    exact .inl ⟨w', hrun, ha, hb, hc⟩
  · exact .inr hfails

/-! ## Processing documents -/

/-- From a layout built so far, `m` builds the documents on and reports no error, or it
aborts: in an ilm call that fails, or in a read that overflows its array. -/
def Builds (ilm : Ilm σ) (I : σ → Prop) (docs : List ScreenDoc) (overflow : Prop)
    (m : WmM σ Int) : Prop :=
  ∀ (o : Outline) (w : World σ), o.Anchored → Built o w.wm → I w.ilm → match m w with
    | .ok (ret, w') => ret = 0 ∧ (o.append (.of docs)).Anchored ∧
      Built (o.append (.of docs)) w'.wm ∧ I w'.ilm
    | .error e => e = .ilmExit ∧ ¬ ilm.Succeeds ∨ e = .bufferOverflow ∧ overflow

section Builds

variable {I : σ → Prop} {docs : List ScreenDoc} {overflow : Prop}

theorem builds_nothing : Builds ilm I [] overflow (pure 0) := by
  intro o w ha hb hw
  have hnil : o.append (.of []) = o := by simp [Outline.append, Outline.of]
  exact ⟨rfl, by rwa [hnil], by rwa [hnil], hw⟩

theorem outline_append (o : Outline) (docs docs' : List ScreenDoc) :
    (o.append (.of docs)).append (.of docs') = o.append (.of (docs ++ docs')) := by
  simp [Outline.append, Outline.of]

theorem Builds.forEach_cons {α : Type} {x : α} {xs : List α} {body : α → WmM σ Int}
    {docs' : List ScreenDoc} (hx : Builds ilm I docs overflow (body x))
    (hxs : Builds ilm I docs' overflow (forEach xs body)) :
    Builds ilm I (docs ++ docs') overflow (forEach (x :: xs) body) := by
  intro o w ha hb hw
  have hfirst := hx o w ha hb hw
  simp only [forEach, Comp.bind_apply]
  cases hbody : body x w with
  | error e =>
    rw [hbody] at hfirst
    exact hfirst
  | ok r =>
    obtain ⟨ret, t⟩ := r
    rw [hbody] at hfirst
    obtain ⟨rfl, ha', hb', hw'⟩ := hfirst
    dsimp only
    rw [if_neg (Int.lt_irrefl 0), ← outline_append]
    exact hxs _ t ha' hb' hw'

theorem parseScreenObjects_builds (hI : ilm.Keeps I) {screenAry : List Json}
    (h : List.Forall₂ ScreenDoc.Describes docs screenAry)
    (hfound : ∀ s ∈ docs, ∀ c, I c → (ilm.getPropertiesOfScreen s.id c).1 = true) :
    Builds ilm I docs overflow (parseScreenObjects ilm screenAry) := by
  have hids : ∀ screenJobj ∈ screenAry, ∀ c, I c →
      (ilm.getPropertiesOfScreen (idOf screenJobj) c).1 = true := by
    induction h with
    | nil => exact nofun
    | @cons s obj ss objs hs _ ih =>
      obtain ⟨hfirst, hrest⟩ := List.forall_mem_cons.mp hfound
      refine List.forall_mem_cons.mpr ⟨?_, ih hrest⟩
      rwa [hs.id.idOf]
  intro o w ha hb hw
  rw [parseScreenObjects_eq hI hids hw, Comp.bind_apply]
  have hrun := runCalls_draws hI hw ⟨o, ha, hb, draws_document h⟩
  rcases hrun with ⟨w', hcalls, hbuilt⟩ | ⟨e, hcalls, hfails⟩
  · rw [hcalls]
    exact ⟨rfl, hbuilt⟩
  · rw [hcalls]
    exact .inl hfails

end Builds

/-- The screen objects of a target that is for this host. -/
def targetScreens (localHostname : String) (targetJobj : Json) : List Json :=
  match jsonObjectGet (some targetJobj) jsonKeyHostname with
  | some (.string hostname) =>
    if hostname = localHostname then (parseScreens (some targetJobj)).getD [] else []
  | _ => []

/-- The screen objects of a configuration file that are for this host. -/
def configScreens (localHostname : String) (rootJobj : Json) : List Json :=
  ((parseTarget (some rootJobj)).getD []).flatMap (targetScreens localHostname)

/-- A string of the configuration file is longer than the array it is copied to. -/
def ConfigOverflows (localHostname : String) (rootJobj : Json) : Prop :=
  parseVersion (some rootJobj) = .error .bufferOverflow ∨
    ∃ targetJobj ∈ (parseTarget (some rootJobj)).getD [],
      parseHostname localHostname (some targetJobj) = .error .bufferOverflow

theorem parseHostname_ok {localHostname : String} {targetJobj : Json} {ret : Int}
    (h : parseHostname localHostname (some targetJobj) = .ok ret) :
    targetScreens localHostname targetJobj =
      if ret < 0 then [] else (parseScreens (some targetJobj)).getD [] := by
  unfold parseHostname getJsonStringValue at h
  unfold targetScreens
  cases hget : jsonObjectGet (some targetJobj) jsonKeyHostname with
  | none =>
    rw [hget] at h
    cases h
    rfl
  | some j =>
    rw [hget] at h
    cases j with
    | string hostname =>
      dsimp only at h ⊢
      split at h
      · cases h
        by_cases hname : hostname = localHostname
        · rw [if_pos hname, if_pos hname.symm, if_neg (Int.lt_irrefl 0)]
        · rw [if_neg hname, if_neg (Ne.symm hname)]
          rfl
      · cases h
    | _ =>
      cases h
      rfl

theorem target_builds {I : σ → Prop} (hI : ilm.Keeps I) {docs : List ScreenDoc}
    {localHostname : String} {targetJobj : Json}
    (h : List.Forall₂ ScreenDoc.Describes docs (targetScreens localHostname targetJobj))
    (hfound : ∀ s ∈ docs, ∀ c, I c → (ilm.getPropertiesOfScreen s.id c).1 = true) :
    Builds ilm I docs (parseHostname localHostname (some targetJobj) = .error .bufferOverflow)
      (do
        if (← ofParse (parseHostname localHostname (some targetJobj))) < 0 then
          return 0
        if (← parseAllInScreen ilm (some targetJobj)) < 0 then
          return -1
        return 0) := by
  cases hhost : parseHostname localHostname (some targetJobj) with
  | error e =>
    intro o w ha hb hw
    exact .inr ⟨parseHostname_error hhost, by rw [parseHostname_error hhost]⟩
  | ok ret =>
    rw [parseHostname_ok hhost] at h
    intro o w ha hb hw
    rw [Comp.bind_apply]
    simp only [ofParse]
    by_cases hret : ret < 0
    · rw [if_pos hret] at h ⊢
      cases h
      have hnothing : Builds ilm I [] False (pure 0) := builds_nothing
      exact (hnothing o w ha hb hw)
    · rw [if_neg hret] at h ⊢
      have hbuilds : Builds ilm I docs False (parseAllInScreen ilm (some targetJobj)) :=
        parseScreenObjects_builds hI h hfound
      have hscreens := hbuilds o w ha hb hw
      rw [Comp.bind_apply]
      cases hrun : parseAllInScreen ilm (some targetJobj) w with
      | error e =>
        rw [hrun] at hscreens
        exact .inl (hscreens.resolve_right fun h => h.2)
      | ok r =>
        obtain ⟨ret', t⟩ := r
        rw [hrun] at hscreens
        obtain ⟨rfl, hbuilt⟩ := hscreens
        exact ⟨rfl, hbuilt⟩

theorem Builds.mono {I : σ → Prop} {docs : List ScreenDoc} {overflow overflow' : Prop}
    {m : WmM σ Int} (h : Builds ilm I docs overflow m) (himp : overflow → overflow') :
    Builds ilm I docs overflow' m := by
  intro o w ha hb hw
  have hm := h o w ha hb hw
  cases hrun : m w with
  | ok r =>
    rw [hrun] at hm
    exact hm
  | error e =>
    rw [hrun] at hm
    exact hm.imp id fun ⟨he, hover⟩ => ⟨he, himp hover⟩

theorem targets_build {I : σ → Prop} (hI : ilm.Keeps I) {docs : List ScreenDoc}
    {localHostname : String} {targets : List Json}
    (h : List.Forall₂ ScreenDoc.Describes docs (targets.flatMap (targetScreens localHostname)))
    (hfound : ∀ s ∈ docs, ∀ c, I c → (ilm.getPropertiesOfScreen s.id c).1 = true) :
    Builds ilm I docs (∃ targetJobj ∈ targets,
        parseHostname localHostname (some targetJobj) = .error .bufferOverflow)
      (forEach targets fun targetJobj => do
        if (← ofParse (parseHostname localHostname (some targetJobj))) < 0 then
          return 0
        if (← parseAllInScreen ilm (some targetJobj)) < 0 then
          return -1
        return 0) := by
  induction targets generalizing docs with
  | nil =>
    cases h
    exact builds_nothing
  | cons targetJobj rest ih =>
    rw [List.flatMap_cons] at h
    have hfirst := target_builds hI (List.forall₂_take_append _ _ _ h)
      fun s hs => hfound s (List.mem_of_mem_take hs)
    have hrest := ih (List.forall₂_drop_append _ _ _ h)
      fun s hs => hfound s (List.mem_of_mem_drop hs)
    rw [← List.take_append_drop (targetScreens localHostname targetJobj).length docs]
    refine Builds.forEach_cons (hfirst.mono fun hover => ?_) (hrest.mono ?_)
    · exact ⟨targetJobj, List.mem_cons_self, hover⟩
    · rintro ⟨t, ht, hover⟩
      exact ⟨t, List.mem_cons_of_mem targetJobj ht, hover⟩

/-! ## Both entry points -/

/-- How the processing of a document ends: with its layout, in which each of its layers
stands once, or in an ilm call that fails, or in a read that overflows its array. -/
structure Shows (ilm : Ilm σ) (docs : List ScreenDoc) (overflow : Prop)
    (result : Except Abort (Unit × World σ)) : Prop where
  built : ∀ w, result = .ok ((), w) → Built (.of docs) w.wm ∧ w.wm.layerIds.Nodup ∧
    ∀ l, l ∈ w.wm.layerIds ↔ ∃ s ∈ docs, ∃ p ∈ s.layers, p.id = l
  fails : ∀ e, result = .error e →
    e = .ilmExit ∧ ¬ ilm.Succeeds ∨ e = .bufferOverflow ∧ overflow

theorem Shows.of_error {docs : List ScreenDoc} {overflow : Prop} {e : Abort}
    (h : e = .ilmExit ∧ ¬ ilm.Succeeds ∨ e = .bufferOverflow ∧ overflow) :
    Shows ilm docs overflow (.error e) :=
  ⟨nofun, fun _ he => by cases he; exact h⟩

theorem anchored_empty : Outline.empty.Anchored := ⟨nofun, nofun⟩

theorem built_empty {wm : Wm} (h : wm.screenHead = []) : Built .empty wm := ⟨h, nofun⟩

/-- The last call of both entry points leaves the layout alone. -/
theorem shows_of_builds {I : σ → Prop} (hI : ilm.Keeps I) {docs : List ScreenDoc} {overflow : Prop}
    {w : World σ} (ha : (Outline.of docs).Anchored) (hb : Built (.of docs) w.wm) (hw : I w.ilm) :
    Shows ilm docs overflow (Call.sem ilm .setCallback w) := by
  rcases Call.setCallback.sem_ends hI hw with ⟨c, hsem, -⟩ | ⟨e, hsem, hfails | ⟨-, hmissing⟩⟩
  · rw [hsem]
    refine ⟨fun w' hw' => ?_, nofun⟩
    obtain rfl : ⟨w.wm, c⟩ = w' := congrArg Prod.snd (Except.ok.inj hw')
    rw [Wm.layerIds, hb.tree]
    refine ⟨hb, nodup_layerIds_tree, fun l => ?_⟩
    rw [mem_layerIds_tree ha]
    simp [Outline.of, and_assoc]
  · rw [hsem]
    exact .of_error (.inl hfails)
  · exact hmissing.elim

theorem handle_initScreen {body : Option Json} (hbody : commandOf body = some .initialScreen)
    (w : World σ) :
    (Event.message body).handle ilm w =
      (parseInitScreenCommand ilm body >>= fun _ => pure ()) w := by
  unfold commandOf at hbody
  simp only [Event.handle, parserParseRecvCommand, Comp.bind_apply]
  cases hversion : parseVersion body with
  | error e =>
    rw [parseInitScreenCommand_of_error hversion]
    rfl
  | ok version =>
    cases hcommand : parseCommand body with
    | error e =>
      rw [hcommand] at hbody
      cases hbody
    | ok name =>
      rw [hcommand] at hbody
      cases name with
      | none => cases hbody
      | some cmdName =>
        have hname : commandOfName cmdName = some .initialScreen := hbody
        simp only [ofParse, hname, Comp.bind_apply, Command.handler]
        cases parseInitScreenCommand ilm body w <;> rfl

theorem initScreen_shows {I : σ → Prop} (hI : ilm.Keeps I) {docs : List ScreenDoc}
    {body : Option Json} (hbody : commandOf body = some .initialScreen)
    (h : List.Forall₂ ScreenDoc.Describes docs ((parseScreens body).getD []))
    (hfound : ∀ s ∈ docs, ∀ c, I c → (ilm.getPropertiesOfScreen s.id c).1 = true)
    {w : World σ} (hw : I w.ilm) :
    Shows ilm docs (parseVersion body = .error .bufferOverflow)
      ((Event.message body).handle ilm w) := by
  rw [handle_initScreen hbody, Comp.bind_apply]
  cases hversion : parseVersion body with
  | error e =>
    rw [parseInitScreenCommand_of_error hversion]
    exact .of_error (.inr ⟨parseVersion_error hversion, by rw [parseVersion_error hversion]⟩)
  | ok version =>
    have hbuilds : Builds ilm I docs False (parseScreenObjects ilm ((parseScreens body).getD [])) :=
      parseScreenObjects_builds hI h hfound
    have hscreens := hbuilds .empty ⟨removeAll w.wm, w.ilm⟩ anchored_empty (built_empty rfl) hw
    rw [parseInitScreenCommand_of_ok hversion, Comp.bind_apply]
    cases hrun : parseScreenObjects ilm ((parseScreens body).getD []) ⟨removeAll w.wm, w.ilm⟩ with
    | error e =>
      rw [hrun] at hscreens
      exact .of_error (.inl (hscreens.resolve_right fun h => h.2))
    | ok r =>
      obtain ⟨ret, t⟩ := r
      rw [hrun] at hscreens
      obtain ⟨rfl, ha, hb, hc⟩ := hscreens
      have hlast : (do
          if (0 : Int) < 0 then pure (-1) else do
            Call.sem ilm .setCallback
            pure 0 : WmM σ Int) t = (Call.sem ilm .setCallback >>= fun _ => pure 0) t := rfl
      dsimp only
      rw [hlast, Comp.bind_apply]
      have hshows : Shows ilm docs (Except.ok version = .error Abort.bufferOverflow)
        (Call.sem ilm .setCallback t) := shows_of_builds hI ha hb hc
      cases hcallback : Call.sem ilm .setCallback t with
      | ok r => rwa [hcallback] at hshows
      | error e => rwa [hcallback] at hshows

theorem parseInitJsonConfig_builds {I : σ → Prop} (hI : ilm.Keeps I) {docs : List ScreenDoc}
    {localHostname : String} {rootJobj : Json}
    (h : List.Forall₂ ScreenDoc.Describes docs (configScreens localHostname rootJobj))
    (hfound : ∀ s ∈ docs, ∀ c, I c → (ilm.getPropertiesOfScreen s.id c).1 = true) :
    Builds ilm I docs (ConfigOverflows localHostname rootJobj)
      (parseInitJsonConfig ilm localHostname (some rootJobj)) := by
  intro o w ha hb hw
  rw [parseInitJsonConfig, Comp.bind_apply]
  cases hversion : parseVersion (some rootJobj) with
  | error e =>
    exact .inr ⟨parseVersion_error hversion, .inl (by rw [hversion, parseVersion_error hversion])⟩
  | ok version => exact (targets_build hI h hfound).mono .inr o w ha hb hw

theorem tree_ne_nil {docs : List ScreenDoc} (h : docs ≠ []) : (Outline.of docs).tree ≠ [] := by
  intro htree
  obtain ⟨s, rest, rfl⟩ := List.exists_cons_of_ne_nil h
  have hmem : s.id ∈ (Outline.of (s :: rest)).screens.eraseDups :=
    List.mem_eraseDups.mpr List.mem_cons_self
  rw [← screenIds_tree, htree] at hmem
  cases hmem

theorem parserInit_shows {I : σ → Prop} (hI : ilm.Keeps I) {docs : List ScreenDoc}
    (hdocs : docs ≠ []) {localHostname : String} {rootJobj : Json}
    (h : List.Forall₂ ScreenDoc.Describes docs (configScreens localHostname rootJobj))
    (hfound : ∀ s ∈ docs, ∀ c, I c → (ilm.getPropertiesOfScreen s.id c).1 = true)
    {w : World σ} (hw : I w.ilm) :
    Shows ilm docs (ConfigOverflows localHostname rootJobj)
      (parserInit ilm ⟨localHostname, some (some rootJobj)⟩ w) := by
  have hconfig := parseInitJsonConfig_builds hI h hfound .empty w.cleared anchored_empty
    (built_empty rfl) hw
  have hinit : parserInit ilm ⟨localHostname, some (some rootJobj)⟩ w =
      (parseInitJsonConfig ilm localHostname (some rootJobj) >>= fun _ => do
        if (← readWm (·.screenHead.isEmpty)) then
          let _ ← initDefaultConfig ilm
        Call.sem ilm .setCallback) w.cleared := rfl
  rw [hinit, Comp.bind_apply]
  cases hrun : parseInitJsonConfig ilm localHostname (some rootJobj) w.cleared with
  | error e =>
    rw [hrun] at hconfig
    exact .of_error hconfig
  | ok r =>
    obtain ⟨ret, t⟩ := r
    rw [hrun] at hconfig
    obtain ⟨-, ha, hb, hc⟩ := hconfig
    have hsome : t.wm.screenHead.isEmpty = false := by
      rw [hb.tree]
      exact List.isEmpty_eq_false_iff.mpr (tree_ne_nil hdocs)
    -- the default configuration is not made, the tree being not empty
    have hlast : (do
        if (← readWm (·.screenHead.isEmpty)) then
          let _ ← initDefaultConfig ilm
        Call.sem ilm .setCallback : WmM σ Unit) t = Call.sem ilm .setCallback t := by
      simp only [Comp.bind_apply, readWm, Comp.reads, hsome]
      rfl
    dsimp only
    rw [hlast]
    exact shows_of_builds hI ha hb hc

/-- A layout document is built faithfully: each screen stands where it is named first, each
layer on the screen and in the order of its last naming, with the surfaces named in any of
its namings, in the order of their last namings in it, and layers and surfaces have the
properties of their last namings. -/
theorem document_built (hstay : ilm.ScreensStay) (docs : List ScreenDoc) (w : World σ)
    (hexist : ∀ s ∈ docs, (ilm.getPropertiesOfScreen s.id w.ilm).1 = true) :
    (∀ body, commandOf body = some .initialScreen →
      List.Forall₂ ScreenDoc.Describes docs ((parseScreens body).getD []) →
        Shows ilm docs (parseVersion body = .error .bufferOverflow)
          ((Event.message body).handle ilm w)) ∧
    ∀ localHostname rootJobj, docs ≠ [] →
      List.Forall₂ ScreenDoc.Describes docs (configScreens localHostname rootJobj) →
        Shows ilm docs (ConfigOverflows localHostname rootJobj)
          (parserInit ilm ⟨localHostname, some (some rootJobj)⟩ w) := by
  have hI : ilm.Keeps fun c => ∀ s ∈ docs, (ilm.getPropertiesOfScreen s.id c).1 = true :=
    ⟨fun op c hc s hs => (hstay s.id).call op c (hc s hs),
      fun c hc s hs => (hstay s.id).surfaceIDs c (hc s hs),
      fun c hc s hs => (hstay s.id).layerIDs c (hc s hs),
      fun id c hc s hs => (hstay s.id).screenProperties id c (hc s hs),
      fun c hc s hs => (hstay s.id).screenIDs c (hc s hs)⟩
  have hfound : ∀ s ∈ docs, ∀ c, (∀ s ∈ docs, (ilm.getPropertiesOfScreen s.id c).1 = true) →
      (ilm.getPropertiesOfScreen s.id c).1 = true := fun s hs c hc => hc s hs
  refine ⟨fun body hbody h => ?_, fun localHostname rootJobj hdocs h => ?_⟩
  · exact initScreen_shows hI hbody h hfound hexist
  · exact parserInit_shows hI hdocs h hfound hexist

end Run

/-! A document that names a layer twice. -/

def fullObject (id : Int64) (key : String) (parts : List Json) : Json :=
  .object [(jsonKeyId, .integer id), (jsonKeyWidth, .integer 800), (jsonKeyHeight, .integer 600),
    (jsonKeySrcx, .integer 0), (jsonKeySrcy, .integer 0), (jsonKeySrcw, .integer 800),
    (jsonKeySrch, .integer 600), (jsonKeyDstx, .integer 0), (jsonKeyDsty, .integer 0),
    (jsonKeyDstw, .integer 800), (jsonKeyDsth, .integer 600), (jsonKeyOpacity, .integer 1),
    (jsonKeyVisibility, .integer 1), (key, .array parts)]

def fullLayout : LayoutProperties := ⟨0, 0, 800, 600, 0, 0, 800, 600, (1 : Int64).toFloat32, 1⟩

theorem fullLayout_describes (id : Int64) (key : String) (parts : List Json) :
    fullLayout.Describes (fullObject id key parts) where
  srcX := ⟨0, rfl, rfl⟩
  srcY := ⟨0, rfl, rfl⟩
  srcW := ⟨800, rfl, rfl⟩
  srcH := ⟨600, rfl, rfl⟩
  dstX := ⟨0, rfl, rfl⟩
  dstY := ⟨0, rfl, rfl⟩
  dstW := ⟨800, rfl, rfl⟩
  dstH := ⟨600, rfl, rfl⟩
  opacity := .inr ⟨1, rfl, rfl⟩
  visibility := ⟨1, rfl, rfl⟩

/-- Layer 1 comes again after layer 2, with another surface. -/
def twiceScreens : List Json :=
  [fullObject 0 jsonKeyLayers
    [fullObject 1 jsonKeySurfaces [fullObject 10 jsonKeySurfaces []],
      fullObject 2 jsonKeySurfaces [fullObject 10 jsonKeySurfaces []],
      fullObject 1 jsonKeySurfaces [fullObject 11 jsonKeySurfaces []]]]

def twiceDocs : List ScreenDoc :=
  [⟨0, [⟨1, ⟨800, 600, fullLayout⟩, [⟨10, fullLayout⟩]⟩,
    ⟨2, ⟨800, 600, fullLayout⟩, [⟨10, fullLayout⟩]⟩,
    ⟨1, ⟨800, 600, fullLayout⟩, [⟨11, fullLayout⟩]⟩]⟩]

theorem twiceDocs_describes : List.Forall₂ ScreenDoc.Describes twiceDocs twiceScreens := by
  have hlayer : ∀ l x : Id, ∀ n m : Int64, n.toInt = l.toNat → m.toInt = x.toNat →
      LayerDoc.Describes ⟨l, ⟨800, 600, fullLayout⟩, [⟨x, fullLayout⟩]⟩
        (fullObject n jsonKeySurfaces [fullObject m jsonKeySurfaces []]) := fun l x n m hl hx =>
    ⟨⟨n, rfl, hl⟩, ⟨800, rfl, rfl⟩, ⟨600, rfl, rfl⟩, fullLayout_describes _ _ _,
      .cons ⟨⟨m, rfl, hx⟩, fullLayout_describes _ _ _⟩ .nil⟩
  refine .cons ⟨⟨0, rfl, rfl⟩, ?_⟩ .nil
  exact .cons (hlayer 1 10 1 10 rfl rfl) (.cons (hlayer 2 10 2 10 rfl rfl)
    (.cons (hlayer 1 11 1 11 rfl rfl) .nil))

theorem compositor_screensStay (strict : Bool) : (Compositor.ilm strict).ScreensStay :=
  fun id => Compositor.keeps_screens strict fun screens => screens.contains id = true

def configFor (host : String) (screenAry : List Json) : Json :=
  .object [(jsonKeyTarget, .array
    [.object [(jsonKeyHostname, .string host), (jsonKeyScreens, .array screenAry)]])]

theorem configScreens_configFor (host : String) (screenAry : List Json) :
    configScreens host (configFor host screenAry) = screenAry := by
  have hscreens : targetScreens host
      (.object [(jsonKeyHostname, .string host), (jsonKeyScreens, .array screenAry)]) =
        if host = host then screenAry else [] := rfl
  have hconfig : configScreens host (configFor host screenAry) = [Json.object
      [(jsonKeyHostname, .string host), (jsonKeyScreens, .array screenAry)]].flatMap
        (targetScreens host) := rfl
  rw [hconfig, List.flatMap_singleton, hscreens, if_pos rfl]

def initialScreenBody (screenAry : List Json) : Option Json :=
  some (.object [(jsonKeyCommand, .string "initial_screen"), (jsonKeyScreens, .array screenAry)])

theorem parseScreens_initialScreenBody (screenAry : List Json) :
    (parseScreens (initialScreenBody screenAry)).getD [] = screenAry := rfl

theorem document_built_twice :
    ∃ w w', (Event.message (initialScreenBody twiceScreens)).handle (Compositor.ilm false)
        (World.fresh [0]) = .ok ((), w) ∧ Built (.of twiceDocs) w.wm ∧
      parserInit (Compositor.ilm false) ⟨"host", some (some (configFor "host" twiceScreens))⟩
        (World.fresh [0]) = .ok ((), w') ∧ Built (.of twiceDocs) w'.wm := by
  have hboth := document_built (compositor_screensStay false) twiceDocs (World.fresh [0])
    (by decide)
  have hmessage := hboth.1 (initialScreenBody twiceScreens) (by decide +kernel)
    (by rw [parseScreens_initialScreenBody]; exact twiceDocs_describes)
  have hconfig := hboth.2 "host" (configFor "host" twiceScreens) nofun
    (by rw [configScreens_configFor]; exact twiceDocs_describes)
  have hok : ((Event.message (initialScreenBody twiceScreens)).handle (Compositor.ilm false)
      (World.fresh [0])).isOk = true := by decide +kernel
  have hok' : (parserInit (Compositor.ilm false)
      ⟨"host", some (some (configFor "host" twiceScreens))⟩ (World.fresh [0])).isOk = true := by
    decide +kernel
  cases hrun : (Event.message (initialScreenBody twiceScreens)).handle (Compositor.ilm false)
      (World.fresh [0]) with
  | error e =>
    rw [hrun] at hok
    cases hok
  | ok r =>
    cases hrun' : parserInit (Compositor.ilm false)
        ⟨"host", some (some (configFor "host" twiceScreens))⟩ (World.fresh [0]) with
    | error e =>
      rw [hrun'] at hok'
      cases hok'
    | ok r' =>
      rw [hrun] at hmessage
      rw [hrun'] at hconfig
      exact ⟨r.2, r'.2, rfl, (hmessage.built r.2 rfl).1, rfl, (hconfig.built r'.2 rfl).1⟩

end UhmiIviWm
