import UhmiIviWm.Model.Desktop
import UhmiIviWm.Verify.Placement
import UhmiIviWm.Verify.Properties
import UhmiIviWm.Verify.Replay
import UhmiIviWm.Verify.ScreenOrder

/-!
# What is to be seen

A turn of the loop is at most two steps of a session, so what holds of sessions holds of
the whole desktop (`session_of_desktop`), and what holds of the loop as well
(`mainLoop_of_desktop`). Put together: whenever the pipe is empty and no notification
waits to be answered, the compositor shows the picture of the layout that the commands
handled so far make, of the surfaces that exist (`picture_shown`).
-/

namespace UhmiIviWm

open Lib Lib.CallPlan Lib.TransitionSystem

/-- What is to be seen: the layers of each screen, the look of each layer, and its
surfaces. -/
abbrev Picture := List (Id × List (Id × Look × List Id))

/-- What a layout asks for, given the surfaces that exist. -/
def Wm.picture (wm : Wm) (surfaces : List Id) : Picture :=
  wm.screenHead.map fun s => (s.id, s.listHead.map fun e =>
    (e.id, e.prop.lp.look, (ids e.listHead).filter fun id => surfaces.contains id))

/-- What the compositor shows on the screens. -/
def Compositor.picture (c : Compositor) (screens : List Id) : Picture :=
  screens.map fun s => (s, (c.screenOrder s).map fun e => (e, c.layerLook e, c.layerOrder e))

/-! ## Sessions -/

section Session

variable {w w' : World Compositor} {e : Event}

theorem Ordered.event (h : Ordered w []) (hshown : PutsShown (.event e) w)
    (hs : e.handle (Compositor.ilm false) w = .ok ((), w')) : Ordered w' [] := by
  refine runCalls_induction (P := Ordered) (G := fun w call rest =>
    (FreshScreen w call ∧ call.Points w.wm) ∧ Shown w call rest ∧ Opens w call rest)
    ?_ (h.begin _) (((atEach_freshScreen e w).and (points_event e w)).and (shown_event hshown))
    (Event.handle_eq_ok.mp hs).2
  rintro call rest w w' hw ⟨⟨hfresh, hp⟩, hs, ho⟩ hrun
  rw [Call.sem_lenient hrun]
  exact hw.call hfresh hp hs ho

theorem Mirrors.event (h : Mirrors w) (hs : e.handle (Compositor.ilm false) w = .ok ((), w')) :
    Mirrors w' := by
  refine runCalls_induction (P := fun w _ => Mirrors w) (G := fun w call _ => FreshScreen w call)
    ?_ h (atEach_freshScreen e w) (Event.handle_eq_ok.mp hs).2
  intro call rest w w' hm hfresh hs
  rw [Call.sem_lenient hs]
  exact ⟨hm.unique.call hfresh, hm.layers.call hm.unique call, hm.surfaces.call hm.unique call⟩

/-- Layers and screens are not touched from outside. -/
theorem Ordered.outside (h : Ordered w []) {c : Compositor}
    (horder : c.screenOrder = w.ilm.screenOrder) (hlayers : c.layers = w.ilm.layers) :
    Ordered ⟨w.wm, c⟩ [] := by
  refine ⟨h.unique, fun l hl => hlayers ▸ h.exist l hl, ?_⟩
  rw [Synced, horder]
  exact h.synced

theorem Mirrors.surfacesChange (h : Mirrors w) {c : Compositor} (hc : w.ilm.SurfacesChange c) :
    Mirrors ⟨w.wm, c⟩ :=
  ⟨h.unique, h.layers.surfacesChange hc, h.surfaces.surfacesChange hc⟩

/-- The condition on a session: that of its surfaces, and that of its screens. -/
def Considerate : SessionAction → Session → Prop
  | .message body, s =>
    Unhindered (.message body) s ∧ PutsShown (.event (.message body)) s.world
  | a, s => Unhindered a s

theorem Considerate.unhindered {a : SessionAction} {s : Session} (h : Considerate a s) :
    Unhindered a s := by
  cases a with
  | message body => exact h.1
  | create | destroy | configure | takeRecord => exact h

/-- Screens are shown in order, and what is set is as it is stored. -/
structure Depicted (w : World Compositor) : Prop where
  ordered : Ordered w []
  mirrors : Mirrors w

theorem Depicted.step {s s' : Session} {a : SessionAction} (h : Depicted s.world)
    (hG : Considerate a s) (hs : s.perform a = some s') : Depicted s'.world := by
  obtain ⟨w, pipe⟩ := s
  cases a with
  | create id =>
    simp only [Session.perform] at hs
    split at hs
    · cases hs
    · rename_i hnew
      cases hs
      have hchange : w.ilm.SurfacesChange (w.ilm.createSurface id) :=
        .create id (.none _) fun hmem => hnew (List.contains_iff_mem.mpr hmem)
      exact ⟨h.ordered.outside rfl rfl, h.mirrors.surfacesChange hchange⟩
  | destroy id =>
    simp only [Session.perform] at hs
    split at hs
    · cases hs
      exact ⟨h.ordered.outside rfl rfl, h.mirrors.surfacesChange (.destroy id (.none _))⟩
    · cases hs
  | configure id =>
    simp only [Session.perform] at hs
    split at hs
    · cases hs
      exact ⟨h.ordered.outside rfl rfl, h.mirrors.unique, h.mirrors.layers,
        h.mirrors.surfaces.stored, h.mirrors.surfaces.absent⟩
    · cases hs
  | takeRecord =>
    simp only [Session.perform] at hs
    cases pipe with
    | nil => cases hs
    | cons data rest =>
      dsimp only at hs
      split at hs
      · rename_i hhandle
        cases hs
        have hrecord : PutsShown (.event (.record data)) w := trivial
        exact ⟨h.ordered.event hrecord hhandle, h.mirrors.event hhandle⟩
      · cases hs
  | message body =>
    simp only [Session.perform] at hs
    split at hs
    · rename_i hhandle
      cases hs
      exact ⟨h.ordered.event hG.2 hhandle, h.mirrors.event hhandle⟩
    · cases hs

end Session

/-- What an initial world has to be like: nothing has been set yet. -/
structure Blank (screens : List Id) (w : World Compositor) : Prop where
  screens : w.ilm.screens = screens
  screenOrder : ∀ s, w.ilm.screenOrder s = []
  surfaceLook : ∀ s, w.ilm.surfaceLook s = .unset

theorem Depicted.of_parserInit {screens : List Id} {boot : Boot} {w₀ w : World Compositor}
    (hblank : Blank screens w₀) (h : parserInit (Compositor.ilm false) boot w₀ = .ok ((), w)) :
    Depicted w := by
  refine ⟨ordered_of_parserInit hblank.screenOrder h, ?_⟩
  have hrun : (daemon (Compositor.ilm false) ⟨fun _ w => w = w₀, fun c c' => c' = c⟩).Run
      (fun _ _ => True) w := .init ⟨boot, w₀, rfl, h⟩
  refine mirrors_of_run (fun _ w hw => ?_) (fun c c' hc => ?_) hrun
  · rw [show w = w₀ from hw]
    exact hblank.surfaceLook
  · rw [show c' = c from hc]
    exact .none c

theorem depicted_of_run {screens : List Id} {start : Boot → World Compositor → Prop}
    (hstart : ∀ boot w, start boot w → Blank screens w) {s : Session}
    (h : (session start).Run Considerate s) : Depicted s.world := by
  refine h.invariant (P := fun s => Depicted s.world) ?_ fun a s s' _ hs hG hstep =>
    hs.step hG hstep
  rintro s ⟨-, boot, w₀, hboot, hinit⟩
  exact .of_parserInit (hstart boot w₀ hboot) hinit

/-- With the pipe empty and no notification unanswered, the compositor shows what the
layout asks for. -/
theorem picture_of_run {screens : List Id} {start : Boot → World Compositor → Prop}
    (hstart : ∀ boot w, start boot w → Blank screens w) {s : Session}
    (h : (session start).Run Considerate s) (hpipe : s.pipe = [])
    (hpending : s.world.ilm.pending = []) :
    s.world.ilm.picture s.world.wm.screenIds = s.world.wm.picture s.world.ilm.surfaces := by
  have hdepicted := depicted_of_run hstart h
  have hplaced := placed_of_run (h.mono fun _ _ => Considerate.unhindered)
  have hnone : ∀ id, ¬ Awaited s.pipe s.world.ilm id := by
    intro id hawait
    rw [hpipe, Awaited, hpending] at hawait
    exact hawait.elim List.not_mem_nil List.not_mem_nil
  rw [Compositor.picture, Wm.picture, Wm.screenIds, ids, List.map_map]
  refine List.map_congr_left fun elm helm => ?_
  have hscreen : s.world.ilm.screenOrder elm.id = ids elm.listHead :=
    hdepicted.ordered.order_eq helm
  rw [Function.comp_apply, hscreen, ids, List.map_map]
  refine congrArg (Prod.mk elm.id) (List.map_congr_left fun e he => ?_)
  have hmem : e ∈ layersOf s.world.wm.screenHead := mem_layersOf.mpr ⟨elm, helm, he⟩
  have hlook : s.world.ilm.layerLook e.id = e.prop.lp.look :=
    hdepicted.mirrors.layers e.id e (hdepicted.mirrors.unique.getLayer_iff.mpr ⟨hmem, rfl⟩)
  have horder : s.world.ilm.layerOrder e.id =
      (ids e.listHead).filter fun id => s.world.ilm.surfaces.contains id :=
    hplaced.order_eq hnone hmem
  rw [Function.comp_apply, hlook, horder]

/-! ## The desktop as a session -/

section Desktop

variable {jsonLoads : List UInt8 → Option Json} {order : ByteOrder}
  {start : Boot → World Compositor → Prop} {l l' : MainLoop Compositor}

/-- The command a turn handles, and the session it is handled in. -/
def MainLoop.handles (jsonLoads : List UInt8 → Option Json) (l : MainLoop Compositor) (t : Turn) :
    Option (SessionAction × Session) :=
  match l.handleCallbacks (Compositor.ilm false) t, l.acceptFd with
  | .ok l₁, some fd =>
    if t.pollhup then none
    else if t.pollin then
      ((receiveCommand t.fuel t.rest t.rest' (l.peers fd).socket).bind (·.1)).map fun msg =>
        (.message (jsonLoads msg), l₁.session)
    else none
  | _, _ => none

/-- What a step does in terms of the session, each action with the state it is taken in. -/
def MainLoop.sessionActions (jsonLoads : List UInt8 → Option Json) (l : MainLoop Compositor) :
    DesktopAction → List (SessionAction × Session)
  | .create id => [(.create id, l.session)]
  | .destroy id => [(.destroy id, l.session)]
  | .configure id => [(.configure id, l.session)]
  | .connect _ => []
  | .turn t =>
    (if t.pipein then [(.takeRecord, l.session)] else []) ++ (l.handles jsonLoads t).toList

/-- All that a step does meets `G`. -/
def Throughout (jsonLoads : List UInt8 → Option Json) (G : SessionAction → Session → Prop)
    (a : DesktopAction) (l : MainLoop Compositor) : Prop :=
  ∀ p ∈ l.sessionActions jsonLoads a, G p.1 p.2

theorem desktop_turn {t : Turn}
    (h : (desktop jsonLoads order start).step (.turn t) l l') :
    l.Polled t ∧ t.rest.length = 4 ∧ t.rest'.length = 4 ∧ t.badRead = none ∧
      l.turn (Compositor.ilm false) jsonLoads order t = .ok (some l') := by
  have hperform : l.perform jsonLoads order (.turn t) = some l' := h
  simp only [MainLoop.perform] at hperform
  split at hperform
  · rename_i hpossible
    obtain ⟨hpoll, hrest, hrest', hread⟩ := hpossible
    cases hturn : l.turn (Compositor.ilm false) jsonLoads order t with
    | error e =>
      rw [hturn] at hperform
      cases hperform
    | ok next =>
      rw [hturn] at hperform
      exact ⟨hpoll, hrest, hrest', hread, congrArg Except.ok hperform⟩
  · cases hperform

theorem session_outside {a : SessionAction} (h : l.outside a = some l') :
    l.session.perform a = some l'.session := by
  obtain ⟨s, hs, rfl⟩ := Option.map_eq_some_iff.mp h
  exact hs

theorem session_callbackPipe (hne : l.pipe ≠ [])
    (h : l.callbackPipe (Compositor.ilm false) none = .ok l') :
    l.session.perform .takeRecord = some l'.session := by
  obtain ⟨data, rest, hpipe⟩ := List.exists_cons_of_ne_nil hne
  simp only [MainLoop.callbackPipe, MainLoop.readPipe, hpipe, List.head?_cons, List.tail_cons] at h
  simp only [MainLoop.session, Session.perform, hpipe]
  cases hhandle : (Event.record data).handle (Compositor.ilm false) l.world with
  | error e =>
    rw [hhandle] at h
    cases h
  | ok r =>
    rw [hhandle] at h
    cases h
    rfl

/-- A round for a client is a message, or nothing that concerns the session. -/
theorem session_receive {t : Turn} {fd : Nat} (hfd : l.acceptFd = some fd)
    (h : l.receive (Compositor.ilm false) jsonLoads order t = .ok (some l')) :
    match (receiveCommand t.fuel t.rest t.rest' (l.peers fd).socket).bind (·.1) with
    | none => l'.session = l.session
    | some msg => l.session.perform (.message (jsonLoads msg)) = some l'.session := by
  obtain ⟨cmd, socket, world, hreceive, hrun, rfl⟩ := MainLoop.receive_ok hfd h
  rw [hreceive, Option.bind_some]
  cases cmd with
  | none =>
    cases hrun
    rfl
  | some msg =>
    have hhandle : (Event.message (jsonLoads msg)).handle (Compositor.ilm false) l.world =
        .ok ((), world) := handle_of_runEvents hrun
    simp only [MainLoop.session, Session.perform, hhandle]
    rfl

theorem session_of_turn {G : SessionAction → Session → Prop} {t : Turn}
    (hrun : (session start).Run G l.session) (hG : Throughout jsonLoads G (.turn t) l)
    (hpoll : l.Polled t) (hread : t.badRead = none)
    (hturn : l.turn (Compositor.ilm false) jsonLoads order t = .ok (some l')) :
    (session start).Run G l'.session := by
  obtain ⟨l₁, l₂, hcallbacks, haccept, hlast⟩ := MainLoop.turn_ok hpoll hturn
  have hfirst : (session start).Run G l₁.session ∧ l₁.acceptFd = l.acceptFd ∧
      l₁.peers = l.peers ∧ l.handleCallbacks (Compositor.ilm false) t = .ok l₁ := by
    rcases hcallbacks with ⟨hpipein, rfl⟩ | ⟨hpipein, hcallbacks⟩
    · refine ⟨hrun, rfl, rfl, ?_⟩
      rw [MainLoop.handleCallbacks, hpipein]
      rfl
    · obtain ⟨_, _, _, rfl, -, -⟩ := MainLoop.callbackPipe_ok jsonLoads hcallbacks
      have htake : G .takeRecord l.session := by
        refine hG (.takeRecord, l.session) (List.mem_append_left _ ?_)
        rw [if_pos hpipein]
        exact List.mem_singleton_self _
      refine ⟨hrun.step htake ?_, rfl, rfl, ?_⟩
      · rw [hread] at hcallbacks
        exact session_callbackPipe (hpoll.pipein hpipein) hcallbacks
      · rw [MainLoop.handleCallbacks, hpipein]
        exact hcallbacks
  obtain ⟨hrun₁, hserved, hpeers, hhandled⟩ := hfirst
  have hsecond : l₂.session = l₁.session := by
    rcases haccept with ⟨-, rfl⟩ | ⟨-, -, rfl⟩
    · rfl
    · unfold MainLoop.accept
      split
      · rfl
      · rfl
  rcases hlast with ⟨-, -, rfl⟩ | ⟨-, rfl⟩ | ⟨hhup, hin, fd, hfd, rfl, hreceive⟩
  · rwa [hsecond]
  · exact hsecond ▸ hrun₁
  · have hstep := session_receive (hserved.trans hfd) hreceive
    rw [hpeers] at hstep
    cases hcmd : (receiveCommand t.fuel t.rest t.rest' (l.peers fd).socket).bind (·.1) with
    | none =>
      rw [hcmd] at hstep
      rwa [hstep]
    | some msg =>
      rw [hcmd] at hstep
      refine hrun₁.step (hG (.message (jsonLoads msg), l₂.session) ?_) hstep
      refine List.mem_append_right _ ?_
      simp only [MainLoop.handles, hhandled, hfd, hhup, hin, hcmd, Bool.false_eq_true, if_false,
        if_true, Option.map_some]
      exact List.mem_singleton_self _

/-- What is done to a desktop is done to its session. -/
theorem session_of_desktop {G : SessionAction → Session → Prop}
    (h : (desktop jsonLoads order start).Run (Throughout jsonLoads G) l) :
    (session start).Run G l.session := by
  refine h.invariant (P := fun l => (session start).Run G l.session) ?_ ?_
  · rintro l ⟨-, -, -, -, hinit⟩
    exact .init hinit
  · intro a l l' _ hrun hG hstep
    have hone : ∀ b, G b l.session → l.outside b = some l' → (session start).Run G l'.session :=
      fun b hb houtside => hrun.step hb (session_outside houtside)
    cases a with
    | create id => exact hone _ (hG _ (List.mem_singleton_self _)) hstep
    | destroy id => exact hone _ (hG _ (List.mem_singleton_self _)) hstep
    | configure id => exact hone _ (hG _ (List.mem_singleton_self _)) hstep
    | connect s =>
      cases hstep
      exact hrun
    | turn t =>
      obtain ⟨hpoll, -, -, hread, hturn⟩ := desktop_turn hstep
      exact session_of_turn hrun hG hpoll hread hturn

/-! ## The desktop as a loop -/

/-- What the loop sees of the applications: the screens stay. -/
def behindScreens (start : Boot → World Compositor → Prop) : Setting Compositor :=
  ⟨start, fun c c' => c'.screens = c.screens⟩

theorem reachable_of_notify (records : List Cbdata)
    (h : (mainLoop (Compositor.ilm false) jsonLoads order (behindScreens start)).Reachable l) :
    (mainLoop (Compositor.ilm false) jsonLoads order (behindScreens start)).Reachable
      { l with pipe := l.pipe ++ records } := by
  induction records generalizing l with
  | nil => rwa [List.append_nil]
  | cons data records ih =>
    have hone : (mainLoop (Compositor.ilm false) jsonLoads order (behindScreens start)).Reachable
        { l with pipe := l.pipe ++ [data] } := h.step (a := .notify data) rfl
    have hall := ih hone
    rwa [List.append_assoc] at hall

/-- The compositor changes, and its callback writes records. -/
theorem outside_ok {a : SessionAction} {id : Id}
    (ha : a = .create id ∨ a = .destroy id ∨ a = .configure id) (h : l.outside a = some l') :
    ∃ c records, c.screens = l.world.ilm.screens ∧
      l' = { l with world := ⟨l.world.wm, c⟩, pipe := l.pipe ++ records } := by
  obtain ⟨s, hs, rfl⟩ := Option.map_eq_some_iff.mp h
  rcases ha with rfl | rfl | rfl
  · rw [Session.perform] at hs
    split at hs
    · cases hs
    · cases hs
      exact ⟨l.world.ilm.createSurface id, _, rfl, rfl⟩
  · rw [Session.perform] at hs
    split at hs
    · cases hs
      exact ⟨l.world.ilm.destroySurface id, _, rfl, rfl⟩
    · cases hs
  · rw [Session.perform] at hs
    split at hs
    · cases hs
      exact ⟨l.world.ilm.answer id, _, rfl, rfl⟩
    · cases hs

theorem reachable_of_outside {a : SessionAction} {id : Id}
    (h : (mainLoop (Compositor.ilm false) jsonLoads order (behindScreens start)).Reachable l)
    (ha : a = .create id ∨ a = .destroy id ∨ a = .configure id) (houtside : l.outside a = some l') :
    (mainLoop (Compositor.ilm false) jsonLoads order (behindScreens start)).Reachable l' := by
  obtain ⟨c, records, hc, rfl⟩ := outside_ok ha houtside
  have henv : (mainLoop (Compositor.ilm false) jsonLoads order (behindScreens start)).Reachable
      { l with world := ⟨l.world.wm, c⟩ } := h.step (a := .env) ⟨c, hc, rfl⟩
  exact reachable_of_notify records henv

theorem mainLoop_of_desktop (h : (desktop jsonLoads order start).Reachable l) :
    (mainLoop (Compositor.ilm false) jsonLoads order (behindScreens start)).Reachable l := by
  refine h.invariant (P := fun l => (mainLoop (Compositor.ilm false) jsonLoads order
    (behindScreens start)).Reachable l) ?_ ?_
  · rintro l ⟨hopened, hbacklog, hfree, hlog, -, boot, w₀, hboot, hinit⟩
    exact .init ⟨hopened, hbacklog, hfree, hlog, boot, w₀, hboot, hinit⟩
  · intro a l l' _ hreach hstep
    cases a with
    | create id => exact reachable_of_outside hreach (.inl rfl) hstep
    | destroy id => exact reachable_of_outside hreach (.inr (.inl rfl)) hstep
    | configure id => exact reachable_of_outside hreach (.inr (.inr rfl)) hstep
    | connect s => exact hreach.step (a := .connect s) (Option.some.inj hstep).symm
    | turn t =>
      obtain ⟨hpoll, hrest, hrest', -, hturn⟩ := desktop_turn hstep
      exact hreach.step (a := .turn t) ⟨hpoll, hrest, hrest', hturn⟩

theorem layout_of_desktop {screens : List Id}
    (hstart : ∀ boot w, start boot w → Blank screens w)
    (h : (desktop jsonLoads order start).Reachable l) :
    ∃ boot w₀, start boot w₀ ∧ l.world.wm =
      (l.commands.map fun command => jsonLoads command.2).foldl
        (Wm.afterMessage fun id => screens.contains id)
          (boot.layout (fun id => screens.contains id) screens.dedup w₀.wm) := by
  have hlists : (Compositor.ilm false).Keeps ((Compositor.ilm false).Lists screens.dedup) :=
    Compositor.keeps_screens false fun screens' => some screens'.dedup = some screens.dedup
  refine wm_of_loop (Compositor.keeps_known false screens) hlists (fun boot w hw => ?_)
    (fun c c' hk hc => ?_) (mainLoop_of_desktop h)
  · have hscreens := (hstart boot w hw).screens
    refine ⟨fun id => ?_, ?_⟩
    · exact congrArg (List.contains · id) hscreens
    · exact congrArg (fun screens' : List Id => some screens'.dedup) hscreens
  · intro id
    exact (congrArg (List.contains · id) hc).trans (hk id)

end Desktop

/-- In quiet states the compositor shows the picture of the layout that the commands handled
so far make of that of `parser_init`, of the surfaces that exist; a surface that has been
given a look has the stored one. -/
theorem picture_shown {jsonLoads : List UInt8 → Option Json} {order : ByteOrder}
    {start : Boot → World Compositor → Prop} {screens : List Id}
    (hstart : ∀ boot w, start boot w → Blank screens w) {l : MainLoop Compositor}
    (h : (desktop jsonLoads order start).Run (Throughout jsonLoads Considerate) l)
    (hpipe : l.pipe = []) (hpending : l.world.ilm.pending = []) :
    ∃ (boot : Boot) (w₀ : World Compositor) (layout : Wm), start boot w₀ ∧
      layout = (l.commands.map fun command => jsonLoads command.2).foldl
        (Wm.afterMessage fun id => screens.contains id)
          (boot.layout (fun id => screens.contains id) screens.dedup w₀.wm) ∧
      l.world.ilm.picture layout.screenIds = layout.picture l.world.ilm.surfaces ∧
      ∀ id prop, record layout.surfacePropertiesHead id = some prop →
        l.world.ilm.surfaceLook id = .unset ∨ l.world.ilm.surfaceLook id = prop.lp.look := by
  obtain ⟨boot, w₀, hboot, hlayout⟩ := layout_of_desktop hstart h.reachable
  have hsession := session_of_desktop h
  exact ⟨boot, w₀, l.world.wm, hboot, hlayout, picture_of_run hstart hsession hpipe hpending,
    (depicted_of_run hstart hsession).mirrors.surfaces.stored⟩

/-! ## Runs on fixed inputs -/

instance Considerate.decidable (a : SessionAction) (s : Session) : Decidable (Considerate a s) :=
  SessionAction.casesOn (motive := fun a => Decidable (Considerate a s)) a
    (fun id => Unhindered.decidable (.create id) s)
    (fun id => Unhindered.decidable (.destroy id) s)
    (fun id => Unhindered.decidable (.configure id) s)
    (Unhindered.decidable .takeRecord s)
    fun body => @instDecidableAnd _ _ (Unhindered.decidable (.message body) s)
      (PutsShown.decidable (.message body) s.world)

instance Throughout.decidable (jsonLoads : List UInt8 → Option Json) (a : DesktopAction)
    (l : MainLoop Compositor) : Decidable (Throughout jsonLoads Considerate a l) :=
  List.decidableBAll _ _

namespace MainLoop

/-- Performs the actions, each of which has to be possible and meet the condition. -/
def performAll (jsonLoads : List UInt8 → Option Json) (actions : List DesktopAction)
    (l : MainLoop Compositor) : Option (MainLoop Compositor) :=
  actions.foldlM (fun l a =>
    if Throughout jsonLoads Considerate a l then l.perform jsonLoads .little a else none) l

theorem run_performAll {jsonLoads : List UInt8 → Option Json}
    {start : Boot → World Compositor → Prop} {actions : List DesktopAction}
    {l l' : MainLoop Compositor}
    (hl : (desktop jsonLoads .little start).Run (Throughout jsonLoads Considerate) l)
    (h : performAll jsonLoads actions l = some l') :
    (desktop jsonLoads .little start).Run (Throughout jsonLoads Considerate) l' := by
  refine TransitionSystem.foldlM_invariant (fun l a t hl ht => ?_) hl h
  split at ht
  · rename_i hG
    exact hl.step hG ht
  · cases ht

/-- A state that a run from the default configuration ends in. -/
theorem exists_run {jsonLoads : List UInt8 → Option Json} {screens : List Id}
    {actions : List DesktopAction} {p : MainLoop Compositor → Bool}
    (start : Boot → World Compositor → Prop) (hstart : start ⟨"host", none⟩ (World.fresh screens))
    (h : ((started screens).bind (performAll jsonLoads actions)).any p = true) :
    ∃ l, (desktop jsonLoads .little start).Run (Throughout jsonLoads Considerate) l ∧
      p l = true := by
  obtain ⟨l, hl, hp⟩ := (Option.any_eq_true _ _).mp h
  obtain ⟨l₀, hstarted, hrun⟩ := Option.bind_eq_some_iff.mp hl
  obtain ⟨world, hinit, rfl⟩ := exists_of_started hstarted
  refine ⟨l, run_performAll (.init ⟨rfl, rfl, rfl, rfl, ?_⟩) hrun, hp⟩
  exact ⟨rfl, _, _, hstart, hinit⟩

end MainLoop

/-- The commands `A` and `B` of the client below. -/
def layerAndSurface (cmd : List UInt8) : Option Json :=
  if cmd = [0x41] then
    some (.object [("command", .string "add_layer"),
      ("screens", .array [screenObject 0 "append" [layerObject 3000 []]])])
  else
    some (.object [("command", .string "add_surface"),
      ("screens", .array [screenObject 0 "append" [layerObject 3000 [surfaceObject 10]]])])

/-- A client puts surface 10 into layer 3000, and then an application creates it. -/
def shownLate : List DesktopAction :=
  [.connect (atOnce (encodeCommand [0x41] ++ encodeCommand [0x42])),
    .turn { idleTurn with listening := true }, .turn { idleTurn with pollin := true },
    .turn { idleTurn with pollin := true }, .create 10, .turn { idleTurn with pipein := true },
    .configure 10, .turn { idleTurn with pipein := true }]

theorem picture_shown_shownLate : ∃ (l : MainLoop Compositor) (boot : Boot) (layout : Wm),
    l.commandsOf 0 = [[0x41], [0x42]] ∧ l.world.ilm.layerOrder 3000 = [10] ∧
      layout = (l.commands.map fun command => layerAndSurface command.2).foldl
        (Wm.afterMessage fun id => [0].contains id)
          (boot.layout (fun id => [0].contains id) [0] (World.fresh [0]).wm) ∧
      l.world.ilm.picture layout.screenIds = layout.picture l.world.ilm.surfaces := by
  have hrun : ((MainLoop.started [0]).bind
      (MainLoop.performAll layerAndSurface shownLate)).any (fun l =>
        l.session.quiet && (l.commandsOf 0 == [[0x41], [0x42]] &&
          l.world.ilm.layerOrder 3000 == [10])) = true := by decide +kernel
  obtain ⟨l, hl, hend⟩ := MainLoop.exists_run (fun _ w => w = World.fresh [0]) rfl hrun
  rw [Session.quiet, Bool.and_eq_true, Bool.and_eq_true, Bool.and_eq_true] at hend
  obtain ⟨⟨hpipe, hpending⟩, hcommands, horder⟩ := hend
  have hblank : ∀ (boot : Boot) (w : World Compositor), w = World.fresh [0] → Blank [0] w := by
    rintro boot w rfl
    exact ⟨rfl, fun _ => rfl, fun _ => rfl⟩
  obtain ⟨boot, w₀, layout, rfl, hlayout, hpicture, -⟩ :=
    picture_shown hblank hl (List.isEmpty_iff.mp hpipe) (List.isEmpty_iff.mp hpending)
  exact ⟨l, boot, layout, beq_iff_eq.mp hcommands, beq_iff_eq.mp horder, hlayout, hpicture⟩

end UhmiIviWm
