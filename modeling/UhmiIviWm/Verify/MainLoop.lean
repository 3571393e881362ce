import UhmiIviWm.Lib.Refinement
import UhmiIviWm.Model.MainLoop
import UhmiIviWm.Verify.Responses
import UhmiIviWm.Verify.ReturnCodes

/-!
# Turns of the whole loop

A turn is at most three small steps: the pipe is read, a client is accepted, and the
client that is served is closed or answered (`turn_ok`). Each handles what it adds to
the log, so the loop refines the daemon: the clients, however many there are and
whatever they send, amount to one sequence of events (`loop_linearized`).
-/

namespace UhmiIviWm

open Lib Lib.CallPlan Lib.TransitionSystem

variable {σ : Type} {ilm : Ilm σ} {jsonLoads : List UInt8 → Option Json} {order : ByteOrder}
  {set : Setting σ} {l l' : MainLoop σ}

theorem handle_message_eq_ok {body : Option Json} {w w' : World σ} :
    (Event.message body).handle ilm w = .ok ((), w') ↔
      parserParseRecvCommand ilm body w = .ok (0, w') := by
  rw [Event.handle, Comp.bind_apply]
  cases hparse : parserParseRecvCommand ilm body w with
  | error e =>
    constructor
    · intro h
      cases h
    · intro h
      cases h
  | ok r =>
    obtain ⟨ret, w₁⟩ := r
    obtain rfl := parser_returns_zero hparse
    constructor
    · intro h
      cases h
      rfl
    · intro h
      cases h
      rfl

namespace MainLoop

/-- `l'` has handled what its log has more than that of `l`. -/
def Extends (ilm : Ilm σ) (jsonLoads : List UInt8 → Option Json) (l l' : MainLoop σ) : Prop :=
  ∃ handled, l'.log = l.log ++ handled ∧
    runEvents ilm (handled.map (·.event jsonLoads)) l.world = .ok l'.world

theorem Extends.of_eq (hlog : l'.log = l.log) (hworld : l'.world = l.world) :
    Extends ilm jsonLoads l l' := by
  refine ⟨[], ?_, ?_⟩
  · rw [hlog, List.append_nil]
  · rw [hworld]
    rfl

theorem runEvents_append {events events' : List Event} {w w' : World σ}
    (h : runEvents ilm events w = .ok w') :
    runEvents ilm (events ++ events') w = runEvents ilm events' w' := by
  induction events generalizing w with
  | nil =>
    cases h
    rfl
  | cons e events ih =>
    rw [runEvents] at h
    rw [List.cons_append, runEvents]
    cases hs : e.handle ilm w with
    | ok r =>
      rw [hs] at h
      exact ih h
    | error a =>
      rw [hs] at h
      cases h

theorem Extends.trans {l'' : MainLoop σ} (h : Extends ilm jsonLoads l l')
    (h' : Extends ilm jsonLoads l' l'') : Extends ilm jsonLoads l l'' := by
  obtain ⟨handled, hlog, hrun⟩ := h
  obtain ⟨handled', hlog', hrun'⟩ := h'
  refine ⟨handled ++ handled', ?_, ?_⟩
  · rw [hlog', hlog, List.append_assoc]
  · rw [List.map_append, runEvents_append hrun, hrun']

/-! ## What the branches do -/

theorem callbackPipe_ok (jsonLoads : List UInt8 → Option Json) {badRead : Option (Option Cbdata)}
    (h : l.callbackPipe ilm badRead = .ok l') :
    ∃ world pipe log, l' = { l with world, pipe, log } ∧ Extends ilm jsonLoads l l' ∧
      log.filterMap Handled.command? = l.commands := by
  unfold callbackPipe at h
  cases hread : l.readPipe badRead with
  | mk data pipe =>
    rw [hread] at h
    cases data with
    | none =>
      cases h
      exact ⟨l.world, pipe, l.log, rfl, .of_eq rfl rfl, rfl⟩
    | some data =>
      dsimp only at h
      cases hhandle : (Event.record data).handle ilm l.world with
      | error e =>
        rw [hhandle] at h
        cases h
      | ok r =>
        obtain ⟨_, world⟩ := r
        rw [hhandle] at h
        cases h
        refine ⟨world, pipe, l.log ++ [.record data], rfl, ⟨[.record data], rfl, ?_⟩, ?_⟩
        · simp only [List.map_cons, List.map_nil, Handled.event, runEvents, hhandle]
        · rw [List.filterMap_append]
          exact List.append_nil l.commands

/-- A round for the client that is served: what it has sent is received, handled and
answered. -/
theorem receive_ok {t : Turn} {fd : Nat} (hfd : l.acceptFd = some fd)
    (h : l.receive ilm jsonLoads order t = .ok (some l')) :
    ∃ cmd socket world,
      receiveCommand t.fuel t.rest t.rest' (l.peers fd).socket = some (cmd, socket) ∧
      runEvents ilm (cmd.toList.map fun msg => .message (jsonLoads msg)) l.world = .ok world ∧
      l' = { l.setPeer fd ⟨(l.peers fd).stream, socket, (l.peers fd).answers ++
          (magicEcho t.rest (l.peers fd).socket t.room ++
            (sendResponseToClient order (if cmd.isSome then 0 else -1) t.room').2)⟩ with
        world
        log := l.log ++ cmd.toList.map (.command fd) } := by
  unfold receive at h
  rw [hfd] at h
  dsimp only at h
  cases hreceive : receiveCommand t.fuel t.rest t.rest' (l.peers fd).socket with
  | none =>
    rw [serveClient, hreceive] at h
    cases h
  | some r =>
    obtain ⟨cmd, socket⟩ := r
    rw [serveClient, hreceive] at h
    cases cmd with
    | none =>
      cases h
      exact ⟨none, socket, l.world, rfl, rfl, rfl⟩
    | some msg =>
      dsimp only at h
      rw [Comp.bind_apply] at h
      cases hparse : parserParseRecvCommand ilm (jsonLoads msg) l.world with
      | error e =>
        rw [hparse] at h
        cases h
      | ok r =>
        obtain ⟨resp, world⟩ := r
        rw [hparse] at h
        obtain rfl := parser_returns_zero hparse
        cases h
        refine ⟨some msg, socket, world, rfl, ?_, rfl⟩
        have hhandle := handle_message_eq_ok.mpr hparse
        simp only [Option.toList_some, List.map_cons, List.map_nil, runEvents, hhandle]

/-- A round in which a command arrives that is handled. -/
theorem receive_eq {t : Turn} {fd : Nat} {msg : List UInt8} {socket : Socket} {world : World σ}
    {ret : Int} (hfd : l.acceptFd = some fd)
    (hreceive : receiveCommand t.fuel t.rest t.rest' (l.peers fd).socket =
      some (some msg, socket))
    (hparse : parserParseRecvCommand ilm (jsonLoads msg) l.world = .ok (ret, world)) :
    l.receive ilm jsonLoads order t = .ok (some
      { l.setPeer fd ⟨(l.peers fd).stream, socket, (l.peers fd).answers ++
          (magicEcho t.rest (l.peers fd).socket t.room ++
            (sendResponseToClient order 0 t.room').2)⟩ with
        world
        log := l.log ++ [.command fd msg] }) := by
  obtain rfl := parser_returns_zero hparse
  have hserve : serveClient ilm jsonLoads order t.fuel t.rest t.rest' (l.peers fd).socket t.room'
      l.world = .ok (some ((sendResponseToClient order 0 t.room').2, socket), world) := by
    rw [serveClient, hreceive]
    dsimp only
    rw [Comp.bind_apply, hparse]
    rfl
  unfold receive
  rw [hfd]
  dsimp only
  rw [hserve, hreceive]
  rfl

theorem turn_eq_receive {t : Turn} (hpipein : t.pipein = false) (hlistening : t.listening = false)
    (hpollhup : t.pollhup = false) (hpollin : t.pollin = true) :
    l.turn ilm jsonLoads order t = l.receive ilm jsonLoads order t := by
  simp only [turn, handleCallbacks, handleSocket, handleClient, hpipein, hlistening, hpollhup,
    hpollin, Bool.false_and, Bool.false_eq_true, if_false, if_true]

/-- The small steps of a turn. -/
theorem turn_ok {t : Turn} (hpoll : l.Polled t)
    (h : l.turn ilm jsonLoads order t = .ok (some l')) :
    ∃ l₁ l₂, (t.pipein = false ∧ l₁ = l ∨
        t.pipein = true ∧ l.callbackPipe ilm t.badRead = .ok l₁) ∧
      (¬ (t.listening = true ∧ l.acceptFd = none) ∧ l₂ = l₁ ∨
        t.listening = true ∧ l₁.acceptFd = none ∧ l₂ = l₁.accept t.acceptFails) ∧
      (t.pollhup = false ∧ t.pollin = false ∧ l' = l₂ ∨ t.pollhup = true ∧ l' = l₂.close ∨
        t.pollhup = false ∧ t.pollin = true ∧ ∃ fd, l.acceptFd = some fd ∧ l₂ = l₁ ∧
          l₂.receive ilm jsonLoads order t = .ok (some l')) := by
  unfold turn at h
  cases hcallbacks : l.handleCallbacks ilm t with
  | error e =>
    rw [hcallbacks] at h
    cases h
  | ok l₁ =>
    rw [hcallbacks] at h
    dsimp only at h
    have hread : t.pipein = false ∧ l₁ = l ∨
        t.pipein = true ∧ l.callbackPipe ilm t.badRead = .ok l₁ := by
      unfold handleCallbacks at hcallbacks
      split at hcallbacks
      · rename_i hpipein
        exact .inr ⟨hpipein, hcallbacks⟩
      · rename_i hpipein
        cases hcallbacks
        exact .inl ⟨(Bool.not_eq_true _).mp hpipein, rfl⟩
    have hserved : l₁.acceptFd = l.acceptFd := by
      rcases hread with ⟨-, rfl⟩ | ⟨-, hread⟩
      · rfl
      · obtain ⟨world, pipe, log, rfl, -, -⟩ := callbackPipe_ok jsonLoads hread
        rfl
    refine ⟨l₁, l₁.handleSocket t, hread, ?_, ?_⟩
    · unfold handleSocket
      split
      · rename_i haccept
        rw [Bool.and_eq_true, Option.isNone_iff_eq_none] at haccept
        exact .inr ⟨haccept.1, haccept.2, rfl⟩
      · rename_i haccept
        rw [Bool.and_eq_true, Option.isNone_iff_eq_none, hserved] at haccept
        exact .inl ⟨haccept, rfl⟩
    · unfold handleClient at h
      split at h
      · rename_i hhup
        cases h
        exact .inr (.inl ⟨hhup, rfl⟩)
      · rename_i hhup
        rw [Bool.not_eq_true] at hhup
        split at h
        · rename_i hin
          cases hfd : l.acceptFd with
          | none =>
            rw [(hpoll.served hfd).2] at hin
            cases hin
          | some fd =>
            have hsame : l₁.handleSocket t = l₁ := by
              rw [handleSocket, hserved, hfd, Option.isNone_some, Bool.and_false]
              rfl
            exact .inr (.inr ⟨hhup, hin, fd, rfl, hsame, h⟩)
        · rename_i hin
          cases h
          exact .inl ⟨hhup, (Bool.not_eq_true _).mp hin, rfl⟩

theorem receive_extends {t : Turn} {fd : Nat} (hfd : l.acceptFd = some fd)
    (h : l.receive ilm jsonLoads order t = .ok (some l')) : Extends ilm jsonLoads l l' := by
  obtain ⟨cmd, socket, world, -, hrun, rfl⟩ := receive_ok hfd h
  refine ⟨cmd.toList.map (.command fd), rfl, ?_⟩
  rw [List.map_map]
  exact hrun

theorem accept_extends (fails : Bool) : Extends ilm jsonLoads l (l.accept fails) := by
  unfold accept
  split
  · exact .of_eq rfl rfl
  · exact .of_eq rfl rfl

/-- What a turn adds to the log it has handled. -/
theorem turn_extends {t : Turn} (hpoll : l.Polled t)
    (h : l.turn ilm jsonLoads order t = .ok (some l')) : Extends ilm jsonLoads l l' := by
  obtain ⟨l₁, l₂, hread, haccept, hlast⟩ := turn_ok hpoll h
  have hfirst : Extends ilm jsonLoads l l₁ := by
    rcases hread with ⟨-, rfl⟩ | ⟨-, hread⟩
    · exact .of_eq rfl rfl
    · obtain ⟨_, _, _, -, hextends, -⟩ := callbackPipe_ok jsonLoads hread
      exact hextends
  have hsecond : Extends ilm jsonLoads l₁ l₂ := by
    rcases haccept with ⟨-, rfl⟩ | ⟨-, -, rfl⟩
    · exact .of_eq rfl rfl
    · exact accept_extends _
  refine hfirst.trans (hsecond.trans ?_)
  rcases hlast with ⟨-, -, rfl⟩ | ⟨-, rfl⟩ | ⟨-, -, fd, hfd, rfl, hreceive⟩
  · exact .of_eq rfl rfl
  · exact .of_eq rfl rfl
  · have hserved : l₂.acceptFd = some fd := by
      rcases hread with ⟨-, rfl⟩ | ⟨-, hread⟩
      · exact hfd
      · obtain ⟨_, _, _, rfl, -, -⟩ := callbackPipe_ok jsonLoads hread
        exact hfd
    exact receive_extends hserved hreceive

end MainLoop

/-! ## Invariants of the loop -/

/-- A condition on the turns in which a client is read. -/
def AtTurns (G : Nat → Turn → Socket → Prop) : LoopAction → MainLoop σ → Prop
  | .turn t, l => t.pollhup = false → t.pollin = true →
    ∀ fd, l.acceptFd = some fd → G fd t (l.peers fd).socket
  | _, _ => True

theorem AtTurns.mono {G G' : Nat → Turn → Socket → Prop} (hG : ∀ fd t s, G fd t s → G' fd t s)
    (action : LoopAction) (l : MainLoop σ) (h : AtTurns G action l) : AtTurns G' action l := by
  cases action with
  | turn t => exact fun hhup hin fd hfd => hG fd t _ (h hhup hin fd hfd)
  | _ => trivial

/-- The small steps keep `P`. Records and the world are not looked at. -/
structure KeptBySteps (ilm : Ilm σ) (jsonLoads : List UInt8 → Option Json) (order : ByteOrder)
    (G : Nat → Turn → Socket → Prop) (P : MainLoop σ → Prop) : Prop where
  start : ∀ l, l.opened = 0 → l.backlog = [] → l.acceptFd = none → l.log = [] → P l
  record : ∀ l world pipe log, log.filterMap Handled.command? = l.commands → P l →
    P { l with world, pipe, log }
  connect : ∀ l s, P l → P (l.connect s)
  accept : ∀ l, l.acceptFd = none → P l →
    P { l with acceptFd := l.backlog.head?, backlog := l.backlog.tail }
  close : ∀ l, P l → P l.close
  receive : ∀ l l' t fd, l.acceptFd = some fd → t.rest.length = 4 → t.rest'.length = 4 →
    G fd t (l.peers fd).socket → l.receive ilm jsonLoads order t = .ok (some l') → P l → P l'

theorem KeptBySteps.turn {G : Nat → Turn → Socket → Prop} {P : MainLoop σ → Prop}
    (h : KeptBySteps ilm jsonLoads order G P) {t : Turn} (hpoll : l.Polled t)
    (hrest : t.rest.length = 4) (hrest' : t.rest'.length = 4) (hG : AtTurns G (.turn t) l)
    (hturn : l.turn ilm jsonLoads order t = .ok (some l')) (hP : P l) : P l' := by
  obtain ⟨l₁, l₂, hread, haccept, hlast⟩ := MainLoop.turn_ok hpoll hturn
  have hfirst : P l₁ ∧ l₁.acceptFd = l.acceptFd ∧ l₁.peers = l.peers := by
    rcases hread with ⟨-, rfl⟩ | ⟨-, hread⟩
    · exact ⟨hP, rfl, rfl⟩
    · obtain ⟨world, pipe, log, rfl, -, hlog⟩ := MainLoop.callbackPipe_ok jsonLoads hread
      exact ⟨h.record l world pipe log hlog hP, rfl, rfl⟩
  obtain ⟨hP₁, hserved, hpeers⟩ := hfirst
  have hP₂ : P l₂ := by
    rcases haccept with ⟨-, rfl⟩ | ⟨-, hfree, rfl⟩
    · exact hP₁
    · unfold MainLoop.accept
      split
      · exact hP₁
      · exact h.accept l₁ hfree hP₁
  rcases hlast with ⟨-, -, rfl⟩ | ⟨-, rfl⟩ | ⟨hhup, hin, fd, hfd, rfl, hreceive⟩
  · exact hP₂
  · exact h.close l₂ hP₂
  · have hG' : G fd t (l₂.peers fd).socket := by
      rw [hpeers]
      exact hG hhup hin fd hfd
    exact h.receive l₂ l' t fd (hserved.trans hfd) hrest hrest' hG' hreceive hP₂

theorem KeptBySteps.run {G : Nat → Turn → Socket → Prop} {P : MainLoop σ → Prop}
    (h : KeptBySteps ilm jsonLoads order G P)
    (hrun : (mainLoop ilm jsonLoads order set).Run (AtTurns G) l) : P l := by
  refine hrun.invariant ?_ ?_
  · rintro l ⟨hopened, hbacklog, hfree, hlog, -⟩
    exact h.start l hopened hbacklog hfree hlog
  · intro action l l' _ hP hG hstep
    cases action with
    | notify data =>
      obtain rfl : l' = _ := hstep
      exact h.record l l.world _ l.log rfl hP
    | env =>
      obtain ⟨c, -, rfl⟩ := hstep
      exact h.record l _ l.pipe l.log rfl hP
    | connect s =>
      obtain rfl : l' = _ := hstep
      exact h.connect l s hP
    | turn t =>
      obtain ⟨hpoll, hrest, hrest', hturn⟩ := hstep
      exact h.turn hpoll hrest hrest' hG hturn hP

/-- Without a condition. -/
theorem KeptBySteps.reachable {P : MainLoop σ → Prop}
    (h : KeptBySteps ilm jsonLoads order (fun _ _ _ => True) P)
    (hreach : (mainLoop ilm jsonLoads order set).Reachable l) : P l := by
  refine h.run (hreach.mono fun action l _ => ?_)
  cases action with
  | turn t => exact fun _ _ _ _ => trivial
  | _ => trivial

/-! ## Turns without mishaps -/

/-- There is room for what is sent. -/
structure Turn.Roomy (t : Turn) : Prop where
  room : ∃ n, t.room = some n ∧ 4 ≤ n
  room' : ∃ n, t.room' = some n ∧ 4 ≤ n

/-- The client has sent something, its headers arrive in one piece, and no `recv` fails. -/
structure Socket.Orderly (s : Socket) : Prop where
  here : s.unread ≠ []
  magic : (s.arrivals 0).Whole
  size : (s.arrivals 1).Whole
  body : ∀ n, s.arrivals n ≠ .failed

theorem Socket.orderly_of_whole {s : Socket} (here : s.unread ≠ [])
    (h : ∀ n, (s.arrivals n).Whole) : s.Orderly :=
  ⟨here, h 0, h 1, fun n => (h n).ne_failed⟩

/-- A turn in which the client that is served sends orderly, and there is room to answer. -/
def Turn.Orderly (t : Turn) (s : Socket) : Prop := t.Roomy ∧ s.Orderly

/-- Where all clients send orderly, each one does. -/
theorem orderly_of_all {sys : TransitionSystem (MainLoop σ) LoopAction}
    (h : sys.Run (AtTurns fun _ => Turn.Orderly) l) (fd : Nat) :
    sys.Run (AtTurns fun n t s => n = fd → t.Orderly s) l := by
  refine h.mono (AtTurns.mono ?_)
  exact fun _ _ _ horderly _ => horderly

/-! ## One sequence of events -/

def Action.event? : Action → Option Event
  | .event e => some e
  | .env => none

theorem path_of_runEvents {events : List Event} {w w' : World σ}
    (h : runEvents ilm events w = .ok w') :
    Path (daemon ilm set) (events.map .event) w w' := by
  induction events generalizing w with
  | nil =>
    cases h
    exact .nil _
  | cons e events ih =>
    rw [runEvents] at h
    cases hs : e.handle ilm w with
    | ok r =>
      rw [hs] at h
      have hstep : (daemon ilm set).step (.event e) w r.2 := hs
      exact (Path.one hstep).append (ih h)
    | error a =>
      rw [hs] at h
      cases h

theorem events_of_map (events : List Event) :
    (events.map Action.event).filterMap Action.event? = events := by
  rw [List.filterMap_map]
  exact List.filterMap_some

variable (ilm jsonLoads order set) in
/-- The world of the loop is that of the daemon, and the log its events. -/
theorem mainLoop_refines :
    Refines (mainLoop ilm jsonLoads order set) (daemon ilm set) fun l w as =>
      w = l.world ∧ as.filterMap Action.event? = l.log.map (·.event jsonLoads) where
  init := by
    rintro l ⟨-, -, -, hlog, boot, w₀, hstart, hboot⟩
    refine ⟨l.world, ⟨boot, w₀, hstart, hboot⟩, rfl, ?_⟩
    rw [hlog]
    rfl
  step := by
    rintro action l l' _ as - hstep ⟨rfl, has⟩
    cases action with
    | notify data =>
      obtain rfl : l' = _ := hstep
      exact ⟨[], l.world, .nil _, rfl, by rw [List.append_nil, has]⟩
    | env =>
      obtain ⟨c, henv, rfl⟩ := hstep
      have hstep : (daemon ilm set).step .env l.world ⟨l.world.wm, c⟩ := ⟨rfl, henv⟩
      refine ⟨[.env], _, .one hstep, rfl, ?_⟩
      rw [List.filterMap_append, has]
      exact List.append_nil _
    | connect s =>
      obtain rfl : l' = _ := hstep
      exact ⟨[], l.world, .nil _, rfl, by rw [List.append_nil, has]; rfl⟩
    | turn t =>
      obtain ⟨hpoll, -, -, hturn⟩ := hstep
      obtain ⟨handled, hlog, hrun⟩ := MainLoop.turn_extends hpoll hturn
      refine ⟨_, l'.world, path_of_runEvents hrun, rfl, ?_⟩
      rw [List.filterMap_append, has, events_of_map, hlog, List.map_append]

/-- Records and commands, of however many clients, are handled like the events of one
daemon, in the order of the log. -/
theorem loop_linearized (h : (mainLoop ilm jsonLoads order set).Reachable l) :
    ∃ w as, (daemon ilm set).init w ∧ Path (daemon ilm set) as w l.world ∧
      as.filterMap Action.event? = l.log.map (·.event jsonLoads) := by
  obtain ⟨w, as, w', hinit, hpath, rfl, has⟩ := (mainLoop_refines ilm jsonLoads order set).path h
  exact ⟨w, as, hinit, hpath, has⟩

/-! ## Runs on fixed inputs -/

/-- A client whose bytes arrive at once. -/
def atOnce (stream : List UInt8) : Socket := ⟨stream, fun _ => .upTo 64 (by decide)⟩

theorem whole_atOnce (stream : List UInt8) (n : Nat) : ((atOnce stream).arrivals n).Whole :=
  ⟨64, by decide, rfl, by decide⟩

def idleTurn : Turn :=
  ⟨false, false, false, false, none, false, 1, unwritten, unwritten, some 4, some 4⟩

namespace MainLoop

/-- `parser_init` has returned with the default configuration, and no client has connected. -/
def started (screens : List Id) : Option (MainLoop Compositor) :=
  match parserInit (Compositor.ilm false) ⟨"host", none⟩ (World.fresh screens) with
  | .ok (_, world) => some ⟨world, [], 0, [], none, fun _ => .connecting (atOnce []), []⟩
  | .error _ => none

theorem exists_of_started {screens : List Id} {l : MainLoop Compositor}
    (h : started screens = some l) : ∃ world,
      parserInit (Compositor.ilm false) ⟨"host", none⟩ (World.fresh screens) = .ok ((), world) ∧
        l = ⟨world, [], 0, [], none, fun _ => .connecting (atOnce []), []⟩ := by
  unfold started at h
  split at h
  · rename_i world hinit
    cases h
    exact ⟨world, hinit, rfl⟩
  · cases h

/-- A client connects with what it sends, or a turn is taken that meets what `Turn.Orderly`
asks for beyond the way the bytes arrive. -/
def proceed (jsonLoads : List UInt8 → Option Json) (l : MainLoop Compositor) :
    List UInt8 ⊕ Turn → Option (MainLoop Compositor)
  | .inl stream => some (l.connect (atOnce stream))
  | .inr t =>
    if l.Polled t ∧ t.rest = unwritten ∧ t.rest' = unwritten ∧ t.room = some 4 ∧ t.room' = some 4 ∧
        ∀ fd ∈ l.acceptFd, (l.peers fd).socket.unread = [] → t.pollin = false then
      match l.turn (Compositor.ilm false) jsonLoads .little t with
      | .ok l => l
      | .error _ => none
    else none

/-- What is unread arrives in pieces that hold a header. -/
def ArrivesWhole (l : MainLoop σ) : Prop := ∀ fd n, ((l.peers fd).socket.arrivals n).Whole

theorem ArrivesWhole.connect (h : l.ArrivesWhole) (stream : List UInt8) :
    (l.connect (atOnce stream)).ArrivesWhole := by
  intro fd n
  by_cases hfd : fd = l.opened
  · have hpeer : (l.connect (atOnce stream)).peers fd = .connecting (atOnce stream) := if_pos hfd
    rw [hpeer]
    exact whole_atOnce stream n
  · have hpeer : (l.connect (atOnce stream)).peers fd = l.peers fd := if_neg hfd
    rw [hpeer]
    exact h fd n

theorem ArrivesWhole.turn (h : l.ArrivesWhole) {t : Turn} (hpoll : l.Polled t)
    (hturn : l.turn ilm jsonLoads order t = .ok (some l')) : l'.ArrivesWhole := by
  obtain ⟨l₁, l₂, hread, haccept, hlast⟩ := turn_ok hpoll hturn
  have hpeers₁ : l₁.peers = l.peers ∧ l₁.acceptFd = l.acceptFd := by
    rcases hread with ⟨-, rfl⟩ | ⟨-, hread⟩
    · exact ⟨rfl, rfl⟩
    · obtain ⟨_, _, _, rfl, -, -⟩ := callbackPipe_ok jsonLoads hread
      exact ⟨rfl, rfl⟩
  have hpeers : l₂.peers = l.peers := by
    rcases haccept with ⟨-, rfl⟩ | ⟨-, -, rfl⟩
    · exact hpeers₁.1
    · rw [accept]
      split
      · exact hpeers₁.1
      · exact hpeers₁.1
  have h₂ : l₂.ArrivesWhole := by rwa [ArrivesWhole, hpeers]
  rcases hlast with ⟨-, -, rfl⟩ | ⟨-, rfl⟩ | ⟨-, -, fd, hfd, rfl, hreceive⟩
  · exact h₂
  · exact h₂
  · obtain ⟨cmd, socket, world, hround, -, rfl⟩ := receive_ok (hpeers₁.2.trans hfd) hreceive
    intro n k
    by_cases hn : n = fd
    · simp only [setPeer, if_pos hn]
      exact arrivals_receiveCommand (h₂ fd) hround k
    · simp only [setPeer, if_neg hn]
      exact h₂ n k

/-- Such a step is one of an orderly run. -/
theorem run_proceed {jsonLoads : List UInt8 → Option Json} {set : Setting Compositor}
    {l l' : MainLoop Compositor} {step : List UInt8 ⊕ Turn}
    (h : (mainLoop (Compositor.ilm false) jsonLoads .little set).Run
      (AtTurns fun _ => Turn.Orderly) l ∧ l.ArrivesWhole)
    (hstep : l.proceed jsonLoads step = some l') :
    (mainLoop (Compositor.ilm false) jsonLoads .little set).Run
      (AtTurns fun _ => Turn.Orderly) l' ∧ l'.ArrivesWhole := by
  obtain ⟨hrun, hwhole⟩ := h
  cases step with
  | inl stream =>
    cases hstep
    exact ⟨hrun.step (a := .connect (atOnce stream)) trivial rfl, hwhole.connect stream⟩
  | inr t =>
    rw [proceed] at hstep
    split at hstep
    · rename_i hguard
      obtain ⟨hpoll, hrest, hrest', hroom, hroom', hread⟩ := hguard
      cases hturn : l.turn (Compositor.ilm false) jsonLoads .little t with
      | error e =>
        rw [hturn] at hstep
        cases hstep
      | ok r =>
        rw [hturn] at hstep
        obtain rfl : r = some l' := hstep
        refine ⟨hrun.step (a := .turn t) ?_ ⟨hpoll, hrest ▸ rfl, hrest' ▸ rfl, hturn⟩,
          hwhole.turn hpoll hturn⟩
        intro _ hpollin fd hfd
        refine ⟨⟨⟨4, hroom, Nat.le_refl 4⟩, 4, hroom', Nat.le_refl 4⟩,
          Socket.orderly_of_whole (fun hnone => ?_) (hwhole fd)⟩
        rw [hread fd hfd hnone] at hpollin
        cases hpollin
    · cases hstep

/-- A state that a run without mishaps from the default configuration ends in. -/
theorem exists_orderlyRun {jsonLoads : List UInt8 → Option Json} {set : Setting Compositor}
    {screens : List Id} {steps : List (List UInt8 ⊕ Turn)} {p : MainLoop Compositor → Bool}
    (hstart : set.start ⟨"host", none⟩ (World.fresh screens))
    (h : ((started screens).bind (steps.foldlM (proceed jsonLoads))).any p = true) :
    ∃ l, (mainLoop (Compositor.ilm false) jsonLoads .little set).Run
      (AtTurns fun _ => Turn.Orderly) l ∧ p l = true := by
  obtain ⟨l, hl, hp⟩ := (Option.any_eq_true _ _).mp h
  obtain ⟨l₀, hstarted, hsteps⟩ := Option.bind_eq_some_iff.mp hl
  obtain ⟨world, hinit, rfl⟩ := exists_of_started hstarted
  have hbegin : (mainLoop (Compositor.ilm false) jsonLoads .little set).Run
      (AtTurns fun _ => Turn.Orderly)
        ⟨world, [], 0, [], none, fun _ => .connecting (atOnce []), []⟩ :=
    .init ⟨rfl, rfl, rfl, rfl, ⟨"host", none⟩, World.fresh screens, hstart, hinit⟩
  have hend := foldlM_invariant (fun _ _ _ => run_proceed) ⟨hbegin, fun _ => whole_atOnce []⟩ hsteps
  exact ⟨l, hend.1, hp⟩

end MainLoop

/-! The first client puts a layer onto screen 0 and another one below it; the second one
takes the first layer out, and the third one waits. -/

/-- The commands `A`, `B` and `C`. -/
def threeCommands (cmd : List UInt8) : Option Json :=
  if cmd = [0x41] then
    some (.object [("command", .string "add_layer"),
      ("screens", .array [screenObject 0 "append" [layerObject 3000 []]])])
  else if cmd = [0x42] then
    some (.object [("command", .string "add_layer"),
      ("screens", .array [screenObject 0 "prepend" [layerObject 4000 []]])])
  else removeOne

def threeClients : List (List UInt8 ⊕ Turn) :=
  [.inl (encodeCommand [0x41] ++ encodeCommand [0x42]), .inl (encodeCommand [0x43]),
    .inl (encodeCommand [0x41]), .inr { idleTurn with listening := true },
    .inr { idleTurn with pollin := true }, .inr { idleTurn with pollin := true },
    .inr { idleTurn with pollhup := true }, .inr { idleTurn with listening := true },
    .inr { idleTurn with pollin := true }]

def sharedScreen : TransitionSystem (MainLoop Compositor) LoopAction :=
  mainLoop (Compositor.ilm false) threeCommands .little
    ⟨fun _ w => w = World.fresh [0], fun _ _ => False⟩

/-- Two of them have been served. -/
structure TwoServed (l : MainLoop Compositor) : Prop where
  opened : l.opened = 3
  backlog : l.backlog = [2]
  commands : l.commands = [(0, [0x41]), (0, [0x42]), (1, [0x43])]
  first : (l.peers 0).stream = encodeCommand [0x41] ++ encodeCommand [0x42]
  second : (l.peers 1).stream = encodeCommand [0x43]
  third : (l.peers 2).stream = encodeCommand [0x41]
  shown : l.world.ilm.screenOrder 0 = [4000]

instance TwoServed.decidable (l : MainLoop Compositor) : Decidable (TwoServed l) :=
  decidable_of_iff (l.opened = 3 ∧ l.backlog = [2] ∧
      l.commands = [(0, [0x41]), (0, [0x42]), (1, [0x43])] ∧
      (l.peers 0).stream = encodeCommand [0x41] ++ encodeCommand [0x42] ∧
      (l.peers 1).stream = encodeCommand [0x43] ∧ (l.peers 2).stream = encodeCommand [0x41] ∧
      l.world.ilm.screenOrder 0 = [4000])
    ⟨fun ⟨h₁, h₂, h₃, h₄, h₅, h₆, h₇⟩ => ⟨h₁, h₂, h₃, h₄, h₅, h₆, h₇⟩,
      fun h => ⟨h.opened, h.backlog, h.commands, h.first, h.second, h.third, h.shown⟩⟩

theorem isCommand_byte {byte : UInt8} (h : byte ≠ 0) : IsCommand [byte] :=
  ⟨fun _ hmem => List.mem_singleton.mp hmem ▸ h, by simp⟩

theorem exists_twoServed :
    ∃ l, sharedScreen.Run (AtTurns fun _ => Turn.Orderly) l ∧ TwoServed l := by
  have hrun : ((MainLoop.started [0]).bind
      (threeClients.foldlM (MainLoop.proceed threeCommands))).any (TwoServed ·) = true := by
    decide +kernel
  have hstart : (⟨fun _ w => w = World.fresh [0], fun _ _ => False⟩ : Setting Compositor).start
      ⟨"host", none⟩ (World.fresh [0]) := rfl
  obtain ⟨l, hl, hserved⟩ := MainLoop.exists_orderlyRun hstart hrun
  exact ⟨l, hl, of_decide_eq_true hserved⟩

theorem loop_linearized_twoServed : ∃ (l : MainLoop Compositor) (w : World Compositor)
    (as : List Action), TwoServed l ∧ Path oneScreen as w l.world ∧
      as.filterMap Action.event? = l.log.map (·.event threeCommands) := by
  obtain ⟨l, hrun, hserved⟩ := exists_twoServed
  obtain ⟨w, as, -, hpath, has⟩ := loop_linearized hrun.reachable
  exact ⟨l, w, as, hserved, hpath, has⟩

end UhmiIviWm
