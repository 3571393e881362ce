import UhmiIviWm.Lib.Settling
import UhmiIviWm.Verify.Dialogue
import UhmiIviWm.Verify.Records
import UhmiIviWm.Verify.Strings

/-!
# Every client is served in the end

A turn that does something takes a record from the pipe, accepts a client, reads a
command or closes a connection, and each of these leaves less to do. So once no more
clients connect and no more records are written, the loop has nothing left to do after so
many turns at most, and every client that waited has had all of its commands handled and
answered (`clients_served`).

A client is closed when it hangs up, whether it has been read to its end or not; here
it does so once it has.
-/

namespace UhmiIviWm

open Lib Lib.CallPlan Lib.TransitionSystem

variable {σ : Type} {ilm : Ilm σ} {jsonLoads : List UInt8 → Option Json} {order : ByteOrder}
  {set : Setting σ} {l l' : MainLoop σ} {E : Event → Prop} {J : World σ → Prop}
  {cmds : Nat → List (List UInt8)} {clients : List Nat}

/-- None of the events aborts, in whatever order they come. -/
def Handles (ilm : Ilm σ) (E : Event → Prop) (J : World σ → Prop) : Prop :=
  ∀ e w, E e → J w → ∃ w', e.handle ilm w = .ok ((), w') ∧ J w'

namespace MainLoop

/-- `poll` reports something that can be acted upon, and no call fails. -/
structure Attends (l : MainLoop σ) (t : Turn) : Prop where
  roomy : t.Roomy
  badRead : t.badRead = none
  accepts : t.acceptFails = false
  pollhup : t.pollhup = true → ∀ fd, l.acceptFd = some fd → (l.peers fd).socket.unread = []
  pollin : t.pollin = true → ∀ fd, l.acceptFd = some fd → (l.peers fd).socket.unread ≠ []
  busy : t.pipein = true ∨ (t.listening = true ∧ l.acceptFd = none) ∨
    t.pollhup = true ∨ t.pollin = true

/-- What the clients have sent and has not been read. -/
def unread (l : MainLoop σ) : List UInt8 :=
  l.waiting.flatMap fun fd => (l.peers fd).socket.unread

/-- A record and a connection are a turn each, a client that waits two, and a command no
more than it has bytes. -/
def toDo (l : MainLoop σ) : Nat :=
  l.pipe.length + 2 * l.backlog.length + l.acceptFd.toList.length + l.unread.length

end MainLoop

/-- Only turns that do something. -/
def Attending : LoopAction → MainLoop σ → Prop
  | .turn t, l => l.Attends t
  | _, _ => False

/-- What is left to do can be done. `clients` are those that waited at the start. -/
structure Attended (jsonLoads : List UInt8 → Option Json) (E : Event → Prop)
    (J : World σ → Prop) (cmds : Nat → List (List UInt8)) (clients : List Nat)
    (l : MainLoop σ) : Prop where
  conversed : ∀ fd, Conversed Dialogue fd l
  world : J l.world
  pipe : ∀ data ∈ l.pipe, E (.record data)
  frames : ∀ fd < l.opened, (∀ cmd ∈ cmds fd, IsCommand cmd ∧ E (.message (jsonLoads cmd))) ∧
    (l.peers fd).stream = (cmds fd).flatMap encodeCommand
  whole : ∀ fd < l.opened, ∀ n, ((l.peers fd).socket.arrivals n).Whole
  clients : ∀ fd ∈ clients,
    fd < l.opened ∧ (fd ∈ l.waiting ∨ (l.peers fd).socket.unread = [])

/-! ## Frames -/

theorem encodeCommand_ne_nil (cmd : List UInt8) : encodeCommand cmd ≠ [] := nofun

/-- What is left of a stream of frames begins with one. -/
theorem Attended.next (h : Attended jsonLoads E J cmds clients l) {fd : Nat} (hfd : fd < l.opened)
    (hne : (l.peers fd).socket.unread ≠ []) :
    ∃ cmd more, IsCommand cmd ∧ E (.message (jsonLoads cmd)) ∧
      (l.peers fd).socket.unread = encodeCommand cmd ++ more := by
  obtain ⟨hcmds, hstream⟩ := h.frames fd hfd
  obtain ⟨k, -, -, -, hunread⟩ :=
    (h.conversed fd).frames hfd (fun cmd hcmd => (hcmds cmd hcmd).1) hstream
  cases hdrop : (cmds fd).drop k with
  | nil =>
    rw [hdrop] at hunread
    exact absurd hunread hne
  | cons cmd more =>
    have hmem : cmd ∈ cmds fd := List.mem_of_mem_drop (hdrop ▸ List.mem_cons_self)
    rw [hdrop, List.flatMap_cons] at hunread
    exact ⟨cmd, _, (hcmds cmd hmem).1, (hcmds cmd hmem).2, hunread⟩

/-- A client of which nothing is unread has had all its commands answered. -/
theorem Attended.all_answered (h : Attended jsonLoads E J cmds clients l) {fd : Nat}
    (hfd : fd < l.opened) (hread : (l.peers fd).socket.unread = []) :
    l.commandsOf fd = cmds fd ∧ (l.peers fd).answers =
      (List.replicate (cmds fd).length (magicCode ++ htonl 0)).flatten := by
  obtain ⟨hcmds, hstream⟩ := h.frames fd hfd
  obtain ⟨k, hk, hcommands, hanswers, hunread⟩ :=
    (h.conversed fd).frames hfd (fun cmd hcmd => (hcmds cmd hcmd).1) hstream
  have hall : (cmds fd).length ≤ k := by
    rw [hread] at hunread
    rw [← List.drop_eq_nil_iff]
    cases hdrop : (cmds fd).drop k with
    | nil => rfl
    | cons cmd more =>
      rw [hdrop, List.flatMap_cons] at hunread
      exact absurd (List.append_eq_nil_iff.mp hunread.symm).1 (encodeCommand_ne_nil cmd)
  obtain rfl : k = (cmds fd).length := Nat.le_antisymm hk hall
  rw [List.take_length] at hcommands
  exact ⟨hcommands, hanswers⟩

/-- A round for a client whose next frame arrives in one piece. -/
theorem Socket.exists_frame {s : Socket} {cmd more rest rest' : List UInt8}
    (hwhole : ∀ n, (s.arrivals n).Whole) (hcmd : IsCommand cmd)
    (hunread : s.unread = encodeCommand cmd ++ more) (hrest : rest.length = 4)
    (hrest' : rest'.length = 4) :
    ∃ s', s'.unread = more ∧ (∀ n, (s'.arrivals n).Whole) ∧
      ∃ fuel, receiveCommand fuel rest rest' s = some (some cmd, s') := by
  have hlength : cmd.length + 1 ≤ ((s.after 4).after 4).unread.length := by
    have htotal : s.unread.length = cmd.length + 9 + more.length := by
      rw [hunread, List.length_append, length_encodeCommand]
    simp only [Socket.after, List.length_drop]
    omega
  have hhere : ∀ n, ((s.after 4).after 4).arrivals n ≠ .failed :=
    fun n => (hwhole (n + 2)).ne_failed
  obtain ⟨s', hdelivers⟩ := exists_delivers hhere hlength
  obtain ⟨hround, hmore⟩ :=
    receiveCommand_of_whole hcmd (hwhole 0) (hwhole 1) hunread hdelivers hrest hrest'
  exact ⟨s', hmore, hdelivers.arrivals fun n => hwhole (n + 2), hround⟩

/-! ## Small steps -/

section Steps

variable (hhandles : Handles ilm E J)

include hhandles in
theorem callbackPipe_eq {data : Cbdata} {rest : List Cbdata} (hpipe : l.pipe = data :: rest)
    (hdata : E (.record data)) (hworld : J l.world) :
    ∃ world, J world ∧ l.callbackPipe ilm none =
      .ok { l with world, pipe := rest, log := l.log ++ [.record data] } := by
  obtain ⟨world, hhandle, hJ⟩ := hhandles _ _ hdata hworld
  refine ⟨world, hJ, ?_⟩
  simp only [MainLoop.callbackPipe, MainLoop.readPipe, hpipe, List.head?_cons, List.tail_cons,
    hhandle]

include hhandles in
theorem Attended.callbackPipe (h : Attended jsonLoads E J cmds clients l) (hne : l.pipe ≠ [])
    (hread : l.callbackPipe ilm none = .ok l') :
    Attended jsonLoads E J cmds clients l' ∧ l'.toDo < l.toDo ∧ l'.acceptFd = l.acceptFd ∧
      l'.backlog = l.backlog ∧ l'.peers = l.peers := by
  obtain ⟨data, rest, hpipe⟩ := List.exists_cons_of_ne_nil hne
  have hdata : E (.record data) := h.pipe data (hpipe ▸ List.mem_cons_self)
  obtain ⟨world, hJ, hok⟩ := callbackPipe_eq hhandles hpipe hdata h.world
  rw [hok] at hread
  cases hread
  have hlog : (l.log ++ [Handled.record data]).filterMap Handled.command? = l.commands := by
    rw [List.filterMap_append]
    exact List.append_nil l.commands
  have hrest : ∀ data ∈ rest, E (.record data) :=
    fun data hmem => h.pipe data (hpipe ▸ List.mem_cons_of_mem _ hmem)
  refine ⟨⟨?_, hJ, hrest, h.frames, h.whole, h.clients⟩, ?_, rfl, rfl, rfl⟩
  · intro fd
    exact (Conversed.dialogue ilm jsonLoads .little fd).record l world rest _ hlog (h.conversed fd)
  · have hunread : MainLoop.unread { l with world, pipe := rest, log := l.log ++ [.record data] } =
        l.unread := rfl
    simp only [MainLoop.toDo, hunread, hpipe, List.length_cons]
    omega

theorem MainLoop.waiting_accept (hfree : l.acceptFd = none) :
    (l.accept false).waiting = l.waiting := by
  rw [MainLoop.waiting, MainLoop.waiting, hfree]
  change l.backlog.head?.toList ++ l.backlog.tail = [] ++ l.backlog
  cases l.backlog with
  | nil => rfl
  | cons fd rest => rfl

theorem Attended.accept (h : Attended jsonLoads E J cmds clients l) (hfree : l.acceptFd = none)
    (hne : l.backlog ≠ []) :
    Attended jsonLoads E J cmds clients (l.accept false) ∧ (l.accept false).toDo < l.toDo := by
  have hwaiting := MainLoop.waiting_accept hfree
  have hconversed : ∀ fd, Conversed Dialogue fd (l.accept false) :=
    fun fd => ⟨(h.conversed fd).1.accept hfree, (h.conversed fd).2⟩
  refine ⟨⟨hconversed, h.world, h.pipe, h.frames, h.whole, ?_⟩, ?_⟩
  · rw [hwaiting]
    exact h.clients
  · obtain ⟨fd, rest, hbacklog⟩ := List.exists_cons_of_ne_nil hne
    have hunread : (l.accept false).unread = l.unread := by
      rw [MainLoop.unread, hwaiting]
      rfl
    have hserved : (l.accept false).acceptFd = l.backlog.head? := rfl
    have hleft : (l.accept false).backlog = l.backlog.tail := rfl
    have hpipe : (l.accept false).pipe = l.pipe := rfl
    simp only [MainLoop.toDo, hunread, hserved, hleft, hpipe, hbacklog, hfree, List.head?_cons,
      List.tail_cons, List.length_cons, Option.toList_some, Option.toList_none, List.length_nil]
    omega

/-- A client that has been read to its end is closed. -/
theorem Attended.close (h : Attended jsonLoads E J cmds clients l) {fd : Nat}
    (hfd : l.acceptFd = some fd) (hread : (l.peers fd).socket.unread = []) :
    Attended jsonLoads E J cmds clients l.close ∧ l.close.toDo < l.toDo := by
  have hwaiting : l.waiting = fd :: l.close.waiting := by
    rw [MainLoop.waiting, hfd]
    rfl
  have hconversed : ∀ n, Conversed Dialogue n l.close :=
    fun n => ⟨(h.conversed n).1.close, (h.conversed n).2⟩
  refine ⟨⟨hconversed, h.world, h.pipe, h.frames, h.whole, fun n hn => ?_⟩, ?_⟩
  · obtain ⟨hopened, hwait⟩ := h.clients n hn
    refine ⟨hopened, ?_⟩
    rcases hwait with hwait | hdone
    · rw [hwaiting] at hwait
      rcases List.mem_cons.mp hwait with rfl | hwait
      · exact .inr hread
      · exact .inl hwait
    · exact .inr hdone
  · have hunread : l.unread = l.close.unread := by
      rw [MainLoop.unread, hwaiting, List.flatMap_cons, hread, List.nil_append]
      rfl
    have hserved : l.close.acceptFd = none := rfl
    have hpipe : l.close.pipe = l.pipe := rfl
    have hbacklog : l.close.backlog = l.backlog := rfl
    simp only [MainLoop.toDo, hunread, hserved, hpipe, hbacklog, hfd, Option.toList_some,
      Option.toList_none, List.length_singleton, List.length_nil]
    omega

theorem waiting_split {fd : Nat} (hfd : l.acceptFd = some fd) :
    l.waiting = fd :: l.backlog := by
  rw [MainLoop.waiting, hfd]
  rfl

theorem MainLoop.InOrder.not_mem_backlog (h : l.InOrder) {fd : Nat} (hfd : l.acceptFd = some fd) :
    fd ∉ l.backlog := by
  intro hmem
  have hwaiting := h.waiting
  rw [waiting_split hfd] at hwaiting
  exact absurd ((List.pairwise_cons.mp hwaiting).1 fd hmem) (Nat.lt_irrefl fd)

theorem MainLoop.InOrder.served_opened (h : l.InOrder) {fd : Nat} (hfd : l.acceptFd = some fd) :
    fd < l.opened := by
  refine h.opened fd ?_
  rw [waiting_split hfd]
  exact List.mem_cons_self

include hhandles in
/-- The next command of the client that is served. -/
theorem Attended.receive_eq (h : Attended jsonLoads E J cmds clients l) {fd : Nat} {t : Turn}
    (hfd : l.acceptFd = some fd) (hne : (l.peers fd).socket.unread ≠ [])
    (hrest : t.rest.length = 4) (hrest' : t.rest'.length = 4) :
    ∃ cmd more socket world, (l.peers fd).socket.unread = encodeCommand cmd ++ more ∧
      socket.unread = more ∧ (∀ n, (socket.arrivals n).Whole) ∧ J world ∧
      (∃ fuel, receiveCommand fuel t.rest t.rest' (l.peers fd).socket = some (some cmd, socket)) ∧
      parserParseRecvCommand ilm (jsonLoads cmd) l.world = .ok (0, world) := by
  have hopened := (h.conversed fd).1.served_opened hfd
  obtain ⟨cmd, more, hcmd, hevent, hunread⟩ := h.next hopened hne
  obtain ⟨socket, hmore, hwhole, hround⟩ :=
    Socket.exists_frame (h.whole fd hopened) hcmd hunread hrest hrest'
  obtain ⟨world, hhandle, hJ⟩ := hhandles _ _ hevent h.world
  exact ⟨cmd, more, socket, world, hunread, hmore, hwhole, hJ, hround,
    handle_message_eq_ok.mp hhandle⟩

include hhandles in
theorem Attended.receive (h : Attended jsonLoads E J cmds clients l) {fd : Nat} {t : Turn}
    (hfd : l.acceptFd = some fd) (hne : (l.peers fd).socket.unread ≠ []) (hroomy : t.Roomy)
    (hrest : t.rest.length = 4) (hrest' : t.rest'.length = 4)
    (hreceive : l.receive ilm jsonLoads order t = .ok (some l')) :
    Attended jsonLoads E J cmds clients l' ∧ l'.toDo < l.toDo := by
  have hopened := (h.conversed fd).1.served_opened hfd
  have horderly : (l.peers fd).socket.Orderly :=
    Socket.orderly_of_whole hne (h.whole fd hopened)
  have hconversed : ∀ n, Conversed Dialogue n l' := fun n =>
    (Conversed.dialogue ilm jsonLoads order n).receive l l' t fd hfd hrest hrest'
      (fun _ => ⟨hroomy, horderly⟩) hreceive (h.conversed n)
  obtain ⟨cmd, more, socket, world, hunread, hmore, hwhole, hJ, ⟨fuel, hround⟩, hparse⟩ :=
    h.receive_eq hhandles hfd hne hrest hrest'
  obtain ⟨cmd', socket', world', hround', hrun, rfl⟩ := MainLoop.receive_ok hfd hreceive
  obtain ⟨rfl, rfl⟩ := Prod.mk.inj (receiveCommand_unique hround' hround)
  have hsame : world' = world := by
    have hhandle := handle_message_eq_ok.mpr hparse
    simp only [Option.toList_some, List.map_cons, List.map_nil, runEvents, hhandle] at hrun
    exact (Except.ok.inj hrun).symm
  subst hsame
  refine ⟨⟨hconversed, hJ, h.pipe, fun n hn => ?_, fun n hn => ?_, fun n hn => ?_⟩, ?_⟩
  · by_cases hn' : n = fd
    · subst hn'
      simpa only [MainLoop.setPeer_peers] using h.frames n hn
    · simpa only [MainLoop.setPeer_peers_of_ne _ hn'] using h.frames n hn
  · by_cases hn' : n = fd
    · subst hn'
      simpa only [MainLoop.setPeer_peers] using hwhole
    · simpa only [MainLoop.setPeer_peers_of_ne _ hn'] using h.whole n hn
  · obtain ⟨hlt, hwait⟩ := h.clients n hn
    refine ⟨hlt, hwait.imp_right fun hdone => ?_⟩
    by_cases hn' : n = fd
    · subst hn'
      exact absurd hdone hne
    · simpa only [MainLoop.setPeer_peers_of_ne _ hn'] using hdone
  · have hbacklog : l.backlog.flatMap (fun n => ((l.setPeer fd ⟨(l.peers fd).stream, socket',
        (l.peers fd).answers ++ (magicEcho t.rest (l.peers fd).socket t.room ++
          (sendResponseToClient order (if (some cmd).isSome then 0 else -1) t.room').2)⟩).peers
            n).socket.unread) = l.backlog.flatMap fun n => (l.peers n).socket.unread := by
      refine List.flatMap_congr fun n hn => ?_
      have hn' : n ≠ fd := fun h' => (h.conversed n).1.not_mem_backlog hfd (h' ▸ hn)
      rw [MainLoop.setPeer_peers_of_ne _ hn']
    simp only [MainLoop.toDo, MainLoop.unread, MainLoop.waiting, MainLoop.setPeer, hfd,
      Option.toList_some, List.singleton_append, List.flatMap_cons, List.length_append, if_true]
      at hbacklog ⊢
    rw [hbacklog, hmore, hunread, List.length_append, length_encodeCommand]
    omega

/-! ## Turns -/

include hhandles in
theorem Attended.turn (h : Attended jsonLoads E J cmds clients l) {t : Turn} (ht : l.Attends t)
    (hpoll : l.Polled t) (hrest : t.rest.length = 4) (hrest' : t.rest'.length = 4)
    (hturn : l.turn ilm jsonLoads order t = .ok (some l')) :
    Attended jsonLoads E J cmds clients l' ∧ l'.toDo < l.toDo := by
  obtain ⟨l₁, l₂, hread, haccept, hlast⟩ := MainLoop.turn_ok hpoll hturn
  have hfirst : Attended jsonLoads E J cmds clients l₁ ∧ l₁.acceptFd = l.acceptFd ∧
      l₁.backlog = l.backlog ∧ l₁.peers = l.peers ∧ l₁.toDo ≤ l.toDo ∧
      (t.pipein = true → l₁.toDo < l.toDo) := by
    rcases hread with ⟨hidle, rfl⟩ | ⟨hpipein, hread⟩
    · refine ⟨h, rfl, rfl, rfl, Nat.le_refl _, fun hpipein => ?_⟩
      exact absurd (hidle.symm.trans hpipein) nofun
    · rw [ht.badRead] at hread
      obtain ⟨h₁, hless, hserved, hbacklog, hpeers⟩ :=
        h.callbackPipe hhandles (hpoll.pipein hpipein) hread
      exact ⟨h₁, hserved, hbacklog, hpeers, hless.le, fun _ => hless⟩
  obtain ⟨h₁, hserved, hbacklog, hpeers, hle, hpipein⟩ := hfirst
  have hsecond : Attended jsonLoads E J cmds clients l₂ ∧ l₂.toDo ≤ l₁.toDo ∧
      (t.listening = true ∧ l.acceptFd = none → l₂.toDo < l₁.toDo) := by
    rcases haccept with ⟨hidle, rfl⟩ | ⟨hlistening, hfree, rfl⟩
    · exact ⟨h₁, Nat.le_refl _, fun hbusy => absurd hbusy hidle⟩
    · rw [ht.accepts]
      have hne : l₁.backlog ≠ [] := hbacklog ▸ hpoll.listening hlistening
      obtain ⟨h₂, hless⟩ := h₁.accept hfree hne
      exact ⟨h₂, hless.le, fun _ => hless⟩
  obtain ⟨h₂, hle₂, hlistening⟩ := hsecond
  rcases hlast with ⟨hhup, hin, rfl⟩ | ⟨hhup, rfl⟩ | ⟨-, hin, fd, hfd, rfl, hreceive⟩
  · refine ⟨h₂, ?_⟩
    rcases ht.busy with hbusy | hbusy | hbusy | hbusy
    · exact Nat.lt_of_le_of_lt hle₂ (hpipein hbusy)
    · exact Nat.lt_of_lt_of_le (hlistening hbusy) hle
    · exact absurd (hhup.symm.trans hbusy) nofun
    · exact absurd (hin.symm.trans hbusy) nofun
  · cases hfd : l.acceptFd with
    | none => exact absurd ((hpoll.served hfd).1.symm.trans hhup) nofun
    | some fd =>
      have hsame : l₂ = l₁ := by
        rcases haccept with ⟨-, hsame⟩ | ⟨-, hfree, -⟩
        · exact hsame
        · exact absurd (hfd.symm.trans (hserved.symm.trans hfree)) nofun
      subst hsame
      have hdone : (l₂.peers fd).socket.unread = [] := by
        rw [hpeers]
        exact ht.pollhup hhup fd hfd
      obtain ⟨h₃, hless⟩ := h₂.close (hserved.trans hfd) hdone
      exact ⟨h₃, Nat.lt_of_lt_of_le hless hle⟩
  · have hne : (l₂.peers fd).socket.unread ≠ [] := by
      rw [hpeers]
      exact ht.pollin hin fd hfd
    obtain ⟨h₃, hless⟩ :=
      h₂.receive hhandles (hserved.trans hfd) hne ht.roomy hrest hrest' hreceive
    exact ⟨h₃, Nat.lt_of_lt_of_le hless hle⟩

variable (jsonLoads order set cmds clients) in
include hhandles in
theorem settling_mainLoop :
    Settling ((mainLoop ilm jsonLoads order set).restrict Attending) (fun _ => True)
      (Attended jsonLoads E J cmds clients) MainLoop.toDo where
  kept := by
    rintro (data | - | s | t) l l' - h ⟨ht, hstep⟩
    · exact ht.elim
    · exact ht.elim
    · exact ht.elim
    · obtain ⟨hpoll, hrest, hrest', hturn⟩ := hstep
      exact (h.turn hhandles ht hpoll hrest hrest' hturn).1
  decreases := by
    rintro (data | - | s | t) l l' - h ⟨ht, hstep⟩
    · exact ht.elim
    · exact ht.elim
    · exact ht.elim
    · obtain ⟨hpoll, hrest, hrest', hturn⟩ := hstep
      exact (h.turn hhandles ht hpoll hrest hrest' hturn).2

theorem roomy_of_four {t : Turn} (h : t.room = some 4) (h' : t.room' = some 4) : t.Roomy :=
  ⟨⟨4, h, Nat.le_refl 4⟩, 4, h', Nat.le_refl 4⟩

/-- `poll` reports just one thing. -/
theorem polled_idle {t : Turn} (hpipein : t.pipein = true → l.pipe ≠ [])
    (hlistening : t.listening = true → l.backlog ≠ [])
    (hserved : (t.pollhup = false ∧ t.pollin = false) ∨ ∃ fd, l.acceptFd = some fd) :
    l.Polled t := by
  refine ⟨hpipein, hlistening, fun hfree => hserved.resolve_right ?_⟩
  rintro ⟨fd, hfd⟩
  cases hfree.symm.trans hfd

include hhandles in
theorem Attended.exists_callback (h : Attended jsonLoads E J cmds clients l) (hne : l.pipe ≠ []) :
    ∃ t l', l.Attends t ∧ l.Polled t ∧ t.rest.length = 4 ∧ t.rest'.length = 4 ∧
      l.turn ilm jsonLoads order t = .ok (some l') := by
  have hoff : ¬ false = true := Bool.false_ne_true
  obtain ⟨data, rest, hpipe⟩ := List.exists_cons_of_ne_nil hne
  have hdata : E (.record data) := h.pipe data (hpipe ▸ List.mem_cons_self)
  obtain ⟨world, -, hok⟩ := callbackPipe_eq hhandles hpipe hdata h.world
  let t : Turn := { idleTurn with pipein := true }
  have hcallbacks : l.handleCallbacks ilm t = l.callbackPipe ilm none := rfl
  let l' : MainLoop σ := { l with world, pipe := rest, log := l.log ++ [.record data] }
  refine ⟨t, l', ⟨roomy_of_four rfl rfl, rfl, rfl, fun h => absurd h hoff, fun h => absurd h hoff,
    .inl rfl⟩, polled_idle (fun _ => hne) (fun h => absurd h hoff) (.inl ⟨rfl, rfl⟩), rfl, rfl, ?_⟩
  rw [MainLoop.turn, hcallbacks, hok]
  rfl

theorem MainLoop.exists_accept (hfree : l.acceptFd = none) (hne : l.backlog ≠ []) :
    ∃ t l', l.Attends t ∧ l.Polled t ∧ t.rest.length = 4 ∧ t.rest'.length = 4 ∧
      l.turn ilm jsonLoads order t = .ok (some l') := by
  have hoff : ¬ false = true := Bool.false_ne_true
  refine ⟨{ idleTurn with listening := true }, l.accept false, ⟨roomy_of_four rfl rfl, rfl, rfl,
    fun h => absurd h hoff, fun h => absurd h hoff, .inr (.inl ⟨rfl, hfree⟩)⟩,
    polled_idle (fun h => absurd h hoff) (fun _ => hne) (.inl ⟨rfl, rfl⟩), rfl, rfl, ?_⟩
  simp only [MainLoop.turn, MainLoop.handleCallbacks, MainLoop.handleSocket, idleTurn, hfree,
    Option.isNone_none, Bool.and_self, Bool.false_eq_true, if_false, if_true]
  rfl

include hhandles in
/-- The client that is served is read or closed. -/
theorem Attended.exists_serve (h : Attended jsonLoads E J cmds clients l) {fd : Nat}
    (hfd : l.acceptFd = some fd) :
    ∃ t l', l.Attends t ∧ l.Polled t ∧ t.rest.length = 4 ∧ t.rest'.length = 4 ∧
      l.turn ilm jsonLoads order t = .ok (some l') := by
  have hoff : ¬ false = true := Bool.false_ne_true
  by_cases hread : (l.peers fd).socket.unread = []
  · refine ⟨{ idleTurn with pollhup := true }, l.close, ⟨roomy_of_four rfl rfl, rfl, rfl,
      fun _ fd' hfd' => ?_, fun h => absurd h hoff, .inr (.inr (.inl rfl))⟩,
      polled_idle (fun h => absurd h hoff) (fun h => absurd h hoff) (.inr ⟨fd, hfd⟩), rfl, rfl, rfl⟩
    obtain rfl : fd = fd' := Option.some.inj (hfd.symm.trans hfd')
    exact hread
  · obtain ⟨cmd, more, socket, world, -, -, -, -, ⟨fuel, hround⟩, hparse⟩ :=
      h.receive_eq (t := idleTurn) hhandles hfd hread rfl rfl
    refine ⟨{ idleTurn with pollin := true, fuel }, _, ⟨roomy_of_four rfl rfl, rfl, rfl,
      fun h => absurd h hoff, fun _ fd' hfd' => ?_, .inr (.inr (.inr rfl))⟩,
      polled_idle (fun h => absurd h hoff) (fun h => absurd h hoff) (.inr ⟨fd, hfd⟩), rfl, rfl,
      (MainLoop.turn_eq_receive rfl rfl rfl rfl).trans (MainLoop.receive_eq hfd hround hparse)⟩
    obtain rfl : fd = fd' := Option.some.inj (hfd.symm.trans hfd')
    exact hread

include hhandles in
/-- As long as there is something to do there is a turn that does something. -/
theorem nothing_left (h : Attended jsonLoads E J cmds clients l)
    (hsettled : Settled ((mainLoop ilm jsonLoads order set).restrict Attending)
      (fun _ => True) l) : l.pipe = [] ∧ l.waiting = [] := by
  have hno : ¬ ∃ t l', l.Attends t ∧ l.Polled t ∧ t.rest.length = 4 ∧ t.rest'.length = 4 ∧
      l.turn ilm jsonLoads order t = .ok (some l') := by
    rintro ⟨t, l', ht, hstep⟩
    exact hsettled (.turn t) l' trivial ⟨ht, hstep⟩
  refine ⟨?_, ?_⟩
  · by_contra hne
    exact hno (h.exists_callback hhandles hne)
  · cases hfd : l.acceptFd with
    | none =>
      rw [MainLoop.waiting, hfd]
      by_contra hne
      exact hno (MainLoop.exists_accept hfd hne)
    | some fd => exact absurd (h.exists_serve hhandles hfd) hno

end Steps

/-- Once no more clients connect and nothing else happens outside the loop, there are `toDo`
turns at most in which something is done, and at their end every client that waited has
had all its commands answered. -/
theorem clients_served
    (h : (mainLoop ilm jsonLoads order set).Run (AtTurns fun _ => Turn.Orderly) l)
    (hhandles : Handles ilm E J) (hworld : J l.world) (hpipe : ∀ data ∈ l.pipe, E (.record data))
    (hframes : ∀ fd < l.opened, (∀ cmd ∈ cmds fd, IsCommand cmd ∧ E (.message (jsonLoads cmd))) ∧
      (l.peers fd).stream = (cmds fd).flatMap encodeCommand)
    (hwhole : ∀ fd < l.opened, ∀ n, ((l.peers fd).socket.arrivals n).Whole)
    {actions : List LoopAction}
    (hpath : Path ((mainLoop ilm jsonLoads order set).restrict Attending) actions l l') :
    actions.length ≤ l.toDo ∧
      (∃ more l'', Path ((mainLoop ilm jsonLoads order set).restrict Attending) more l' l'' ∧
        Settled ((mainLoop ilm jsonLoads order set).restrict Attending) (fun _ => True) l'') ∧
      (Settled ((mainLoop ilm jsonLoads order set).restrict Attending) (fun _ => True) l' →
        l'.pipe = [] ∧ l'.waiting = [] ∧ ∀ fd ∈ l.waiting, l'.commandsOf fd = cmds fd ∧
          (l'.peers fd).answers =
            (List.replicate (cmds fd).length (magicCode ++ htonl 0)).flatten) := by
  have hconversed := fun fd => conversed_of_run (orderly_of_all h fd)
  have hstart : Attended jsonLoads E J cmds l.waiting l :=
    ⟨hconversed, hworld, hpipe, hframes, hwhole,
      fun fd hfd => ⟨(hconversed fd).1.opened fd hfd, .inl hfd⟩⟩
  have hsettling := settling_mainLoop jsonLoads order set cmds l.waiting hhandles
  obtain ⟨hend, hle⟩ := hsettling.length_le hpath (fun _ _ => trivial) hstart
  refine ⟨(Nat.le_add_right _ _).trans hle, ?_, fun hsettled => ?_⟩
  · obtain ⟨more, l'', -, hmore, hsettled⟩ := hsettling.exists_settled hend
    exact ⟨more, l'', hmore, hsettled⟩
  · obtain ⟨hnone, hdone⟩ := nothing_left hhandles hend hsettled
    refine ⟨hnone, hdone, fun fd hfd => ?_⟩
    obtain ⟨hopened, hwait⟩ := hend.clients fd hfd
    rw [hdone] at hwait
    exact hend.all_answered hopened (hwait.resolve_left List.not_mem_nil)

/-! ## Messages that take nothing out -/

/-- Every string fits, and surfaces stay in their layers. -/
def Event.Additive : Event → Prop
  | .record _ => True
  | .message body => BodyFits body ∧
    ∀ command, commandOf body = some command → command ≠ .removeSurface ∧ command ≠ .removeLayer

theorem Event.Additive.calls_removes {e : Event} (h : e.Additive) (w : World σ) :
    ∀ call ∈ e.calls ilm w, call.removes = false := by
  cases e with
  | record data =>
    rcases @Event.calls_removes σ ilm (.record data) w with hkind | hkind
    · obtain ⟨type, id⟩ := data
      cases type with
      | creationDelection => exact absurd (hkind (.register id) (List.mem_singleton_self _)) nofun
      | surfacePropChange => exact absurd (hkind (.place id) (List.mem_singleton_self _)) nofun
    · exact hkind
  | message body =>
    intro call hcall
    rw [calls_message] at hcall
    split at hcall
    · rename_i command _ hcommand
      obtain ⟨hsurface, hlayer⟩ := h.2 command hcommand
      have hof := Command.plan_calls command w call hcall
      cases command with
      | removeSurface => exact absurd rfl hsurface
      | removeLayer => exact absurd rfl hlayer
      | _ => cases call <;> first | rfl | exact hof.elim
    · exact absurd hcall List.not_mem_nil

theorem handle_record_ne_overflow (data : Cbdata) (w : World σ) :
    (Event.record data).handle ilm w ≠ .error .bufferOverflow := by
  intro herr
  rw [(Event.record data).handle_follows w] at herr
  rcases Plan.run_eq_error.mp herr with hcalls | ⟨hout, -⟩
  · exact runCalls_ne_overflow hcalls
  · obtain ⟨type, id⟩ := data
    cases type with
    | creationDelection => cases hout
    | surfacePropChange => cases hout

/-- Where ilm never fails, additive messages and records are handled in any order. -/
theorem handles_additive (hs : ilm.Succeeds) :
    Handles ilm Event.Additive fun w => Unique w.wm ∧ Recorded w.wm := by
  rintro e w he ⟨hu, hrec⟩
  have hguarded : Guarded w (e.calls ilm w) := ⟨hu, .inl ⟨he.calls_removes w, hrec⟩⟩
  have hfresh : AtEach (Call.sem ilm) (fun w call _ => FreshScreen w call) (e.calls ilm w) w :=
    atEach_freshScreen e w
  have hcalls : runCalls (Call.sem ilm) (e.calls ilm w) w ≠ .error .nullDeref :=
    runCalls_ne_error (P := Guarded) (fun _ _ _ _ => Guarded.after_call)
      (fun _ _ _ h _ => h.ne_nullDeref) hguarded hfresh
  have hexit : runCalls (Call.sem ilm) (e.calls ilm w) w ≠ .error .ilmExit := by
    intro herr
    rcases runCalls_crash herr with ⟨-, hfails⟩ | ⟨h, -⟩
    · exact hfails hs
    · cases h
  have hfits : e.handle ilm w ≠ .error .bufferOverflow := by
    cases e with
    | record data => exact handle_record_ne_overflow data w
    | message body => exact he.1.handle_ne w
  cases hhandle : e.handle ilm w with
  | error a =>
    cases a with
    | ilmExit => exact absurd hhandle (e.handle_ne_error nofun hexit)
    | nullDeref => exact absurd hhandle (e.handle_ne_error nofun hcalls)
    | bufferOverflow => exact absurd hhandle hfits
  | ok r =>
    have hdone := runCalls_induction (P := Guarded) (fun _ _ _ _ => Guarded.after_call) hguarded
      hfresh (Event.handle_eq_ok.mp hhandle).2
    exact ⟨r.2, rfl, hdone.unique, hdone.recorded⟩

/-! Two clients that have connected, each with a command that adds layer 3000. -/

def addOne : Option Json :=
  some (.object [("command", .string "add_layer"),
    ("screens", .array [screenObject 0 "append" [layerObject 3000 []]])])

def twoClients : TransitionSystem (MainLoop Compositor) LoopAction :=
  mainLoop (Compositor.ilm false) (fun _ => addOne) .little
    ⟨fun _ w => w = World.fresh [0], fun _ _ => False⟩

theorem additive_addOne : (Event.message addOne).Additive := by
  have hcommand : commandOf addOne = some .addLayer := by decide
  refine ⟨⟨by decide, by decide, fun command h screenJobj hmem => ?_⟩, fun command h => ?_⟩
  · rw [hcommand] at h
    cases h
    rw [List.mem_singleton.mp hmem]
    decide
  · rw [hcommand] at h
    cases h
    exact ⟨nofun, nofun⟩

theorem clients_served_twoClients : ∃ l l' : MainLoop Compositor, l.waiting = [0, 1] ∧
    (l.peers 1).answers = [] ∧ l'.waiting = [] ∧ l'.commandsOf 1 = [[0x7B, 0x7D]] ∧
      (l'.peers 1).answers = magicCode ++ htonl 0 := by
  have hstarts : (MainLoop.started [0]).isSome = true := by decide +kernel
  obtain ⟨start, hstarted⟩ := Option.isSome_iff_exists.mp hstarts
  obtain ⟨w, hboot, rfl⟩ := MainLoop.exists_of_started hstarted
  let s := atOnce (encodeCommand [0x7B, 0x7D])
  let start : MainLoop Compositor := ⟨w, [], 0, [], none, fun _ => .connecting (atOnce []), []⟩
  let l := (start.connect s).connect s
  have hstart : twoClients.Run (AtTurns fun _ => Turn.Orderly) start :=
    .init ⟨rfl, rfl, rfl, rfl, ⟨"host", none⟩, World.fresh [0], rfl, hboot⟩
  have hfirst : twoClients.Run (AtTurns fun _ => Turn.Orderly) (start.connect s) :=
    hstart.step (a := .connect s) trivial rfl
  have hrun : twoClients.Run (AtTurns fun _ => Turn.Orderly) l :=
    hfirst.step (a := .connect s) trivial rfl
  have hbooted : (daemon (Compositor.ilm false)
      ⟨fun _ w => w = World.fresh [0], fun _ _ => False⟩).Run
        (TakesAllStep (Compositor.ilm false)) w := .init ⟨_, _, rfl, hboot⟩
  have hworld := recorded_of_run (Compositor.distinctScreenIds false) hbooted
  have hpeers : ∀ fd < 2, l.peers fd = .connecting s := by
    intro fd hfd
    obtain rfl | rfl : fd = 0 ∨ fd = 1 := by omega
    · rfl
    · rfl
  have hcmds : ∀ fd < l.opened, (∀ cmd ∈ ([[0x7B, 0x7D]] : List (List UInt8)), IsCommand cmd ∧
      (Event.message addOne).Additive) ∧
        (l.peers fd).stream = [[0x7B, 0x7D]].flatMap encodeCommand := by
    intro fd hfd
    refine ⟨fun cmd hcmd => ?_, ?_⟩
    · rw [List.mem_singleton.mp hcmd]
      exact ⟨⟨by simp, by decide⟩, additive_addOne⟩
    · rw [hpeers fd hfd]
      rfl
  have hwhole : ∀ fd < l.opened, ∀ n, ((l.peers fd).socket.arrivals n).Whole := by
    intro fd hfd n
    rw [hpeers fd hfd]
    exact whole_atOnce _ n
  have hhandles := handles_additive Compositor.succeeds
  obtain ⟨-, ⟨actions, l', hpath, hsettled⟩, -⟩ :=
    clients_served hrun hhandles hworld nofun hcmds hwhole (.nil l)
  obtain ⟨-, -, hserved⟩ := clients_served hrun hhandles hworld nofun hcmds hwhole hpath
  obtain ⟨-, hdone, hall⟩ := hserved hsettled
  have hwaits : 1 ∈ l.waiting := List.mem_cons_of_mem 0 (List.mem_singleton_self 1)
  obtain ⟨hcommands, hanswers⟩ := hall 1 hwaits
  exact ⟨l, l', rfl, rfl, hdone, hcommands, hanswers⟩

end UhmiIviWm
