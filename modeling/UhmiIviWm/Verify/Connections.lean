import UhmiIviWm.Model.Connections
import UhmiIviWm.Verify.Framing

/-!
# Commands of a client that hangs up

The loop looks for `POLLHUP` before it looks for `POLLIN`, and closes the
connection without reading what is left. So a frame is lost exactly where its
client hangs up before the frame is read: as long as clients hang up only when
everything they wrote has been read, each connection is accounted for
(`Accounted`).
-/

namespace UhmiIviWm

open Lib

/-- What was written is what was handed on and what is still unread, in this order. -/
structure Accounted (c : Connection) : Prop where
  frames : ∃ cmds, c.written = c.handed ++ cmds ∧ c.unread = cmds.flatMap encodeCommand ∧
    ∀ cmd ∈ cmds, IsCommand cmd
  hungUp : c.hungUp = true → c.unread = []
  closed : c.closed = true → c.hungUp = true

variable {cl cl' : Clients} {c : Connection}

namespace Accounted

theorem fresh : Accounted .fresh := ⟨⟨[], rfl, rfl, nofun⟩, nofun, nofun⟩

theorem write (h : Accounted c) (hopen : c.hungUp = false) {cmd : List UInt8}
    (hcmd : IsCommand cmd) :
    Accounted { c with unread := c.unread ++ encodeCommand cmd, written := c.written ++ [cmd] } := by
  obtain ⟨cmds, hwritten, hunread, hcmds⟩ := h.frames
  refine ⟨⟨cmds ++ [cmd], ?_, ?_, ?_⟩, fun hhung => ?_, h.closed⟩
  · rw [hwritten, List.append_assoc]
  · rw [hunread, List.flatMap_append, List.flatMap_singleton]
  · intro x hx
    rcases List.mem_append.mp hx with hx | hx
    · exact hcmds x hx
    · rwa [List.mem_singleton.mp hx]
  · exact absurd (hopen.symm.trans hhung) Bool.false_ne_true

theorem hangUp (h : Accounted c) (hread : c.unread = []) : Accounted { c with hungUp := true } :=
  ⟨h.frames, fun _ => hread, fun _ => rfl⟩

theorem close (h : Accounted c) (hhung : c.hungUp = true) : Accounted { c with closed := true } :=
  ⟨h.frames, h.hungUp, fun _ => hhung⟩

/-- Unread bytes begin with a frame, and the next round reads it. -/
theorem exists_receive (h : Accounted c) (hunread : c.unread ≠ []) {rest rest' : List UInt8}
    (hrest : rest.length = 4) (hrest' : rest'.length = 4) :
    ∃ cmd cmds fuel s, c.written = c.handed ++ cmd :: cmds ∧ (∀ cmd ∈ cmds, IsCommand cmd) ∧
      receiveCommand fuel rest rest' c.socket = some (some cmd, s) ∧
      s.unread = cmds.flatMap encodeCommand := by
  obtain ⟨cmds, hwritten, hframes, hcmds⟩ := h.frames
  cases cmds with
  | nil => exact absurd hframes hunread
  | cons cmd cmds =>
    obtain ⟨hcmd, hcmds'⟩ := List.forall_mem_cons.mp hcmds
    have hwhole : ∀ n, (c.socket.arrivals n).Whole := fun _ => ⟨2 ^ 32, by decide, rfl, by decide⟩
    have hbuffer : c.socket.unread = encodeCommand cmd ++ cmds.flatMap encodeCommand := hframes
    have hbody : cmd.length + 1 ≤ ((c.socket.after 4).after 4).unread.length := by
      simp only [Socket.after, hbuffer, List.length_drop, List.length_append, length_encodeCommand]
      omega
    obtain ⟨s, hdelivers⟩ := exists_delivers (s := (c.socket.after 4).after 4) (fun _ h => by cases h) hbody
    obtain ⟨⟨fuel, hround⟩, hleft⟩ :=
      receiveCommand_of_whole hcmd (hwhole 0) (hwhole 1) hbuffer hdelivers hrest hrest'
    exact ⟨cmd, cmds, fuel, s, hwritten, hcmds', hround, hleft⟩

theorem receive (h : Accounted c) (hopen : c.hungUp = false) (hunread : c.unread ≠ [])
    {fuel : Nat} {rest rest' : List UInt8} (hrest : rest.length = 4) (hrest' : rest'.length = 4)
    {result : Option (List UInt8)} {s : Socket}
    (hreceive : receiveCommand fuel rest rest' c.socket = some (result, s)) :
    Accounted { c with unread := s.unread, handed := c.handed ++ result.toList } := by
  obtain ⟨cmd, cmds, fuel', s', hwritten, hcmds, hround, hleft⟩ :=
    h.exists_receive hunread hrest hrest'
  cases receiveCommand_unique hreceive hround
  refine ⟨⟨cmds, ?_, hleft, hcmds⟩, fun hhung => ?_, h.closed⟩
  · rw [hwritten, Option.toList_some, List.append_assoc, List.singleton_append]
  · exact absurd (hopen.symm.trans hhung) Bool.false_ne_true

end Accounted

/-- Every connection is accounted for. -/
def AllAccounted (cl : Clients) : Prop := ∀ fd, Accounted (cl.connections fd)

theorem AllAccounted.update (h : AllAccounted cl) {fd : Nat} {f : Connection → Connection}
    (hf : Accounted (f (cl.connections fd))) : AllAccounted (cl.update fd f) := by
  intro n
  by_cases hn : n = fd
  · subst hn
    simpa only [Clients.update, if_true] using hf
  · simpa only [Clients.update, if_neg hn] using h n

/-- A turn under what `poll` may report. -/
theorem Clients.turn_eq {revents : Revents} (hpoll : cl.Polled revents) (fuel : Nat)
    (rest rest' : List UInt8) :
    cl.turn revents fuel rest rest' = match cl.acceptFd with
      | none => some (if revents.listening then cl.accept else cl)
      | some fd =>
        if (cl.connections fd).hungUp = true then some cl.close
        else if (cl.connections fd).unread = [] then some cl
        else cl.receive fuel rest rest' := by
  obtain ⟨-, hevents⟩ := hpoll
  unfold Clients.turn
  cases haccept : cl.acceptFd with
  | none =>
    rw [haccept] at hevents
    simp only [hevents.1, hevents.2, Option.isNone_none, Bool.and_true, Bool.false_eq_true, if_false]
  | some fd =>
    rw [haccept] at hevents
    obtain ⟨hhup, hin⟩ := hevents
    simp only [Option.isNone_some, Bool.and_false, Bool.false_eq_true, if_false, hhup]
    by_cases hhung : (cl.connections fd).hungUp = true
    · rw [if_pos hhung, if_pos hhung]
    · have hopen : (cl.connections fd).hungUp = false := by simpa using hhung
      rw [if_neg hhung, if_neg hhung, hin hopen]
      by_cases hunread : (cl.connections fd).unread = []
      · rw [if_pos hunread, hunread]
        rfl
      · rw [if_neg hunread, if_pos (by simpa using hunread)]

/-- One turn of the loop. -/
theorem AllAccounted.turn (h : AllAccounted cl) {revents : Revents} (hpoll : cl.Polled revents)
    {fuel : Nat} {rest rest' : List UInt8} (hrest : rest.length = 4) (hrest' : rest'.length = 4)
    (hturn : cl.turn revents fuel rest rest' = some cl') : AllAccounted cl' := by
  rw [Clients.turn_eq hpoll] at hturn
  cases haccept : cl.acceptFd with
  | none =>
    rw [haccept] at hturn
    cases hturn
    intro fd
    split
    · exact h fd
    · exact h fd
  | some fd =>
    rw [haccept] at hturn
    dsimp only at hturn
    split at hturn
    · rename_i hhung
      rw [Clients.close, haccept] at hturn
      cases hturn
      exact h.update (f := fun c => { c with closed := true }) ((h fd).close hhung)
    · rename_i hhung
      split at hturn
      · cases hturn
        exact h
      · rename_i hunread
        have hopen : (cl.connections fd).hungUp = false := by simpa using hhung
        rw [Clients.receive, haccept] at hturn
        dsimp only at hturn
        cases hreceive : receiveCommand fuel rest rest' (cl.connections fd).socket with
        | none =>
          rw [hreceive] at hturn
          cases hturn
        | some r =>
          obtain ⟨result, s⟩ := r
          rw [hreceive] at hturn
          cases hturn
          exact h.update ((h fd).receive hopen hunread hrest hrest' hreceive)

/-- Clients hang up only when all they wrote has been read. -/
def HangsUpServed : ClientAction → Clients → Prop
  | .hangUp fd, cl => (cl.connections fd).unread = []
  | _, _ => True

theorem allAccounted_of_run (h : clientLoop.Run HangsUpServed cl) : AllAccounted cl := by
  refine h.invariant ?_ ?_
  · rintro _ rfl fd
    exact .fresh
  · intro action cl cl' _ hcl hserved hstep
    cases action with
    | connect =>
      cases hstep
      exact hcl
    | write fd cmd =>
      obtain ⟨-, hopen, hcmd, rfl⟩ := hstep
      exact hcl.update ((hcl fd).write hopen hcmd)
    | hangUp fd =>
      obtain ⟨-, rfl⟩ := hstep
      exact hcl.update ((hcl fd).hangUp hserved)
    | turn =>
      obtain ⟨revents, fuel, rest, rest', hpoll, hrest, hrest', hturn⟩ := hstep
      exact hcl.turn hpoll hrest hrest' hturn

/-- Where clients hang up only once they have been read, a connection that is closed has had all
its commands handed over, in order and each once. -/
theorem no_command_dropped (h : clientLoop.Run HangsUpServed cl) (fd : Nat)
    (hclosed : (cl.connections fd).closed = true) :
    (cl.connections fd).handed = (cl.connections fd).written := by
  have haccounted := allAccounted_of_run h fd
  obtain ⟨cmds, hwritten, hunread, -⟩ := haccounted.frames
  rw [haccounted.hungUp (haccounted.closed hclosed)] at hunread
  cases cmds with
  | nil => rw [hwritten, List.append_nil]
  | cons cmd cmds =>
    have hlength := congrArg List.length hunread
    rw [List.flatMap_cons, List.length_append, length_encodeCommand, List.length_nil] at hlength
    omega

/-! A client that connects and sends the command `{}`. -/

def oneConnection : Clients := ⟨1, [0], none, fun _ => .fresh⟩

def oneCommand : Clients := oneConnection.update 0 fun c =>
  { c with unread := c.unread ++ encodeCommand [0x7B, 0x7D], written := c.written ++ [[0x7B, 0x7D]] }

theorem oneCommand_run (G : ClientAction → Clients → Prop)
    (hconnect : ∀ cl, G .connect cl) (hwrite : ∀ fd cmd cl, G (.write fd cmd) cl) :
    clientLoop.Run G oneCommand := by
  have hconnected : clientLoop.Run G oneConnection :=
    (TransitionSystem.Run.init rfl).step (hconnect .init) rfl
  have hcmd : IsCommand [0x7B, 0x7D] := ⟨by simp, by decide⟩
  exact hconnected.step (hwrite 0 [0x7B, 0x7D] oneConnection) ⟨by decide, rfl, hcmd, rfl⟩

/-- It hangs up once its command has been read. -/
theorem no_command_dropped_oneCommand :
    ∃ cl, clientLoop.Run HangsUpServed cl ∧ (cl.connections 0).closed = true ∧
      (cl.connections 0).handed = (cl.connections 0).written := by
  have hturn : ∀ cl cl' revents, clientLoop.Run HangsUpServed cl → cl.Polled revents →
      cl.turn revents 1 unwritten unwritten = some cl' → clientLoop.Run HangsUpServed cl' :=
    fun cl cl' revents hcl hpoll h =>
      hcl.step (a := .turn) trivial ⟨revents, 1, unwritten, unwritten, hpoll, rfl, rfl, h⟩
  have haccepted := hturn _ _ ⟨true, false, false⟩
    (oneCommand_run HangsUpServed (fun _ => trivial) fun _ _ _ => trivial) ⟨rfl, rfl, rfl⟩ rfl
  have hread := hturn _ _ ⟨false, true, false⟩ haccepted ⟨rfl, rfl, fun _ => rfl⟩ rfl
  have hhungUp := hread.step (a := .hangUp 0) (G := HangsUpServed) rfl ⟨by decide, rfl⟩
  have hclosed := hturn _ _ ⟨false, true, true⟩ hhungUp ⟨rfl, rfl, fun h => by cases h⟩ rfl
  exact ⟨_, hclosed, rfl, no_command_dropped hclosed 0 rfl⟩

/-- It hangs up before its command has been read. -/
theorem command_dropped :
    ¬ ∀ cl, clientLoop.Reachable cl → ∀ fd, (cl.connections fd).closed = true →
      (cl.connections fd).handed = (cl.connections fd).written := by
  intro h
  have hturn : ∀ cl cl' revents, clientLoop.Reachable cl → cl.Polled revents →
      cl.turn revents 1 unwritten unwritten = some cl' → clientLoop.Reachable cl' :=
    fun cl cl' revents hcl hpoll h =>
      hcl.step (a := .turn) ⟨revents, 1, unwritten, unwritten, hpoll, rfl, rfl, h⟩
  have hsent : clientLoop.Reachable oneCommand :=
    oneCommand_run _ (fun _ => trivial) fun _ _ _ => trivial
  have hhungUp := hsent.step (a := ClientAction.hangUp 0) ⟨by decide, rfl⟩
  have haccepted := hturn _ _ ⟨true, false, false⟩ hhungUp ⟨rfl, rfl, rfl⟩ rfl
  have hclosed := hturn _ _ ⟨false, true, true⟩ haccepted ⟨rfl, rfl, fun h => by cases h⟩ rfl
  exact absurd (h _ hclosed 0 rfl) (by decide)

end UhmiIviWm
