import UhmiIviWm.Model.EventLoop
import UhmiIviWm.Model.Responses

/-!
# The whole loop

`wait_event_loop` with its three descriptors: the pipe of the callbacks, the socket
that listens, the connection that is served. A turn acts on what `poll` has reported
at its beginning.

A client is a `Socket` from the moment it connects: all it will ever send, and how
that arrives. What has not arrived yet is waited for by `recv`, so when a client
writes does not matter, and `poll` may report a client at any time. A `send` that
ends the process (`SIGPIPE`) is left out, and so is a `poll` that fails. The header
`0x7FFFFFFF`, for which the length of the receive buffer overflows, is treated in
`ReceiveBuffer` only.
-/

namespace UhmiIviWm

open Lib

/-- `send_str_response_to_client` in `exchange_magiccode_with_client`: the bytes sent
back where the magic code is right. -/
def magicEcho (rest : List UInt8) (s : Socket) (room : Option Nat) : List UInt8 :=
  if (exchangeMagiccodeWithClient rest s).1 = 0 then
    (send (filled (s.recv 4).2.1 rest) room).2
  else []

/-- A client: what it sends in all, its connection, and what it has been sent. -/
structure Peer where
  stream : List UInt8
  socket : Socket
  answers : List UInt8

def Peer.connecting (s : Socket) : Peer := ⟨s.unread, s, []⟩

/-- Something the loop has handled, in the order in which it has. -/
inductive Handled where
  | record (data : Cbdata)
  | command (fd : Nat) (cmd : List UInt8)

def Handled.event (jsonLoads : List UInt8 → Option Json) : Handled → Event
  | .record data => .record data
  | .command _ cmd => .message (jsonLoads cmd)

/-- A command, with the client it is from. -/
def Handled.command? : Handled → Option (Nat × List UInt8)
  | .record _ => none
  | .command fd cmd => some (fd, cmd)

/-- `acceptFd` is the client being served, `backlog` those not accepted yet, `log` what
has been handled. -/
structure MainLoop (σ : Type) where
  world : World σ
  pipe : List Cbdata
  opened : Nat
  backlog : List Nat
  acceptFd : Option Nat
  peers : Nat → Peer
  log : List Handled

/-- What a turn comes across: the reports of `poll`, and how the calls end. -/
structure Turn where
  pipein : Bool
  listening : Bool
  pollhup : Bool
  pollin : Bool
  /-- The `read` fails, and `data` holds this; `none` where its type is neither of the two. -/
  badRead : Option (Option Cbdata)
  acceptFails : Bool
  /-- The number of `recv`s the body may take. -/
  fuel : Nat
  rest : List UInt8
  rest' : List UInt8
  /-- The room for the magic code and for the response. -/
  room : Option Nat
  room' : Option Nat

namespace MainLoop

variable {σ : Type} (l : MainLoop σ)

/-- The commands handled, in order. -/
def commands : List (Nat × List UInt8) := l.log.filterMap Handled.command?

/-- Those of one client. -/
def commandsOf (fd : Nat) : List (List UInt8) := (l.commands.filter (·.1 == fd)).map (·.2)

def setPeer (fd : Nat) (peer : Peer) : MainLoop σ :=
  { l with peers := fun n => if n = fd then peer else l.peers n }

/-- A client connects. -/
def connect (s : Socket) : MainLoop σ :=
  { l.setPeer l.opened (.connecting s) with
    opened := l.opened + 1
    backlog := l.backlog ++ [l.opened] }

/-- `read` of one record: what `data` holds then, and the pipe. -/
def readPipe (badRead : Option (Option Cbdata)) : Option Cbdata × List Cbdata :=
  match badRead with
  | some data => (data, l.pipe)
  | none => (l.pipe.head?, l.pipe.tail)

/-- `accept_fd = connect_to_client(socket_fd)`. -/
def accept (fails : Bool) : MainLoop σ :=
  if fails then l else { l with acceptFd := l.backlog.head?, backlog := l.backlog.tail }

/-- `close(accept_fd)`. -/
def close : MainLoop σ := { l with acceptFd := none }

variable (ilm : Ilm σ) (jsonLoads : List UInt8 → Option Json) (order : ByteOrder)

/-- The branch of the callback pipe. -/
def callbackPipe (badRead : Option (Option Cbdata)) : Except Abort (MainLoop σ) :=
  let (data, pipe) := l.readPipe badRead
  match data with
  | none => .ok { l with pipe }
  | some data =>
    match (Event.record data).handle ilm l.world with
    | .error e => .error e
    | .ok (_, world) => .ok { l with world, pipe, log := l.log ++ [.record data] }

/-- The branch that receives a command and responds: `none` where the body is still
being read. -/
def receive (t : Turn) : Except Abort (Option (MainLoop σ)) :=
  match l.acceptFd with
  | none => .ok (some l)
  | some fd =>
    let peer := l.peers fd
    match serveClient ilm jsonLoads order t.fuel t.rest t.rest' peer.socket t.room' l.world with
    | .error e => .error e
    | .ok (none, _) => .ok none
    | .ok (some (response, socket), world) =>
      let cmd := (receiveCommand t.fuel t.rest t.rest' peer.socket).bind (·.1)
      let echo := magicEcho t.rest peer.socket t.room
      .ok <| some { l.setPeer fd ⟨peer.stream, socket, peer.answers ++ (echo ++ response)⟩ with
        world
        log := l.log ++ cmd.toList.map (.command fd) }

/-- The first descriptor. -/
def handleCallbacks (t : Turn) : Except Abort (MainLoop σ) :=
  if t.pipein then l.callbackPipe ilm t.badRead else .ok l

/-- The second descriptor. -/
def handleSocket (t : Turn) : MainLoop σ :=
  if t.listening && l.acceptFd.isNone then l.accept t.acceptFails else l

/-- The third descriptor. -/
def handleClient (t : Turn) : Except Abort (Option (MainLoop σ)) :=
  if t.pollhup then .ok (some l.close)
  else if t.pollin then l.receive ilm jsonLoads order t
  else .ok (some l)

/-- One turn of the loop. -/
def turn (t : Turn) : Except Abort (Option (MainLoop σ)) :=
  match l.handleCallbacks ilm t with
  | .error e => .error e
  | .ok l => (l.handleSocket t).handleClient ilm jsonLoads order t

/-- What `poll` may report. -/
structure Polled (t : Turn) : Prop where
  pipein : t.pipein = true → l.pipe ≠ []
  listening : t.listening = true → l.backlog ≠ []
  served : l.acceptFd = none → t.pollhup = false ∧ t.pollin = false

instance Polled.decidable (t : Turn) : Decidable (l.Polled t) :=
  decidable_of_iff ((t.pipein = true → l.pipe.isEmpty = false) ∧
      (t.listening = true → l.backlog.isEmpty = false) ∧
      (l.acceptFd.isNone = true → t.pollhup = false ∧ t.pollin = false))
    ⟨fun ⟨hpipein, hlistening, hserved⟩ =>
      ⟨fun h => List.isEmpty_eq_false_iff.mp (hpipein h),
        fun h => List.isEmpty_eq_false_iff.mp (hlistening h),
        fun h => hserved (Option.isNone_iff_eq_none.mpr h)⟩,
    fun h => ⟨fun hin => List.isEmpty_eq_false_iff.mpr (h.pipein hin),
      fun hin => List.isEmpty_eq_false_iff.mpr (h.listening hin),
      fun hfree => h.served (Option.isNone_iff_eq_none.mp hfree)⟩⟩

end MainLoop

inductive LoopAction where
  /-- A callback writes a record. -/
  | notify (data : Cbdata)
  /-- The rest of the system changes the compositor. -/
  | env
  | connect (s : Socket)
  | turn (t : Turn)

variable {σ : Type} (ilm : Ilm σ) (jsonLoads : List UInt8 → Option Json) (order : ByteOrder)

/-- `main`: `parser_init` has returned, and records may be on the pipe already. -/
def mainLoop (set : Setting σ) : TransitionSystem (MainLoop σ) LoopAction where
  init l := l.opened = 0 ∧ l.backlog = [] ∧ l.acceptFd = none ∧ l.log = [] ∧
    ∃ boot w₀, set.start boot w₀ ∧ parserInit ilm boot w₀ = .ok ((), l.world)
  step
    | .notify data, l, l' => l' = { l with pipe := l.pipe ++ [data] }
    | .env, l, l' => ∃ c, set.env l.world.ilm c ∧ l' = { l with world := ⟨l.world.wm, c⟩ }
    | .connect s, l, l' => l' = l.connect s
    | .turn t, l, l' => l.Polled t ∧ t.rest.length = 4 ∧ t.rest'.length = 4 ∧
      l.turn ilm jsonLoads order t = .ok (some l')

end UhmiIviWm
