import UhmiIviWm.Lib.TransitionSystem
import UhmiIviWm.Model.CommReceiver

/-!
# Clients of the event loop

The half of `wait_event_loop` that serves clients: one connection is accepted at
a time, and the others wait. Clients connect, write whole frames and hang up
between two turns of the loop. A turn acts on what `poll` has reported at its
beginning.
-/

namespace UhmiIviWm

open Lib

/-- A connection of a client, with what the client has written and what the parser has
been handed from it so far. -/
structure Connection where
  unread : List UInt8
  /-- The client has closed its end. -/
  hungUp : Bool
  /-- The loop has closed its end. -/
  closed : Bool
  written : List (List UInt8)
  handed : List (List UInt8)

def Connection.fresh : Connection := ⟨[], false, false, [], []⟩

/-- `accept_fd` is the connection being served, `backlog` those not accepted yet. -/
structure Clients where
  opened : Nat
  backlog : List Nat
  acceptFd : Option Nat
  connections : Nat → Connection

def Clients.init : Clients := ⟨0, [], none, fun _ => .fresh⟩

/-- Changes one connection. -/
def Clients.update (cl : Clients) (fd : Nat) (f : Connection → Connection) : Clients :=
  { cl with connections := fun n => if n = fd then f (cl.connections n) else cl.connections n }

/-- What `poll` reports: a connection to accept, and the events of `accept_fd`. -/
structure Revents where
  listening : Bool
  pollin : Bool
  pollhup : Bool

/-- What `poll` may report. Where the client has hung up, `POLLIN` may come with `POLLHUP`. -/
def Clients.Polled (cl : Clients) (revents : Revents) : Prop :=
  revents.listening = !cl.backlog.isEmpty ∧
    match cl.acceptFd with
    | none => revents.pollin = false ∧ revents.pollhup = false
    | some fd => revents.pollhup = (cl.connections fd).hungUp ∧
      ((cl.connections fd).hungUp = false →
        revents.pollin = !(cl.connections fd).unread.isEmpty)

/-- `connect_to_client`. -/
def Clients.accept (cl : Clients) : Clients :=
  { cl with acceptFd := cl.backlog.head?, backlog := cl.backlog.tail }

/-- `close(accept_fd)`. -/
def Clients.close (cl : Clients) : Clients :=
  match cl.acceptFd with
  | none => cl
  | some fd => { cl.update fd fun c => { c with closed := true } with acceptFd := none }

/-- A connection as a socket: `recv` finds as many bytes as are there. -/
def Connection.socket (c : Connection) : Socket := ⟨c.unread, fun _ => .upTo (2 ^ 32) (by decide)⟩

/-- The receiving branch: `none` where the body is still being read. -/
def Clients.receive (cl : Clients) (fuel : Nat) (rest rest' : List UInt8) : Option Clients :=
  match cl.acceptFd with
  | none => some cl
  | some fd =>
    match receiveCommand fuel rest rest' (cl.connections fd).socket with
    | none => none
    | some (cmd, s) => some <| cl.update fd fun c =>
      { c with unread := s.unread, handed := c.handed ++ cmd.toList }

/-- One turn of the loop. -/
def Clients.turn (cl : Clients) (revents : Revents) (fuel : Nat) (rest rest' : List UInt8) :
    Option Clients :=
  let cl := if revents.listening && cl.acceptFd.isNone then cl.accept else cl
  if revents.pollhup then some cl.close
  else if revents.pollin then cl.receive fuel rest rest'
  else some cl

inductive ClientAction where
  | connect
  | write (fd : Nat) (cmd : List UInt8)
  | hangUp (fd : Nat)
  | turn

/-- Clients and turns of the loop in any order. A frame is put into the buffer whole. -/
def clientLoop : TransitionSystem Clients ClientAction where
  init cl := cl = .init
  step
    | .connect, cl, cl' =>
      cl' = { cl with opened := cl.opened + 1, backlog := cl.backlog ++ [cl.opened] }
    | .write fd cmd, cl, cl' => fd < cl.opened ∧ (cl.connections fd).hungUp = false ∧
      IsCommand cmd ∧ cl' = cl.update fd fun c =>
        { c with unread := c.unread ++ encodeCommand cmd, written := c.written ++ [cmd] }
    | .hangUp fd, cl, cl' => fd < cl.opened ∧ cl' = cl.update fd fun c => { c with hungUp := true }
    | .turn, cl, cl' => ∃ revents fuel rest rest', cl.Polled revents ∧ rest.length = 4 ∧
      rest'.length = 4 ∧ cl.turn revents fuel rest rest' = some cl'

end UhmiIviWm
