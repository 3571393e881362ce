import UhmiIviWm.Model.MainLoop
import UhmiIviWm.Model.Session

/-!
# The whole desktop

The main loop with its clients, the compositor, and the applications that create and
destroy surfaces. The pipe the loop reads is the one the callbacks write to. All ilm
calls succeed, and so does every `read` of the pipe.
-/

namespace UhmiIviWm

open Lib

/-- What the loop has in common with the applications. -/
def MainLoop.session (l : MainLoop Compositor) : Session := ⟨l.world, l.pipe⟩

inductive DesktopAction where
  /-- An application creates a surface. -/
  | create (id : Id)
  /-- An application destroys a surface. -/
  | destroy (id : Id)
  /-- ilm answers a surface notification that is registered. -/
  | configure (id : Id)
  /-- A client connects. -/
  | connect (s : Socket)
  | turn (t : Turn)

namespace MainLoop

variable (l : MainLoop Compositor)

/-- A step of an application, or of ilm. -/
def outside (a : SessionAction) : Option (MainLoop Compositor) :=
  (l.session.perform a).map fun s => { l with world := s.world, pipe := s.pipe }

variable (jsonLoads : List UInt8 → Option Json) (order : ByteOrder)

/-- One step, where it is possible and does not abort. -/
def perform : DesktopAction → Option (MainLoop Compositor)
  | .create id => l.outside (.create id)
  | .destroy id => l.outside (.destroy id)
  | .configure id => l.outside (.configure id)
  | .connect s => some (l.connect s)
  | .turn t =>
    if l.Polled t ∧ t.rest.length = 4 ∧ t.rest'.length = 4 ∧ t.badRead = none then
      match l.turn (Compositor.ilm false) jsonLoads order t with
      | .ok l => l
      | .error _ => none
    else none

end MainLoop

/-- `parser_init` has returned, and nothing is on the pipe yet. -/
def desktop (jsonLoads : List UInt8 → Option Json) (order : ByteOrder)
    (start : Boot → World Compositor → Prop) :
    TransitionSystem (MainLoop Compositor) DesktopAction where
  init l := l.opened = 0 ∧ l.backlog = [] ∧ l.acceptFd = none ∧ l.log = [] ∧
    (session start).init l.session
  step a l l' := l.perform jsonLoads order a = some l'

end UhmiIviWm
