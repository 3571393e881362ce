import UhmiIviWm.Model.Compositor

/-!
# Applications at work

The daemon, the compositor and the applications, one step at a time. Creating a
surface and answering a surface notification each run a callback, which writes a
record to the pipe; the loop takes the records off in order, and handles messages
in between. All ilm calls succeed.
-/

namespace UhmiIviWm

open Lib

structure Session where
  world : World Compositor
  pipe : List Cbdata

inductive SessionAction where
  /-- An application creates a surface. -/
  | create (id : Id)
  /-- An application destroys a surface. -/
  | destroy (id : Id)
  /-- ilm answers a surface notification that is registered. -/
  | configure (id : Id)
  /-- The loop handles the first record on the pipe. -/
  | takeRecord
  /-- The loop handles a message. -/
  | message (body : Option Json)

/-- The notification is answered, and so no longer waits for it. -/
def Compositor.answer (c : Compositor) (id : Id) : Compositor :=
  { c with pending := c.pending.filter (· != id) }

namespace Session

/-- The compositor changes and its callback writes records. -/
def notify (s : Session) (c : Compositor) (records : List Cbdata) : Session :=
  ⟨⟨s.world.wm, c⟩, s.pipe ++ records⟩

/-- One step, where it is possible and does not abort. -/
def perform (s : Session) : SessionAction → Option Session
  | .create id =>
    if s.world.ilm.surfaces.contains id then none
    else some (s.notify (s.world.ilm.createSurface id) (notificationCallback .surface id true))
  | .destroy id =>
    if s.world.ilm.surfaces.contains id then
      some (s.notify (s.world.ilm.destroySurface id) (notificationCallback .surface id false))
    else none
  | .configure id =>
    if s.world.ilm.pending.contains id then
      some (s.notify (s.world.ilm.answer id) (surfaceNotificationCallback id true))
    else none
  | .takeRecord =>
    match s.pipe with
    | [] => none
    | data :: rest =>
      match (Event.record data).handle (Compositor.ilm false) s.world with
      | .ok (_, w) => some ⟨w, rest⟩
      | .error _ => none
  | .message body =>
    match (Event.message body).handle (Compositor.ilm false) s.world with
    | .ok (_, w) => some ⟨w, s.pipe⟩
    | .error _ => none

end Session

/-- `parser_init` has returned, and nothing is on the pipe yet. -/
def session (start : Boot → World Compositor → Prop) : TransitionSystem Session SessionAction where
  init s := s.pipe = [] ∧ ∃ boot w, start boot w ∧
    parserInit (Compositor.ilm false) boot w = .ok ((), s.world)
  step a s s' := s.perform a = some s'

end UhmiIviWm
