import UhmiIviWm.Lib.TransitionSystem
import UhmiIviWm.Model.CommParser

/-!
# The event loop

What `main` and `wait_event_loop` do with the parser: `parser_init` once, then
one event after the other, each handled to its end before the next is looked at.
Between two events the rest of the system may act on the compositor; `env` says
how.
-/

namespace UhmiIviWm

open Lib

variable {σ : Type} (ilm : Ilm σ)

/-- What one turn of the loop handles: a record from the pipe, or the body of a
message, of which `json_loads` makes a document or `NULL`. -/
inductive Event where
  | record (data : Cbdata)
  | message (body : Option Json)

/-- The branch of the loop that handles the event. -/
def Event.handle : Event → WmM σ Unit
  | .record ⟨.creationDelection, id⟩ => do
    let registered ← readWm (parserCheckRegisteredSurfaceInListTree · id)
    onIlm (wrapIlmSetSurfaceAddNotification ilm registered id)
  | .record ⟨.surfacePropChange, id⟩ => do
    let _ ← parserAddIviSurfaceByEventNotification ilm id
  | .message body => do
    let _ ← parserParseRecvCommand ilm body

/-- One step of a run: the loop handles an event, or the rest of the system
changes the compositor. -/
inductive Action where
  | event (e : Event)
  | env

/-- The worlds `parser_init` may start in, the configurations it may be given,
and what the rest of the system may do between two events. -/
structure Setting (σ : Type) where
  start : Boot → World σ → Prop
  env : σ → σ → Prop

/-- The daemon: `parser_init` has returned, then events and changes from outside
follow in any order. -/
def daemon (set : Setting σ) : TransitionSystem (World σ) Action where
  init w := ∃ boot w₀, set.start boot w₀ ∧ parserInit ilm boot w₀ = .ok ((), w)
  step
    | .event e, w, w' => e.handle ilm w = .ok ((), w')
    | .env, w, w' => w'.wm = w.wm ∧ set.env w.ilm w'.ilm

end UhmiIviWm
