import UhmiIviWm.Lib.WriteBuffer
import UhmiIviWm.Model.Compositor

/-!
# A compositor that waits for the commit

The wrappers end every group of changes with `ilm_commitChanges`, because ilm need not
let a change take effect before. Here any of the changes may wait, as `late` says in view
of what has taken effect and of what waits already, and what waits takes effect with the
next `commitChanges`. Notifications do not wait.
-/

namespace UhmiIviWm

open Lib.WriteBuffer

/-- The calls that change what is on the screens. -/
def IlmCall.changesLayout : IlmCall → Bool
  | .layerRemoveNotification _ | .surfaceRemoveNotification _ | .surfaceAddNotification _
  | .getPropertiesOfSurface _ | .registerNotification | .commitChanges => false
  | _ => true

namespace Compositor

/-- The compositor as a device. -/
def device (strict : Bool) : Device Compositor IlmCall where
  admits c op := !strict || c.names op
  apply := apply

/-- The compositor behind a buffer. Queries see what has taken effect. -/
def bufferedIlm (strict : Bool) (late : Buffered Compositor IlmCall → IlmCall → Bool) :
    Ilm (Buffered Compositor IlmCall) where
  call
    | .commitChanges, b => (true, (device strict).commit b)
    | op, b => (device strict).performBuffered (fun b op => late b op && op.changesLayout) op b
  getSurfaceIDs b := (b.committed.surfaces, b)
  getLayerIDs b := (b.committed.layers, b)
  getPropertiesOfScreen id b := (b.committed.screens.contains id, b)
  getScreenIDs b := (some b.committed.screens.dedup, b)

/-- A setting of the compositor, for the one behind a buffer: it starts with nothing
waiting, and what the rest of the system does takes effect at once. -/
def bufferedSetting (set : Setting Compositor) : Setting (Buffered Compositor IlmCall) where
  start boot w := w.ilm.queued = [] ∧ set.start boot ⟨w.wm, w.ilm.committed⟩
  env b b' := b'.queued = b.queued ∧ set.env b.committed b'.committed

end Compositor

end UhmiIviWm
