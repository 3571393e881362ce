import UhmiIviWm.Lib.TransitionSystem
import UhmiIviWm.Model.CommReceiver

/-!
# The buffer for the body of a command

The allocation that `wait_event_loop` makes for a body, and the loop of
`acquire_body_from_client` with the destinations it gives to `recv`.
-/

namespace UhmiIviWm

open Lib

/-- `size + 1`, as `calloc` is given it: `none` where the sum overflows an `int`. -/
def callocSize (size : Int) : Option UInt64 :=
  if size + 1 ≤ Int32.maxValue.toInt then some (UInt64.ofNat (size + 1).toNat) else none

/-- `calloc(size + 1, 1)`: the buffer, or none. -/
def callocBody (calloc : UInt64 → Option (List UInt8)) (size : Int) : Option (List UInt8) :=
  (callocSize size).bind calloc

/-- Where a `recv` begins to write, and how many bytes it may write. -/
structure Destination where
  offset : Nat
  length : Nat

/-- The loop of `acquire_body_from_client`, where its condition is tested. -/
structure BodyLoop where
  data : List UInt8
  bytesRead : UInt32
  socket : Socket

/-- The loop goes round once for each `recv`, whatever the socket makes of it. -/
def bodyLoop (msg : List UInt8) (size : UInt32) : TransitionSystem BodyLoop Destination where
  init l := l.data = msg ∧ l.bytesRead = 0
  step dest l l' := l.bytesRead < size ∧
    dest = ⟨l.bytesRead.toNat, (size - l.bytesRead).toNat⟩ ∧
    l' = (let (count, bytes, s) := l.socket.recv dest.length
      ⟨writeAt l.data dest.offset bytes, l.bytesRead + UInt32.ofInt count, s⟩)

end UhmiIviWm
