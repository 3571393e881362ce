import UhmiIviWm.Model.Responses

/-!
# The command-line client

`main` of `wmsendcmd.c`, once it has read a command from its file: what it sends, and
what it makes of what comes back. No result of a `send` is looked at.
-/

namespace UhmiIviWm

/-- `send_data_to_server`. Nothing sent counts as a failure. -/
def sendDataToServer (buf : List UInt8) (room : Option Nat) : Int × List UInt8 :=
  let (count, bytes) := send buf room
  if count ≤ 0 then (-1, bytes) else (0, bytes)

def sendBodySizeToServer (order : ByteOrder) (size : UInt32) (room : Option Nat) :
    Int × List UInt8 :=
  let (count, bytes) := send (order.store (order.htonl size)) room
  if count = -1 then (-1, bytes) else (0, bytes)

/-- `recv_str_response_from_server`: what the buffer holds afterwards. -/
def recvStrResponseFromServer (res : List UInt8) (s : Socket) : List UInt8 × Socket :=
  let (count, bytes, s) := s.recv 4
  if count < 0 then (res, s) else (filled bytes res, s)

namespace Wmsendcmd

/-- What `main` sends for a command, with the room each `send` finds. -/
def sends (order : ByteOrder) (cmd : List UInt8) (room : Nat → Option Nat) : List UInt8 :=
  let cmdsize := UInt32.ofNat (cmd.length + 1)
  (sendDataToServer magicCode (room 0)).2 ++ ((sendBodySizeToServer order cmdsize (room 1)).2 ++
    (sendDataToServer (cmd ++ [0]) (room 2)).2)

/-- What `main` prints: whether the magic code has come back, and the response. -/
structure Report where
  magicRight : Bool
  res : Int32

/-- `res` is what the local of that name holds before anything is written to it. -/
def report (order : ByteOrder) (res : Int32) (s : Socket) : Report :=
  let (resp, s) := recvStrResponseFromServer [0, 0, 0, 0] s
  ⟨strncmpEqual 4 resp magicCode, (recvResponseFromServer order res s).1⟩

end Wmsendcmd

end UhmiIviWm
