import UhmiIviWm.Model.CommParser
import UhmiIviWm.Model.CommReceiver

/-!
# Responses

`send_response_to_client` and `recv_response_from_server`, and the receiving branch
of the event loop with the response at its end. An `int` goes over the wire as the
bytes it has in memory, in the byte order of the machine. The four bytes that answer
the magic code are left out.
-/

namespace UhmiIviWm

/-- How a machine keeps an integer in memory. -/
inductive ByteOrder where
  | little
  | big

namespace ByteOrder

/-- The bytes of an integer in memory. -/
def store : ByteOrder → UInt32 → List UInt8
  | .little, value => (UhmiIviWm.htonl value).reverse
  | .big, value => UhmiIviWm.htonl value

/-- The integer that bytes in memory stand for. -/
def load : ByteOrder → List UInt8 → UInt32
  | .little, bytes => UhmiIviWm.ntohl bytes.reverse
  | .big, bytes => UhmiIviWm.ntohl bytes

/-- `htonl`, as an integer: the one whose bytes in memory are in network order. -/
def htonl (order : ByteOrder) (value : UInt32) : UInt32 := order.load (UhmiIviWm.htonl value)

end ByteOrder

/-- `send`: its result, and the bytes on their way to the peer. It takes as many bytes
as there is room for; `none` is a failure. -/
def send (bytes : List UInt8) : Option Nat → Int × List UInt8
  | none => (-1, [])
  | some room => ((bytes.take room).length, bytes.take room)

def sendResponseToClient (order : ByteOrder) (res : Int32) (room : Option Nat) :
    Int × List UInt8 :=
  let res := (order.htonl res.toUInt32).toInt32
  let (count, bytes) := send (order.store res.toUInt32) room
  if count < 0 then (-1, bytes) else (0, bytes)

/-- `res` is what the local of that name holds before anything is written to it. -/
def recvResponseFromServer (order : ByteOrder) (res : Int32) (s : Socket) : Int32 × Socket :=
  let (count, bytes, s) := s.recv 4
  if count < 0 then (-1, s)
  else ((order.load (filled bytes (order.store res.toUInt32))).toInt32, s)

/-- The `POLLIN` branch of the loop, to the response it sends: `none` where the body is
still being read. `jsonLoads` is `json_loads`. -/
def serveClient {σ : Type} (ilm : Ilm σ) (jsonLoads : List UInt8 → Option Json)
    (order : ByteOrder) (fuel : Nat) (rest rest' : List UInt8) (s : Socket) (room : Option Nat) :
    WmM σ (Option (List UInt8 × Socket)) :=
  match receiveCommand fuel rest rest' s with
  | none => return none
  | some (none, s) => return some ((sendResponseToClient order (-1) room).2, s)
  | some (some msg, s) => do
    let resp ← parserParseRecvCommand ilm (jsonLoads msg)
    return some ((sendResponseToClient order (Int32.ofInt resp) room).2, s)

end UhmiIviWm
