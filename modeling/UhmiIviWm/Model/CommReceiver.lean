import Mathlib.Algebra.Group.Int.Defs
import Mathlib.Algebra.Group.Nat.Defs
import Mathlib.Data.List.Basic

/-!
# Receiving commands

The reading functions of `comm_receiver.c`, and the branch of the event loop that
calls them.

A connection is the bytes the peer has sent and not been read (`unread`), and how
many of them each `recv` finds there. Bytes of a buffer that `recv` does not fill
are a parameter (`rest`). The answers sent back to the client are left out.
-/

namespace UhmiIviWm

/-- What one `recv` finds: some bytes, up to `n`, or a failure. -/
inductive Arrival where
  | upTo (n : Nat) (pos : 0 < n)
  | failed

structure Socket where
  unread : List UInt8
  /-- What the `n`-th `recv` from now finds. -/
  arrivals : Nat → Arrival

/-- The socket after a `recv` that has copied `count` bytes. -/
def Socket.after (s : Socket) (count : Nat) : Socket :=
  ⟨s.unread.drop count, fun n => s.arrivals (n + 1)⟩

/-- `recv`: its result, the bytes copied, and the socket. At the end of the
stream nothing is copied, and the result is zero. -/
def Socket.recv (s : Socket) (asked : Nat) : Int × List UInt8 × Socket :=
  match s.arrivals 0 with
  | .failed => (-1, [], s.after 0)
  | .upTo n _ =>
    let bytes := s.unread.take (min n asked)
    (bytes.length, bytes, s.after bytes.length)

def magicCode : List UInt8 := [0x55, 0x4C, 0x41, 0x30]

/-- `strncmp(a, b, n) == 0`. -/
def strncmpEqual : Nat → List UInt8 → List UInt8 → Bool
  | 0, _, _ => true
  | n + 1, a, b => a.headD 0 == b.headD 0 &&
    (a.headD 0 == 0 || strncmpEqual n a.tail b.tail)

/-- A buffer of which only the first bytes have been written. -/
def filled (bytes rest : List UInt8) : List UInt8 := bytes ++ rest.drop bytes.length

def exchangeMagiccodeWithClient (rest : List UInt8) (s : Socket) : Int × Socket :=
  let (count, bytes, s) := s.recv 4
  if count < 0 then (-1, s)
  else if strncmpEqual 4 (filled bytes rest) magicCode = false then (-1, s)
  else (0, s)

/-- The value of bytes in network order. -/
def ntohl (bytes : List UInt8) : UInt32 :=
  bytes.foldl (fun value byte => value * 256 + byte.toUInt32) 0

/-- The size is read as `unsigned int` and returned as `int`. -/
def acquireBodySizeFromClient (rest : List UInt8) (s : Socket) : Int × Socket :=
  let (count, bytes, s) := s.recv 4
  if count < 0 then (-1, s)
  else ((ntohl (filled bytes rest)).toInt32.toInt, s)

/-- Writes bytes into a buffer. -/
def writeAt (data : List UInt8) (offset : Nat) (bytes : List UInt8) : List UInt8 :=
  data.take offset ++ bytes ++ data.drop (offset + bytes.length)

/-- The loop of `acquire_body_from_client`, for at most `fuel` calls of `recv`.
`len` is unsigned, and so is the comparison with zero. -/
def readBody (size : UInt32) : Nat → List UInt8 → UInt32 → Socket →
    Option (Int × List UInt8 × Socket)
  | fuel, data, bytesRead, s =>
    if bytesRead < size then
      match fuel with
      | 0 => none
      | fuel + 1 =>
        let (count, bytes, s) := s.recv (size - bytesRead).toNat
        let len := UInt32.ofInt count
        if len < 0 then some (-1, writeAt data bytesRead.toNat bytes, s)
        else readBody size fuel (writeAt data bytesRead.toNat bytes) (bytesRead + len) s
    else some (0, data, s)

/-- `none` where the loop is still running after `fuel` calls of `recv`. -/
def acquireBodyFromClient (fuel : Nat) (msg : List UInt8) (size : UInt32) (s : Socket) :
    Option (Int × List UInt8 × Socket) :=
  readBody size fuel msg 0 s

/-- The string a buffer holds. -/
def cString (buffer : List UInt8) : List UInt8 := buffer.takeWhile (· ≠ 0)

/-- The `POLLIN` branch of the loop: the string handed to the parser, if any. The length of
the buffer is `size + 1` without overflow; what becomes of the size `0x7FFFFFFF`, where it
overflows, is treated in `ReceiveBuffer` only. -/
def receiveCommand (fuel : Nat) (rest rest' : List UInt8) (s : Socket) :
    Option (Option (List UInt8) × Socket) :=
  let (ret, s) := exchangeMagiccodeWithClient rest s
  if ret = 0 then
    let (size, s) := acquireBodySizeFromClient rest' s
    if 0 < size then
      let msg := List.replicate (size.toNat + 1) 0
      match acquireBodyFromClient fuel msg (UInt32.ofInt size) s with
      | none => none
      | some (_, msg, s) => some (some (cString msg), s)
    else some (none, s)
  else some (none, s)

/-! ## The client -/

/-- `htonl`, as bytes. -/
def htonl (size : UInt32) : List UInt8 :=
  [(size >>> 24).toUInt8, (size >>> 16).toUInt8, (size >>> 8).toUInt8, size.toUInt8]

/-- A string of C, short enough for its length to be an `int`. -/
structure IsCommand (cmd : List UInt8) : Prop where
  string : ∀ byte ∈ cmd, byte ≠ 0
  length : cmd.length + 1 < 2 ^ 31 - 1

/-- What a client sends for a command: the magic code, the size of the string with
its terminator, the string. -/
def encodeCommand (cmd : List UInt8) : List UInt8 :=
  magicCode ++ htonl (UInt32.ofNat (cmd.length + 1)) ++ (cmd ++ [0])

end UhmiIviWm
