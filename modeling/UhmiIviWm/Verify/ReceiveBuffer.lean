import UhmiIviWm.Model.ReceiveBuffer
import UhmiIviWm.Verify.Framing

/-!
# The buffer holds the body

The buffer has one byte more than the announced size, and `recv` is never given that
byte (`Destination.Inside`). So the string in the buffer ends inside it. The one size for
which there is no such buffer is the largest `int`.
-/

namespace UhmiIviWm

open Lib

variable {size : UInt32} {msg : List UInt8}

/-- What `recv` leaves in `size_str` is this header. -/
def Announces (rest : List UInt8) (s : Socket) (header : UInt32) : Prop :=
  0 ≤ (s.recv 4).1 ∧ ntohl (filled (s.recv 4).2.1 rest) = header

/-- All bytes are in front of the end of the announced size. -/
def Destination.Inside (dest : Destination) (size : Int) : Prop :=
  (dest.offset + dest.length : Int) ≤ size

/-- The string in the buffer is followed by its terminator, inside the buffer. -/
def Terminated (buffer : List UInt8) : Prop :=
  ∃ n, buffer[n]? = some 0 ∧ cString buffer = buffer.take n

/-- The buffer for a body of this size is one byte larger, `recv` is only given what is in front
of that byte, and what is handed to the parser is a string. -/
def BufferRight (calloc : UInt64 → Option (List UInt8)) (size : Int) : Prop :=
  ∃ request msg, callocSize size = some request ∧ (request.toNat : Int) = size + 1 ∧
    callocBody calloc size = some msg ∧
    (∀ l, (bodyLoop msg (UInt32.ofInt size)).Reachable l →
      ∀ dest l', (bodyLoop msg (UInt32.ofInt size)).step dest l l' → dest.Inside size) ∧
    ∀ fuel s ret data s',
      acquireBodyFromClient fuel msg (UInt32.ofInt size) s = some (ret, data, s') →
        data.length = request.toNat ∧ Terminated data

/-! ## The loop -/

theorem Socket.recv_length (s : Socket) (asked : Nat) : (s.recv asked).2.1.length ≤ asked := by
  unfold recv
  split
  · exact Nat.zero_le _
  · simp only [List.length_take]
    omega

theorem getElem?_writeAt {data bytes : List UInt8} {offset i : Nat} (hoffset : offset ≤ data.length)
    (h : offset + bytes.length ≤ i) : (writeAt data offset bytes)[i]? = data[i]? := by
  have hlength : (data.take offset ++ bytes).length = offset + bytes.length := by
    rw [List.length_append, List.length_take, Nat.min_eq_left hoffset]
  rw [writeAt, List.getElem?_append_right (by omega), List.getElem?_drop, hlength]
  congr 1
  omega

theorem Terminated.of_mem {buffer : List UInt8} (h : 0 ∈ buffer) : Terminated buffer := by
  induction buffer with
  | nil => cases h
  | cons byte rest ih =>
    by_cases hbyte : byte = 0
    · refine ⟨0, by rw [List.getElem?_cons_zero, hbyte], ?_⟩
      rw [cString, List.takeWhile_cons_of_neg (by simpa using hbyte), List.take_zero]
    · obtain ⟨n, hnul, hstring⟩ := ih ((List.mem_cons.mp h).resolve_left fun h => hbyte h.symm)
      refine ⟨n + 1, by rwa [List.getElem?_cons_succ], ?_⟩
      rw [cString, List.takeWhile_cons_of_pos (by simpa using hbyte), List.take_succ_cons, ← hstring,
        cString]

/-- The byte behind the body is zero, and it is the last. -/
structure BodyLoop.Guarded (size : UInt32) (l : BodyLoop) : Prop where
  length : l.data.length = size.toNat + 1
  last : l.data[size.toNat]? = some 0

theorem inside_of_step {dest : Destination} {l l' : BodyLoop}
    (h : (bodyLoop msg size).step dest l l') : dest.Inside size.toNat := by
  obtain ⟨hlt, rfl, -⟩ := h
  have hle : l.bytesRead ≤ size := UInt32.le_of_lt hlt
  rw [UInt32.lt_iff_toNat_lt] at hlt
  change (l.bytesRead.toNat + (size - l.bytesRead).toNat : Int) ≤ size.toNat
  rw [UInt32.toNat_sub_of_le _ _ hle]
  omega

namespace BodyLoop.Guarded

variable {l l' : BodyLoop} {dest : Destination}

theorem step (h : l.Guarded size) (hs : (bodyLoop msg size).step dest l l') : l'.Guarded size := by
  have hinside := inside_of_step hs
  rw [Destination.Inside] at hinside
  obtain ⟨-, -, rfl⟩ := hs
  have hbytes := l.socket.recv_length dest.length
  have hlength := h.length
  generalize l.socket.recv dest.length = r at hbytes ⊢
  obtain ⟨count, bytes, s⟩ := r
  dsimp only at hbytes
  constructor
  · exact (length_writeAt (by omega)).trans h.length
  · exact (getElem?_writeAt (by omega) (by omega)).trans h.last

theorem of_reachable (hmsg : msg = List.replicate (size.toNat + 1) 0)
    (h : (bodyLoop msg size).Reachable l) : l.Guarded size := by
  refine TransitionSystem.Reachable.invariant (P := Guarded size) ?_ ?_ h
  · rintro l ⟨hdata, -⟩
    rw [hmsg] at hdata
    refine ⟨by rw [hdata, List.length_replicate], ?_⟩
    rw [hdata, List.getElem?_replicate_of_lt (by omega)]
  · exact fun dest l l' _ hl hs => hl.step hs

theorem terminated (h : l.Guarded size) : Terminated l.data :=
  .of_mem (List.mem_of_getElem? h.last)

end BodyLoop.Guarded

theorem readBody_reachable {fuel : Nat} {l : BodyLoop} {ret : Int} {data : List UInt8} {s : Socket}
    (hl : (bodyLoop msg size).Reachable l)
    (h : readBody size fuel l.data l.bytesRead l.socket = some (ret, data, s)) :
    ∃ l', (bodyLoop msg size).Reachable l' ∧ l'.data = data := by
  induction fuel generalizing l with
  | zero =>
    rw [readBody] at h
    split at h
    · cases h
    · cases h
      exact ⟨l, hl, rfl⟩
  | succ fuel ih =>
    by_cases hlt : l.bytesRead < size
    · rw [readBody_succ hlt] at h
      exact ih (hl.step (a := ⟨l.bytesRead.toNat, (size - l.bytesRead).toNat⟩) ⟨hlt, rfl, rfl⟩) h
    · rw [readBody_done hlt] at h
      cases h
      exact ⟨l, hl, rfl⟩

/-- Where `acquire_body_from_client` returns, its loop has come to this buffer. -/
theorem acquireBody_reachable {fuel : Nat} {ret : Int} {data : List UInt8} {s s' : Socket}
    (h : acquireBodyFromClient fuel msg size s = some (ret, data, s')) :
    ∃ l, (bodyLoop msg size).Reachable l ∧ l.data = data :=
  readBody_reachable (l := ⟨msg, 0, s⟩) (.init ⟨rfl, rfl⟩) h

/-! ## The sizes -/

theorem callocSize_of_lt {size : Int} (h : size < 2 ^ 31 - 1) :
    callocSize size = some (UInt64.ofNat (size + 1).toNat) := by
  have hmax : Int32.maxValue.toInt = 2 ^ 31 - 1 := rfl
  rw [callocSize, if_pos (by omega)]

theorem callocSize_max : callocSize (2 ^ 31 - 1) = none := rfl

theorem bufferRight_iff {calloc : UInt64 → Option (List UInt8)}
    (hcalloc : ∀ n : UInt64, n.toNat ≤ 2 ^ 31 → calloc n = some (List.replicate n.toNat 0))
    {size : Int} (hpos : 0 < size) (hmax : size ≤ 2 ^ 31 - 1) :
    BufferRight calloc size ↔ size ≠ 2 ^ 31 - 1 := by
  constructor
  · rintro ⟨request, msg, hrequest, -⟩ rfl
    rw [callocSize_max] at hrequest
    cases hrequest
  · intro hne
    have hlt : size < 2 ^ 31 - 1 := by omega
    have hsize := callocSize_of_lt hlt
    have hrequest : (UInt64.ofNat (size + 1).toNat).toNat = (size + 1).toNat :=
      UInt64.toNat_ofNat_of_lt' (by change _ < 2 ^ 64; omega)
    have hmsg := hcalloc (UInt64.ofNat (size + 1).toNat) (by omega)
    rw [hrequest] at hmsg
    have hlen : (UInt32.ofInt size).toNat = size.toNat := by
      have h := toNat_ofInt (n := size.toNat) (by omega)
      rwa [Int.toNat_of_nonneg (by omega)] at h
    have hguarded : ∀ l,
        (bodyLoop (List.replicate (size + 1).toNat 0) (UInt32.ofInt size)).Reachable l →
          l.Guarded (UInt32.ofInt size) := by
      refine fun l => BodyLoop.Guarded.of_reachable ?_
      rw [hlen]
      congr 1
      omega
    refine ⟨_, List.replicate (size + 1).toNat 0, hsize, by omega, ?_, ?_, ?_⟩
    · rw [callocBody, hsize]
      exact hmsg
    · intro l _ dest l' hstep
      have hinside := inside_of_step hstep
      rw [hlen] at hinside
      rwa [Int.toNat_of_nonneg (by omega)] at hinside
    · intro fuel s ret data s' hread
      obtain ⟨l, hl, rfl⟩ := acquireBody_reachable hread
      have hlength := (hguarded l hl).length
      exact ⟨by omega, (hguarded l hl).terminated⟩

/-- As an `int` the header is the size. -/
theorem bodySize_of_announces {rest : List UInt8} {s : Socket} {header : UInt32}
    (h : Announces rest s header) :
    (acquireBodySizeFromClient rest s).1 = header.toInt32.toInt := by
  obtain ⟨hcount, hvalue⟩ := h
  rw [acquireBodySizeFromClient]
  generalize s.recv 4 = r at hcount hvalue ⊢
  obtain ⟨count, bytes, s'⟩ := r
  dsimp only at hcount hvalue ⊢
  rw [if_neg (by omega), hvalue]

theorem toInt32_eq_max {header : UInt32} :
    header.toInt32.toInt = 2 ^ 31 - 1 ↔ header = 0x7FFFFFFF := by
  have hmax : (0x7FFFFFFF : UInt32).toInt32.toInt = 2 ^ 31 - 1 := rfl
  rw [← hmax, Int32.toInt_inj]
  constructor
  · intro h
    rw [← UInt32.toUInt32_toInt32 header, h, UInt32.toUInt32_toInt32]
  · intro h
    rw [h]

/-- The buffer is as long as the body needs for every size but the largest positive one. -/
theorem receive_buffer_iff (calloc : UInt64 → Option (List UInt8))
    (hcalloc : ∀ n : UInt64, n.toNat ≤ 2 ^ 31 → calloc n = some (List.replicate n.toNat 0))
    (header : UInt32) :
    (∀ rest s, Announces rest s header → 0 < (acquireBodySizeFromClient rest s).1 →
        BufferRight calloc (acquireBodySizeFromClient rest s).1) ↔
      header ≠ 0x7FFFFFFF := by
  have hmax : header.toInt32.toInt ≤ 2 ^ 31 - 1 := Int32.toInt_le _
  rw [ne_eq, ← toInt32_eq_max]
  constructor
  · intro h heq
    have hannounces : Announces unwritten ⟨htonl header, fun _ => .upTo 4 (by decide)⟩ header :=
      ⟨Int.natCast_nonneg _, ntohl_htonl header⟩
    have hright := h _ _ hannounces (by rw [bodySize_of_announces hannounces]; omega)
    rw [bodySize_of_announces hannounces] at hright
    exact (bufferRight_iff hcalloc (by omega) hmax).mp hright heq
  · intro hne rest s hannounces hpos
    rw [bodySize_of_announces hannounces] at hpos ⊢
    exact (bufferRight_iff hcalloc hpos hmax).mpr hne

/-- A `calloc` that has 2^31 bytes to give. -/
def callocUpTo (n : UInt64) : Option (List UInt8) :=
  if n.toNat ≤ 2 ^ 31 then some (List.replicate n.toNat 0) else none

theorem callocUpTo_of_le (n : UInt64) (h : n.toNat ≤ 2 ^ 31) :
    callocUpTo n = some (List.replicate n.toNat 0) := if_pos h

/-- A body of three bytes. -/
theorem receive_buffer_three :
    BufferRight callocUpTo
      (acquireBodySizeFromClient unwritten ⟨htonl 3, fun _ => .upTo 4 (by decide)⟩).1 :=
  (receive_buffer_iff callocUpTo callocUpTo_of_le 3).mpr (by decide) _ _
    ⟨by decide, ntohl_htonl 3⟩ (by decide)

/-- For the largest `int` there is no buffer. -/
theorem receive_buffer_max :
    ¬ ∀ (calloc : UInt64 → Option (List UInt8)),
      (∀ n : UInt64, n.toNat ≤ 2 ^ 31 → calloc n = some (List.replicate n.toNat 0)) →
      ∀ header rest s, Announces rest s header → 0 < (acquireBodySizeFromClient rest s).1 →
        BufferRight calloc (acquireBodySizeFromClient rest s).1 := by
  intro h
  obtain ⟨request, msg, hrequest, -⟩ := h callocUpTo callocUpTo_of_le 0x7FFFFFFF unwritten
    ⟨htonl 0x7FFFFFFF, fun _ => .upTo 4 (by decide)⟩ ⟨by decide, ntohl_htonl _⟩ (by decide)
  cases hrequest

end UhmiIviWm
