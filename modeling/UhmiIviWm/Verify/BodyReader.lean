import UhmiIviWm.Model.CommReceiver

/-!
# Reading the body of a command

`acquire_body_from_client` is right where the whole body arrives. It never
reports anything else: `len` is unsigned, so the test for a failed `recv` is
never met (`readBody_ret`), and at the end of the stream the loop makes no
progress (`readBody_endOfStream`).
-/

namespace UhmiIviWm

variable {size bytesRead : UInt32} {data msg : List UInt8} {s s' : Socket}

/-- `size` bytes come before the end of the stream and before a failing `recv`; they leave the
socket `s'`. -/
inductive Delivers : Nat → Socket → Socket → Prop
  | done (s : Socket) : Delivers 0 s s
  | more {size n : Nat} {pos : 0 < n} {s s' : Socket} (left : 0 < size)
    (arrival : s.arrivals 0 = .upTo n pos) (here : min n size ≤ s.unread.length)
    (rest : Delivers (size - min n size) (s.after (min n size)) s') : Delivers size s s'

/-- The body reader ends; it reports success exactly where the body is in the buffer, and
failure where the stream ended or a `recv` failed before that. -/
def BodyReadRight (size : UInt32) (msg : List UInt8) (s : Socket) : Prop :=
  ∃ fuel ret data s', acquireBodyFromClient fuel msg size s = some (ret, data, s') ∧
    (ret = 0 ↔ size.toNat ≤ s.unread.length ∧
      data.take size.toNat = s.unread.take size.toNat) ∧
    ((¬ ∃ s', Delivers size.toNat s s') → ret = -1)

theorem Socket.recv_of_upTo {n asked : Nat} {pos : 0 < n} (h : s.arrivals 0 = .upTo n pos)
    (hlength : min n asked ≤ s.unread.length) :
    s.recv asked =
      (((min n asked : Nat) : Int), s.unread.take (min n asked), s.after (min n asked)) := by
  have hbytes : (s.unread.take (min n asked)).length = min n asked := by
    rw [List.length_take]
    omega
  rw [Socket.recv, h]
  dsimp only
  rw [hbytes]

theorem length_writeAt {offset : Nat} {bytes : List UInt8}
    (h : offset + bytes.length ≤ data.length) : (writeAt data offset bytes).length = data.length := by
  simp only [writeAt, List.length_append, List.length_take, List.length_drop]
  omega

theorem take_writeAt {offset : Nat} {bytes : List UInt8}
    (h : offset + bytes.length ≤ data.length) :
    (writeAt data offset bytes).take (offset + bytes.length) = data.take offset ++ bytes := by
  rw [writeAt]
  refine List.take_left' ?_
  rw [List.length_append, List.length_take]
  omega

theorem toNat_ofInt {n : Nat} (h : n < 2 ^ 32) : (UInt32.ofInt (n : Int)).toNat = n := by
  have hmod : ((n : Int) % 2 ^ 32).toNat = n := by omega
  rw [UInt32.ofInt, hmod, UInt32.toNat_ofNat']
  exact Nat.mod_eq_of_lt h

theorem readBody_done (h : ¬ bytesRead < size) (fuel : Nat) (data : List UInt8) (s : Socket) :
    readBody size fuel data bytesRead s = some (0, data, s) := by
  cases fuel with
  | zero => rw [readBody, if_neg h]
  | succ fuel => rw [readBody, if_neg h]

/-- One round of the loop: the test for a failed `recv` is never met. -/
theorem readBody_succ (h : bytesRead < size) (fuel : Nat) (data : List UInt8) (s : Socket) :
    readBody size (fuel + 1) data bytesRead s =
      let (count, bytes, s) := s.recv (size - bytesRead).toNat
      readBody size fuel (writeAt data bytesRead.toNat bytes) (bytesRead + UInt32.ofInt count) s := by
  rw [readBody, if_pos h]
  exact if_neg UInt32.not_lt_zero

/-- Bytes that are delivered end up in the buffer, behind those already read. -/
theorem readBody_of_delivers {left : Nat} (h : Delivers left s s') (bytesRead : UInt32)
    (data : List UInt8) (hleft : bytesRead.toNat + left = size.toNat)
    (hdata : size.toNat ≤ data.length) :
    left ≤ s.unread.length ∧ s'.unread = s.unread.drop left ∧
      ∃ fuel data', readBody size fuel data bytesRead s = some (0, data', s') ∧
        data'.take size.toNat = data.take bytesRead.toNat ++ s.unread.take left := by
  induction h generalizing bytesRead data with
  | done s =>
    have hend : ¬ bytesRead < size := by
      rw [UInt32.lt_iff_toNat_lt]
      omega
    refine ⟨Nat.zero_le _, rfl, 0, data, ?_, ?_⟩
    · exact readBody_done hend 0 data s
    · rw [List.take_zero, List.append_nil, ← hleft, Nat.add_zero]
  | @more left n pos s s' hpos harrival hhere hrest ih =>
    have hlt : bytesRead < size := by
      rw [UInt32.lt_iff_toNat_lt]
      omega
    have hasked : (size - bytesRead).toNat = left := by
      rw [UInt32.toNat_sub_of_le _ _ (UInt32.le_iff_toNat_le.mpr (by omega))]
      omega
    have hsize : size.toNat < 2 ^ 32 := size.toNat_lt
    have hcount : (UInt32.ofInt ((min n left : Nat) : Int)).toNat = min n left :=
      toNat_ofInt (by omega)
    have hread : (bytesRead + UInt32.ofInt ((min n left : Nat) : Int)).toNat =
        bytesRead.toNat + min n left := by
      rw [UInt32.toNat_add, hcount]
      omega
    have htake : (s.unread.take (min n left)).length = min n left := by
      rw [List.length_take]
      omega
    have hwrite : bytesRead.toNat + (s.unread.take (min n left)).length ≤ data.length := by omega
    have hrecv := Socket.recv_of_upTo harrival hhere
    obtain ⟨hlength, hunread, fuel, data', hloop, hdata'⟩ :=
      ih (bytesRead + UInt32.ofInt ((min n left : Nat) : Int))
        (writeAt data bytesRead.toNat (s.unread.take (min n left))) (by omega)
        (by rw [length_writeAt hwrite]; exact hdata)
    have hafter : (s.after (min n left)).unread = s.unread.drop (min n left) := rfl
    rw [hafter, List.length_drop] at hlength
    refine ⟨by omega, ?_, fuel + 1, data', ?_, ?_⟩
    · rw [hunread, hafter, List.drop_drop]
      congr 1
      omega
    · rw [readBody_succ hlt, hasked, hrecv]
      exact hloop
    · have hsofar : (writeAt data bytesRead.toNat (s.unread.take (min n left))).take
          (bytesRead.toNat + min n left) =
            data.take bytesRead.toNat ++ s.unread.take (min n left) := by
        have h := take_writeAt hwrite
        rwa [htake] at h
      rw [hdata', hread, hsofar, hafter, List.append_assoc, ← List.take_add]
      congr 2
      omega

theorem readBody_ret {fuel : Nat} {ret : Int} {data' : List UInt8}
    (h : readBody size fuel data bytesRead s = some (ret, data', s')) : ret = 0 := by
  induction fuel generalizing data bytesRead s with
  | zero =>
    rw [readBody] at h
    split at h
    · cases h
    · cases h
      rfl
  | succ fuel ih =>
    by_cases hlt : bytesRead < size
    · rw [readBody_succ hlt] at h
      exact ih h
    · rw [readBody_done hlt] at h
      cases h
      rfl

/-- At the end of the stream the loop goes on for ever. -/
theorem readBody_endOfStream (s : Socket) (hunread : s.unread = [])
    (harrivals : ∀ n, s.arrivals n ≠ .failed) (hlt : bytesRead < size) (fuel : Nat)
    (data : List UInt8) : readBody size fuel data bytesRead s = none := by
  induction fuel generalizing data s with
  | zero => rw [readBody, if_pos hlt]
  | succ fuel ih =>
    obtain ⟨n, pos, harrival⟩ : ∃ n pos, s.arrivals 0 = .upTo n pos := by
      cases harrival : s.arrivals 0 with
      | upTo n pos => exact ⟨n, pos, rfl⟩
      | failed => exact absurd harrival (harrivals 0)
    have hrecv : s.recv (size - bytesRead).toNat = (0, [], s.after 0) := by
      rw [Socket.recv, harrival, hunread]
      dsimp only
      rw [List.take_nil]
      rfl
    have hzero : bytesRead + UInt32.ofInt 0 = bytesRead := UInt32.add_zero bytesRead
    rw [readBody_succ hlt, hrecv]
    dsimp only
    rw [hzero]
    exact ih _ (by rw [Socket.after, hunread]; rfl) (fun n => harrivals (n + 1)) _

/-- What does not arrive is never reported. -/
theorem delivers_of_bodyReadRight (h : BodyReadRight size msg s) :
    ∃ s', Delivers size.toNat s s' := by
  obtain ⟨fuel, ret, data, s', hread, -, hfailure⟩ := h
  have hret : ret = 0 := readBody_ret hread
  by_contra hnot
  have hneg : ret = -1 := hfailure hnot
  omega

/-- The body is read right just where the whole of it comes before the end of the stream and
before a failing `recv`. -/
theorem body_read_right (size : UInt32) (msg : List UInt8) (s : Socket)
    (hmsg : size.toNat ≤ msg.length) :
    BodyReadRight size msg s ↔ ∃ s', Delivers size.toNat s s' := by
  refine ⟨delivers_of_bodyReadRight, ?_⟩
  rintro ⟨s', hdelivers⟩
  obtain ⟨hlength, -, fuel, data, hread, hdata⟩ :=
    readBody_of_delivers hdelivers 0 msg (Nat.zero_add _) hmsg
  refine ⟨fuel, 0, data, s', hread, iff_of_true rfl ⟨hlength, ?_⟩, fun hnot => ?_⟩
  · exact hdata
  · exact absurd ⟨s', hdelivers⟩ hnot

/-- A body of two bytes that arrives one byte at a time. -/
theorem body_read_right_twoBytes :
    BodyReadRight 2 [0, 0, 0] ⟨[0x7B, 0], fun _ => .upTo 1 Nat.one_pos⟩ := by
  refine (body_read_right 2 [0, 0, 0] _ (by decide)).mpr ?_
  exact ⟨_, .more (by decide) rfl (by decide) (.more (by decide) rfl (by decide) (.done _))⟩

/-- A peer that has closed, everything it sent being read. -/
def closedSocket : Socket := ⟨[], fun _ => .upTo 1 Nat.one_pos⟩

theorem body_read_endless :
    ¬ ∀ size msg s, size.toNat ≤ msg.length → BodyReadRight size msg s := by
  intro h
  obtain ⟨fuel, ret, data, s', hread, -⟩ := h 1 [0, 0] closedSocket (by decide)
  have harrivals : ∀ n, closedSocket.arrivals n ≠ .failed := by
    intro n hn
    cases hn
  have hnone := readBody_endOfStream closedSocket rfl harrivals (by decide : (0 : UInt32) < 1) fuel
    [0, 0]
  exact nomatch hread.symm.trans hnone

end UhmiIviWm
