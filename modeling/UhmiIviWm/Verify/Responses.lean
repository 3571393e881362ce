import UhmiIviWm.Model.Responses
import UhmiIviWm.Verify.Framing

/-!
# The way of a response

The server puts a response into network order (`sent_eq_htonl`); the client takes the
bytes in the order of its machine. On a little-endian machine a response comes out
right where its bytes read the same in both directions (`response_iff`).
-/

namespace UhmiIviWm

/-- The four bytes of an integer read the same in both directions. -/
def Palindromic (value : UInt32) : Prop :=
  (value >>> 24).toUInt8 = value.toUInt8 ∧ (value >>> 16).toUInt8 = (value >>> 8).toUInt8

theorem ntohl_inj {a b c d a' b' c' d' : UInt8} :
    ntohl [a, b, c, d] = ntohl [a', b', c', d'] ↔ a = a' ∧ b = b' ∧ c = c' ∧ d = d' := by
  have ha := a.toNat_lt
  have hb := b.toNat_lt
  have hc := c.toNat_lt
  have hd := d.toNat_lt
  have ha' := a'.toNat_lt
  have hb' := b'.toNat_lt
  have hc' := c'.toNat_lt
  have hd' := d'.toNat_lt
  simp only [← UInt32.toNat_inj, toNat_ntohl, ← UInt8.toNat_inj]
  omega

theorem htonl_ntohl {bytes : List UInt8} (h : bytes.length = 4) : htonl (ntohl bytes) = bytes := by
  obtain ⟨a, b, c, d, rfl⟩ := List.length_eq_four.mp h
  obtain ⟨ha, hb, hc, hd⟩ := ntohl_inj.mp (ntohl_htonl (ntohl [a, b, c, d]))
  rw [htonl, ha, hb, hc, hd]

theorem ntohl_reverse_htonl {value : UInt32} :
    ntohl (htonl value).reverse = value ↔ Palindromic value := by
  calc ntohl (htonl value).reverse = value
      ↔ ntohl (htonl value).reverse = ntohl (htonl value) := by rw [ntohl_htonl]
    _ ↔ _ := ntohl_inj
    _ ↔ Palindromic value := by
      rw [Palindromic]
      constructor
      · rintro ⟨h0, h8, -, -⟩
        exact ⟨h0.symm, h8.symm⟩
      · rintro ⟨h0, h8⟩
        exact ⟨h0.symm, h8.symm, h8, h0⟩

namespace ByteOrder

variable (order : ByteOrder) (value : UInt32)

theorem length_store : (order.store value).length = 4 := by
  cases order with
  | little => rfl
  | big => rfl

theorem store_load {bytes : List UInt8} (h : bytes.length = 4) :
    order.store (order.load bytes) = bytes := by
  cases order with
  | little => rw [store, load, htonl_ntohl (by rw [List.length_reverse, h]), List.reverse_reverse]
  | big => rw [store, load, htonl_ntohl h]

/-- In memory the result of `htonl` is in network order. -/
theorem store_htonl : order.store (order.htonl value) = UhmiIviWm.htonl value :=
  order.store_load rfl

/-- What was stored in network order and is loaded in the order of the machine. -/
theorem load_htonl : order.load (UhmiIviWm.htonl value) = value ↔
    order = .big ∨ Palindromic value := by
  cases order with
  | little =>
    rw [load, ntohl_reverse_htonl]
    simp
  | big => simp [load, ntohl_htonl]

end ByteOrder

variable {order : ByteOrder} {res : Int32} {s : Socket} {more : List UInt8}

theorem sent_eq_htonl {room : Nat} (hroom : 4 ≤ room) :
    sendResponseToClient order res (some room) = (0, htonl res.toUInt32) := by
  have htake : (htonl res.toUInt32).take room = htonl res.toUInt32 := List.take_of_length_le hroom
  rw [sendResponseToClient, send]
  dsimp only
  rw [UInt32.toUInt32_toInt32, order.store_htonl, htake, if_neg (by omega)]

theorem recvResponse_of_whole {uninit : Int32} {bytes : List UInt8} (h : (s.arrivals 0).Whole)
    (hlength : bytes.length = 4) (hunread : s.unread = bytes ++ more) :
    recvResponseFromServer order uninit s = ((order.load bytes).toInt32, s.after 4) := by
  have hfilled : filled bytes (order.store uninit.toUInt32) = bytes := by
    rw [filled, hlength, List.drop_of_length_le (Nat.le_of_eq (order.length_store _)),
      List.append_nil]
  rw [recvResponseFromServer, (Socket.recv_header h hlength hunread).1]
  dsimp only
  rw [if_neg (by omega), hfilled]

/-- The client obtains the response on a big-endian machine, and elsewhere where the bytes of
the response read the same in both directions. -/
theorem response_iff (order : ByteOrder) (res uninit : Int32) (room : Nat) (hroom : 4 ≤ room)
    (s : Socket) (more : List UInt8) (harrival : (s.arrivals 0).Whole)
    (hunread : s.unread = (sendResponseToClient order res (some room)).2 ++ more) :
    (recvResponseFromServer order uninit s).1 = res ↔
      order = .big ∨ Palindromic res.toUInt32 := by
  rw [sent_eq_htonl hroom] at hunread
  have hrecv : (recvResponseFromServer order uninit s).1 =
      (order.load (htonl res.toUInt32)).toInt32 :=
    congrArg Prod.fst (recvResponse_of_whole harrival rfl hunread)
  rw [hrecv, ← order.load_htonl]
  constructor
  · intro h
    rw [← UInt32.toUInt32_toInt32 (order.load _), h]
  · intro h
    rw [h, Int32.toInt32_toUInt32]

/-- Failure, which is -1, comes out right. -/
theorem response_iff_failure :
    (recvResponseFromServer .little 0
      ⟨(sendResponseToClient .little (-1) (some 4)).2, fun _ => .upTo 4 (by decide)⟩).1 = -1 :=
  (response_iff .little (-1) 0 4 (Nat.le_refl 4) _ [] ⟨4, by decide, rfl, Nat.le_refl 4⟩
    (List.append_nil _).symm).mpr (.inr ⟨rfl, rfl⟩)

/-- One comes out as 2^24. -/
theorem response_reversed :
    ¬ ∀ (order : ByteOrder) (res uninit : Int32) (s : Socket), (s.arrivals 0).Whole →
      s.unread = (sendResponseToClient order res (some 4)).2 →
      (recvResponseFromServer order uninit s).1 = res := by
  intro h
  have hone := h .little 1 0
    ⟨(sendResponseToClient .little 1 (some 4)).2, fun _ => .upTo 4 (by decide)⟩
    ⟨4, by decide, rfl, Nat.le_refl 4⟩ rfl
  revert hone
  decide

end UhmiIviWm
