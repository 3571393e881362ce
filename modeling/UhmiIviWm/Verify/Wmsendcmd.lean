import UhmiIviWm.Model.Wmsendcmd
import UhmiIviWm.Verify.Dialogue

/-!
# What the client may conclude

`wmsendcmd` sends one frame. The magic code comes back to it exactly where the daemon
has handled the command, once, and then the response it prints is zero
(`report_truthful`); where nothing comes back, what it prints is what was in its memory.
-/

namespace UhmiIviWm

open Lib Lib.TransitionSystem

variable {σ : Type} {ilm : Ilm σ} {jsonLoads : List UInt8 → Option Json} {order : ByteOrder}
  {set : Setting σ} {l : MainLoop σ} {cmd : List UInt8} {s : Socket}

namespace Wmsendcmd

theorem sends_eq {room : Nat → Option Nat}
    (hroom : ∀ n, ∃ k, room n = some k ∧ cmd.length + 4 ≤ k) :
    sends order cmd room = encodeCommand cmd := by
  have hsent : ∀ n bytes, bytes.length ≤ cmd.length + 4 → (send bytes (room n)).2 = bytes := by
    intro n bytes hlength
    obtain ⟨k, hk, hle⟩ := hroom n
    rw [hk]
    exact List.take_of_length_le (hlength.trans hle)
  have hdata : ∀ bytes room, (sendDataToServer bytes room).2 = (send bytes room).2 := by
    intro bytes room
    rw [sendDataToServer]
    exact apply_ite Prod.snd _ _ _ |>.trans (ite_self _)
  have hsize : ∀ size room, (sendBodySizeToServer order size room).2 =
      (send (order.store (order.htonl size)) room).2 := by
    intro size room
    rw [sendBodySizeToServer]
    exact apply_ite Prod.snd _ _ _ |>.trans (ite_self _)
  have hmagic : magicCode.length = 4 := rfl
  rw [sends, hdata, hdata, hsize, hsent 0 _ (by omega), order.store_htonl,
    hsent 1 _ (by change 4 ≤ _; omega),
    hsent 2 _ (by rw [List.length_append, List.length_singleton]; omega), encodeCommand,
    List.append_assoc]

/-- Both answers are there. -/
theorem report_of_answered (hunread : s.unread = magicCode ++ htonl 0)
    (hwhole : ∀ n, (s.arrivals n).Whole) (res : Int32) : report order res s = ⟨true, 0⟩ := by
  obtain ⟨hrecv, hafter⟩ := Socket.recv_header (hwhole 0) rfl hunread
  have hresponse : recvResponseFromServer order res (s.after 4) =
      ((order.load (htonl 0)).toInt32, (s.after 4).after 4) :=
    recvResponse_of_whole (hwhole 1) rfl (hafter.trans (List.append_nil _).symm)
  have hzero : (order.load (htonl 0)).toInt32 = 0 := by
    rw [(order.load_htonl 0).mpr (.inr ⟨rfl, rfl⟩)]
    rfl
  rw [report, recvStrResponseFromServer, hrecv]
  dsimp only
  rw [if_neg (by omega), filled_header rfl rfl]
  dsimp only
  rw [hresponse, hzero]
  rfl

/-- The connection has ended without an answer. -/
theorem report_of_nothing (hunread : s.unread = []) (hwhole : ∀ n, (s.arrivals n).Whole)
    (res : Int32) : report order res s = ⟨false, res⟩ := by
  have hnothing : ∀ t : Socket, t.unread = [] → (t.arrivals 0).Whole →
      t.recv 4 = (0, [], t.after 0) := by
    rintro t ht ⟨n, pos, harrival, -⟩
    rw [Socket.recv, harrival, ht]
    dsimp only
    rw [List.take_nil]
    rfl
  have hempty : (s.after 0).unread = [] := by rw [Socket.after, hunread, List.drop_nil]
  have hload : order.load (order.store res.toUInt32) = res.toUInt32 := by
    cases order with
    | little => rw [ByteOrder.store, ByteOrder.load, List.reverse_reverse, ntohl_htonl]
    | big => rw [ByteOrder.store, ByteOrder.load, ntohl_htonl]
  rw [report, recvStrResponseFromServer, hnothing s hunread (hwhole 0)]
  dsimp only
  rw [if_neg (by omega), recvResponseFromServer, hnothing _ hempty (hwhole 1)]
  dsimp only
  rw [if_neg (by omega)]
  have hfilled : filled [] (order.store res.toUInt32) = order.store res.toUInt32 := rfl
  rw [hfilled, hload, Int32.toInt32_toUInt32]
  rfl

end Wmsendcmd

/-- Whatever other clients do: if `wmsendcmd` finds the magic code in the answer, its command
has been handled once and it prints zero; if it does not, the command has not been handled. -/
theorem report_truthful {fd : Nat}
    (h : (mainLoop ilm jsonLoads order set).Run (AtTurns fun n t s => n = fd → t.Orderly s) l)
    (hfd : fd < l.opened) (hcmd : IsCommand cmd) {room : Nat → Option Nat}
    (hroom : ∀ n, ∃ k, room n = some k ∧ cmd.length + 4 ≤ k)
    (hstream : (l.peers fd).stream = Wmsendcmd.sends order cmd room) {arrivals : Nat → Arrival}
    (hwhole : ∀ n, (arrivals n).Whole) (res : Int32) :
    l.commandsOf fd = (if (Wmsendcmd.report order res ⟨(l.peers fd).answers, arrivals⟩).magicRight
      then [cmd] else []) ∧
    ((Wmsendcmd.report order res ⟨(l.peers fd).answers, arrivals⟩).magicRight = true →
      (Wmsendcmd.report order res ⟨(l.peers fd).answers, arrivals⟩).res = 0) := by
  have hframe : (l.peers fd).stream = [cmd].flatMap encodeCommand := by
    rw [hstream, Wmsendcmd.sends_eq hroom, List.flatMap_singleton]
  obtain ⟨k, hk, hcommands, hanswers, -⟩ := (conversed_of_run h).frames hfd
    (fun x hx => by rwa [List.mem_singleton.mp hx]) hframe
  obtain rfl | rfl : k = 0 ∨ k = 1 := by
    rw [List.length_singleton] at hk
    omega
  · rw [hanswers, Wmsendcmd.report_of_nothing rfl hwhole, hcommands]
    exact ⟨rfl, nofun⟩
  · rw [hanswers, Wmsendcmd.report_of_answered (by simp) hwhole, hcommands]
    exact ⟨rfl, fun _ => rfl⟩

theorem report_truthful_twoServed : ∃ l : MainLoop Compositor, TwoServed l ∧
    (l.peers 1).stream = Wmsendcmd.sends .little [0x43] (fun _ => some 16) ∧
      (Wmsendcmd.report .little 7 ⟨(l.peers 1).answers, fun _ => .upTo 4 (by decide)⟩).magicRight =
        true := by
  obtain ⟨l, hrun, hserved⟩ := exists_twoServed
  have hsends : (l.peers 1).stream = Wmsendcmd.sends .little [0x43] (fun _ => some 16) := by
    rw [hserved.second]
    rfl
  have hcommands : l.commandsOf 1 = [[0x43]] := by
    rw [MainLoop.commandsOf, hserved.commands]
    rfl
  obtain ⟨htruthful, -⟩ := report_truthful (orderly_of_all hrun 1)
    (hserved.opened ▸ Nat.one_lt_succ_succ 1) (isCommand_byte (by decide))
    (fun _ => ⟨16, rfl, by decide⟩) hsends
    (fun _ => ⟨4, by decide, rfl, Nat.le_refl 4⟩ : ∀ n, (Arrival.upTo 4 (by decide)).Whole) 7
  refine ⟨l, hserved, hsends, ?_⟩
  by_contra hwrong
  rw [if_neg hwrong, hcommands] at htruthful
  cases htruthful

end UhmiIviWm
