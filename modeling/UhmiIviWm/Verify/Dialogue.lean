import UhmiIviWm.Verify.Sessions

/-!
# The dialogue with a client

A round reads something from the client and answers it (`Exchange`). Whatever the client
sends and however it arrives, it has been sent one answer for each round, and those
that report success are as many as its commands that were handled (`answers_match`).

Where headers arrive in one piece, the rounds are what the client has sent, cut at the
right places (`Dialogue`), so a client that sends frames has them handled in order,
each once, and each answered (`frames_answered`).
-/

namespace UhmiIviWm

open Lib Lib.TransitionSystem

variable {σ : Type} {ilm : Ilm σ} {jsonLoads : List UInt8 → Option Json} {order : ByteOrder}
  {set : Setting σ} {l l' : MainLoop σ} {s s' : Socket} {rest rest' : List UInt8}

/-- What becomes of a round. -/
inductive Exchange where
  /-- The magic code is wrong. -/
  | rejected
  /-- The size is not positive. -/
  | refused
  | served (cmd : List UInt8)

namespace Exchange

def answer : Exchange → List UInt8
  | .rejected => htonl (-1 : Int32).toUInt32
  | .refused => magicCode ++ htonl (-1 : Int32).toUInt32
  | .served _ => magicCode ++ htonl (0 : Int32).toUInt32

def command? : Exchange → Option (List UInt8)
  | .served cmd => some cmd
  | _ => none

end Exchange

/-! ## The answer to a round -/

theorem eq_magicCode_of_strncmpEqual {buffer : List UInt8} (hlength : buffer.length = 4)
    (h : strncmpEqual 4 buffer magicCode = true) : buffer = magicCode := by
  obtain ⟨a, b, c, d, rfl⟩ := List.length_eq_four.mp hlength
  simp only [strncmpEqual, magicCode, List.headD_cons, List.tail_cons, Bool.and_eq_true,
    Bool.or_eq_true, beq_iff_eq] at h
  obtain ⟨rfl, hb⟩ := h
  obtain ⟨rfl, hc⟩ := hb.resolve_left (by decide)
  obtain ⟨rfl, hd⟩ := hc.resolve_left (by decide)
  obtain ⟨rfl, -⟩ := hd.resolve_left (by decide)
  rfl

theorem length_filled {bytes : List UInt8} (hbytes : bytes.length ≤ 4) (hrest : rest.length = 4) :
    (filled bytes rest).length = 4 := by
  rw [filled, List.length_append, List.length_drop, hrest]
  omega

theorem Socket.length_recv_le (s : Socket) (asked : Nat) : (s.recv asked).2.1.length ≤ asked := by
  unfold Socket.recv
  split
  · exact Nat.zero_le _
  · rw [List.length_take]
    omega

theorem magicEcho_eq (hrest : rest.length = 4) {room : Nat} (hroom : 4 ≤ room) :
    magicEcho rest s (some room) =
      if (exchangeMagiccodeWithClient rest s).1 = 0 then magicCode else [] := by
  unfold magicEcho
  split
  · rename_i hright
    have hbuffer : filled (s.recv 4).2.1 rest = magicCode := by
      refine eq_magicCode_of_strncmpEqual (length_filled (s.length_recv_le 4) hrest) ?_
      by_contra hdiffers
      rw [Bool.not_eq_true] at hdiffers
      rw [exchangeMagiccodeWithClient] at hright
      dsimp only at hright
      rw [if_pos hdiffers, ite_self] at hright
      cases hright
    rw [hbuffer]
    exact List.take_of_length_le hroom
  · rfl

/-- How a round ends. -/
theorem receiveCommand_cases {fuel : Nat} {cmd : Option (List UInt8)}
    (h : receiveCommand fuel rest rest' s = some (cmd, s')) :
    ((exchangeMagiccodeWithClient rest s).1 ≠ 0 ∧ cmd = none ∧
      s' = (exchangeMagiccodeWithClient rest s).2) ∨
    ((exchangeMagiccodeWithClient rest s).1 = 0 ∧ ∃ size t,
      acquireBodySizeFromClient rest' (exchangeMagiccodeWithClient rest s).2 = (size, t) ∧
      ((¬ 0 < size ∧ cmd = none ∧ s' = t) ∨
        (0 < size ∧ ∃ ret msg, cmd = some (cString msg) ∧
          acquireBodyFromClient fuel (List.replicate (size.toNat + 1) 0) (UInt32.ofInt size) t =
            some (ret, msg, s')))) := by
  unfold receiveCommand at h
  cases hexchange : exchangeMagiccodeWithClient rest s with
  | mk ret u =>
    rw [hexchange] at h
    dsimp only at h
    split at h
    · rename_i hright
      cases hsize : acquireBodySizeFromClient rest' u with
      | mk size t =>
        rw [hsize] at h
        dsimp only at h
        refine .inr ⟨hright, size, t, rfl, ?_⟩
        split at h
        · rename_i hpos
          cases hbody : acquireBodyFromClient fuel (List.replicate (size.toNat + 1) 0)
              (UInt32.ofInt size) t with
          | none =>
            rw [hbody] at h
            cases h
          | some r =>
            obtain ⟨ret', msg, v⟩ := r
            rw [hbody] at h
            cases h
            exact .inr ⟨hpos, ret', msg, rfl, rfl⟩
        · rename_i hpos
          cases h
          exact .inl ⟨hpos, rfl, rfl⟩
    · rename_i hwrong
      cases h
      exact .inl ⟨hwrong, rfl, rfl⟩

/-- What is sent in a round with this outcome. -/
def answerOf (order : ByteOrder) (t : Turn) (s : Socket) (cmd : Option (List UInt8)) :
    List UInt8 :=
  magicEcho t.rest s t.room ++
    (sendResponseToClient order (if cmd.isSome then 0 else -1) t.room').2

theorem answerOf_eq {t : Turn} (hroomy : t.Roomy) (hrest : t.rest.length = 4)
    (cmd : Option (List UInt8)) :
    answerOf order t s cmd = (if (exchangeMagiccodeWithClient t.rest s).1 = 0 then magicCode
      else []) ++ htonl (if cmd.isSome then 0 else -1 : Int32).toUInt32 := by
  obtain ⟨⟨n, hn, hle⟩, m, hm, hle'⟩ := hroomy
  rw [answerOf, hn, hm, magicEcho_eq hrest hle, sent_eq_htonl hle']

theorem exists_round {t : Turn} (hroomy : t.Roomy) (hrest : t.rest.length = 4)
    {cmd : Option (List UInt8)}
    (h : receiveCommand t.fuel t.rest t.rest' s = some (cmd, s')) :
    ∃ round : Exchange, round.command? = cmd ∧ answerOf order t s cmd = round.answer := by
  rw [answerOf_eq hroomy hrest]
  rcases receiveCommand_cases h with ⟨hwrong, rfl, -⟩ | ⟨hright, size, u, -, hsize⟩
  · refine ⟨.rejected, rfl, ?_⟩
    rw [if_neg hwrong]
    rfl
  · rcases hsize with ⟨-, rfl, -⟩ | ⟨-, ret, msg, rfl, -⟩
    · refine ⟨.refused, rfl, ?_⟩
      rw [if_pos hright]
      rfl
    · refine ⟨.served (cString msg), rfl, ?_⟩
      rw [if_pos hright]
      rfl

/-! ## What a round has read -/

theorem drop_writeAt {data bytes : List UInt8} {offset size : Nat}
    (h : offset + bytes.length ≤ size) (hsize : size ≤ data.length) :
    (writeAt data offset bytes).drop size = data.drop size := by
  have htake : (data.take offset).length = offset := List.length_take_of_le (by omega)
  have hfront : (data.take offset ++ bytes).length = offset + bytes.length := by
    rw [List.length_append, htake]
  have hpast : offset + bytes.length + (size - (offset + bytes.length)) = size := by omega
  rw [writeAt, List.drop_append, List.drop_of_length_le (hfront.le.trans h), hfront,
    List.drop_drop, hpast, List.nil_append]

/-- A body that is read to its end has been delivered, and what lies behind it is as
it was. -/
theorem delivers_of_readBody {size bytesRead : UInt32} {fuel : Nat} {ret : Int}
    {data data' : List UInt8} (harrivals : ∀ n, s.arrivals n ≠ .failed)
    (hle : bytesRead.toNat ≤ size.toNat) (hdata : size.toNat ≤ data.length)
    (h : readBody size fuel data bytesRead s = some (ret, data', s')) :
    Delivers (size.toNat - bytesRead.toNat) s s' ∧
      data'.drop size.toNat = data.drop size.toNat := by
  induction fuel generalizing data bytesRead s with
  | zero =>
    rw [readBody] at h
    split at h
    · cases h
    · rename_i hend
      rw [UInt32.lt_iff_toNat_lt] at hend
      cases h
      have hzero : size.toNat - bytesRead.toNat = 0 := by omega
      rw [hzero]
      exact ⟨.done _, rfl⟩
  | succ fuel ih =>
    by_cases hlt : bytesRead < size
    · have hsize := size.toNat_lt
      have hasked : (size - bytesRead).toNat = size.toNat - bytesRead.toNat :=
        UInt32.toNat_sub_of_le _ _ (UInt32.le_iff_toNat_le.mpr hle)
      rw [UInt32.lt_iff_toNat_lt] at hlt
      obtain ⟨count, hcount, hhere, hrecv⟩ :=
        Socket.recv_of_ne_failed (harrivals 0) (size - bytesRead).toNat
      have hread : (bytesRead + UInt32.ofInt (count : Int)).toNat = bytesRead.toNat + count := by
        rw [UInt32.toNat_add, toNat_ofInt (by omega)]
        omega
      have hwritten : bytesRead.toNat + (s.unread.take count).length ≤ size.toNat := by
        rw [List.length_take_of_le hhere]
        omega
      rw [readBody_succ (UInt32.lt_iff_toNat_lt.mpr hlt), hrecv] at h
      dsimp only at h
      cases harrival : s.arrivals 0 with
      | failed => exact absurd harrival (harrivals 0)
      | upTo n pos =>
        by_cases hpiece : min n (size - bytesRead).toNat ≤ s.unread.length
        · have hsame := hrecv.symm.trans (Socket.recv_of_upTo harrival hpiece)
          have hpieceCount : count = min n (size - bytesRead).toNat :=
            Int.ofNat_inj.mp (congrArg Prod.fst hsame)
          obtain ⟨hdelivers, hdrop⟩ := ih (fun k => harrivals (k + 1)) (by omega)
            (by rw [length_writeAt (by omega)]; exact hdata) h
          rw [drop_writeAt hwritten hdata] at hdrop
          refine ⟨Delivers.more (by omega) harrival ?_ ?_, hdrop⟩
          · rw [← hasked]
            exact hpiece
          · rw [← hasked, ← hpieceCount]
            have hleft : (size - bytesRead).toNat - count =
                size.toNat - (bytesRead + UInt32.ofInt (count : Int)).toNat := by omega
            rw [hleft]
            exact hdelivers
        · -- the stream ends before the body does
          have hunread : (s.after count).unread = [] := by
            have hall : s.recv (size - bytesRead).toNat =
                ((s.unread.length : Int), s.unread, s.after s.unread.length) := by
              rw [Socket.recv, harrival]
              dsimp only
              rw [List.take_of_length_le (by omega)]
            have hsame := Int.ofNat_inj.mp (congrArg Prod.fst (hrecv.symm.trans hall))
            rw [Socket.after, hsame, List.drop_length]
          have hmore : bytesRead + UInt32.ofInt (count : Int) < size := by
            rw [UInt32.lt_iff_toNat_lt, hread]
            have hcountLe : count ≤ s.unread.length := hhere
            omega
          rw [readBody_endOfStream (s.after count) hunread (fun k => harrivals (k + 1)) hmore] at h
          cases h
    · rw [readBody_done hlt] at h
      rw [UInt32.lt_iff_toNat_lt] at hlt
      cases h
      have hzero : size.toNat - bytesRead.toNat = 0 := by omega
      rw [hzero]
      exact ⟨.done _, rfl⟩

theorem Socket.recv_whole (h : (s.arrivals 0).Whole) :
    (∃ header after, header.length = 4 ∧ s.unread = header ++ after ∧
      s.recv 4 = (4, header, s.after 4) ∧ (s.after 4).unread = after) ∨
    (s.unread.length < 4 ∧
      s.recv 4 = ((s.unread.length : Int), s.unread, s.after s.unread.length)) := by
  by_cases hlength : 4 ≤ s.unread.length
  · have hunread : s.unread = s.unread.take 4 ++ s.unread.drop 4 := (List.take_append_drop ..).symm
    have hheader : (s.unread.take 4).length = 4 := List.length_take_of_le hlength
    exact .inl ⟨_, _, hheader, hunread, Socket.recv_header h hheader hunread⟩
  · obtain ⟨n, pos, harrival, hn⟩ := h
    refine .inr ⟨by omega, ?_⟩
    rw [Socket.recv, harrival]
    dsimp only
    rw [List.take_of_length_le (by omega)]

theorem Socket.unread_after_all (s : Socket) : (s.after s.unread.length).unread = [] :=
  List.drop_length

theorem exchange_read (h : (s.arrivals 0).Whole) (hrest : rest.length = 4) :
    (∃ header after, header.length = 4 ∧ s.unread = header ++ after ∧
      exchangeMagiccodeWithClient rest s = (if header = magicCode then 0 else -1, s.after 4) ∧
      (s.after 4).unread = after) ∨
    (s.unread.length < 4 ∧
      (exchangeMagiccodeWithClient rest s).2 = s.after s.unread.length) := by
  rcases Socket.recv_whole h with ⟨header, after, hlength, hunread, hrecv, hafter⟩ | ⟨hshort, hrecv⟩
  · refine .inl ⟨header, after, hlength, hunread, ?_, hafter⟩
    rw [exchangeMagiccodeWithClient, hrecv]
    dsimp only
    rw [if_neg (by omega), filled_header hlength hrest]
    by_cases hmagic : header = magicCode
    · subst hmagic
      rfl
    · have hdiffers : strncmpEqual 4 header magicCode = false := by
        rw [← Bool.not_eq_true]
        exact fun hsame => hmagic (eq_magicCode_of_strncmpEqual hlength hsame)
      rw [if_pos hdiffers, if_neg hmagic]
  · refine .inr ⟨hshort, ?_⟩
    rw [exchangeMagiccodeWithClient, hrecv]
    dsimp only
    rw [if_neg (by omega)]
    split
    · rfl
    · rfl

theorem bodySize_read (h : (s.arrivals 0).Whole) (hrest : rest.length = 4) :
    (∃ size after, s.unread = htonl size ++ after ∧
      acquireBodySizeFromClient rest s = (size.toInt32.toInt, s.after 4) ∧
      (s.after 4).unread = after) ∨
    (s.unread.length < 4 ∧ ∃ size : Int32,
      acquireBodySizeFromClient rest s = (size.toInt, s.after s.unread.length)) := by
  rcases Socket.recv_whole h with ⟨header, after, hlength, hunread, hrecv, hafter⟩ | ⟨hshort, hrecv⟩
  · refine .inl ⟨ntohl header, after, ?_, ?_, hafter⟩
    · rw [htonl_ntohl hlength, hunread]
    · rw [acquireBodySizeFromClient, hrecv]
      dsimp only
      rw [if_neg (by omega), filled_header hlength hrest]
  · refine .inr ⟨hshort, (ntohl (filled s.unread rest)).toInt32, ?_⟩
    rw [acquireBodySizeFromClient, hrecv]
    dsimp only
    rw [if_neg (by omega)]

theorem toNat_ofInt_toInt {size : Int32} (h : 0 < size.toInt) :
    (UInt32.ofInt size.toInt).toNat = size.toInt.toNat := by
  have hlt := size.toInt_lt
  have hnat : size.toInt = (size.toInt.toNat : Int) := by omega
  rw [hnat, toNat_ofInt (by omega), Int.toNat_natCast]

namespace Exchange

/-- The bytes of a round. A body is a string up to its first zero. -/
inductive Sent : Exchange → List UInt8 → Prop
  | rejected {header : List UInt8} (length : header.length = 4) (differs : header ≠ magicCode) :
    Sent .rejected header
  | refused {size : UInt32} (small : size.toInt32.toInt ≤ 0) :
    Sent .refused (magicCode ++ htonl size)
  | served {size : UInt32} {body : List UInt8} (pos : 0 < size.toInt32.toInt)
    (length : body.length = size.toNat) :
    Sent (.served (cString body)) (magicCode ++ (htonl size ++ body))

/-- The bytes of a round in which the stream ends before the headers do. -/
inductive Cut : Exchange → List UInt8 → Prop
  | rejected {bytes : List UInt8} (short : bytes.length < 4) : Cut .rejected bytes
  | refused {bytes : List UInt8} (short : bytes.length < 8) : Cut .refused bytes

end Exchange

theorem cString_append_zero (buffer : List UInt8) : cString (buffer ++ [0]) = cString buffer := by
  induction buffer with
  | nil => rfl
  | cons byte rest ih =>
    unfold cString at ih ⊢
    rw [List.cons_append, List.takeWhile_cons, List.takeWhile_cons, ih]

/-- The body that is read where the whole of it has been sent. -/
theorem body_read {size : Int32} (hpos : 0 < size.toInt) (harrivals : ∀ n, s.arrivals n ≠ .failed)
    {fuel : Nat} {ret : Int} {msg : List UInt8}
    (h : acquireBodyFromClient fuel (List.replicate (size.toInt.toNat + 1) 0)
      (UInt32.ofInt size.toInt) s = some (ret, msg, s')) :
    ∃ body, body.length = size.toInt.toNat ∧ s.unread = body ++ s'.unread ∧
      cString msg = cString body := by
  have hsize := toNat_ofInt_toInt hpos
  have hdata : (UInt32.ofInt size.toInt).toNat ≤
      (List.replicate (size.toInt.toNat + 1) (0 : UInt8)).length := by
    rw [List.length_replicate, hsize]
    omega
  have hzero : (0 : UInt32).toNat = 0 := rfl
  obtain ⟨hdelivers, hdrop⟩ := delivers_of_readBody harrivals (Nat.zero_le _) hdata h
  rw [hzero, Nat.sub_zero] at hdelivers
  obtain ⟨hlength, hunread, fuel', msg', hread, htake⟩ :=
    readBody_of_delivers hdelivers 0 (List.replicate (size.toInt.toNat + 1) 0) (by omega) hdata
  cases readBody_unique h hread
  rw [hzero, List.take_zero, List.nil_append] at htake
  rw [hsize] at htake hlength hunread hdrop
  refine ⟨s.unread.take size.toInt.toNat, List.length_take_of_le hlength, ?_, ?_⟩
  · rw [hunread, List.take_append_drop]
  · have hmsg : msg = s.unread.take size.toInt.toNat ++ [0] := by
      rw [← List.take_append_drop size.toInt.toNat msg, htake, hdrop, List.drop_replicate,
        Nat.add_sub_cancel_left]
      rfl
    rw [hmsg, cString_append_zero]

/-- A body of which nothing is left in the stream is not read to its end. -/
theorem body_unread {size : Int32} (hpos : 0 < size.toInt) (hunread : s.unread = [])
    (harrivals : ∀ n, s.arrivals n ≠ .failed) (fuel : Nat) (msg : List UInt8) :
    acquireBodyFromClient fuel msg (UInt32.ofInt size.toInt) s = none := by
  refine readBody_endOfStream s hunread harrivals ?_ fuel msg
  rw [UInt32.lt_iff_toNat_lt, toNat_ofInt_toInt hpos]
  have hzero : (0 : UInt32).toNat = 0 := rfl
  omega

theorem toNat_toInt_toInt32 {size : UInt32} (h : 0 < size.toInt32.toInt) :
    size.toInt32.toInt.toNat = size.toNat := by
  have hlt := size.toNat_lt
  have hbmod : size.toInt32.toInt = (size.toNat : Int).bmod (2 ^ 32) :=
    BitVec.toInt_eq_toNat_bmod _
  rw [hbmod] at h ⊢
  rw [Int.bmod_def] at h ⊢
  omega

/-- What is read behind the magic code. -/
theorem exists_exchange_of_size (hwhole : (s.arrivals 0).Whole)
    (hbody : ∀ n, s.arrivals n ≠ .failed) (hrest' : rest'.length = 4) {size : Int} {u : Socket}
    {cmd : Option (List UInt8)} {fuel : Nat} (hsize : acquireBodySizeFromClient rest' s = (size, u))
    (hend : (¬ 0 < size ∧ cmd = none ∧ s' = u) ∨
      (0 < size ∧ ∃ ret msg, cmd = some (cString msg) ∧
        acquireBodyFromClient fuel (List.replicate (size.toNat + 1) 0) (UInt32.ofInt size) u =
          some (ret, msg, s'))) :
    ∃ e : Exchange, e.command? = cmd ∧ e ≠ .rejected ∧
      ((∃ bytes, e.Sent (magicCode ++ bytes) ∧ 4 ≤ bytes.length ∧ s.unread = bytes ++ s'.unread) ∨
        (e = .refused ∧ s.unread.length < 4 ∧ s'.unread = [])) := by
  rcases bodySize_read hwhole hrest' with
    ⟨value, after, hunread, hread, hafter⟩ | ⟨hshort, value, hread⟩
  · rw [hread] at hsize
    obtain ⟨rfl, rfl⟩ := Prod.mk.inj hsize
    rcases hend with ⟨hsmall, rfl, rfl⟩ | ⟨hpos, ret, msg, rfl, hbodyRead⟩
    · refine ⟨.refused, rfl, nofun, .inl ⟨htonl value, .refused (by omega), Nat.le_refl 4, ?_⟩⟩
      rw [hunread, hafter]
    · obtain ⟨body, hlength, hbodyUnread, hstring⟩ :=
        body_read hpos (fun n => hbody (n + 1)) hbodyRead
      refine ⟨.served (cString body), ?_, nofun,
        .inl ⟨htonl value ++ body, .served hpos ?_, ?_, ?_⟩⟩
      · rw [hstring]
        rfl
      · rw [hlength, toNat_toInt_toInt32 hpos]
      · rw [List.length_append]
        exact Nat.le_add_right 4 _
      · rw [hunread, ← hafter, hbodyUnread, List.append_assoc]
  · rw [hread] at hsize
    obtain ⟨rfl, rfl⟩ := Prod.mk.inj hsize
    rcases hend with ⟨-, rfl, rfl⟩ | ⟨hpos, ret, msg, -, hbodyRead⟩
    · exact ⟨.refused, rfl, nofun, .inr ⟨rfl, hshort, s.unread_after_all⟩⟩
    · rw [body_unread hpos s.unread_after_all fun n => hbody (n + 1)] at hbodyRead
      cases hbodyRead

/-- What is read in a round is one of the exchanges. -/
theorem exists_exchange (hs : s.Orderly) (hrest : rest.length = 4) (hrest' : rest'.length = 4)
    {fuel : Nat} {cmd : Option (List UInt8)}
    (h : receiveCommand fuel rest rest' s = some (cmd, s')) :
    ∃ e : Exchange, e.command? = cmd ∧
      ((exchangeMagiccodeWithClient rest s).1 = 0 ↔ e ≠ .rejected) ∧
      ((∃ bytes, e.Sent bytes ∧ s.unread = bytes ++ s'.unread) ∨
        (e.Cut s.unread ∧ s'.unread = [])) := by
  have hcases := receiveCommand_cases h
  rcases exchange_read hs.magic hrest with
    ⟨header, after, hlength, hunread, hexchange, hafter⟩ | ⟨hshort, hleft⟩
  · rw [hexchange] at hcases ⊢
    dsimp only at hcases ⊢
    by_cases hmagic : header = magicCode
    · subst hmagic
      rw [if_pos rfl] at hcases ⊢
      rcases hcases with ⟨hwrong, -⟩ | ⟨-, size, u, hsize, hend⟩
      · exact absurd rfl hwrong
      · obtain ⟨e, hcmd, hne, hread⟩ := exists_exchange_of_size (s := s.after 4) hs.size
          (fun n => hs.body (n + 1)) hrest' hsize hend
        refine ⟨e, hcmd, iff_of_true rfl hne, ?_⟩
        rw [hafter] at hread
        rcases hread with ⟨bytes, hsent, -, hbytes⟩ | ⟨rfl, hshort, hempty⟩
        · exact .inl ⟨_, hsent, by rw [hunread, hbytes, List.append_assoc]⟩
        · refine .inr ⟨.refused ?_, hempty⟩
          rw [hunread, List.length_append, hlength]
          omega
    · rw [if_neg hmagic] at hcases ⊢
      rcases hcases with ⟨-, rfl, rfl⟩ | ⟨hright, -⟩
      · refine ⟨.rejected, rfl, iff_of_false (by decide) (fun h => h rfl), .inl ⟨header, ?_, ?_⟩⟩
        · exact .rejected hlength hmagic
        · rw [hunread, hafter]
      · cases hright
  · have hempty : (s.after s.unread.length).unread = [] := s.unread_after_all
    rcases hcases with ⟨hwrong, rfl, rfl⟩ | ⟨hright, size, u, hsize, hend⟩
    · rw [← hleft] at hempty
      exact ⟨.rejected, rfl, iff_of_false hwrong (fun h => h rfl), .inr ⟨.rejected hshort, hempty⟩⟩
    · rw [hleft] at hsize
      obtain ⟨e, hcmd, hne, hread⟩ := exists_exchange_of_size (s := s.after s.unread.length)
        hs.size (fun n => hs.body (n + 1)) hrest' hsize hend
      refine ⟨e, hcmd, iff_of_true hright hne, ?_⟩
      rw [hempty] at hread
      rcases hread with ⟨bytes, -, hlong, hbytes⟩ | ⟨rfl, -, hnone⟩
      · have hnil : bytes = [] := (List.append_eq_nil_iff.mp hbytes.symm).1
        rw [hnil] at hlong
        cases hlong
      · exact .inr ⟨.refused (by omega), hnone⟩

/-! ## Conversations -/

/-- How a stream is read round by round, and what is left of it. -/
inductive Dialogue (stream : List UInt8) : List Exchange → List UInt8 → Prop
  | start : Dialogue stream [] stream
  | round {es : List Exchange} {e : Exchange} {bytes unread : List UInt8} :
    Dialogue stream es (bytes ++ unread) → e.Sent bytes → Dialogue stream (es ++ [e]) unread
  | cut {es : List Exchange} {e : Exchange} {bytes : List UInt8} :
    Dialogue stream es bytes → bytes ≠ [] → e.Cut bytes → Dialogue stream (es ++ [e]) []

/-- The client has been through rounds that `R` admits for what it sends and what is left
of it; it has been sent their answers, and their commands have been handled. -/
def Conversed (R : List UInt8 → List Exchange → List UInt8 → Prop) (fd : Nat) (l : MainLoop σ) :
    Prop :=
  l.InOrder ∧ (fd < l.opened → ∃ es, R (l.peers fd).stream es (l.peers fd).socket.unread ∧
    (l.peers fd).answers = es.flatMap Exchange.answer ∧
    l.commandsOf fd = es.filterMap Exchange.command?)

theorem commandsOf_eq_nil {fd : Nat} (h : fd ∉ l.commands.map (·.1)) : l.commandsOf fd = [] := by
  rw [MainLoop.commandsOf, List.map_eq_nil_iff, List.filter_eq_nil_iff]
  intro command hmem hsame
  exact h (List.mem_map.mpr ⟨command, hmem, by simpa using hsame⟩)

theorem commandsOf_append (log : List Handled) (fd n : Nat) (cmd : Option (List UInt8)) :
    (((log ++ cmd.toList.map (Handled.command fd)).filterMap Handled.command?).filter
      (·.1 == n)).map (·.2) =
    ((log.filterMap Handled.command?).filter (·.1 == n)).map (·.2) ++
      if fd = n then cmd.toList else [] := by
  rw [List.filterMap_append, List.filter_append, List.map_append]
  cases cmd with
  | none => simp
  | some msg =>
    by_cases hn : fd = n
    · simp [hn, Handled.command?]
    · simp [hn, Handled.command?]

section Rule

variable {R : List UInt8 → List Exchange → List UInt8 → Prop} {G : Nat → Turn → Socket → Prop}
  {n : Nat}

/-- One round of the client that is served, which need not be client `n`. -/
theorem Conversed.receive {t : Turn} {fd : Nat} (h : Conversed R n l) (hfd : l.acceptFd = some fd)
    (hround : fd = n → ∀ cmd s',
      receiveCommand t.fuel t.rest t.rest' (l.peers n).socket = some (cmd, s') →
      ∀ es, R (l.peers n).stream es (l.peers n).socket.unread →
        ∃ e : Exchange, e.command? = cmd ∧ answerOf order t (l.peers n).socket cmd = e.answer ∧
          R (l.peers n).stream (es ++ [e]) s'.unread)
    (hreceive : l.receive ilm jsonLoads order t = .ok (some l')) : Conversed R n l' := by
  refine ⟨h.1.receive hfd hreceive, fun hn => ?_⟩
  obtain ⟨cmd, socket, world, hcmd, -, rfl⟩ := MainLoop.receive_ok hfd hreceive
  obtain ⟨es, hR, hanswers, hcommands⟩ := h.2 hn
  have hlog := commandsOf_append l.log fd n cmd
  by_cases hne : n = fd
  · subst hne
    obtain ⟨e, hcommand, hanswer, hR'⟩ := hround rfl cmd socket hcmd es hR
    refine ⟨es ++ [e], ?_, ?_, ?_⟩
    · simpa only [MainLoop.setPeer_peers] using hR'
    · simp only [MainLoop.setPeer_peers, hanswers, List.flatMap_append, List.flatMap_singleton,
        ← hanswer, answerOf]
    · rw [MainLoop.commandsOf, MainLoop.commands, hlog, if_pos rfl, List.filterMap_append,
        ← hcommands]
      subst hcommand
      cases e <;> rfl
  · refine ⟨es, ?_, ?_, ?_⟩
    · simpa only [MainLoop.setPeer_peers_of_ne _ hne] using hR
    · simpa only [MainLoop.setPeer_peers_of_ne _ hne] using hanswers
    · rw [MainLoop.commandsOf, MainLoop.commands, hlog, if_neg (Ne.symm hne), List.append_nil]
      exact hcommands

variable (ilm jsonLoads n) in
theorem Conversed.keptBySteps (hstart : ∀ stream, R stream [] stream)
    (hround : ∀ t s s' cmd stream es, G n t s → t.rest.length = 4 → t.rest'.length = 4 →
      receiveCommand t.fuel t.rest t.rest' s = some (cmd, s') → R stream es s.unread →
        ∃ e : Exchange, e.command? = cmd ∧ answerOf order t s cmd = e.answer ∧
          R stream (es ++ [e]) s'.unread) :
    KeptBySteps ilm jsonLoads order G (Conversed (σ := σ) R n) where
  start l hopened hbacklog hfree hlog := by
    refine ⟨(MainLoop.InOrder.keptBySteps ilm jsonLoads order).start l hopened hbacklog hfree hlog,
      fun hn => ?_⟩
    rw [hopened] at hn
    cases hn
  record l world pipe log hlog h := by
    refine ⟨(MainLoop.InOrder.keptBySteps ilm jsonLoads order).record l world pipe log hlog h.1,
      fun hn => ?_⟩
    rw [MainLoop.commandsOf, MainLoop.commands, hlog]
    exact h.2 hn
  connect l s h := by
    refine ⟨h.1.connect s, fun hn => ?_⟩
    by_cases hne : n = l.opened
    · subst hne
      have hpeer : (l.connect s).peers l.opened = .connecting s := MainLoop.setPeer_peers _ _
      rw [hpeer]
      refine ⟨[], hstart s.unread, rfl, commandsOf_eq_nil fun hmem => ?_⟩
      exact absurd (h.1.before _ hmem).1 (Nat.lt_irrefl _)
    · have hpeer : (l.connect s).peers n = l.peers n := MainLoop.setPeer_peers_of_ne _ hne
      rw [hpeer]
      exact h.2 (Nat.lt_of_le_of_ne (Nat.le_of_lt_succ hn) hne)
  accept l hfree h := ⟨h.1.accept hfree, h.2⟩
  close l h := ⟨h.1.close, h.2⟩
  receive l l' t fd hfd hrest hrest' hG hreceive h := by
    refine h.receive hfd (fun hn cmd s' hcmd es hR => ?_) hreceive
    subst hn
    exact hround t _ s' cmd _ es hG hrest hrest' hcmd hR

end Rule

/-- However its bytes arrive, a client to which there is always room to send has been sent
whole answers, one for each round. -/
theorem answers_match {fd : Nat}
    (h : (mainLoop ilm jsonLoads order set).Run (AtTurns fun n t _ => n = fd → t.Roomy) l)
    (hfd : fd < l.opened) :
    ∃ es : List Exchange, (l.peers fd).answers = es.flatMap Exchange.answer ∧
      l.commandsOf fd = es.filterMap Exchange.command? := by
  have hkept : KeptBySteps ilm jsonLoads order (fun n t _ => n = fd → t.Roomy)
      (Conversed (σ := σ) (fun _ _ _ => True) fd) :=
    Conversed.keptBySteps ilm jsonLoads fd (fun _ => trivial)
      fun t s s' cmd stream es hroomy hrest _ hcmd _ => by
        obtain ⟨e, hcommand, hanswer⟩ := exists_round (hroomy rfl) hrest hcmd
        exact ⟨e, hcommand, hanswer, trivial⟩
  obtain ⟨es, -, hanswers, hcommands⟩ := (hkept.run h).2 hfd
  exact ⟨es, hanswers, hcommands⟩

theorem answers_match_twoServed : ∃ (l : MainLoop Compositor) (es : List Exchange), TwoServed l ∧
    (l.peers 1).answers = es.flatMap Exchange.answer ∧
      l.commandsOf 1 = es.filterMap Exchange.command? := by
  obtain ⟨l, hrun, hserved⟩ := exists_twoServed
  have hroomy : sharedScreen.Run (AtTurns fun n t _ => n = 1 → t.Roomy) l := by
    refine hrun.mono (AtTurns.mono ?_)
    exact fun _ _ _ horderly _ => horderly.1
  obtain ⟨es, hanswers, hes⟩ := answers_match hroomy (hserved.opened ▸ Nat.one_lt_succ_succ 1)
  exact ⟨l, es, hserved, hanswers, hes⟩

variable (ilm jsonLoads order) in
theorem Conversed.dialogue (fd : Nat) : KeptBySteps ilm jsonLoads order
    (fun n t s => n = fd → t.Orderly s) (Conversed (σ := σ) Dialogue fd) := by
  refine Conversed.keptBySteps ilm jsonLoads fd (fun stream => .start) ?_
  intro t s s' cmd stream es horderly hrest hrest' hcmd hdialogue
  obtain ⟨hroomy, hs⟩ := horderly rfl
  obtain ⟨e, rfl, hright, hread⟩ := exists_exchange hs hrest hrest' hcmd
  refine ⟨e, rfl, ?_, ?_⟩
  · rw [answerOf_eq hroomy hrest]
    cases e with
    | rejected => rw [if_neg fun h => hright.mp h rfl]; rfl
    | refused => rw [if_pos (hright.mpr nofun)]; rfl
    | served cmd => rw [if_pos (hright.mpr nofun)]; rfl
  · rcases hread with ⟨bytes, hsent, hbytes⟩ | ⟨hcut, hempty⟩
    · rw [hbytes] at hdialogue
      exact hdialogue.round hsent
    · rw [hempty]
      exact hdialogue.cut hs.here hcut

theorem conversed_of_run {fd : Nat}
    (h : (mainLoop ilm jsonLoads order set).Run (AtTurns fun n t s => n = fd → t.Orderly s) l) :
    Conversed Dialogue fd l :=
  (Conversed.dialogue ilm jsonLoads order fd).run h

/-- What an orderly client has sent and was read is cut into rounds without a gap; it has
been sent their answers, and their commands have been handled. How the other clients send
does not matter. -/
theorem dialogue_followed {fd : Nat}
    (h : (mainLoop ilm jsonLoads order set).Run (AtTurns fun n t s => n = fd → t.Orderly s) l)
    (hfd : fd < l.opened) :
    ∃ es, Dialogue (l.peers fd).stream es (l.peers fd).socket.unread ∧
      (l.peers fd).answers = es.flatMap Exchange.answer ∧
      l.commandsOf fd = es.filterMap Exchange.command? :=
  (conversed_of_run h).2 hfd

theorem dialogue_followed_twoServed : ∃ (l : MainLoop Compositor) (es : List Exchange),
    TwoServed l ∧ Dialogue (l.peers 0).stream es (l.peers 0).socket.unread ∧
      (l.peers 0).answers = es.flatMap Exchange.answer ∧
      l.commandsOf 0 = es.filterMap Exchange.command? := by
  obtain ⟨l, hrun, hserved⟩ := exists_twoServed
  obtain ⟨es, hdialogue, hanswers, hcommands⟩ :=
    dialogue_followed (orderly_of_all hrun 0) (hserved.opened ▸ Nat.zero_lt_succ 2)
  exact ⟨l, es, hserved, hdialogue, hanswers, hcommands⟩

/-! ## Clients that send frames -/

theorem magicCode_of_append {cmd more bytes : List UInt8} {after : List UInt8}
    (hlength : bytes.length = 4) (h : bytes ++ after = encodeCommand cmd ++ more) :
    bytes = magicCode ∧
      after = htonl (UInt32.ofNat (cmd.length + 1)) ++ ((cmd ++ [0]) ++ more) := by
  rw [encodeCommand, List.append_assoc, List.append_assoc] at h
  exact List.append_inj h hlength

theorem htonl_inj {size size' : UInt32} (h : htonl size = htonl size') : size = size' := by
  rw [← ntohl_htonl size, h, ntohl_htonl]

/-- A round that begins with a frame serves it. -/
theorem Exchange.Sent.of_frame {e : Exchange} {bytes after cmd more : List UInt8}
    (h : e.Sent bytes) (hcmd : IsCommand cmd)
    (hbytes : bytes ++ after = encodeCommand cmd ++ more) :
    e = .served cmd ∧ after = more := by
  have hcmdLength := hcmd.length
  have hnat : (UInt32.ofNat (cmd.length + 1)).toNat = cmd.length + 1 :=
    UInt32.toNat_ofNat_of_lt' (by change _ < 2 ^ 32; omega)
  cases h with
  | rejected hlength hdiffers => exact absurd (magicCode_of_append hlength hbytes).1 hdiffers
  | @refused size hsmall =>
    rw [List.append_assoc] at hbytes
    obtain ⟨-, hrest⟩ := magicCode_of_append rfl hbytes
    obtain rfl := htonl_inj (List.append_inj hrest rfl).1
    rw [toInt_toInt32 (by omega), hnat] at hsmall
    omega
  | @served size body hpos hlength =>
    rw [List.append_assoc, List.append_assoc] at hbytes
    obtain ⟨-, hrest⟩ := magicCode_of_append rfl hbytes
    obtain ⟨hsize, hbody⟩ := List.append_inj hrest rfl
    obtain rfl := htonl_inj hsize
    have hbodyLength : body.length = (cmd ++ [0]).length := by
      rw [hlength, hnat, List.length_append]
      rfl
    obtain ⟨rfl, rfl⟩ := List.append_inj hbody hbodyLength
    refine ⟨?_, rfl⟩
    rw [cString_append_zero, cString, List.takeWhile_eq_self_iff.mpr]
    intro byte hbyte
    simpa using hcmd.string byte hbyte

/-- A stream of frames is read frame by frame. -/
theorem Dialogue.of_frames {cmds : List (List UInt8)} (hcmds : ∀ cmd ∈ cmds, IsCommand cmd)
    {es : List Exchange} {unread : List UInt8}
    (h : Dialogue (cmds.flatMap encodeCommand) es unread) :
    ∃ k ≤ cmds.length, es = (cmds.take k).map .served ∧
      unread = (cmds.drop k).flatMap encodeCommand := by
  induction h with
  | start => exact ⟨0, Nat.zero_le _, rfl, rfl⟩
  | @round es e bytes unread _ hsent ih =>
    obtain ⟨k, hk, rfl, hunread⟩ := ih
    cases hdrop : cmds.drop k with
    | nil =>
      rw [hdrop] at hunread
      have hnil : bytes = [] := (List.append_eq_nil_iff.mp hunread).1
      subst hnil
      cases hsent
      contradiction
    | cons cmd more =>
      have hmem : cmd ∈ cmds := List.mem_of_mem_drop (hdrop ▸ List.mem_cons_self)
      have hlt : k < cmds.length := by
        by_contra hge
        rw [List.drop_of_length_le (by omega)] at hdrop
        cases hdrop
      rw [hdrop, List.flatMap_cons] at hunread
      obtain ⟨rfl, rfl⟩ := hsent.of_frame (hcmds cmd hmem) hunread
      have hget : cmds[k] = cmd ∧ cmds.drop (k + 1) = more := by
        rw [List.drop_eq_getElem_cons hlt] at hdrop
        exact List.cons.inj hdrop
      refine ⟨k + 1, hlt, ?_, ?_⟩
      · rw [List.take_succ_eq_append_getElem hlt, List.map_append, hget.1]
        rfl
      · rw [hget.2]
  | @cut es e bytes _ hbytes hcut ih =>
    obtain ⟨k, hk, rfl, hunread⟩ := ih
    cases hdrop : cmds.drop k with
    | nil =>
      rw [hdrop] at hunread
      exact absurd hunread hbytes
    | cons cmd more =>
      rw [hdrop, List.flatMap_cons] at hunread
      have hlong : 9 ≤ bytes.length := by
        rw [hunread, List.length_append, length_encodeCommand]
        omega
      cases hcut with
      | rejected hshort => omega
      | refused hshort => omega

/-- A client that sends commands has the first few of them handled, in order and each once,
each is answered, and the rest is still unread. -/
theorem Conversed.frames {fd : Nat} (h : Conversed Dialogue fd l) (hfd : fd < l.opened)
    {cmds : List (List UInt8)} (hcmds : ∀ cmd ∈ cmds, IsCommand cmd)
    (hstream : (l.peers fd).stream = cmds.flatMap encodeCommand) :
    ∃ k ≤ cmds.length, l.commandsOf fd = cmds.take k ∧
      (l.peers fd).answers = (List.replicate k (magicCode ++ htonl 0)).flatten ∧
      (l.peers fd).socket.unread = (cmds.drop k).flatMap encodeCommand := by
  obtain ⟨es, hdialogue, hanswers, hcommands⟩ := h.2 hfd
  rw [hstream] at hdialogue
  obtain ⟨k, hk, rfl, hunread⟩ := hdialogue.of_frames hcmds
  refine ⟨k, hk, ?_, ?_, hunread⟩
  · rw [hcommands, List.filterMap_map]
    exact List.filterMap_some
  · have hsame : (cmds.take k).map (fun cmd => (Exchange.served cmd).answer) =
        List.replicate (cmds.take k).length (magicCode ++ htonl 0) := List.map_const' ..
    rw [hanswers, List.flatMap_map, List.flatMap_def, hsame, List.length_take_of_le hk]

/-- A client that sends framed commands, each header in one piece, has had the first few of
them handled in order, one magic code and one zero sent for each, and the frames of the
rest are unread. -/
theorem frames_answered {fd : Nat}
    (h : (mainLoop ilm jsonLoads order set).Run (AtTurns fun n t s => n = fd → t.Orderly s) l)
    (hfd : fd < l.opened) {cmds : List (List UInt8)} (hcmds : ∀ cmd ∈ cmds, IsCommand cmd)
    (hstream : (l.peers fd).stream = cmds.flatMap encodeCommand) :
    ∃ k ≤ cmds.length, l.commandsOf fd = cmds.take k ∧
      (l.peers fd).answers = (List.replicate k (magicCode ++ htonl 0)).flatten ∧
      (l.peers fd).socket.unread = (cmds.drop k).flatMap encodeCommand :=
  (conversed_of_run h).frames hfd hcmds hstream

theorem frames_answered_twoServed : ∃ (l : MainLoop Compositor) (k : Nat), TwoServed l ∧
    l.commandsOf 0 = [[0x41], [0x42]].take k ∧
      (l.peers 0).answers = (List.replicate k (magicCode ++ htonl 0)).flatten ∧
      (l.peers 0).socket.unread = ([[0x41], [0x42]].drop k).flatMap encodeCommand := by
  obtain ⟨l, hrun, hserved⟩ := exists_twoServed
  have hcmds : ∀ cmd ∈ ([[0x41], [0x42]] : List (List UInt8)), IsCommand cmd := by
    simp only [List.forall_mem_cons]
    exact ⟨isCommand_byte (by decide), isCommand_byte (by decide), nofun⟩
  have hfd : 0 < l.opened := hserved.opened ▸ Nat.zero_lt_succ 2
  obtain ⟨k, -, hcommands, hanswers, hunread⟩ :=
    frames_answered (orderly_of_all hrun 0) hfd hcmds hserved.first
  exact ⟨l, k, hserved, hcommands, hanswers, hunread⟩

end UhmiIviWm
