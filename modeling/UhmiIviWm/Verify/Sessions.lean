import UhmiIviWm.Verify.MainLoop

/-!
# One client after the other

Clients are numbered in the order in which they connect. They are accepted in this
order, and the commands of one client are all handled before the first one of the next
(`sessions_in_order`): a client that waits has been neither read nor answered.
-/

namespace UhmiIviWm

open Lib Lib.TransitionSystem

variable {σ : Type} {ilm : Ilm σ} {jsonLoads : List UInt8 → Option Json} {order : ByteOrder}
  {set : Setting σ} {l l' : MainLoop σ}

namespace MainLoop

/-- The clients not done with: the one being served and those that wait. -/
def waiting (l : MainLoop σ) : List Nat := l.acceptFd.toList ++ l.backlog

/-- Nothing has been read from the client, and nothing sent to it. -/
def Untouched (l : MainLoop σ) (fd : Nat) : Prop :=
  (l.peers fd).socket.unread = (l.peers fd).stream ∧ (l.peers fd).answers = [] ∧
    fd ∉ l.commands.map (·.1)

/-- Clients are served in the order of their numbers. -/
structure InOrder (l : MainLoop σ) : Prop where
  commands : (l.commands.map (·.1)).Pairwise (· ≤ ·)
  before : ∀ fd ∈ l.commands.map (·.1), fd < l.opened ∧ ∀ fd' ∈ l.waiting, fd ≤ fd'
  waiting : l.waiting.Pairwise (· < ·)
  opened : ∀ fd ∈ l.waiting, fd < l.opened
  untouched : ∀ fd ∈ l.backlog, l.Untouched fd

theorem setPeer_peers (fd : Nat) (peer : Peer) : (l.setPeer fd peer).peers fd = peer := if_pos rfl

theorem setPeer_peers_of_ne {fd n : Nat} (peer : Peer) (h : n ≠ fd) :
    (l.setPeer fd peer).peers n = l.peers n := if_neg h

namespace InOrder

theorem connect (h : InOrder l) (s : Socket) : InOrder (l.connect s) := by
  have hwaiting : (l.connect s).waiting = l.waiting ++ [l.opened] := (List.append_assoc ..).symm
  refine ⟨h.commands, fun fd hfd => ?_, ?_, fun fd hfd => ?_, fun fd hfd => ?_⟩
  · obtain ⟨hlt, hle⟩ := h.before fd hfd
    refine ⟨Nat.lt_succ_of_lt hlt, fun fd' hfd' => ?_⟩
    rw [hwaiting] at hfd'
    rcases List.mem_append.mp hfd' with hfd' | hfd'
    · exact hle fd' hfd'
    · rw [List.mem_singleton.mp hfd']
      exact Nat.le_of_lt hlt
  · rw [hwaiting, List.pairwise_append]
    refine ⟨h.waiting, List.pairwise_singleton _ _, fun fd hfd fd' hfd' => ?_⟩
    rw [List.mem_singleton.mp hfd']
    exact h.opened fd hfd
  · rw [hwaiting] at hfd
    rcases List.mem_append.mp hfd with hfd | hfd
    · exact Nat.lt_succ_of_lt (h.opened fd hfd)
    · rw [List.mem_singleton.mp hfd]
      exact Nat.lt_succ_self _
  · rcases List.mem_append.mp hfd with hfd | hfd
    · have hne : fd ≠ l.opened := Nat.ne_of_lt (h.opened fd (List.mem_append_right _ hfd))
      have hpeer : (l.connect s).peers fd = l.peers fd := setPeer_peers_of_ne _ hne
      unfold Untouched
      rw [hpeer]
      exact h.untouched fd hfd
    · rw [List.mem_singleton.mp hfd]
      have hpeer : (l.connect s).peers l.opened = .connecting s := setPeer_peers _ _
      unfold Untouched
      rw [hpeer]
      refine ⟨rfl, rfl, fun hmem => ?_⟩
      exact absurd (h.before _ hmem).1 (Nat.lt_irrefl _)

theorem accept (h : InOrder l) (hfree : l.acceptFd = none) :
    InOrder { l with acceptFd := l.backlog.head?, backlog := l.backlog.tail } := by
  have hwaiting : (l.backlog.head?.toList ++ l.backlog.tail) = l.waiting := by
    rw [MainLoop.waiting, hfree]
    cases l.backlog <;> rfl
  refine ⟨h.commands, ?_, ?_, ?_, fun fd hfd => h.untouched fd (List.mem_of_mem_tail hfd)⟩
  · rw [MainLoop.waiting, hwaiting]
    exact h.before
  · rw [MainLoop.waiting, hwaiting]
    exact h.waiting
  · rw [MainLoop.waiting, hwaiting]
    exact h.opened

theorem close (h : InOrder l) : InOrder l.close := by
  have hsub : ∀ fd ∈ l.backlog, fd ∈ l.waiting := fun fd => List.mem_append_right _
  refine ⟨h.commands, fun fd hfd => ?_, ?_, fun fd hfd => h.opened fd (hsub fd hfd), h.untouched⟩
  · obtain ⟨hlt, hle⟩ := h.before fd hfd
    exact ⟨hlt, fun fd' hfd' => hle fd' (hsub fd' hfd')⟩
  · exact (List.pairwise_append.mp h.waiting).2.1

/-- The client that is served comes before those that wait and after those served before. -/
theorem receive (h : InOrder l) {fd : Nat} (hfd : l.acceptFd = some fd) {t : Turn}
    (hreceive : l.receive ilm jsonLoads order t = .ok (some l')) : InOrder l' := by
  obtain ⟨cmd, socket, world, -, -, rfl⟩ := receive_ok hfd hreceive
  have hserved : fd ∈ l.waiting := by
    rw [MainLoop.waiting, hfd]
    exact List.mem_cons_self
  have hlater : ∀ fd' ∈ l.waiting, fd ≤ fd' := by
    intro fd' hfd'
    have hwaiting := h.waiting
    rw [MainLoop.waiting, hfd, Option.toList_some, List.singleton_append] at hwaiting hfd'
    rcases List.mem_cons.mp hfd' with rfl | hfd'
    · exact Nat.le_refl _
    · exact Nat.le_of_lt ((List.pairwise_cons.mp hwaiting).1 fd' hfd')
  have hnew : ∀ n ∈ ((cmd.toList.map (Handled.command fd)).filterMap Handled.command?).map (·.1),
      n = fd := by
    intro n hn
    cases cmd with
    | none => cases hn
    | some msg => exact List.mem_singleton.mp hn
  have hcommands : ∀ n ∈ (l.log ++ cmd.toList.map (Handled.command fd)).filterMap
      Handled.command? |>.map (·.1), n ∈ l.commands.map (·.1) ∨ n = fd := by
    intro n hn
    rw [List.filterMap_append, List.map_append] at hn
    exact (List.mem_append.mp hn).imp_right (hnew n)
  refine ⟨?_, fun n hn => ?_, h.waiting, h.opened, fun n hn => ?_⟩
  · rw [MainLoop.commands, List.filterMap_append, List.map_append, List.pairwise_append]
    refine ⟨h.commands, ?_, fun n hn m hm => ?_⟩
    · cases cmd with
      | none => exact .nil
      | some msg => exact List.pairwise_singleton _ _
    · rw [hnew m hm]
      exact (h.before n hn).2 fd hserved
  · rcases hcommands n hn with hn | rfl
    · exact h.before n hn
    · exact ⟨h.opened n hserved, hlater⟩
  · have hne : n ≠ fd := by
      rintro rfl
      have hwaiting := h.waiting
      rw [MainLoop.waiting, hfd, Option.toList_some, List.singleton_append] at hwaiting
      exact absurd ((List.pairwise_cons.mp hwaiting).1 n hn) (Nat.lt_irrefl n)
    obtain ⟨hunread, hanswers, hnot⟩ := h.untouched n hn
    refine ⟨?_, ?_, fun hmem => ?_⟩
    · simpa only [setPeer_peers_of_ne _ hne] using hunread
    · simpa only [setPeer_peers_of_ne _ hne] using hanswers
    · exact (hcommands n hmem).elim hnot hne

variable (ilm jsonLoads order) in
theorem keptBySteps : KeptBySteps ilm jsonLoads order (fun _ _ _ => True) (InOrder (σ := σ)) where
  start l _ hbacklog hfree hlog := by
    have hcommands : l.commands = [] := by
      rw [MainLoop.commands, hlog]
      rfl
    have hwaiting : l.waiting = [] := by
      rw [MainLoop.waiting, hfree, hbacklog]
      rfl
    refine ⟨?_, ?_, ?_, ?_, ?_⟩
    · rw [hcommands]
      exact .nil
    · rw [hcommands]
      nofun
    · rw [hwaiting]
      exact .nil
    · rw [hwaiting]
      nofun
    · rw [hbacklog]
      nofun
  record l world pipe log hlog h := by
    refine ⟨?_, ?_, h.waiting, h.opened, fun fd hfd => ?_⟩
    · rw [MainLoop.commands, hlog]
      exact h.commands
    · rw [MainLoop.commands, hlog]
      exact h.before
    · unfold Untouched
      rw [MainLoop.commands, hlog]
      exact h.untouched fd hfd
  connect l s h := h.connect s
  accept l hfree h := h.accept hfree
  close l h := h.close
  receive l l' t fd hfd _ _ _ hreceive h := h.receive hfd hreceive

end InOrder

end MainLoop

/-- The commands of one client come before those of the next, and a client that waits to be
accepted has been neither read nor answered. -/
theorem sessions_in_order (h : (mainLoop ilm jsonLoads order set).Reachable l) :
    (l.commands.map (·.1)).Pairwise (· ≤ ·) ∧ l.waiting.Pairwise (· < ·) ∧
      ∀ fd ∈ l.backlog, l.Untouched fd := by
  have hinOrder := (MainLoop.InOrder.keptBySteps ilm jsonLoads order).reachable h
  exact ⟨hinOrder.commands, hinOrder.waiting, hinOrder.untouched⟩

theorem sessions_in_order_twoServed : ∃ l : MainLoop Compositor, TwoServed l ∧
    (l.commands.map (·.1)).Pairwise (· ≤ ·) ∧ l.waiting.Pairwise (· < ·) ∧ l.Untouched 2 := by
  obtain ⟨l, hrun, hserved⟩ := exists_twoServed
  obtain ⟨hsorted, hwaiting, huntouched⟩ := sessions_in_order hrun.reachable
  refine ⟨l, hserved, hsorted, hwaiting, huntouched 2 ?_⟩
  rw [hserved.backlog]
  exact List.mem_singleton_self 2

end UhmiIviWm
