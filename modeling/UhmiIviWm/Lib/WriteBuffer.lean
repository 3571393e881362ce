import Mathlib.Data.List.Basic

/-!
# Devices with a write buffer

A device admits operations and applies them. With a write buffer, some operations wait in
a queue until they are committed, all at once and in order. Queries see what is committed.

Between two commits the queue is harmless as long as the operations are *independent*
(`Independent`): in any order they lead to the same state, and none decides whether
another one is admitted. Then the device is `Behind` one without a buffer by just what is
queued, and gives the same answers.
-/

namespace Lib.WriteBuffer

variable {S Op : Type}

structure Device (S Op : Type) where
  admits : S → Op → Bool
  apply : S → Op → S

structure Buffered (S Op : Type) where
  committed : S
  queued : List Op

namespace Device

variable (dev : Device S Op)

/-- An operation on the device itself: whether it is admitted, and the state. -/
def perform (op : Op) (s : S) : Bool × S :=
  if dev.admits s op then (true, dev.apply s op) else (false, s)

/-- An operation on the device with a buffer, which waits if it is `late`; that may depend
on what is committed and on what waits already. -/
def performBuffered (late : Buffered S Op → Op → Bool) (op : Op) (b : Buffered S Op) :
    Bool × Buffered S Op :=
  if dev.admits b.committed op then
    (true, if late b op then { b with queued := b.queued ++ [op] }
      else { b with committed := dev.apply b.committed op })
  else (false, b)

/-- Everything that waits takes effect. -/
def commit (b : Buffered S Op) : Buffered S Op := ⟨b.queued.foldl dev.apply b.committed, []⟩

/-- Operations of which none changes what another one does or whether it is admitted. -/
structure Independent (P : Op → Prop) : Prop where
  admits : ∀ a b s, P a → P b → dev.admits (dev.apply s a) b = dev.admits s b
  commute : ∀ a b s, P a → P b → dev.apply (dev.apply s a) b = dev.apply (dev.apply s b) a

/-- The device with a buffer lacks what is queued, and that is all in `P`. -/
structure Behind (P : Op → Prop) (b : Buffered S Op) (s : S) : Prop where
  queued : ∀ op ∈ b.queued, P op
  state : b.queued.foldl dev.apply b.committed = s

variable {dev} {P : Op → Prop} {b : Buffered S Op} {s : S} {op : Op}

theorem Behind.of_committed (s : S) : dev.Behind P ⟨s, []⟩ s := ⟨nofun, rfl⟩

theorem Independent.admits_foldl (h : dev.Independent P) (hop : P op) {ops : List Op}
    (hops : ∀ o ∈ ops, P o) (s : S) : dev.admits (ops.foldl dev.apply s) op = dev.admits s op := by
  induction ops generalizing s with
  | nil => rfl
  | cons o ops ih =>
    obtain ⟨ho, hrest⟩ := List.forall_mem_cons.mp hops
    rw [List.foldl_cons, ih hrest, h.admits o op s ho hop]

/-- An operation may overtake the queue. -/
theorem Independent.apply_foldl (h : dev.Independent P) (hop : P op) {ops : List Op}
    (hops : ∀ o ∈ ops, P o) (s : S) :
    ops.foldl dev.apply (dev.apply s op) = dev.apply (ops.foldl dev.apply s) op := by
  induction ops generalizing s with
  | nil => rfl
  | cons o ops ih =>
    obtain ⟨ho, hrest⟩ := List.forall_mem_cons.mp hops
    rw [List.foldl_cons, List.foldl_cons, h.commute op o s hop ho, ih hrest]

theorem Behind.admits (h : dev.Behind P b s) (hP : dev.Independent P) (hop : P op) :
    dev.admits b.committed op = dev.admits s op := by
  rw [← h.state, hP.admits_foldl hop h.queued]

/-- An operation of the block, late or not: the same answer, and still behind by the queue. -/
theorem Behind.perform (h : dev.Behind P b s) (hP : dev.Independent P) (hop : P op)
    (late : Buffered S Op → Op → Bool) :
    (dev.performBuffered late op b).1 = (dev.perform op s).1 ∧
      dev.Behind P (dev.performBuffered late op b).2 (dev.perform op s).2 := by
  rw [performBuffered, Device.perform, h.admits hP hop]
  by_cases hadmits : dev.admits s op = true
  · rw [if_pos hadmits, if_pos hadmits]
    refine ⟨rfl, ?_⟩
    by_cases hlate : late b op = true
    · simp only [hlate, if_true]
      refine ⟨fun o ho => ?_, ?_⟩
      · rcases List.mem_append.mp ho with ho | ho
        · exact h.queued o ho
        · rwa [List.mem_singleton.mp ho]
      · rw [List.foldl_append, h.state]
        rfl
    · simp only [hlate, Bool.false_eq_true, if_false]
      exact ⟨h.queued, by rw [hP.apply_foldl hop h.queued, h.state]⟩
  · rw [if_neg hadmits, if_neg hadmits]
    exact ⟨rfl, h⟩

/-- The first operation after a commit need not be independent of anything. -/
theorem Behind.perform_first (hop : P op) (late : Buffered S Op → Op → Bool) (s : S) :
    (dev.performBuffered late op ⟨s, []⟩).1 = (dev.perform op s).1 ∧
      dev.Behind P (dev.performBuffered late op ⟨s, []⟩).2 (dev.perform op s).2 := by
  rw [performBuffered, Device.perform]
  by_cases hadmits : dev.admits s op = true
  · rw [if_pos hadmits, if_pos hadmits]
    refine ⟨rfl, ?_⟩
    by_cases hlate : late ⟨s, []⟩ op = true
    · simp only [hlate, if_true]
      exact ⟨fun o ho => by rwa [List.mem_singleton.mp ho], rfl⟩
    · simp only [hlate, Bool.false_eq_true, if_false]
      exact .of_committed _
  · rw [if_neg hadmits, if_neg hadmits]
    exact ⟨rfl, .of_committed s⟩

/-- An operation that does nothing leaves the device behind by the same, whether it is
admitted or not. -/
theorem Behind.perform_inert (h : dev.Behind P b s) (hinert : ∀ t, dev.apply t op = t)
    {late : Buffered S Op → Op → Bool} (hlate : late b op = false) :
    dev.Behind P (dev.performBuffered late op b).2 (dev.perform op s).2 := by
  have hb : (dev.performBuffered late op b).2 = b := by
    rw [performBuffered, hlate, hinert]
    split <;> rfl
  have hs : (dev.perform op s).2 = s := by
    rw [Device.perform, hinert]
    split <;> rfl
  rw [hb, hs]
  exact h

/-- After a commit there is no difference. -/
theorem Behind.commit (h : dev.Behind P b s) : dev.commit b = ⟨s, []⟩ := by
  rw [Device.commit, h.state]

end Device

end Lib.WriteBuffer
