import UhmiIviWm.Lib.CallPlan

/-!
# Computations in lockstep

Two computations over different states run in lockstep if, from related states, they
end in the same way: with the same result in related states, or with the same error
(`Lockstep`). The rules follow the program text, so a program that is written for any
implementation of its primitives runs in lockstep on two of them as soon as the
primitives do.
-/

namespace Lib.CallPlan

variable {S S' E α β : Type} {R Q T : S → S' → Prop}

/-- Two outcomes that differ in the state only, which `Q` relates. -/
inductive SameOutcome (Q : S → S' → Prop) : Except E (α × S) → Except E (α × S') → Prop
  | ok {a : α} {s : S} {s' : S'} : Q s s' → SameOutcome Q (.ok (a, s)) (.ok (a, s'))
  | error (e : E) : SameOutcome Q (.error e) (.error e)

theorem SameOutcome.mono {x : Except E (α × S)} {y : Except E (α × S')} (h : SameOutcome R x y)
    (hRQ : ∀ s s', R s s' → Q s s') : SameOutcome Q x y := by
  cases h with
  | ok hR => exact .ok (hRQ _ _ hR)
  | error e => exact .error e

theorem SameOutcome.symm {x : Except E (α × S)} {y : Except E (α × S')} (h : SameOutcome R x y) :
    SameOutcome (fun s' s => R s s') y x := by
  cases h with
  | ok hR => exact .ok hR
  | error e => exact .error e

/-- From states in `R` both computations end in the same way, in states in `Q`. -/
def Lockstep (R Q : S → S' → Prop) (m : Comp S E α) (m' : Comp S' E α) : Prop :=
  ∀ s s', R s s' → SameOutcome Q (m s) (m' s')

namespace Lockstep

theorem ret (a : α) : Lockstep R R (pure a : Comp S E α) (pure a) := fun _ _ hR => .ok hR

theorem throw (e : E) : Lockstep R Q (MonadExcept.throw e : Comp S E α) (MonadExcept.throw e) :=
  fun _ _ _ => .error e

theorem seq {m : Comp S E α} {m' : Comp S' E α} {f : α → Comp S E β} {f' : α → Comp S' E β}
    (hm : Lockstep R Q m m') (hf : ∀ a, Lockstep Q T (f a) (f' a)) :
    Lockstep R T (m >>= f) (m' >>= f') := by
  intro s s' hR
  rw [Comp.bind_apply, Comp.bind_apply]
  have hfirst := hm s s' hR
  generalize m s = x at hfirst ⊢
  generalize m' s' = y at hfirst ⊢
  cases hfirst with
  | ok hQ => exact hf _ _ _ hQ
  | error e => exact .error e

theorem ite {c : Prop} [Decidable c] {m₁ m₂ : Comp S E α} {m₁' m₂' : Comp S' E α}
    (h : c → Lockstep R Q m₁ m₁') (h' : ¬ c → Lockstep R Q m₂ m₂') :
    Lockstep R Q (if c then m₁ else m₂) (if c then m₁' else m₂') := by
  split
  · exact h ‹_›
  · exact h' ‹_›

theorem mono {m : Comp S E α} {m' : Comp S' E α} (h : Lockstep R Q m m')
    (hQ : ∀ s s', Q s s' → T s s') : Lockstep R T m m' := fun s s' hR => (h s s' hR).mono hQ

theorem symm {m : Comp S E α} {m' : Comp S' E α} (h : Lockstep R Q m m') :
    Lockstep (fun s' s => R s s') (fun s' s => Q s s') m' m := fun s' s hR => (h s s' hR).symm

theorem loop {xs : List α} {body : α → Comp S E Int} {body' : α → Comp S' E Int}
    (h : ∀ x ∈ xs, Lockstep R R (body x) (body' x)) :
    Lockstep R R (forEach xs body) (forEach xs body') := by
  induction xs with
  | nil => exact ret 0
  | cons x xs ih =>
    refine seq (h x List.mem_cons_self) fun r => ite (fun _ => ret r) fun _ => ih fun y hy => ?_
    exact h y (List.mem_cons_of_mem x hy)

end Lockstep

end Lib.CallPlan
