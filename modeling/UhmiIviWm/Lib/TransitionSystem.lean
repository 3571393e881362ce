import Mathlib.Logic.Basic

/-!
# Runs of a labelled transition system

A system is a set of initial states and a step relation labelled with actions.
`Run G` collects the states of the runs all of whose steps meet a condition `G`
on the action and the state it is taken in; `Reachable` puts no condition.
Safety properties are proved by `Run.invariant`, whose step may use what is
already known of the run so far.
-/

namespace Lib

/-- Initial states and labelled steps. -/
structure TransitionSystem (S A : Type) where
  init : S → Prop
  step : A → S → S → Prop

namespace TransitionSystem

variable {S A : Type} (sys : TransitionSystem S A)

/-- The states of the runs whose steps all meet `G`. -/
inductive Run (G : A → S → Prop) : S → Prop
  | init {s : S} : sys.init s → Run G s
  | step {s s' : S} {a : A} : Run G s → G a s → sys.step a s s' → Run G s'

/-- The states of all runs. -/
def Reachable : S → Prop := sys.Run fun _ _ => True

variable {sys} {G G' : A → S → Prop}

theorem Run.mono (hG : ∀ a s, G a s → G' a s) {s : S} (h : sys.Run G s) : sys.Run G' s := by
  induction h with
  | init h => exact .init h
  | step _ hg hs ih => exact .step ih (hG _ _ hg) hs

theorem Run.reachable {s : S} (h : sys.Run G s) : sys.Reachable s :=
  h.mono fun _ _ _ => trivial

theorem Reachable.init {s : S} (h : sys.init s) : sys.Reachable s := Run.init h

theorem Reachable.step {s s' : S} {a : A} (h : sys.Reachable s) (hs : sys.step a s s') :
    sys.Reachable s' := Run.step h trivial hs

/-- What holds initially and is preserved by every admitted step holds in every
state of the run. The step may use that its starting state lies on such a run. -/
theorem Run.invariant {P : S → Prop} (hinit : ∀ s, sys.init s → P s)
    (hstep : ∀ a s s', sys.Run G s → P s → G a s → sys.step a s s' → P s') {s : S}
    (h : sys.Run G s) : P s := by
  induction h with
  | init h => exact hinit _ h
  | step hr hg hs ih => exact hstep _ _ _ hr ih hg hs

/-- The same without a condition on the steps. -/
theorem Reachable.invariant {P : S → Prop} (hinit : ∀ s, sys.init s → P s)
    (hstep : ∀ a s s', sys.Reachable s → P s → sys.step a s s' → P s') {s : S}
    (h : sys.Reachable s) : P s :=
  Run.invariant hinit (fun a s s' hr hp _ hs => hstep a s s' hr hp hs) h

/-- What every step keeps still holds where a list of steps, each of which may be impossible,
has been taken. -/
theorem foldlM_invariant {B : Type} {f : S → B → Option S} {P : S → Prop}
    (hstep : ∀ s b s', P s → f s b = some s' → P s') {bs : List B} {s s' : S} (hs : P s)
    (h : bs.foldlM f s = some s') : P s' := by
  induction bs generalizing s with
  | nil =>
    cases h
    exact hs
  | cons b bs ih =>
    rw [List.foldlM_cons] at h
    obtain ⟨t, ht, hrest⟩ := Option.bind_eq_some_iff.mp h
    exact ih (hstep s b t hs ht) hrest

end TransitionSystem

end Lib
