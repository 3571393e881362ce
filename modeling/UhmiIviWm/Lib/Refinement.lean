import UhmiIviWm.Lib.TransitionSystem
import Mathlib.Data.List.Basic

/-!
# Refinement of transition systems

A system refines another one if each of its steps is matched by a path of the other,
possibly an empty one (`Refines`). The relation between the states may look at the
actions the other system has taken so far, so that a log kept by the one can be
compared with the history of the other. `Refines.reachable` carries safety over.
-/

namespace Lib.TransitionSystem

variable {S A S' A' : Type}

/-- The actions that lead from one state to another. -/
inductive Path (sys : TransitionSystem S A) : List A → S → S → Prop
  | nil (s : S) : Path sys [] s s
  | snoc {as : List A} {a : A} {s t u : S} :
    Path sys as s t → sys.step a t u → Path sys (as ++ [a]) s u

namespace Path

variable {sys : TransitionSystem S A} {as bs : List A} {s t u : S}

theorem one {a : A} (h : sys.step a s t) : Path sys [a] s t := .snoc (.nil s) h

theorem append (h : Path sys as s t) (h' : Path sys bs t u) : Path sys (as ++ bs) s u := by
  induction h' with
  | nil =>
    rw [List.append_nil]
    exact h
  | snoc _ hstep ih =>
    rw [← List.append_assoc]
    exact .snoc (ih h) hstep

theorem reachable (h : Path sys as s t) (hs : sys.Reachable s) : sys.Reachable t := by
  induction h with
  | nil => exact hs
  | snoc _ hstep ih => exact (ih hs).step hstep

end Path

/-- Each step of `conc` is matched by a path of `abs`. `R s s' as` relates the states
where `as` are the actions `abs` has taken. -/
structure Refines (conc : TransitionSystem S A) (abs : TransitionSystem S' A')
    (R : S → S' → List A' → Prop) : Prop where
  init : ∀ s, conc.init s → ∃ s', abs.init s' ∧ R s s' []
  step : ∀ a s t s' as, conc.Reachable s → conc.step a s t → R s s' as →
    ∃ bs t', Path abs bs s' t' ∧ R t t' (as ++ bs)

namespace Refines

variable {conc : TransitionSystem S A} {abs : TransitionSystem S' A'}
  {R : S → S' → List A' → Prop}

/-- A run of `conc` is matched by a path of `abs` from one of its initial states. -/
theorem path (h : Refines conc abs R) {s : S} (hs : conc.Reachable s) :
    ∃ s₀ as s', abs.init s₀ ∧ Path abs as s₀ s' ∧ R s s' as := by
  refine TransitionSystem.Reachable.invariant
    (P := fun s => ∃ s₀ as s', abs.init s₀ ∧ Path abs as s₀ s' ∧ R s s' as) ?_ ?_ hs
  · intro s hinit
    obtain ⟨s', hinit', hR⟩ := h.init s hinit
    exact ⟨s', [], s', hinit', .nil s', hR⟩
  · rintro a s t hreach ⟨s₀, as, s', hinit, hpath, hR⟩ hstep
    obtain ⟨bs, t', hmatch, hR'⟩ := h.step a s t s' as hreach hstep hR
    exact ⟨s₀, as ++ bs, t', hinit, hpath.append hmatch, hR'⟩

theorem reachable (h : Refines conc abs R) {s : S} (hs : conc.Reachable s) :
    ∃ s' as, abs.Reachable s' ∧ R s s' as := by
  obtain ⟨s₀, as, s', hinit, hpath, hR⟩ := h.path hs
  exact ⟨s', as, hpath.reachable (.init hinit), hR⟩

end Refines

end Lib.TransitionSystem
