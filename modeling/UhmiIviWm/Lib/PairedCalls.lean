import Mathlib.Data.List.Forall2
import UhmiIviWm.Lib.CallPlan

/-!
# Two runs side by side

Two runs of one program from related states, compared call by call. Where every
call takes related states to related states, under a condition on the pair
(`PairEach`), so does the list of calls (`runCalls_alike`), and the two runs make
their calls in related states, the aborting one included (`made_alike`). A plan
that looks at the state looks at the same things in both runs where it is
`Blind`.
-/

namespace Lib.CallPlan

variable {S E Op α β γ : Type} {sem : Op → Comp S E Unit} {R : S → S → Prop}
  {C : S → S → Op → Prop}

/-- Both runs return the same value, in related states, or abort with the same error. -/
inductive Alike (R : S → S → Prop) : Except E (α × S) → Except E (α × S) → Prop
  | ok (a : α) {s s' : S} (h : R s s') : Alike R (.ok (a, s)) (.ok (a, s'))
  | error (e : E) : Alike R (.error e) (.error e)

namespace Alike

theorem bind {m m' : Comp S E α} {f f' : α → Comp S E β} {s s' : S} (hm : Alike R (m s) (m' s'))
    (hf : ∀ a t t', m s = .ok (a, t) → m' s' = .ok (a, t') → R t t' → Alike R (f a t) (f' a t')) :
    Alike R ((m >>= f) s) ((m' >>= f') s') := by
  rw [Comp.bind_apply, Comp.bind_apply]
  generalize h : m s = r at hm
  generalize h' : m' s' = r' at hm
  cases hm with
  | ok a ht => exact hf a _ _ h h' ht
  | error e => exact .error e

end Alike

variable (sem) in
/-- `C` holds of every call the two runs make, in the states they make it in. -/
def PairEach (C : S → S → Op → Prop) : List Op → S → S → Prop
  | [], _, _ => True
  | op :: ops, s, s' => C s s' op ∧ match sem op s, sem op s' with
    | .ok (_, t), .ok (_, t') => PairEach C ops t t'
    | _, _ => True

theorem PairEach.append {xs ys : List Op} {s s' : S} (h : PairEach sem C (xs ++ ys) s s') :
    PairEach sem C xs s s' ∧ ∀ t t', runCalls sem xs s = .ok ((), t) →
      runCalls sem xs s' = .ok ((), t') → PairEach sem C ys t t' := by
  induction xs generalizing s s' with
  | nil =>
    refine ⟨trivial, fun t t' ht ht' => ?_⟩
    cases ht
    cases ht'
    exact h
  | cons op xs ih =>
    obtain ⟨hop, hrest⟩ := h
    constructor
    · refine ⟨hop, ?_⟩
      revert hrest
      split
      · exact fun hrest => (ih hrest).1
      · exact fun _ => trivial
    · intro t t' ht ht'
      obtain ⟨v, hv, ht⟩ := runCalls_cons_ok.mp ht
      obtain ⟨v', hv', ht'⟩ := runCalls_cons_ok.mp ht'
      simp only [hv, hv'] at hrest
      exact (ih hrest).2 t t' ht ht'

variable (sem) in
/-- The calls that are made, each with the state it is made in. -/
def made : List Op → S → List (Op × S)
  | [], _ => []
  | op :: ops, s => (op, s) :: match sem op s with
    | .ok (_, t) => made ops t
    | .error _ => []

/-! ## Calls -/

section Calls

variable (hcall : ∀ op s s', R s s' → C s s' op → Alike R (sem op s) (sem op s'))
include hcall

theorem runCalls_alike {ops : List Op} {s s' : S} (hs : R s s') (h : PairEach sem C ops s s') :
    Alike R (runCalls sem ops s) (runCalls sem ops s') := by
  induction ops generalizing s s' with
  | nil => exact .ok () hs
  | cons op ops ih =>
    obtain ⟨hop, hrest⟩ := h
    refine .bind (hcall op s s' hs hop) fun _ t t' ht ht' hR => ih hR ?_
    simpa only [ht, ht'] using hrest

theorem made_alike {ops : List Op} {s s' : S} (hs : R s s') (h : PairEach sem C ops s s') :
    List.Forall₂ (fun p p' => p.1 = p'.1 ∧ R p.2 p'.2 ∧ C p.2 p'.2 p.1)
      (made sem ops s) (made sem ops s') := by
  induction ops generalizing s s' with
  | nil => exact .nil
  | cons op ops ih =>
    obtain ⟨hop, hrest⟩ := h
    refine .cons ⟨rfl, hs, hop⟩ ?_
    have hboth := hcall op s s' hs hop
    generalize sem op s = r at hboth hrest
    generalize sem op s' = r' at hboth hrest
    cases hboth with
    | ok a ht => exact ih ht hrest
    | error e => exact .nil

theorem Plan.run_alike {p : Plan Op E α} {s s' : S} (hs : R s s')
    (h : PairEach sem C p.calls s s') : Alike R (p.run sem s) (p.run sem s') := by
  refine .bind (runCalls_alike hcall hs h) fun _ t t' _ _ hR => ?_
  cases p.out with
  | ok a => exact .ok a hR
  | error e => exact .error e

end Calls

/-! ## Plans -/

namespace StatePlan

/-- From related states whose calls go alike the plan is the same. -/
def Blind (R : S → S → Prop) (C : S → S → Op → Prop) (p : StatePlan sem α) : Prop :=
  ∀ s s', R s s' → PairEach sem C (p.plan s).calls s s' → p.plan s' = p.plan s

namespace Blind

theorem ret (a : α) : Blind R C (pure a : StatePlan sem α) := fun _ _ _ _ => rfl

theorem looks {g : S → α} (hg : ∀ s s', R s s' → g s = g s') :
    Blind R C (looks g : StatePlan sem α) := fun s s' hs _ =>
  congrArg pure (hg s s' hs).symm

theorem fixed (p : Plan Op E α) : Blind R C (fixed p : StatePlan sem α) := fun _ _ _ _ => rfl

theorem ite {c : Prop} [Decidable c] {p p' : StatePlan sem α} (h : Blind R C p)
    (h' : Blind R C p') : Blind R C (if c then p else p') := by
  split
  · exact h
  · exact h'

variable (hcall : ∀ op s s', R s s' → C s s' op → Alike R (sem op s) (sem op s'))
include hcall

theorem seq {p : StatePlan sem α} {q : α → StatePlan sem β} (hp : Blind R C p)
    (hq : ∀ a, Blind R C (q a)) : Blind R C (p >>= q) := by
  intro s s' hs h
  rw [plan_bind] at h ⊢
  rw [plan_bind]
  have hprefix : PairEach sem C (p.plan s).calls s s' := by
    cases hr : (p.plan s).run sem s with
    | ok r =>
      rw [Plan.goOn_of_ok hr] at h
      exact h.append.1
    | error e =>
      rw [Plan.goOn_of_error hr] at h
      exact h
  have hboth := Plan.run_alike hcall hs hprefix
  rw [hp s s' hs hprefix]
  generalize hr : (p.plan s).run sem s = r at hboth
  generalize hr' : (p.plan s).run sem s' = r' at hboth
  cases hboth with
  | ok a ht =>
    rw [Plan.goOn_of_ok hr] at h ⊢
    rw [Plan.goOn_of_ok hr']
    have hrest := h.append.2 _ _ (Plan.run_eq_ok.mp hr).2 (Plan.run_eq_ok.mp hr').2
    rw [hq a _ _ ht hrest]
  | error e => rw [Plan.goOn_of_error hr, Plan.goOn_of_error hr']

theorem loop {xs : List γ} {p : γ → StatePlan sem Int} (h : ∀ x, Blind R C (p x)) :
    Blind R C (forEach xs p) := by
  induction xs with
  | nil => exact ret 0
  | cons x xs ih => exact seq hcall (h x) fun r => ite (ret r) ih

end Blind

end StatePlan

end Lib.CallPlan
