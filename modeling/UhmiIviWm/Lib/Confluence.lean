import Mathlib.Data.List.Basic

/-!
# Operations in any order, any number of times

Where operations commute and repeating one changes nothing, performing a list of them
comes down to which operations are in the list (`Confluent.foldl_congr`).
-/

namespace Lib

variable {S Op : Type*}

/-- The operations in `P` may change places, and may be repeated. -/
structure Confluent (perform : S → Op → S) (P : Op → Prop) : Prop where
  comm : ∀ a, P a → ∀ b, P b → ∀ s, perform (perform s a) b = perform (perform s b) a
  idem : ∀ a, P a → ∀ s, perform (perform s a) a = perform s a

namespace Confluent

variable {perform : S → Op → S} {P : Op → Prop} {l l' : List Op}

theorem foldl_perform (h : Confluent perform P) (hl : ∀ a ∈ l, P a) {a : Op} (ha : P a) (s : S) :
    l.foldl perform (perform s a) = perform (l.foldl perform s) a := by
  induction l generalizing s with
  | nil => rfl
  | cons b l ih =>
    rw [List.forall_mem_cons] at hl
    rw [List.foldl_cons, List.foldl_cons, h.comm a ha b hl.1, ih hl.2]

/-- An operation of the list, once more at the end, changes nothing. -/
theorem perform_foldl (h : Confluent perform P) (hl : ∀ a ∈ l, P a) {a : Op} (ha : a ∈ l) (s : S) :
    perform (l.foldl perform s) a = l.foldl perform s := by
  have hP := hl a ha
  obtain ⟨l₁, l₂, rfl⟩ := List.append_of_mem ha
  have hl₂ : ∀ b ∈ l₂, P b := fun b hb => hl b (List.mem_append_right _ (List.mem_cons_of_mem a hb))
  rw [List.foldl_append, List.foldl_cons, ← h.foldl_perform hl₂ hP, h.idem a hP]

theorem foldl_append_of_subset (h : Confluent perform P) (hl : ∀ a ∈ l, P a) (hsub : l' ⊆ l)
    (s : S) : (l ++ l').foldl perform s = l.foldl perform s := by
  rw [List.foldl_append]
  induction l' with
  | nil => rfl
  | cons a l' ih =>
    rw [List.cons_subset] at hsub
    rw [List.foldl_cons, h.perform_foldl hl hsub.1, ih hsub.2]

/-- Two lists of the same operations do the same. -/
theorem foldl_congr (h : Confluent perform P) (hl : ∀ a ∈ l, P a) (hsame : ∀ a, a ∈ l ↔ a ∈ l')
    (s : S) : l.foldl perform s = l'.foldl perform s := by
  have hl' : ∀ a ∈ l', P a := fun a ha => hl a ((hsame a).mpr ha)
  have hboth : ∀ a ∈ l ++ l', P a := fun a ha => (List.mem_append.mp ha).elim (hl a) (hl' a)
  calc l.foldl perform s
    _ = (l ++ l').foldl perform s :=
      (h.foldl_append_of_subset hl (fun a ha => (hsame a).mpr ha) s).symm
    _ = (l' ++ l).foldl perform s :=
      List.perm_append_comm.foldl_eq' (fun a ha b hb s => h.comm a (hboth a ha) b (hboth b hb) s) s
    _ = l'.foldl perform s := h.foldl_append_of_subset hl' (fun a ha => (hsame a).mp ha) s

end Confluent

end Lib
