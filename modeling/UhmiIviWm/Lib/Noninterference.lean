import Mathlib.Data.List.Basic

/-!
# Commands that an observer does not notice

A machine is given commands one after the other (`step`). Some of them are an observer's
own, others are not, and of each state the observer sees a part (`view`). If its own
commands make of equal views equal views, and those of others leave its view as it is
(`Unwinds`), then what it sees after any sequence of commands is what it would see had the
others given none (`Unwinds.purge`).
-/

namespace Lib.Noninterference

variable {S A V : Type} {step : S → A → S} {view : S → V} {I : S → Prop} {own other : A → Prop}

/-- In the states that meet `I`, the view is a matter of the own commands. -/
structure Unwinds (step : S → A → S) (view : S → V) (I : S → Prop) (own other : A → Prop) :
    Prop where
  kept : ∀ s a, own a ∨ other a → I s → I (step s a)
  follows : ∀ s t a, own a → I s → I t → view s = view t → view (step s a) = view (step t a)
  spares : ∀ s a, other a → I s → view (step s a) = view s

namespace Unwinds

variable (h : Unwinds step view I own other) {as : List A} {s t : S}

include h

theorem run_kept (has : ∀ a ∈ as, own a ∨ other a) (hs : I s) : I (as.foldl step s) :=
  List.foldlRecOn as step hs fun s hs a ha => h.kept s a (has a ha) hs

theorem run_follows (has : ∀ a ∈ as, own a) (hs : I s) (ht : I t) (hview : view s = view t) :
    view (as.foldl step s) = view (as.foldl step t) := by
  induction as generalizing s t with
  | nil => exact hview
  | cons a as ih =>
    obtain ⟨ha, has⟩ := List.forall_mem_cons.mp has
    exact ih has (h.kept s a (.inl ha) hs) (h.kept t a (.inl ha) ht)
      (h.follows s t a ha hs ht hview)

theorem run_spares (has : ∀ a ∈ as, other a) (hs : I s) : view (as.foldl step s) = view s := by
  induction as generalizing s with
  | nil => rfl
  | cons a as ih =>
    obtain ⟨ha, has⟩ := List.forall_mem_cons.mp has
    exact (ih has (h.kept s a (.inr ha) hs)).trans (h.spares s a ha hs)

/-- Commands that are written in another way. -/
theorem comap {B : Type} (f : B → A) :
    Unwinds (fun s b => step s (f b)) view I (fun b => own (f b)) fun b => other (f b) where
  kept s b := h.kept s (f b)
  follows s t b := h.follows s t (f b)
  spares s b := h.spares s (f b)

/-- The commands of others might as well not have been given. -/
theorem purge {mine : A → Bool} (hown : ∀ a ∈ as, mine a = true → own a)
    (hother : ∀ a ∈ as, mine a = false → other a) (hs : I s) (ht : I t)
    (hview : view s = view t) : view (as.foldl step s) = view ((as.filter mine).foldl step t) := by
  induction as generalizing s t with
  | nil => exact hview
  | cons a as ih =>
    obtain ⟨ha, hown⟩ := List.forall_mem_cons.mp hown
    obtain ⟨ha', hother⟩ := List.forall_mem_cons.mp hother
    cases hmine : mine a with
    | true =>
      rw [List.filter_cons_of_pos hmine]
      exact ih hown hother (h.kept s a (.inl (ha hmine)) hs) (h.kept t a (.inl (ha hmine)) ht)
        (h.follows s t a (ha hmine) hs ht hview)
    | false =>
      rw [List.filter_cons_of_neg (by rw [hmine]; exact Bool.false_ne_true)]
      exact ih hown hother (h.kept s a (.inr (ha' hmine)) hs) ht
        ((h.spares s a (ha' hmine) hs).trans hview)

end Unwinds

end Lib.Noninterference
