import UhmiIviWm.Lib.Refinement

/-!
# Systems that settle

Some actions of a system are work that it has left to do (`inner`), and each of them
leaves less of it, by a measure (`Settling`). Then inner actions alone come to an end
after so many steps at most (`Settling.length_le`), whichever is taken when, and from
any state there is a way to where none is possible (`Settling.exists_settled`).
-/

namespace Lib.TransitionSystem

variable {S A : Type}

/-- The steps that meet `G`. -/
def restrict (sys : TransitionSystem S A) (G : A → S → Prop) : TransitionSystem S A where
  init := sys.init
  step a s t := G a s ∧ sys.step a s t

/-- Inner actions keep `I` and bring the measure down. -/
structure Settling (sys : TransitionSystem S A) (inner : A → Prop) (I : S → Prop)
    (toDo : S → Nat) : Prop where
  kept : ∀ a s t, inner a → I s → sys.step a s t → I t
  decreases : ∀ a s t, inner a → I s → sys.step a s t → toDo t < toDo s

/-- No inner action is possible. -/
def Settled (sys : TransitionSystem S A) (inner : A → Prop) (s : S) : Prop :=
  ∀ a t, inner a → ¬ sys.step a s t

namespace Settling

variable {sys : TransitionSystem S A} {inner : A → Prop} {I : S → Prop} {toDo : S → Nat}

theorem length_le (h : Settling sys inner I toDo) {as : List A} {s t : S}
    (hpath : Path sys as s t) (has : ∀ a ∈ as, inner a) (hs : I s) :
    I t ∧ as.length + toDo t ≤ toDo s := by
  induction hpath with
  | nil => exact ⟨hs, Nat.le_of_eq (Nat.zero_add _)⟩
  | @snoc as a s t u _ hstep ih =>
    obtain ⟨hinit, hlast⟩ := List.forall_mem_append.mp has
    obtain ⟨ht, hle⟩ := ih hinit hs
    have ha : inner a := hlast a (List.mem_singleton_self a)
    have hless := h.decreases a t u ha ht hstep
    refine ⟨h.kept a t u ha ht hstep, ?_⟩
    rw [List.length_append, List.length_singleton]
    omega

theorem exists_settled (h : Settling sys inner I toDo) {s : S} (hs : I s) :
    ∃ as t, (∀ a ∈ as, inner a) ∧ Path sys as s t ∧ Settled sys inner t := by
  by_cases hsettled : Settled sys inner s
  · exact ⟨[], s, nofun, .nil s, hsettled⟩
  · simp only [Settled, not_forall, not_not] at hsettled
    obtain ⟨a, t, ha, hstep⟩ := hsettled
    have hless := h.decreases a s t ha hs hstep
    obtain ⟨as, u, has, hpath, hu⟩ := exists_settled h (h.kept a s t ha hs hstep)
    exact ⟨[a] ++ as, u, List.forall_mem_cons.mpr ⟨ha, has⟩, (Path.one hstep).append hpath, hu⟩
termination_by toDo s

end Settling

end Lib.TransitionSystem
