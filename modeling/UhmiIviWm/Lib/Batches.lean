import Mathlib.Data.List.Destutter

/-!
# Batches of puts that are made twice

A put takes out what a state has for it (`found`), makes of it what it should be, and puts
it in again (`place`) among what else there is (`rest`). A put that finds what it would put
(`Done`) still takes it out, so that the other elements of the batch have moved past it when
the batch has been made again. But the same puts follow, and they leave the same state
(`Puts.twice`).

A machine whose commands do nothing more when they are repeated at once can do without the
repetitions (`foldl_destutter`).
-/

namespace Lib.Batches

variable {S O V T K : Type} {put : S → O → S} {found : O → S → V} {rest : List O → S → T}
  {place : O → V → T → T} {kept : S → K} {Inv : S → Prop} {Ok : O → Prop}
  {Apart : O → O → Prop} {idle : V → Bool} {Done : O → V → Prop} {a b : S} {o : O} {ops : List O}

/-- Puts that find and place one thing each. Puts of one batch are `Apart`. A put that finds
something `idle` leaves it where it is, and one that finds something `Done` changes nothing
but the order (`kept`). -/
structure Puts (put : S → O → S) (found : O → S → V) (rest : List O → S → T)
    (place : O → V → T → T) (kept : S → K) (Inv : S → Prop) (Ok : O → Prop)
    (Apart : O → O → Prop) (idle : V → Bool) (Done : O → V → Prop) : Prop where
  symm : ∀ o o', Apart o o' → Apart o' o
  inv : ∀ s o, Ok o → Inv s → Inv (put s o)
  other : ∀ s o o', Ok o → Inv s → Apart o o' → found o' (put s o) = found o' s
  leaves : ∀ s o, Ok o → idle (found o s) = true → put s o = s
  busy : ∀ s o, Ok o → Inv s → idle (found o s) = false → idle (found o (put s o)) = false
  done : ∀ s o, Ok o → Inv s → Done o (found o (put s o))
  again : ∀ s o, Ok o → Inv s → Done o (found o s) →
    found o (put s o) = found o s ∧ kept (put s o) = kept s
  moved : ∀ s o later, Ok o → Inv s → idle (found o s) = false → (∀ o' ∈ later, Apart o o') →
    rest later (put s o) = place o (found o (put s o)) (rest (o :: later) s)
  spared : ∀ s o batch, Ok o → Inv s → o ∈ batch → rest batch (put s o) = rest batch s

namespace Puts

variable (h : Puts put found rest place kept Inv Ok Apart idle Done)

include h

theorem run_inv (hops : ∀ o ∈ ops, Ok o) (ha : Inv a) : Inv (ops.foldl put a) :=
  List.foldlRecOn ops put ha fun s hs o ho => h.inv s o (hops o ho) hs

/-- What a put finds is left alone by puts that are apart from it. -/
theorem found_run (hops : ∀ o' ∈ ops, Ok o' ∧ Apart o o') (ha : Inv a) :
    found o (ops.foldl put a) = found o a := by
  induction ops generalizing a with
  | nil => rfl
  | cons o' ops ih =>
    obtain ⟨⟨hok, hapart⟩, hops⟩ := List.forall_mem_cons.mp hops
    exact (ih hops (h.inv a o' hok ha)).trans (h.other a o' o hok ha (h.symm o o' hapart))

/-- The puts of a batch that move something. -/
theorem rest_run (hops : ∀ o ∈ ops, Ok o) (hapart : ops.Pairwise Apart) (ha : Inv a)
    {batch : List O} (hbatch : ∀ o ∈ ops, idle (found o a) = false → o ∈ batch) :
    rest batch (ops.foldl put a) = rest batch a := by
  induction ops generalizing a with
  | nil => rfl
  | cons o ops ih =>
    obtain ⟨hok, hops⟩ := List.forall_mem_cons.mp hops
    obtain ⟨ho, hapart⟩ := List.pairwise_cons.mp hapart
    obtain ⟨hmem, hbatch⟩ := List.forall_mem_cons.mp hbatch
    refine (ih hops hapart (h.inv a o hok ha) fun o' ho' hidle => hbatch o' ho' ?_).trans ?_
    · rwa [h.other a o o' hok ha (ho o' ho')] at hidle
    · cases hidle : idle (found o a) with
      | true => rw [h.leaves a o hok hidle]
      | false => exact h.spared a o batch hok ha (hmem hidle)

/-- A batch makes of two states the same, if what it does not move is the same, and one of
them has what the batch leaves in the other. -/
theorem run_same (hops : ∀ o ∈ ops, Ok o) (hapart : ops.Pairwise Apart) (ha : Inv a)
    (hb : Inv b)
    (hrest : rest (ops.filter fun o => !idle (found o a)) b =
      rest (ops.filter fun o => !idle (found o a)) a)
    (hfound : ∀ o ∈ ops, found o b = found o (ops.foldl put a)) :
    rest [] (ops.foldl put b) = rest [] (ops.foldl put a) ∧
      kept (ops.foldl put b) = kept b := by
  -- along the batch, `b` goes on having what `a` will have
  induction ops generalizing a b with
  | nil => exact ⟨hrest, rfl⟩
  | cons o ops ih =>
    obtain ⟨hok, hops⟩ := List.forall_mem_cons.mp hops
    obtain ⟨ho, hapart⟩ := List.pairwise_cons.mp hapart
    obtain ⟨hfirst, hfound⟩ := List.forall_mem_cons.mp hfound
    have ha' : Inv (put a o) := h.inv a o hok ha
    have hlast : found o b = found o (put a o) :=
      hfirst.trans (h.found_run (fun o' ho' => ⟨hops o' ho', ho o' ho'⟩) ha')
    obtain ⟨hagain, hkept⟩ := h.again b o hok hb (hlast ▸ h.done a o hok ha)
    have hbatch : (ops.filter fun o' => !idle (found o' (put a o))) =
        ops.filter fun o' => !idle (found o' a) :=
      List.filter_congr fun o' ho' => by rw [h.other a o o' hok ha (ho o' ho')]
    have hrest : rest (ops.filter fun o' => !idle (found o' (put a o))) (put b o) =
        rest (ops.filter fun o' => !idle (found o' (put a o))) (put a o) := by
      rw [hbatch]
      cases hidle : idle (found o a) with
      | true =>
        rw [List.filter_cons_of_neg (by simp [hidle])] at hrest
        have hstay : put a o = a := h.leaves a o hok hidle
        rw [hstay, h.leaves b o hok (by rw [hlast, hstay, hidle])]
        exact hrest
      | false =>
        rw [List.filter_cons_of_pos (by simp [hidle])] at hrest
        have hlater : ∀ o' ∈ ops.filter fun o' => !idle (found o' a), Apart o o' :=
          fun o' ho' => ho o' (List.mem_filter.mp ho').1
        have hbusy : idle (found o b) = false := by rw [hlast, h.busy a o hok ha hidle]
        rw [h.moved a o _ hok ha hidle hlater, h.moved b o _ hok hb hbusy hlater, hagain, hlast,
          hrest]
    obtain ⟨htree, hrun⟩ := ih hops hapart ha' (h.inv b o hok hb) hrest fun o' ho' =>
      (h.other b o o' hok hb (ho o' ho')).trans (hfound o' ho')
    exact ⟨htree, hrun.trans hkept⟩

/-- A batch that is made twice leaves what it left the first time. -/
theorem twice (hops : ∀ o ∈ ops, Ok o) (hapart : ops.Pairwise Apart) (ha : Inv a) :
    rest [] (ops.foldl put (ops.foldl put a)) = rest [] (ops.foldl put a) ∧
      kept (ops.foldl put (ops.foldl put a)) = kept (ops.foldl put a) :=
  h.run_same hops hapart ha (h.run_inv hops ha)
    (h.rest_run hops hapart ha fun o ho hidle => List.mem_filter.mpr ⟨ho, by simp [hidle]⟩)
    fun _ _ => rfl

end Puts

/-! ## Commands that are repeated at once -/

section Repetitions

variable {A : Type} {step : S → A → S} {I : S → Prop} {as : List A} {s : S}

/-- Commands each of which sees to something that the others do not undo. -/
theorem foldl_twice {Ok : A → Prop} (Settled : A → S → Prop)
    (hI : ∀ s a, Ok a → I s → I (step s a))
    (hsettles : ∀ s a, Ok a → I s → Settled a (step s a))
    (hkept : ∀ s a a', Ok a → I s → Settled a' s → Settled a' (step s a))
    (hstays : ∀ s a, Settled a s → step s a = s) (has : ∀ a ∈ as, Ok a) (hs : I s) :
    as.foldl step (as.foldl step s) = as.foldl step s := by
  have hlater : ∀ {a' : A} {as : List A} {s : S}, (∀ a ∈ as, Ok a) → I s → Settled a' s →
      Settled a' (as.foldl step s) := fun has hs hsettled =>
    (List.foldlRecOn (motive := fun s => I s ∧ Settled _ s) _ _ ⟨hs, hsettled⟩
      fun s h a ha => ⟨hI s a (has a ha) h.1, hkept s a _ (has a ha) h.1 h.2⟩).2
  have hsettled : ∀ a ∈ as, Settled a (as.foldl step s) := by
    induction as generalizing s with
    | nil => exact fun a ha => absurd ha List.not_mem_nil
    | cons a as ih =>
      obtain ⟨ha, has⟩ := List.forall_mem_cons.mp has
      have hfirst : Settled a (as.foldl step (step s a)) :=
        hlater has (hI s a ha hs) (hsettles s a ha hs)
      exact List.forall_mem_cons.mpr ⟨hfirst, ih has (hI s a ha hs)⟩
  exact List.foldlRecOn (motive := fun t => t = as.foldl step s) as _ rfl fun t ht a ha => by
    rw [ht, hstays _ a (hsettled a ha)]

variable [DecidableEq A]

/-- Commands that are repeated only where that does nothing more. -/
theorem foldl_destutter (hI : ∀ s a, I s → I (step s a)) (hs : I s)
    (has : as.IsChain fun a a' => a = a' → ∀ s, I s → step (step s a) a = step s a) :
    (as.destutter (· ≠ ·)).foldl step s = as.foldl step s := by
  induction as using List.twoStepInduction generalizing s with
  | nil => rfl
  | singleton a => rfl
  | cons_cons a a' as _ ih =>
    obtain ⟨hagain, has⟩ := List.isChain_cons_cons.mp has
    by_cases heq : a = a'
    · subst heq
      rw [List.destutter_cons_cons, if_neg (not_not.mpr rfl), ← List.destutter_cons',
        ih a hs has, List.foldl_cons, List.foldl_cons, List.foldl_cons, hagain rfl s hs]
    · rw [List.destutter_cons_cons, if_pos heq, List.foldl_cons, List.foldl_cons,
        ← List.destutter_cons', ih a' (hI s a hs) has]

end Repetitions

end Lib.Batches
