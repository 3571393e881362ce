import UhmiIviWm.Lib.KeyedList
import UhmiIviWm.Lib.Occurrences

/-!
# Moving elements within a list

A batch of elements is moved one after the other: each is taken out of the list
and put in again (`moveAll`), at the end, at the front, or next to an element
that stays. The elements that are not moved keep their order, and of an element
named twice the last move counts, so the batch ends up without its earlier
duplicates: in order where each is put behind the one before, reversed where it
is put in front.
-/

namespace Lib.Moves

open KeyedList Occurrences

variable {κ : Type*} [DecidableEq κ] {put : κ → List κ → List κ} {batch l : List κ} {k r : κ}

/-- Takes `k` out and puts it in again. -/
def move (put : κ → List κ → List κ) (l : List κ) (k : κ) : List κ := put k (l.filter (· ≠ k))

/-- Puts its element in once and leaves the others as they are. -/
structure Puts (put : κ → List κ → List κ) : Prop where
  perm : ∀ k l, (put k l).Perm (k :: l)
  rest : ∀ k l, k ∉ l → (put k l).filter (· ≠ k) = l

theorem Puts.filter_move (h : Puts put) (l : List κ) (k : κ) :
    (move put l k).filter (· ≠ k) = l.filter (· ≠ k) :=
  h.rest k _ fun hk => by simp at hk

theorem insertBefore_of_notMem (h : r ∉ l) (k : κ) : insertBefore id r k l = l ++ [k] := by
  induction l with
  | nil => rfl
  | cons a l ih =>
    rw [List.mem_cons, not_or] at h
    rw [insertBefore, if_neg fun e => h.1 e.symm, ih h.2, List.cons_append]

theorem insertAfter_of_notMem (h : r ∉ l) (k : κ) : insertAfter id r k l = l ++ [k] := by
  induction l with
  | nil => rfl
  | cons a l ih =>
    rw [List.mem_cons, not_or] at h
    rw [insertAfter, if_neg fun e => h.1 e.symm, ih h.2, List.cons_append]

theorem insertBefore_append (h : r ∉ l) (k : κ) (l' : List κ) :
    insertBefore id r k (l ++ r :: l') = l ++ k :: r :: l' := by
  induction l with
  | nil => exact if_pos rfl
  | cons a l ih =>
    rw [List.mem_cons, not_or] at h
    rw [List.cons_append, insertBefore, if_neg fun e => h.1 e.symm, ih h.2, List.cons_append]

theorem insertAfter_append (h : r ∉ l) (k : κ) (l' : List κ) :
    insertAfter id r k (l ++ r :: l') = l ++ r :: k :: l' := by
  induction l with
  | nil => exact if_pos rfl
  | cons a l ih =>
    rw [List.mem_cons, not_or] at h
    rw [List.cons_append, insertAfter, if_neg fun e => h.1 e.symm, ih h.2, List.cons_append]

section Reference

variable {before after : List κ}

/-- An element is put between two halves of the list. -/
theorem Puts.of_split (h : ∀ k l, ∃ a b, l = a ++ b ∧ put k l = a ++ k :: b) : Puts put where
  perm := by
    intro k l
    obtain ⟨a, b, rfl, hput⟩ := h k l
    rw [hput]
    exact List.perm_middle
  rest := by
    intro k l hk
    obtain ⟨a, b, rfl, hput⟩ := h k l
    rw [List.mem_append, not_or] at hk
    rw [hput, List.filter_append, List.filter_cons_of_neg (by simp)]
    have hkeep : ∀ c : List κ, k ∉ c → c.filter (· ≠ k) = c := fun c hc =>
      List.filter_eq_self.mpr fun x hx => by simpa using ne_of_mem_of_not_mem hx hc
    rw [hkeep a hk.1, hkeep b hk.2]

theorem puts_back : Puts fun (k : κ) l => l ++ [k] :=
  .of_split fun _ l => ⟨l, [], (List.append_nil l).symm, rfl⟩

theorem puts_front : Puts fun (k : κ) l => k :: l := .of_split fun _ l => ⟨[], l, rfl, rfl⟩

theorem puts_before (r : κ) : Puts (insertBefore id r) :=
  .of_split fun k l => by
    by_cases hr : r ∈ l
    · obtain ⟨a, b, rfl, ha⟩ := List.eq_append_cons_of_mem hr
      exact ⟨a, r :: b, rfl, insertBefore_append ha k b⟩
    · exact ⟨l, [], (List.append_nil l).symm, insertBefore_of_notMem hr k⟩

theorem puts_after (r : κ) : Puts (insertAfter id r) :=
  .of_split fun k l => by
    by_cases hr : r ∈ l
    · obtain ⟨a, b, rfl, ha⟩ := List.eq_append_cons_of_mem hr
      exact ⟨a ++ [r], b, by simp, by simpa using insertAfter_append ha k b⟩
    · exact ⟨l, [], (List.append_nil l).symm, insertAfter_of_notMem hr k⟩

end Reference

end Lib.Moves
