import Mathlib.Data.List.Dedup
import Mathlib.Data.List.Flatten
import Mathlib.Data.List.Induction

/-!
# First and last occurrences

The elements of a list that no later element replaces (`lastBy`), two elements
standing for the same thing where they have the same key. `List.dedup` is the
case in which every element is its own key. `List.eraseDups` keeps first
occurrences instead.

A program that takes out what it already has under a key before it adds an
element at the end builds the first kind of list from the left (`lastBy_concat`);
one that adds what it does not have yet builds the second (`eraseDups_concat`). A
program that overwrites a value whenever an element gives one is left with the last
(`lastValue`). A program that leaves out part of what it should make makes less
(`flatMap_eq_iff_of_sublist`).
-/

namespace Lib.Occurrences

variable {α κ π : Type*} [DecidableEq κ] {key : α → κ} {l : List α} {a : α} {k : κ}

/-- The elements of the list that are the last with their key, in order. -/
def lastBy (key : α → κ) (l : List α) : List α := l.pwFilter fun a b => key a ≠ key b

@[simp] theorem lastBy_nil : lastBy key [] = [] := rfl

theorem lastBy_subset : lastBy key l ⊆ l := List.pwFilter_subset l

theorem lastBy_concat (l : List α) (a : α) :
    lastBy key (l ++ [a]) = (lastBy key l).filter (fun b => key b ≠ key a) ++ [a] := by
  induction l with
  | nil => rfl
  | cons x l ih =>
    unfold lastBy at ih ⊢
    rw [List.cons_append]
    by_cases hx : ∀ b ∈ l.pwFilter fun a b => key a ≠ key b, key x ≠ key b
    · rw [List.pwFilter_cons_of_pos hx]
      by_cases ha : key x = key a
      · have hlater : ¬ ∀ b ∈ (l ++ [a]).pwFilter fun a b => key a ≠ key b, key x ≠ key b := by
          rw [ih]
          exact fun h => h a (by simp) ha
        rw [List.pwFilter_cons_of_neg hlater, ih, List.filter_cons_of_neg (by simpa using ha)]
      · have hlater : ∀ b ∈ (l ++ [a]).pwFilter fun a b => key a ≠ key b, key x ≠ key b := by
          rw [ih]
          intro b hb
          rcases List.mem_append.mp hb with hb | hb
          · exact hx b (List.mem_filter.mp hb).1
          · rwa [List.mem_singleton.mp hb]
        rw [List.pwFilter_cons_of_pos hlater, ih, List.filter_cons_of_pos (by simpa using ha),
          List.cons_append]
    · have hlater : ¬ ∀ b ∈ (l ++ [a]).pwFilter fun a b => key a ≠ key b, key x ≠ key b := by
        rw [ih]
        intro h
        refine hx fun b hb heq => ?_
        by_cases hb' : key b = key a
        · exact h a (by simp) (heq.trans hb')
        · exact h b (List.mem_append_left _ (List.mem_filter.mpr ⟨hb, by simpa using hb'⟩)) heq
      rw [List.pwFilter_cons_of_neg hx, List.pwFilter_cons_of_neg hlater, ih]

theorem map_lastBy (key : α → κ) (l : List α) : (lastBy key l).map key = (l.map key).dedup :=
  (List.pwFilter_map (R := fun a b : κ => a ≠ b) key l).symm

theorem nodup_lastBy : ((lastBy key l).map key).Nodup := by
  rw [map_lastBy]
  exact List.nodup_dedup _

theorem exists_mem_lastBy (h : k ∈ l.map key) : ∃ a ∈ lastBy key l, key a = k := by
  rw [← List.mem_dedup, ← map_lastBy] at h
  exact List.mem_map.mp h

theorem dedup_concat (l : List κ) (k : κ) :
    (l ++ [k]).dedup = l.dedup.filter (· ≠ k) ++ [k] := lastBy_concat l k

theorem eraseDups_concat (l : List κ) (k : κ) :
    (l ++ [k]).eraseDups = if k ∈ l then l.eraseDups else l.eraseDups ++ [k] := by
  rw [List.eraseDups_append]
  by_cases hk : k ∈ l
  · simp [List.removeAll, hk]
  · simp [List.removeAll, hk, List.eraseDups_cons]

theorem nodup_eraseDups (l : List κ) : l.eraseDups.Nodup := by
  induction l using List.reverseRecOn with
  | nil => exact List.nodup_nil
  | append_singleton l k ih =>
    rw [eraseDups_concat]
    split
    · exact ih
    · rename_i hk
      refine List.nodup_append.mpr ⟨ih, List.nodup_singleton k, fun a ha b hb => ?_⟩
      rw [List.mem_singleton.mp hb]
      rintro rfl
      exact hk (List.mem_eraseDups.mp ha)

omit [DecidableEq κ] in
/-- Distinct elements stay distinct when they are sorted into places. -/
theorem nodup_places [DecidableEq π] {place : α → π} {places : List π} (hp : places.Nodup)
    (hl : (l.map key).Nodup) :
    (places.flatMap fun p => (l.filter fun a => place a = p).map key).Nodup := by
  rw [List.nodup_flatMap]
  refine ⟨fun p _ => (List.filter_sublist.map key).nodup hl, hp.imp fun hne k hk hk' => hne ?_⟩
  obtain ⟨a, ha, rfl⟩ := List.mem_map.mp hk
  obtain ⟨b, hb, hab⟩ := List.mem_map.mp hk'
  simp only [List.mem_filter, decide_eq_true_iff] at ha hb
  rw [← ha.2, ← hb.2, List.inj_on_of_nodup_map hl hb.1 ha.1 hab]

/-! ## Last values -/

section LastValue

variable {β : Type*} {read : α → Option β} {old : β}

/-- The value read from the last element that gives one, `old` where none does. -/
def lastValue (read : α → Option β) (l : List α) (old : β) : β :=
  (l.reverse.findSome? read).getD old

@[simp] theorem lastValue_nil : lastValue read [] old = old := rfl

theorem lastValue_concat (l : List α) (a : α) :
    lastValue read (l ++ [a]) old = (read a).getD (lastValue read l old) := by
  rw [lastValue, List.reverse_append, List.reverse_singleton, List.singleton_append,
    List.findSome?_cons]
  cases read a <;> rfl

/-- Reading the same elements again changes nothing. -/
theorem lastValue_lastValue (l : List α) :
    lastValue read l (lastValue read l old) = lastValue read l old := by
  unfold lastValue
  cases l.reverse.findSome? read <;> rfl

end LastValue

/-! ## Parts of a concatenation -/

/-- A part of each piece makes the whole only where each part is its piece. -/
theorem flatMap_eq_iff_of_sublist {f g : α → List π} {xs : List α}
    (h : ∀ x ∈ xs, (g x).Sublist (f x)) :
    xs.flatMap g = xs.flatMap f ↔ ∀ x ∈ xs, g x = f x := by
  induction xs with
  | nil => simp
  | cons x xs ih =>
    obtain ⟨hx, hxs⟩ := List.forall_mem_cons.mp h
    rw [List.flatMap_cons, List.flatMap_cons, List.forall_mem_cons, ← ih hxs]
    have hrest : (xs.flatMap g).length ≤ (xs.flatMap f).length :=
      (List.Sublist.flatMap_right xs hxs).length_le
    constructor
    · intro heq
      have hlength := congrArg List.length heq
      rw [List.length_append, List.length_append] at hlength
      have hfirst : (g x).length = (f x).length := by
        have := hx.length_le
        omega
      exact List.append_inj heq hfirst
    · rintro ⟨hfirst, hall⟩
      rw [hfirst, hall]

/-- Leaving elements out, and part of what the others make, changes nothing only where the
others make no more than that part and those left out make nothing. -/
theorem filter_flatMap_eq_iff {f g : α → List π} {keep : α → Bool} {xs : List α}
    (h : ∀ x ∈ xs, (g x).Sublist (f x)) :
    (xs.filter keep).flatMap g = xs.flatMap f ↔
      ∀ x ∈ xs, if keep x = true then g x = f x else f x = [] := by
  have hfilter : (xs.filter keep).flatMap g =
      xs.flatMap fun x => if keep x = true then g x else [] := by
    clear h
    induction xs with
    | nil => rfl
    | cons x xs ih =>
      rw [List.filter_cons, List.flatMap_cons, ← ih]
      split
      · rw [List.flatMap_cons]
      · rfl
  rw [hfilter, flatMap_eq_iff_of_sublist]
  · refine forall₂_congr fun x _ => ?_
    split
    · rfl
    · exact eq_comm
  · intro x hx
    split
    · exact h x hx
    · exact List.nil_sublist _

/-! ## Lists without repetitions -/

theorem lastBy_of_nodup (nd : (l.map key).Nodup) : lastBy key l = l :=
  List.pwFilter_eq_self.mpr (List.pairwise_map.mp nd)

theorem eraseDups_of_nodup {l : List κ} (nd : l.Nodup) : l.eraseDups = l := by
  induction l using List.reverseRecOn with
  | nil => rfl
  | append_singleton l k ih =>
    rw [List.nodup_append] at nd
    obtain ⟨hl, -, hdisjoint⟩ := nd
    have hk : k ∉ l := fun hk => hdisjoint k hk k (List.mem_singleton_self k) rfl
    rw [eraseDups_concat, if_neg hk, ih hl]

/-- What stems from one element, where each thing tells which one it stems from. -/
theorem filter_flatMap_of_key {f : α → List π} {stem : π → κ} (nd : (l.map key).Nodup)
    (hstem : ∀ a ∈ l, ∀ b ∈ f a, stem b = key a) (ha : a ∈ l) :
    (l.flatMap f).filter (fun b => decide (stem b = key a)) = f a := by
  induction l with
  | nil => cases ha
  | cons x l ih =>
    rw [List.map_cons, List.nodup_cons] at nd
    obtain ⟨hx, hl⟩ := List.forall_mem_cons.mp hstem
    rw [List.flatMap_cons, List.filter_append]
    rcases List.mem_cons.mp ha with rfl | ha
    · have hnone : (l.flatMap f).filter (fun b => decide (stem b = key a)) = [] := by
        refine List.filter_eq_nil_iff.mpr fun b hb hsame => nd.1 ?_
        obtain ⟨y, hy, hb⟩ := List.mem_flatMap.mp hb
        rw [← of_decide_eq_true hsame, hl y hy b hb]
        exact List.mem_map_of_mem hy
      rw [hnone, List.append_nil]
      exact List.filter_eq_self.mpr fun b hb => decide_eq_true (hx b hb)
    · have hnone : (f x).filter (fun b => decide (stem b = key a)) = [] := by
        refine List.filter_eq_nil_iff.mpr fun b hb hsame => nd.1 ?_
        rw [← hx b hb, of_decide_eq_true hsame]
        exact List.mem_map_of_mem ha
      rw [hnone, List.nil_append]
      exact ih nd.2 hl ha

end Lib.Occurrences
