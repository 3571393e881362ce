import Mathlib.Data.List.Perm.Basic
import Mathlib.Data.List.Nodup
import Mathlib.Data.List.Lookmap

/-!
# Lists whose elements carry a key

A list searched from its head for the first element with a given key: lookup
(`List.find?`), removal of that element (`List.eraseP`), an update in place
(`updateFirst`) and an insertion next to it (`insertBefore`, `insertAfter`).

Where no two elements share a key the first match is the only one, and the
three operations have their closed forms: `find?_key_iff`,
`eraseP_key_eq_filter` and `updateFirst_eq_map`. Without that assumption
removal and update still take apart the same list (`perm_cons_eraseP`,
`updateFirst_perm`), which is what counting arguments need.
-/

namespace Lib.KeyedList

variable {α κ : Type*} [DecidableEq κ] {key : α → κ} {k : κ} {l : List α} {a : α}

/-! ## Lookup -/

theorem find?_key_eq_none : l.find? (fun a => key a == k) = none ↔ k ∉ l.map key := by
  simp only [List.find?_eq_none, beq_iff_eq, List.mem_map, not_exists, not_and]

theorem mem_of_find?_key (h : l.find? (fun a => key a == k) = some a) : a ∈ l ∧ key a = k :=
  ⟨List.mem_of_find?_eq_some h, by simpa using List.find?_some h⟩

theorem exists_find?_key (h : k ∈ l.map key) : ∃ a, l.find? (fun a => key a == k) = some a := by
  cases hf : l.find? (fun a => key a == k) with
  | some a => exact ⟨a, rfl⟩
  | none => exact absurd h (find?_key_eq_none.mp hf)

/-- With distinct keys, the lookup finds exactly the element with the key. -/
theorem find?_key_iff (nd : (l.map key).Nodup) :
    l.find? (fun a => key a == k) = some a ↔ a ∈ l ∧ key a = k := by
  refine ⟨mem_of_find?_key, ?_⟩
  rintro ⟨ha, rfl⟩
  obtain ⟨b, hb⟩ := exists_find?_key (List.mem_map_of_mem (f := key) ha)
  obtain ⟨hbl, hbk⟩ := mem_of_find?_key hb
  rw [hb, List.inj_on_of_nodup_map nd hbl ha hbk]

omit [DecidableEq κ] in
theorem key_ne_of_notMem (h : k ∉ l.map key) (ha : a ∈ l) : key a ≠ k := fun e =>
  h (List.mem_map.mpr ⟨a, ha, e⟩)

/-! ## Removal -/

/-- On the keys, removing the first match is `List.erase`. -/
theorem map_eraseP_key (key : α → κ) (k : κ) (l : List α) :
    (l.eraseP (fun a => key a == k)).map key = (l.map key).erase k := by
  rw [List.erase_eq_eraseP', List.eraseP_map]
  rfl

theorem nodup_eraseP_key (nd : (l.map key).Nodup) :
    ((l.eraseP (fun a => key a == k)).map key).Nodup := by
  rw [map_eraseP_key]
  exact nd.erase k

/-- The found element and what is left after removing it make up the list. -/
theorem perm_cons_eraseP (h : l.find? (fun a => key a == k) = some a) :
    l.Perm (a :: l.eraseP (fun a => key a == k)) := by
  induction l with
  | nil => simp at h
  | cons b l ih =>
    rw [List.find?_cons] at h
    rw [List.eraseP_cons]
    by_cases hb : key b = k
    · simp only [hb, beq_self_eq_true, Option.some.injEq] at h ⊢
      subst h
      exact .refl _
    · have hb' : (key b == k) = false := by simpa using hb
      simp only [hb'] at h ⊢
      exact ((ih h).cons b).trans (.swap a b _)

theorem eraseP_key_of_find?_none (h : l.find? (fun a => key a == k) = none) :
    l.eraseP (fun a => key a == k) = l :=
  List.eraseP_of_forall_not fun a ha => by
    simpa using List.find?_eq_none.mp h a ha

/-- With distinct keys, removing the first match leaves the other keys. -/
theorem eraseP_key_eq_filter (nd : (l.map key).Nodup) :
    l.eraseP (fun a => key a == k) = l.filter (fun a => key a != k) := by
  induction l with
  | nil => rfl
  | cons b l ih =>
    rw [List.map_cons, List.nodup_cons] at nd
    rw [List.eraseP_cons, List.filter_cons]
    by_cases hb : key b = k
    · subst hb
      have hrest : ∀ a ∈ l, (key a != key b) = true := fun a ha => by
        simpa using key_ne_of_notMem nd.1 ha
      simp [List.filter_eq_self.mpr hrest]
    · have hb' : (key b == k) = false := by simpa using hb
      simp [hb, hb', ih nd.2]

theorem mem_eraseP_key (nd : (l.map key).Nodup) :
    a ∈ l.eraseP (fun a => key a == k) ↔ a ∈ l ∧ key a ≠ k := by
  rw [eraseP_key_eq_filter nd]
  simp

/-- Removing under one key does not disturb the lookup of another. -/
theorem find?_eraseP_of_ne {k' : κ} (h : k' ≠ k) :
    (l.eraseP fun a => key a == k).find? (fun a => key a == k') =
      l.find? (fun a => key a == k') := by
  induction l with
  | nil => rfl
  | cons b l ih =>
    rw [List.eraseP_cons]
    by_cases hb : key b = k
    · subst hb
      have hb' : (key b == k') = false := by simpa using fun e => h e.symm
      simp [hb']
    · have hb' : (key b == k) = false := by simpa using hb
      simp [hb', List.find?_cons, ih]

/-! ## Update in place -/

/-- Replaces the first element satisfying `p` by its image under `f`. -/
def updateFirst (p : α → Bool) (f : α → α) (l : List α) : List α :=
  l.lookmap fun a => if p a then some (f a) else none

@[simp] theorem updateFirst_nil {p : α → Bool} {f : α → α} : updateFirst p f [] = [] := rfl

theorem updateFirst_cons {p : α → Bool} {f : α → α} {b : α} {l : List α} :
    updateFirst p f (b :: l) = if p b then f b :: l else b :: updateFirst p f l := by
  by_cases h : p b
  · rw [if_pos h]
    exact List.lookmap_cons_some _ l (if_pos h)
  · rw [if_neg h]
    exact List.lookmap_cons_none _ l (if_neg h)

/-- An update that keeps some projection of the updated element keeps it all along the list. -/
theorem map_updateFirst {β : Type*} {p : α → Bool} {f : α → α} {g : α → β}
    (hf : ∀ a, p a → g (f a) = g a) : (updateFirst p f l).map g = l.map g := by
  refine List.lookmap_map_eq _ g (fun a b hb => ?_) l
  by_cases h : p a
  · simp only [h, if_true, Option.mem_some_iff] at hb
    rw [← hb, hf a h]
  · simp [h] at hb

theorem updateFirst_of_forall_not {p : α → Bool} {f : α → α} (h : ∀ a ∈ l, ¬ p a) :
    updateFirst p f l = l :=
  List.lookmap_of_forall_not _ fun a ha => by simp [h a ha]

/-- Writing under a key is seen by the lookup of that key only. -/
theorem find?_updateFirst {f : α → α} (hf : ∀ a, key (f a) = key a) (k' : κ) :
    (updateFirst (fun a => key a == k) f l).find? (fun a => key a == k') =
      if k' = k then (l.find? fun a => key a == k').map f else l.find? (fun a => key a == k') := by
  induction l with
  | nil => simp
  | cons b l ih =>
    rw [updateFirst_cons]
    by_cases hb : key b = k
    · subst hb
      by_cases hk : k' = key b
      · subst hk
        simp [hf]
      · have hb' : (key b == k') = false := by simpa using fun e => hk e.symm
        simp [hf, hb', hk]
    · by_cases hk : k' = k
      · subst hk
        simp [hb, ih]
      · simp only [hb, beq_iff_eq, if_false, List.find?_cons, ih, hk]

/-- Two writes under one key are one. -/
theorem updateFirst_updateFirst {p : α → Bool} {f g : α → α} (hf : ∀ a, p a → p (f a)) :
    updateFirst p g (updateFirst p f l) = updateFirst p (g ∘ f) l := by
  induction l with
  | nil => rfl
  | cons b l ih =>
    rw [updateFirst_cons, updateFirst_cons]
    by_cases hb : p b
    · simp [hb, updateFirst_cons, hf b hb]
    · simp [hb, updateFirst_cons, ih]

/-- Only what the write does to the element found matters. -/
theorem updateFirst_congr {p : α → Bool} {f g : α → α} (h : ∀ a, l.find? p = some a → f a = g a) :
    updateFirst p f l = updateFirst p g l := by
  induction l with
  | nil => rfl
  | cons b l ih =>
    rw [updateFirst_cons, updateFirst_cons]
    by_cases hb : p b
    · simp [hb, h b (by simp [hb])]
    · simp only [hb, Bool.false_eq_true, if_false]
      rw [ih fun a ha => h a (by simp [hb, ha])]

theorem updateFirst_id {p : α → Bool} {f : α → α} (h : ∀ a, l.find? p = some a → f a = a) :
    updateFirst p f l = l := by
  rw [updateFirst_congr h]
  clear h
  induction l with
  | nil => rfl
  | cons b l ih =>
    rw [updateFirst_cons, ih]
    split <;> rfl

/-- An update takes apart the list as the removal of the same element does. -/
theorem updateFirst_perm {f : α → α} (h : l.find? (fun a => key a == k) = some a) :
    (updateFirst (fun a => key a == k) f l).Perm (f a :: l.eraseP (fun a => key a == k)) := by
  induction l with
  | nil => simp at h
  | cons b l ih =>
    rw [List.find?_cons] at h
    rw [List.eraseP_cons, updateFirst_cons]
    by_cases hb : key b = k
    · simp only [hb, beq_self_eq_true, Option.some.injEq] at h ⊢
      subst h
      exact .refl _
    · have hb' : (key b == k) = false := by simpa using hb
      simp only [hb'] at h ⊢
      exact ((ih h).cons b).trans (.swap (f a) b _)

/-- With distinct keys, the update acts on the one element with the key. -/
theorem updateFirst_eq_map {f : α → α} (nd : (l.map key).Nodup) :
    updateFirst (fun a => key a == k) f l = l.map fun a => if key a = k then f a else a := by
  induction l with
  | nil => rfl
  | cons b l ih =>
    rw [List.map_cons, List.nodup_cons] at nd
    rw [updateFirst_cons, List.map_cons]
    by_cases hb : key b = k
    · subst hb
      have hrest : ∀ a ∈ l, (if key a = key b then f a else a) = a := fun a ha =>
        if_neg (key_ne_of_notMem nd.1 ha)
      simp [List.map_congr_left hrest]
    · simp [hb, ih nd.2]

/-! ## Insertion next to a key -/

/-- Puts `a` in front of the first element with key `k`, or at the end. -/
def insertBefore (key : α → κ) (k : κ) (a : α) : List α → List α
  | [] => [a]
  | b :: l => if key b = k then a :: b :: l else b :: insertBefore key k a l

/-- Puts `a` behind the first element with key `k`, or at the end. -/
def insertAfter (key : α → κ) (k : κ) (a : α) : List α → List α
  | [] => [a]
  | b :: l => if key b = k then b :: a :: l else b :: insertAfter key k a l

/-- On the keys, inserting an element is inserting its key. -/
theorem map_insertBefore (key : α → κ) (k : κ) (a : α) (l : List α) :
    (insertBefore key k a l).map key = insertBefore id k (key a) (l.map key) := by
  induction l with
  | nil => rfl
  | cons b l ih =>
    rw [insertBefore, List.map_cons, insertBefore, id_eq]
    split
    · rfl
    · rw [List.map_cons, ih]

theorem map_insertAfter (key : α → κ) (k : κ) (a : α) (l : List α) :
    (insertAfter key k a l).map key = insertAfter id k (key a) (l.map key) := by
  induction l with
  | nil => rfl
  | cons b l ih =>
    rw [insertAfter, List.map_cons, insertAfter, id_eq]
    split
    · rfl
    · rw [List.map_cons, ih]

theorem insertBefore_perm (k : κ) (a : α) (l : List α) :
    (insertBefore key k a l).Perm (a :: l) := by
  induction l with
  | nil => exact .refl _
  | cons b l ih =>
    unfold insertBefore
    split
    · exact .refl _
    · exact (ih.cons b).trans (.swap a b l)

theorem insertAfter_perm (k : κ) (a : α) (l : List α) :
    (insertAfter key k a l).Perm (a :: l) := by
  induction l with
  | nil => exact .refl _
  | cons b l ih =>
    unfold insertAfter
    split
    · exact .swap a b l
    · exact (ih.cons b).trans (.swap a b l)

/-! ## What a list has under some of the keys -/

section Part

variable {q : κ → Bool}

omit [DecidableEq κ] in
/-- Elements that are updated in place before or after they are translated. -/
theorem updateFirst_map {β : Type*} {p : α → Bool} {p' : β → Bool} {f : α → α} {f' : β → β}
    {g : α → β} (hp : ∀ a ∈ l, p' (g a) = p a) (hf : ∀ a, g (f a) = f' (g a)) :
    (updateFirst p f l).map g = updateFirst p' f' (l.map g) := by
  induction l with
  | nil => rfl
  | cons b l ih =>
    obtain ⟨hb, hl⟩ := List.forall_mem_cons.mp hp
    rw [updateFirst_cons, List.map_cons, updateFirst_cons, hb]
    by_cases h : p b
    · rw [if_pos h, if_pos h, List.map_cons, hf]
    · rw [if_neg h, if_neg h, List.map_cons, ih hl]

theorem mem_updateFirst {p : α → Bool} {f : α → α} (h : a ∈ updateFirst p f l) :
    a ∈ l ∨ ∃ b ∈ l, p b ∧ a = f b := by
  induction l with
  | nil => exact .inl h
  | cons b l ih =>
    rw [updateFirst_cons] at h
    by_cases hb : p b
    · rw [if_pos hb] at h
      rcases List.mem_cons.mp h with rfl | h
      · exact .inr ⟨b, List.mem_cons_self, hb, rfl⟩
      · exact .inl (List.mem_cons_of_mem b h)
    · rw [if_neg hb] at h
      rcases List.mem_cons.mp h with rfl | h
      · exact .inl List.mem_cons_self
      · rcases ih h with h | ⟨c, hc, hp, rfl⟩
        · exact .inl (List.mem_cons_of_mem b h)
        · exact .inr ⟨c, List.mem_cons_of_mem b hc, hp, rfl⟩

theorem find?_filter_key (hk : q k = true) :
    (l.filter fun a => q (key a)).find? (fun a => key a == k) = l.find? fun a => key a == k := by
  rw [List.find?_filter]
  congr 1
  funext a
  by_cases ha : key a = k
  · simp [ha, hk]
  · simp [ha]

theorem any_filter_key (hk : q k = true) :
    (l.filter fun a => q (key a)).any (fun a => key a == k) = l.any fun a => key a == k := by
  rw [List.any_filter]
  congr 1
  funext a
  by_cases ha : key a = k
  · simp [ha, hk]
  · simp [ha]

theorem filter_eraseP_key (hk : q k = true) :
    (l.eraseP fun a => key a == k).filter (fun a => q (key a)) =
      (l.filter fun a => q (key a)).eraseP fun a => key a == k := by
  rw [List.eraseP_filter]
  congr 2
  funext a
  by_cases ha : key a = k
  · simp [ha, hk]
  · simp [ha]

theorem filter_eraseP_key_of_not (hk : q k = false) :
    (l.eraseP fun a => key a == k).filter (fun a => q (key a)) =
      l.filter fun a => q (key a) := by
  induction l with
  | nil => rfl
  | cons b l ih =>
    by_cases hb : key b = k
    · simp [hb, hk]
    · have hb' : (key b == k) = false := by simpa using hb
      simp [hb', List.filter_cons, ih]

theorem filter_updateFirst_key {f : α → α} (hf : ∀ a, key (f a) = key a) (hk : q k = true) :
    (updateFirst (fun a => key a == k) f l).filter (fun a => q (key a)) =
      updateFirst (fun a => key a == k) f (l.filter fun a => q (key a)) := by
  induction l with
  | nil => rfl
  | cons b l ih =>
    rw [updateFirst_cons]
    by_cases hb : key b = k
    · simp [hb, hf, hk, updateFirst_cons]
    · by_cases hq : q (key b) = true
      · simp [hb, hq, ih, updateFirst_cons]
      · simp [hb, hq, ih]

theorem filter_updateFirst_key_of_not {f : α → α} (hf : ∀ a, key (f a) = key a)
    (hk : q k = false) :
    (updateFirst (fun a => key a == k) f l).filter (fun a => q (key a)) =
      l.filter fun a => q (key a) := by
  induction l with
  | nil => rfl
  | cons b l ih =>
    rw [updateFirst_cons]
    by_cases hb : key b = k
    · simp [hb, hf, hk]
    · simp [hb, List.filter_cons, ih]

theorem filter_insertBefore_key (hk : q k = true) (ha : q (key a) = true) :
    (insertBefore key k a l).filter (fun a => q (key a)) =
      insertBefore key k a (l.filter fun a => q (key a)) := by
  induction l with
  | nil => simp [insertBefore, ha]
  | cons b l ih =>
    rw [insertBefore]
    by_cases hb : key b = k
    · simp [hb, hk, ha, insertBefore]
    · by_cases hq : q (key b) = true
      · simp [hb, hq, ih, insertBefore]
      · simp [hb, hq, ih]

theorem filter_insertAfter_key (hk : q k = true) (ha : q (key a) = true) :
    (insertAfter key k a l).filter (fun a => q (key a)) =
      insertAfter key k a (l.filter fun a => q (key a)) := by
  induction l with
  | nil => simp [insertAfter, ha]
  | cons b l ih =>
    rw [insertAfter]
    by_cases hb : key b = k
    · simp [hb, hk, ha, insertAfter]
    · by_cases hq : q (key b) = true
      · simp [hb, hq, ih, insertAfter]
      · simp [hb, hq, ih]

theorem filter_insertBefore_key_of_not (ha : q (key a) = false) :
    (insertBefore key k a l).filter (fun a => q (key a)) = l.filter fun a => q (key a) := by
  induction l with
  | nil => simp [insertBefore, ha]
  | cons b l ih =>
    rw [insertBefore]
    split
    · simp [List.filter_cons, ha]
    · simp [List.filter_cons, ih]

theorem filter_insertAfter_key_of_not (ha : q (key a) = false) :
    (insertAfter key k a l).filter (fun a => q (key a)) = l.filter fun a => q (key a) := by
  induction l with
  | nil => simp [insertAfter, ha]
  | cons b l ih =>
    rw [insertAfter]
    split
    · simp [List.filter_cons, ha]
    · simp [List.filter_cons, ih]

omit [DecidableEq κ] in
/-- To take out more than what is meant makes a difference where there is more. -/
theorem filter_not_eq_iff {taken meant : α → Prop} [DecidablePred taken] [DecidablePred meant]
    (h : ∀ a, meant a → taken a) :
    (l.filter fun a => ¬ taken a) = (l.filter fun a => ¬ meant a) ↔
      ∀ a ∈ l, taken a → meant a := by
  constructor
  · intro heq a ha htaken
    by_contra hnot
    have hmem : a ∈ l.filter fun a => ¬ meant a := List.mem_filter.mpr ⟨ha, by simpa using hnot⟩
    rw [← heq] at hmem
    exact of_decide_eq_true (List.mem_filter.mp hmem).2 htaken
  · intro hall
    refine List.filter_congr fun a ha => decide_eq_decide.mpr (not_congr ?_)
    exact ⟨hall a ha, h a⟩

end Part

/-! ## Lists sorted by key -/

section Sorted

variable {key : α → ℕ} {n : ℕ}

/-- The elements of the largest key are at the end. -/
theorem filter_append_filter_key (hsorted : (l.map key).Pairwise (· ≤ ·))
    (hle : ∀ a ∈ l, key a ≤ n) :
    l.filter (fun a => decide (key a < n)) ++ l.filter (fun a => key a == n) = l := by
  induction l with
  | nil => rfl
  | cons a l ih =>
    rw [List.map_cons, List.pairwise_cons] at hsorted
    obtain ⟨ha, hl⟩ := List.forall_mem_cons.mp hle
    rcases Nat.lt_or_eq_of_le ha with hlt | heq
    · have hne : ¬ (key a == n) = true := fun he => Nat.ne_of_lt hlt (beq_iff_eq.mp he)
      rw [List.filter_cons, List.filter_cons, if_pos (decide_eq_true hlt), if_neg hne,
        List.cons_append, ih hsorted.2 hl]
    · have hlast : ∀ b ∈ a :: l, key b = n := by
        intro b hb
        rcases List.mem_cons.mp hb with rfl | hb
        · exact heq
        · have hge := hsorted.1 (key b) (List.mem_map_of_mem hb)
          exact Nat.le_antisymm (hl b hb) (heq ▸ hge)
      rw [List.filter_eq_nil_iff.mpr fun b hb => by simp [hlast b hb],
        List.filter_eq_self.mpr fun b hb => beq_iff_eq.mpr (hlast b hb), List.nil_append]

/-- A sorted list is made of its elements key by key. -/
theorem flatMap_filter_key (hsorted : (l.map key).Pairwise (· ≤ ·)) (hlt : ∀ a ∈ l, key a < n) :
    (List.range n).flatMap (fun k => l.filter fun a => key a == k) = l := by
  induction n generalizing l with
  | zero =>
    have hnil : l = [] :=
      List.eq_nil_iff_forall_not_mem.mpr fun a ha => Nat.not_lt_zero _ (hlt a ha)
    rw [hnil]
    rfl
  | succ n ih =>
    have hle : ∀ a ∈ l, key a ≤ n := fun a ha => Nat.le_of_lt_succ (hlt a ha)
    let below := l.filter fun a => decide (key a < n)
    have hbelow : (below.map key).Pairwise (· ≤ ·) :=
      hsorted.sublist (List.filter_sublist.map key)
    have hkeys : ∀ a ∈ below, key a < n := fun a ha => of_decide_eq_true (List.mem_filter.mp ha).2
    have hsame : ∀ k ∈ List.range n,
        l.filter (fun a => key a == k) = below.filter fun a => key a == k := by
      intro k hk
      rw [List.filter_filter]
      refine List.filter_congr fun a _ => ?_
      cases hak : key a == k with
      | false => rw [Bool.false_and]
      | true => rw [beq_iff_eq.mp hak, decide_eq_true (List.mem_range.mp hk), Bool.true_and]
    rw [List.range_succ, List.flatMap_append, List.flatMap_singleton, List.flatMap_congr hsame,
      ih hbelow hkeys]
    exact filter_append_filter_key hsorted hle

end Sorted

end Lib.KeyedList
