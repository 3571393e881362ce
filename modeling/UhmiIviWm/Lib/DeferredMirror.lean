import Mathlib.Data.List.Basic

/-!
# Mirrors that are brought up to date late

A table of lists, one for each key and no value on two of them, is mirrored by a
view that keeps a list for each key. The view is told the list of a key now and
then; being told it, it also takes the values of that list off every other key.

`Mirrors lists view late` is what holds in between, `late` being the keys whose
list the view will still be told: the view of any other key is right but for
values that stand on a late key by now. Nothing being late, the view is right
(`Mirrors.view_eq`). The lemmas say what each change of the table asks of the
keys that are late.
-/

namespace Lib.DeferredMirror

variable {K V : Type} [DecidableEq V]

/-- The value stands on a key the view will still be told. -/
def Moving (lists : List (K × List V)) (late : K → Bool) (v : V) : Prop :=
  ∃ p ∈ lists, late p.1 = true ∧ v ∈ p.2

instance (lists : List (K × List V)) (late : K → Bool) (v : V) :
    Decidable (Moving lists late v) :=
  inferInstanceAs (Decidable (∃ p ∈ lists, late p.1 = true ∧ v ∈ p.2))

def Mirrors (lists : List (K × List V)) (view : K → List V) (late : K → Bool) : Prop :=
  ∀ p ∈ lists, late p.1 = false → (view p.1).filter (fun v => ¬ Moving lists late v) = p.2

namespace Mirrors

variable {lists lists' : List (K × List V)} {view : K → List V} {late late' : K → Bool}
  {k : K} {v : V} {vs : List V}

theorem view_eq (h : Mirrors lists view late) (hlate : ∀ k, late k = false) {p : K × List V}
    (hp : p ∈ lists) : view p.1 = p.2 := by
  rw [← h p hp (hlate p.1)]
  refine (List.filter_eq_self.mpr fun v _ => ?_).symm
  simp [Moving, hlate]

theorem nil : Mirrors [] view late := fun _ hp => nomatch hp

/-- A view that is right stays so whatever is declared late, values being on one key. -/
theorem of_eq (hview : ∀ p ∈ lists, view p.1 = p.2)
    (hdisjoint : ∀ p ∈ lists, ∀ q ∈ lists, p.1 ≠ q.1 → ∀ v ∈ p.2, v ∉ q.2) :
    Mirrors lists view late := by
  intro p hp hfresh
  rw [hview p hp]
  refine List.filter_eq_self.mpr fun v hv => ?_
  have hnot : ¬ Moving lists late v := by
    rintro ⟨q, hq, hlate, hvq⟩
    refine hdisjoint p hp q hq (fun e => ?_) v hv hvq
    rw [e, hlate] at hfresh
    cases hfresh
  simpa using hnot

/-- The view is told the list of a late key. -/
theorem push [DecidableEq K] (h : Mirrors lists view late) (hmem : (k, vs) ∈ lists)
    (hkey : ∀ p ∈ lists, p.1 = k → p.2 = vs)
    (hdisjoint : ∀ p ∈ lists, p.1 ≠ k → ∀ v ∈ p.2, v ∉ vs) (hk : late k = true)
    (hlate : ∀ x, x ≠ k → late' x = late x) :
    Mirrors lists (fun x => if x = k then vs else (view x).filter fun v => !vs.contains v)
      late' := by
  intro p hp hfresh
  dsimp only
  by_cases hpk : p.1 = k
  · -- the values just told stand on no other key
    rw [if_pos hpk, hkey p hp hpk]
    refine List.filter_eq_self.mpr fun v hv => ?_
    have hnot : ¬ Moving lists late' v := by
      rintro ⟨q, hq, hlateq, hvq⟩
      have hqk : q.1 ≠ k := fun hqk => by rw [hqk, ← hpk, hfresh] at hlateq; cases hlateq
      exact hdisjoint q hq hqk v hvq hv
    simpa using hnot
  · have hmoving : ∀ v, Moving lists late v ↔ v ∈ vs ∨ Moving lists late' v := by
      intro v
      constructor
      · rintro ⟨q, hq, hlateq, hvq⟩
        by_cases hqk : q.1 = k
        · exact .inl (hkey q hq hqk ▸ hvq)
        · exact .inr ⟨q, hq, (hlate q.1 hqk).trans hlateq, hvq⟩
      · rintro (hv | ⟨q, hq, hlateq, hvq⟩)
        · exact ⟨(k, vs), hmem, hk, hv⟩
        · by_cases hqk : q.1 = k
          · exact ⟨q, hq, hqk ▸ hk, hvq⟩
          · exact ⟨q, hq, (hlate q.1 hqk).symm.trans hlateq, hvq⟩
    rw [if_neg hpk, List.filter_filter, ← h p hp ((hlate p.1 hpk).symm.trans hfresh)]
    refine List.filter_congr fun v _ => ?_
    simp only [hmoving v, not_or, Bool.decide_and, List.contains_eq_mem, Bool.and_comm,
      decide_not]

section Change

/-! The table before and after a change, row by row. -/

variable {T : Type} {t : List T} {g g' : T → K × List V}

/-- A value is taken off its key and put on a late one. -/
theorem move (h : Mirrors (t.map g) view late) (hkey : ∀ s ∈ t, (g' s).1 = (g s).1)
    (hother : ∀ s ∈ t, (g s).1 ≠ k → (g' s).2 = (g s).2.filter (· ≠ v))
    (htarget : ∀ s ∈ t, (g s).1 = k → ∀ x, x ∈ (g' s).2 ↔ x = v ∨ x ∈ (g s).2 ∧ x ≠ v)
    (hmem : ∃ s ∈ t, (g s).1 = k) (hk : late k = true) : Mirrors (t.map g') view late := by
  have hmoving : ∀ x, Moving (t.map g') late x ↔ x = v ∨ Moving (t.map g) late x := by
    intro x
    constructor
    · rintro ⟨q, hq, hlate, hx⟩
      obtain ⟨s, hs, rfl⟩ := List.mem_map.mp hq
      rw [hkey s hs] at hlate
      by_cases hsk : (g s).1 = k
      · refine ((htarget s hs hsk x).mp hx).imp_right fun hx => ?_
        exact ⟨g s, List.mem_map_of_mem hs, hlate, hx.1⟩
      · rw [hother s hs hsk] at hx
        exact .inr ⟨g s, List.mem_map_of_mem hs, hlate, List.mem_of_mem_filter hx⟩
    · intro hx
      by_cases hxv : x = v
      · obtain ⟨s, hs, hsk⟩ := hmem
        refine ⟨g' s, List.mem_map_of_mem hs, ?_, (htarget s hs hsk x).mpr (.inl hxv)⟩
        rw [hkey s hs, hsk, hk]
      · obtain ⟨q, hq, hlate, hxq⟩ := hx.resolve_left hxv
        obtain ⟨s, hs, rfl⟩ := List.mem_map.mp hq
        refine ⟨g' s, List.mem_map_of_mem hs, (congrArg late (hkey s hs)).trans hlate, ?_⟩
        by_cases hsk : (g s).1 = k
        · exact (htarget s hs hsk x).mpr (.inr ⟨hxq, hxv⟩)
        · rw [hother s hs hsk]
          exact List.mem_filter.mpr ⟨hxq, by simpa using hxv⟩
  intro q hq hfresh
  obtain ⟨s, hs, rfl⟩ := List.mem_map.mp hq
  rw [hkey s hs] at hfresh ⊢
  have hsk : (g s).1 ≠ k := fun hsk => by rw [hsk, hk] at hfresh; cases hfresh
  rw [hother s hs hsk, ← h _ (List.mem_map_of_mem hs) hfresh, List.filter_filter]
  refine List.filter_congr fun x _ => ?_
  simp only [hmoving x, not_or, Bool.decide_and, ne_eq]

theorem moving_drop (hkey : ∀ s ∈ t, (g' s).1 = (g s).1)
    (hdrop : ∀ s ∈ t, (g' s).2 = (g s).2.filter (· ≠ v)) (x : V) :
    Moving (t.map g') late x ↔ x ≠ v ∧ Moving (t.map g) late x := by
  constructor
  · rintro ⟨q, hq, hlate, hx⟩
    obtain ⟨s, hs, rfl⟩ := List.mem_map.mp hq
    rw [hkey s hs] at hlate
    rw [hdrop s hs] at hx
    obtain ⟨hxs, hxv⟩ := List.mem_filter.mp hx
    exact ⟨by simpa using hxv, g s, List.mem_map_of_mem hs, hlate, hxs⟩
  · rintro ⟨hxv, q, hq, hlate, hx⟩
    obtain ⟨s, hs, rfl⟩ := List.mem_map.mp hq
    refine ⟨g' s, List.mem_map_of_mem hs, (congrArg late (hkey s hs)).trans hlate, ?_⟩
    rw [hdrop s hs]
    exact List.mem_filter.mpr ⟨hx, by simpa using hxv⟩

/-- A value is taken off its key, and the view shows it on late keys only. -/
theorem lose (h : Mirrors (t.map g) view late) (hkey : ∀ s ∈ t, (g' s).1 = (g s).1)
    (hdrop : ∀ s ∈ t, (g' s).2 = (g s).2.filter (· ≠ v))
    (hhidden : ∀ s ∈ t, v ∈ view (g s).1 → late (g s).1 = true) :
    Mirrors (t.map g') view late := by
  intro q hq hfresh
  obtain ⟨s, hs, rfl⟩ := List.mem_map.mp hq
  rw [hkey s hs] at hfresh ⊢
  have hv : v ∉ view (g s).1 := fun hv => by rw [hhidden s hs hv] at hfresh; cases hfresh
  rw [hdrop s hs, ← h _ (List.mem_map_of_mem hs) hfresh, List.filter_filter]
  refine List.filter_congr fun x hx => ?_
  have hxv : x ≠ v := fun e => hv (e ▸ hx)
  simp only [moving_drop hkey hdrop x, hxv, ne_eq, not_false_eq_true, true_and, decide_true,
    Bool.true_and]

/-- A value is taken off its key and off the view. -/
theorem remove {view' : K → List V} (h : Mirrors (t.map g) view late)
    (hkey : ∀ s ∈ t, (g' s).1 = (g s).1) (hdrop : ∀ s ∈ t, (g' s).2 = (g s).2.filter (· ≠ v))
    (hview : ∀ k, view' k = (view k).filter (· ≠ v)) : Mirrors (t.map g') view' late := by
  intro q hq hfresh
  obtain ⟨s, hs, rfl⟩ := List.mem_map.mp hq
  rw [hkey s hs] at hfresh ⊢
  rw [hdrop s hs, ← h _ (List.mem_map_of_mem hs) hfresh, hview, List.filter_filter,
    List.filter_filter]
  refine List.filter_congr fun x _ => ?_
  by_cases hx : x = v
  · simp [hx]
  · simp only [moving_drop hkey hdrop x, hx, ne_eq, not_false_eq_true, true_and, decide_true,
      Bool.and_true, Bool.true_and]

end Change

/-- A new key, with nothing on it and nothing shown for it, or late. -/
theorem add (h : Mirrors lists view late) (hk : late k = true ∨ view k = []) :
    Mirrors (lists ++ [(k, [])]) view late := by
  have hmoving : ∀ x, Moving (lists ++ [(k, [])]) late x ↔ Moving lists late x := by
    intro x
    simp [Moving]
  intro p hp hfresh
  simp only [hmoving]
  rcases List.mem_append.mp hp with hp | hp
  · exact h p hp hfresh
  · obtain rfl := List.mem_singleton.mp hp
    rcases hk with hk | hk
    · exact nomatch hk.symm.trans hfresh
    · simp only [hk, List.filter_nil]

end Mirrors

end Lib.DeferredMirror
