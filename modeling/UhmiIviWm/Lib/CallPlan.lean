import Mathlib.Control.Monad.Basic
import Mathlib.Data.List.Basic

/-!
# Programs that make a list of calls

A computation over a state that may abort (`Comp`), the C loop that an early
`return` leaves (`forEach`), and *call plans*: the list of calls a program
makes together with how it ends. A program whose control flow depends only on
its input and on facts its own calls do not disturb *implements* a plan
(`Implements`), or, where it looks at the state on the way, *follows* a plan for
each state it may start in (`Follows`). So what every call preserves, under a
condition on each call (`AtEach`), the program preserves (`runCalls_induction`).

`Implements` composes along the program text: `Implements.ret`, `.fail`, `.call`,
`.seq`, `.reads`, `.ite` and `.loop`.
-/

namespace Lib.CallPlan

variable {S E Op α β γ : Type}

/-- A computation on a state `S` that may abort with `E`. -/
abbrev Comp (S E : Type) := StateT S (Except E)

namespace Comp

/-- Looks at the state. -/
def reads (g : S → γ) : Comp S E γ := fun s => .ok (g s, s)

theorem bind_apply (m : Comp S E α) (f : α → Comp S E β) (s : S) :
    (m >>= f) s = match m s with
      | .ok (a, s') => f a s'
      | .error e => .error e := by
  change (m s >>= fun p => f p.1 p.2) = _
  cases m s <;> rfl

@[simp] theorem pure_apply (a : α) (s : S) : (pure a : Comp S E α) s = .ok (a, s) := rfl

@[simp] theorem throw_apply (e : E) (s : S) :
    (throw e : Comp S E α) s = .error e := rfl

theorem bind_eq_ok {m : Comp S E α} {f : α → Comp S E β} {s s' : S} {b : β} :
    (m >>= f) s = .ok (b, s') ↔ ∃ a t, m s = .ok (a, t) ∧ f a t = .ok (b, s') := by
  rw [bind_apply]
  cases h : m s with
  | ok p =>
    obtain ⟨a, t⟩ := p
    simp
  | error e => simp

theorem bind_eq_error {m : Comp S E α} {f : α → Comp S E β} {s : S} {e : E} :
    (m >>= f) s = .error e ↔
      m s = .error e ∨ ∃ a t, m s = .ok (a, t) ∧ f a t = .error e := by
  rw [bind_apply]
  cases h : m s with
  | ok p =>
    obtain ⟨a, t⟩ := p
    simp
  | error e => simp

/-- From a state in `I`, `m` leaves a state in `I` or aborts with an error in `R`. -/
def Keeps (I : S → Prop) (R : E → Prop) (m : Comp S E α) : Prop :=
  ∀ s, I s → match m s with
    | .ok (_, s') => I s'
    | .error e => R e

namespace Keeps

variable {I : S → Prop} {R : E → Prop}

theorem of_ok {m : Comp S E α} (hm : Keeps I R m) {s s' : S} {a : α} (hs : I s)
    (h : m s = .ok (a, s')) : I s' := by
  have hkeeps := hm s hs
  rwa [h] at hkeeps

theorem of_error {m : Comp S E α} (hm : Keeps I R m) {s : S} {e : E} (hs : I s)
    (h : m s = .error e) : R e := by
  have hkeeps := hm s hs
  rwa [h] at hkeeps

theorem ret (a : α) : Keeps I R (pure a : Comp S E α) := fun _ hs => hs

theorem throw {e : E} (h : R e) : Keeps I R (MonadExcept.throw e : Comp S E α) := fun _ _ => h

theorem seq {m : Comp S E α} {f : α → Comp S E β} (hm : Keeps I R m)
    (hf : ∀ a, Keeps I R (f a)) : Keeps I R (m >>= f) := by
  intro s hs
  rw [bind_apply]
  cases h : m s with
  | ok r => exact hf r.1 r.2 (hm.of_ok hs h)
  | error e => exact hm.of_error hs h

theorem ite {c : Prop} [Decidable c] {m m' : Comp S E α} (h : c → Keeps I R m)
    (h' : ¬ c → Keeps I R m') : Keeps I R (if c then m else m') := by
  split
  · exact h ‹_›
  · exact h' ‹_›

end Keeps

end Comp

/-! ## Loops left by a negative result -/

/-- A loop whose body reports `0`, or a negative code that ends the loop and is
handed on. -/
def forEach {m : Type → Type} [Monad m] : List α → (α → m Int) → m Int
  | [], _ => pure 0
  | x :: xs, body => do
    let r ← body x
    if r < 0 then pure r else forEach xs body

/-- The loop is its first round and then the rest. -/
theorem forEach_cons {m : Type → Type} [Monad m] [LawfulMonad m] (x : α) (xs : List α)
    (body : α → m Int) :
    forEach (x :: xs) body = forEach [x] body >>= fun r =>
      if r < 0 then pure r else forEach xs body := by
  simp only [forEach, bind_assoc]
  refine congrArg (body x >>= ·) (funext fun r => ?_)
  by_cases hr : r < 0
  · simp only [if_pos hr, pure_bind]
  · simp only [if_neg hr, pure_bind, Int.lt_irrefl, if_false]

/-- The elements a loop gets to that goes on after `pass` only. -/
def reached (pass : α → Bool) : List α → List α
  | [] => []
  | x :: xs => x :: if pass x = true then reached pass xs else []

theorem mem_of_mem_reached {pass : α → Bool} {x : α} {xs : List α} (h : x ∈ reached pass xs) :
    x ∈ xs := by
  induction xs with
  | nil => exact h
  | cons y ys ih =>
    rw [reached] at h
    rcases List.mem_cons.mp h with rfl | h
    · exact List.mem_cons_self
    · split at h
      · exact List.mem_cons_of_mem y (ih h)
      · cases h

theorem reached_sublist (pass : α → Bool) (xs : List α) : (reached pass xs).Sublist xs := by
  induction xs with
  | nil => exact .slnil
  | cons x xs ih =>
    rw [reached]
    split
    · exact ih.cons_cons x
    · exact (List.nil_sublist xs).cons_cons x

theorem reached_congr {pass pass' : α → Bool} {xs : List α} (h : ∀ x ∈ xs, pass x = pass' x) :
    reached pass xs = reached pass' xs := by
  induction xs with
  | nil => rfl
  | cons x xs ih =>
    obtain ⟨hx, hxs⟩ := List.forall_mem_cons.mp h
    rw [reached, reached, hx, ih hxs]

theorem reached_mono {pass pass' : α → Bool} (hpass : ∀ x, pass x = true → pass' x = true)
    {x : α} {xs : List α} (h : x ∈ reached pass xs) : x ∈ reached pass' xs := by
  induction xs with
  | nil => exact h
  | cons y ys ih =>
    rw [reached] at h ⊢
    rcases List.mem_cons.mp h with rfl | h
    · exact List.mem_cons_self
    · split at h
      · rename_i hy
        rw [if_pos (hpass y hy)]
        exact List.mem_cons_of_mem y (ih h)
      · cases h

theorem reached_true (xs : List α) : reached (fun _ => true) xs = xs := by
  induction xs with
  | nil => rfl
  | cons x xs ih => rw [reached, if_pos rfl, ih]

/-- A loop that also ends at the first element that is not good gets to one if there is one
that it gets to without. -/
theorem exists_reached_and {good pass : α → Bool} {xs : List α} :
    (∃ x ∈ reached (fun x => good x && pass x) xs, good x = false) ↔
      ∃ x ∈ reached pass xs, good x = false := by
  induction xs with
  | nil => exact Iff.rfl
  | cons y ys ih =>
    rw [reached, reached, List.exists_mem_cons_iff, List.exists_mem_cons_iff]
    cases hy : good y with
    | false => exact iff_of_true (.inl rfl) (.inl rfl)
    | true =>
      rw [Bool.true_and]
      refine or_congr_right ?_
      split
      · exact ih
      · exact Iff.rfl

/-! ## Plans -/

/-- The calls a program makes and how it ends. -/
structure Plan (Op E α : Type) where
  calls : List Op
  out : Except E α

namespace Plan

/-- Goes on with `f` where `p` has ended normally. -/
def andThen (p : Plan Op E α) (f : α → Plan Op E β) : Plan Op E β :=
  match p.out with
  | .ok a => ⟨p.calls ++ (f a).calls, (f a).out⟩
  | .error e => ⟨p.calls, .error e⟩

instance : Monad (Plan Op E) where
  pure a := ⟨[], .ok a⟩
  bind := andThen

/-- The plan of a single call. -/
def call (op : Op) : Plan Op E Unit := ⟨[op], .ok ()⟩

/-- The plan that makes no call and aborts. -/
def abort (e : E) : Plan Op E α := ⟨[], .error e⟩

/-- The plan that makes no call and ends as `r` does. -/
def ofExcept (r : Except E α) : Plan Op E α := ⟨[], r⟩

@[simp] theorem pure_calls (a : α) : (pure a : Plan Op E α).calls = [] := rfl
@[simp] theorem pure_out (a : α) : (pure a : Plan Op E α).out = .ok a := rfl
@[simp] theorem call_calls (op : Op) : (call op : Plan Op E Unit).calls = [op] := rfl
@[simp] theorem call_out (op : Op) : (call op : Plan Op E Unit).out = .ok () := rfl
@[simp] theorem abort_calls (e : E) : (abort e : Plan Op E α).calls = [] := rfl
@[simp] theorem abort_out (e : E) : (abort e : Plan Op E α).out = .error e := rfl
@[simp] theorem ofExcept_calls (r : Except E α) : (ofExcept r : Plan Op E α).calls = [] := rfl
@[simp] theorem ofExcept_out (r : Except E α) : (ofExcept r : Plan Op E α).out = r := rfl

theorem bind_def (p : Plan Op E α) (f : α → Plan Op E β) : p >>= f = p.andThen f := rfl

theorem bind_of_ok {p : Plan Op E α} {f : α → Plan Op E β} {a : α} (h : p.out = .ok a) :
    p >>= f = ⟨p.calls ++ (f a).calls, (f a).out⟩ := by
  rw [bind_def, andThen, h]

theorem bind_of_error {p : Plan Op E α} {f : α → Plan Op E β} {e : E} (h : p.out = .error e) :
    p >>= f = ⟨p.calls, .error e⟩ := by
  rw [bind_def, andThen, h]

/-- Every call of the plan satisfies `Q`, and if it aborts of its own it does so with an
error in `R`. -/
structure Within (Q : Op → Prop) (R : E → Prop) (p : Plan Op E α) : Prop where
  calls : ∀ op ∈ p.calls, Q op
  out : ∀ e, p.out = .error e → R e

namespace Within

variable {Q : Op → Prop} {R : E → Prop}

theorem ret (a : α) : Within Q R (pure a : Plan Op E α) := ⟨nofun, nofun⟩

theorem ofExcept {r : Except E α} (h : ∀ e, r = .error e → R e) :
    Within Q R (ofExcept r : Plan Op E α) := ⟨nofun, h⟩

theorem call {op : Op} (h : Q op) : Within Q R (Plan.call op : Plan Op E Unit) where
  calls := fun _ ho => by
    rw [List.mem_singleton.mp ho]
    exact h
  out := nofun

theorem seq {p : Plan Op E α} {f : α → Plan Op E β} (hp : Within Q R p)
    (hf : ∀ a, Within Q R (f a)) : Within Q R (p >>= f) := by
  cases ho : p.out with
  | ok a =>
    rw [bind_of_ok ho]
    refine ⟨fun op hop => ?_, (hf a).out⟩
    rcases List.mem_append.mp hop with hop | hop
    · exact hp.calls op hop
    · exact (hf a).calls op hop
  | error e =>
    rw [bind_of_error ho]
    refine ⟨hp.calls, fun e' he' => ?_⟩
    cases he'
    exact hp.out e ho

theorem mono {Q' : Op → Prop} {R' : E → Prop} {p : Plan Op E α} (h : Within Q R p)
    (hQ : ∀ op, Q op → Q' op) (hR : ∀ e, R e → R' e) : Within Q' R' p :=
  ⟨fun op hop => hQ op (h.calls op hop), fun e he => hR e (h.out e he)⟩

/-- A read that ends normally hands its value on. -/
theorem readThen {r : Except E α} {f : α → Plan Op E β} (he : ∀ e, r = .error e → R e)
    (hf : ∀ a, r = .ok a → Within Q R (f a)) : Within Q R (Plan.ofExcept r >>= f) := by
  cases r with
  | ok a => exact ⟨(hf a rfl).calls, (hf a rfl).out⟩
  | error e => exact ⟨nofun, fun e' h => by cases h; exact he e rfl⟩

theorem ite {c : Prop} [Decidable c] {p p' : Plan Op E α} (h : Within Q R p)
    (h' : Within Q R p') : Within Q R (if c then p else p') := by
  split
  · exact h
  · exact h'

theorem loop {xs : List α} {p : α → Plan Op E Int} (h : ∀ x ∈ xs, Within Q R (p x)) :
    Within Q R (forEach xs p) := by
  induction xs with
  | nil => exact ret 0
  | cons x xs ih =>
    refine seq (h x List.mem_cons_self) fun r => ite (ret r) (ih fun y hy => ?_)
    exact h y (List.mem_cons_of_mem x hy)

end Within

/-- A loop none of whose rounds ends it makes the calls of all its rounds. -/
theorem forEach_of_nonneg {xs : List α} {p : α → Plan Op E Int}
    (h : ∀ x ∈ xs, ∃ r, (p x).out = .ok r ∧ 0 ≤ r) :
    forEach xs p = ⟨xs.flatMap fun x => (p x).calls, .ok 0⟩ := by
  induction xs with
  | nil => rfl
  | cons x xs ih =>
    obtain ⟨⟨r, hx, hr⟩, hrest⟩ := List.forall_mem_cons.mp h
    rw [forEach, bind_of_ok hx, if_neg (Int.not_lt.mpr hr), ih hrest, List.flatMap_cons]

theorem forEach_of_zero {xs : List α} {p : α → Plan Op E Int}
    (h : ∀ x ∈ xs, (p x).out = .ok 0) :
    forEach xs p = ⟨xs.flatMap fun x => (p x).calls, .ok 0⟩ :=
  forEach_of_nonneg fun x hx => ⟨0, h x hx, Int.le_refl 0⟩

/-- A loop makes the calls of the rounds it gets to. -/
theorem forEach_calls_reached {p : α → Plan Op E Int} {pass : α → Bool}
    (hpass : ∀ x, pass x = true → ∃ r, (p x).out = .ok r ∧ 0 ≤ r)
    (hfail : ∀ x, pass x = false → ∀ r, (p x).out = .ok r → r < 0) (xs : List α) :
    (forEach xs p).calls = (reached pass xs).flatMap fun x => (p x).calls := by
  induction xs with
  | nil => rfl
  | cons x xs ih =>
    rw [forEach, reached, List.flatMap_cons]
    cases hx : pass x with
    | true =>
      obtain ⟨r, hr, hnonneg⟩ := hpass x hx
      rw [bind_of_ok hr, if_neg (Int.not_lt.mpr hnonneg), if_pos rfl, ih]
    | false =>
      rw [if_neg Bool.false_ne_true, List.flatMap_nil, List.append_nil]
      cases hr : (p x).out with
      | ok r =>
        rw [bind_of_ok hr, if_pos (hfail x hx r hr)]
        exact List.append_nil _
      | error e => rw [bind_of_error hr]

/-- A loop passes where all its rounds do. -/
theorem forEach_out_nonneg {p : α → Plan Op E Int} {pass : α → Bool}
    (hpass : ∀ x, pass x = true → ∃ r, (p x).out = .ok r ∧ 0 ≤ r)
    (hfail : ∀ x, pass x = false → ∀ r, (p x).out = .ok r → r < 0) (xs : List α) :
    (xs.all pass = true → ∃ r, (forEach xs p).out = .ok r ∧ 0 ≤ r) ∧
      (xs.all pass = false → ∀ r, (forEach xs p).out = .ok r → r < 0) := by
  induction xs with
  | nil => exact ⟨fun _ => ⟨0, rfl, Int.le_refl 0⟩, nofun⟩
  | cons x xs ih =>
    rw [forEach, List.all_cons]
    cases hx : pass x with
    | true =>
      obtain ⟨r, hr, hnonneg⟩ := hpass x hx
      rw [bind_of_ok hr, if_neg (Int.not_lt.mpr hnonneg)]
      exact ih
    | false =>
      refine ⟨nofun, fun _ r hout => ?_⟩
      cases hr : (p x).out with
      | ok r' =>
        have hneg := hfail x hx r' hr
        rw [bind_of_ok hr, if_pos hneg] at hout
        cases hout
        exact hneg
      | error e =>
        rw [bind_of_error hr] at hout
        cases hout

/-- A loop aborts where one of the rounds it gets to does. -/
theorem forEach_aborts_iff {p : α → Plan Op E Int} {pass : α → Bool} {e : E}
    (hpass : ∀ x, pass x = true → ∃ r, (p x).out = .ok r ∧ 0 ≤ r)
    (hfail : ∀ x, pass x = false → ∀ r, (p x).out = .ok r → r < 0)
    (he : ∀ x e', (p x).out = .error e' → e' = e) (xs : List α) :
    (forEach xs p).out = .error e ↔ ∃ x ∈ reached pass xs, (p x).out = .error e := by
  induction xs with
  | nil => exact iff_of_false nofun fun ⟨_, hx, _⟩ => nomatch hx
  | cons x xs ih =>
    rw [forEach, reached, List.exists_mem_cons_iff]
    cases hx : pass x with
    | true =>
      obtain ⟨r, hr, hnonneg⟩ := hpass x hx
      rw [bind_of_ok hr, if_neg (Int.not_lt.mpr hnonneg), if_pos rfl, ih, hr]
      exact (or_iff_right nofun).symm
    | false =>
      rw [if_neg Bool.false_ne_true]
      cases hr : (p x).out with
      | ok r =>
        rw [bind_of_ok hr, if_pos (hfail x hx r hr)]
        exact iff_of_false nofun (by simp)
      | error e' =>
        obtain rfl := he x e' hr
        rw [bind_of_error hr]
        exact iff_of_true rfl (.inl rfl)

/-- A loop whose rounds make one call each makes the calls up to the first round that makes
none and reports an error. -/
theorem forEach_guarded {xs : List α} {p : α → Plan Op E Int} (good : α → Bool) (op : α → Op)
    (hgood : ∀ x, good x = true → p x = ⟨[op x], .ok 0⟩)
    (hbad : ∀ x, good x = false → p x = pure (-1)) :
    forEach xs p = ⟨(xs.takeWhile good).map op, .ok (if xs.all good then 0 else -1)⟩ := by
  induction xs with
  | nil => rfl
  | cons x xs ih =>
    cases hx : good x with
    | true =>
      rw [forEach, hgood x hx, bind_of_ok rfl, if_neg (Int.lt_irrefl 0), ih,
        List.takeWhile_cons_of_pos hx, List.all_cons, hx]
      rfl
    | false =>
      have hneg : (-1 : Int) < 0 := by omega
      rw [forEach, hbad x hx, bind_of_ok rfl, if_pos hneg, List.all_cons, hx,
        List.takeWhile_cons_of_neg (by simp [hx])]
      rfl

/-- A loop that reports a negative code has been left by one of its rounds. -/
theorem forEach_eq_neg {xs : List α} {p : α → Plan Op E Int} {r : Int} (hr : r < 0)
    (h : (forEach xs p).out = .ok r) :
    ∃ done x rest, xs = done ++ x :: rest ∧ (∀ y ∈ done, ∃ r, (p y).out = .ok r ∧ 0 ≤ r) ∧
      (p x).out = .ok r := by
  induction xs with
  | nil =>
    cases h
    exact absurd hr (Int.lt_irrefl 0)
  | cons x xs ih =>
    rw [forEach] at h
    cases hx : (p x).out with
    | error e =>
      rw [bind_of_error hx] at h
      cases h
    | ok r₁ =>
      rw [bind_of_ok hx] at h
      by_cases hr₁ : r₁ < 0
      · rw [if_pos hr₁] at h
        cases h
        exact ⟨[], x, xs, rfl, nofun, hx⟩
      · rw [if_neg hr₁] at h
        obtain ⟨done, y, rest, rfl, hdone, hy⟩ := ih h
        refine ⟨x :: done, y, rest, rfl, ?_, hy⟩
        exact List.forall_mem_cons.mpr ⟨⟨r₁, hx, Int.not_lt.mp hr₁⟩, hdone⟩

/-- A loop that is left by one of its rounds has made the calls up to there. -/
theorem forEach_left {done rest : List α} {x : α} {p : α → Plan Op E Int} {r : Int} (hr : r < 0)
    (hdone : ∀ y ∈ done, ∃ r, (p y).out = .ok r ∧ 0 ≤ r) (hx : (p x).out = .ok r) :
    forEach (done ++ x :: rest) p =
      ⟨(done.flatMap fun y => (p y).calls) ++ (p x).calls, .ok r⟩ := by
  induction done with
  | nil =>
    rw [List.nil_append, forEach, bind_of_ok hx, if_pos hr]
    have hcalls : (p x).calls ++ (pure r : Plan Op E Int).calls = (p x).calls := List.append_nil _
    rw [hcalls]
    rfl
  | cons y done ih =>
    obtain ⟨⟨r', hy, hr'⟩, hdone⟩ := List.forall_mem_cons.mp hdone
    rw [List.cons_append, forEach, bind_of_ok hy, if_neg (Int.not_lt.mpr hr'), ih hdone,
      List.flatMap_cons, List.append_assoc]

end Plan

/-! ## Running calls -/

variable (sem : Op → Comp S E Unit)

/-- Makes the calls one after the other. -/
def runCalls : List Op → Comp S E Unit
  | [] => pure ()
  | op :: ops => sem op >>= fun _ => runCalls ops

/-- Makes the calls of a plan and ends as the plan does. -/
def Plan.run (p : Plan Op E α) : Comp S E α :=
  runCalls sem p.calls >>= fun _ => match p.out with
    | .ok a => pure a
    | .error e => throw e

variable {sem}

@[simp] theorem runCalls_nil (s : S) : runCalls sem [] s = .ok ((), s) := rfl

theorem runCalls_cons_ok {op : Op} {ops : List Op} {s s' : S} :
    runCalls sem (op :: ops) s = .ok ((), s') ↔
      ∃ t, sem op s = .ok ((), t) ∧ runCalls sem ops t = .ok ((), s') := by
  rw [runCalls, Comp.bind_eq_ok]
  exact ⟨fun ⟨_, t, h⟩ => ⟨t, h⟩, fun ⟨t, h⟩ => ⟨(), t, h⟩⟩

theorem runCalls_cons_error {op : Op} {ops : List Op} {s : S} {e : E} :
    runCalls sem (op :: ops) s = .error e ↔
      sem op s = .error e ∨ ∃ t, sem op s = .ok ((), t) ∧ runCalls sem ops t = .error e := by
  rw [runCalls, Comp.bind_eq_error]
  exact or_congr_right ⟨fun ⟨_, t, h⟩ => ⟨t, h⟩, fun ⟨t, h⟩ => ⟨(), t, h⟩⟩

theorem runCalls_append (xs ys : List Op) (s : S) :
    runCalls sem (xs ++ ys) s = (runCalls sem xs >>= fun _ => runCalls sem ys) s := by
  induction xs generalizing s with
  | nil => rfl
  | cons op xs ih =>
    simp only [List.cons_append, runCalls, Comp.bind_apply]
    cases sem op s with
    | ok p =>
      simp only [ih, Comp.bind_apply]
    | error e => rfl

theorem runCalls_append_ok {xs ys : List Op} {s s' : S} :
    runCalls sem (xs ++ ys) s = .ok ((), s') ↔
      ∃ t, runCalls sem xs s = .ok ((), t) ∧ runCalls sem ys t = .ok ((), s') := by
  rw [runCalls_append, Comp.bind_eq_ok]
  exact ⟨fun ⟨_, t, h⟩ => ⟨t, h⟩, fun ⟨t, h⟩ => ⟨(), t, h⟩⟩

section AtEach

variable (sem)

/-- `G` holds of every call that is made, in the state it is made in and given
the calls that are still to come. -/
def AtEach (G : S → Op → List Op → Prop) : List Op → S → Prop
  | [], _ => True
  | op :: ops, s => G s op ops ∧ match sem op s with
    | .ok (_, t) => AtEach G ops t
    | .error _ => True

instance AtEach.decidable {G : S → Op → List Op → Prop} [h : ∀ s op ops, Decidable (G s op ops)] :
    ∀ ops s, Decidable (AtEach sem G ops s)
  | [], _ => isTrue trivial
  | op :: ops, s =>
    have := h s op ops
    match hop : sem op s with
    | .ok (u, t) =>
      have := AtEach.decidable (G := G) ops t
      decidable_of_iff (G s op ops ∧ AtEach sem G ops t) (by rw [AtEach, hop])
    | .error e => decidable_of_iff (G s op ops) (by rw [AtEach, hop]; exact (and_true _).symm.to_iff)

end AtEach

theorem AtEach.of_forall {G : S → Op → List Op → Prop} {ops : List Op}
    (h : ∀ op ∈ ops, ∀ s rest, G s op rest) (s : S) : AtEach sem G ops s := by
  induction ops generalizing s with
  | nil => trivial
  | cons op ops ih =>
    refine ⟨h op List.mem_cons_self s ops, ?_⟩
    cases sem op s with
    | ok r => exact ih (fun o ho => h o (List.mem_cons_of_mem op ho)) r.2
    | error e => trivial

theorem AtEach.mono {G G' : S → Op → List Op → Prop} {ops : List Op} {s : S}
    (h : AtEach sem G ops s) (hG : ∀ s op rest, G s op rest → G' s op rest) :
    AtEach sem G' ops s := by
  induction ops generalizing s with
  | nil => trivial
  | cons op ops ih =>
    obtain ⟨hop, hrest⟩ := h
    refine ⟨hG s op ops hop, ?_⟩
    cases hs : sem op s with
    | ok r =>
      rw [hs] at hrest
      exact ih hrest
    | error e => trivial

theorem AtEach.and {G G' : S → Op → List Op → Prop} {ops : List Op} {s : S}
    (h : AtEach sem G ops s) (h' : AtEach sem G' ops s) :
    AtEach sem (fun s op rest => G s op rest ∧ G' s op rest) ops s := by
  induction ops generalizing s with
  | nil => trivial
  | cons op ops ih =>
    obtain ⟨hop, hrest⟩ := h
    obtain ⟨hop', hrest'⟩ := h'
    refine ⟨⟨hop, hop'⟩, ?_⟩
    cases hs : sem op s with
    | ok r =>
      rw [hs] at hrest hrest'
      exact ih hrest hrest'
    | error e => trivial

theorem AtEach.congr {G G' : S → Op → List Op → Prop} {ops : List Op} {s : S}
    (h : AtEach sem (fun s op rest => G s op rest ↔ G' s op rest) ops s) :
    AtEach sem G ops s ↔ AtEach sem G' ops s :=
  ⟨fun hG => (h.and hG).mono fun _ _ _ hboth => hboth.1.mp hboth.2,
    fun hG => (h.and hG).mono fun _ _ _ hboth => hboth.1.mpr hboth.2⟩

/-- Where no call aborts, each of them is made. -/
theorem AtEach.exists_of_mem {G : S → Op → List Op → Prop} {ops : List Op} {s : S}
    (hok : ∀ op s, ∃ s', sem op s = .ok ((), s')) (h : AtEach sem G ops s) :
    ∀ op ∈ ops, ∃ t rest, G t op rest := by
  induction ops generalizing s with
  | nil => exact fun op hop => nomatch hop
  | cons op ops ih =>
    obtain ⟨hop, hrest⟩ := h
    obtain ⟨t, ht⟩ := hok op s
    rw [ht] at hrest
    exact List.forall_mem_cons.mpr ⟨⟨s, ops, hop⟩, ih hrest⟩

/-- Calls that are followed by a last one. -/
theorem AtEach.of_last {G : S → Op → List Op → Prop} {ops : List Op} {last : Op}
    (h : ∀ op ∈ ops, ∀ s rest, G s op (rest ++ [last])) (hlast : ∀ s, G s last []) (s : S) :
    AtEach sem G (ops ++ [last]) s := by
  induction ops generalizing s with
  | nil =>
    refine ⟨hlast s, ?_⟩
    split <;> trivial
  | cons op ops ih =>
    refine ⟨h op List.mem_cons_self s ops, ?_⟩
    cases sem op s with
    | ok r => exact ih (fun o ho => h o (List.mem_cons_of_mem op ho)) r.2
    | error e => trivial

/-- What an invariant of the calls guarantees holds at each of them. -/
theorem AtEach.of_invariant {I : S → Prop} {G : S → Op → List Op → Prop} {ops : List Op}
    (hI : ∀ op ∈ ops, ∀ s s', I s → sem op s = .ok ((), s') → I s')
    (hG : ∀ op ∈ ops, ∀ s rest, I s → G s op rest) {s : S} (hs : I s) : AtEach sem G ops s := by
  induction ops generalizing s with
  | nil => trivial
  | cons op ops ih =>
    refine ⟨hG op List.mem_cons_self s ops hs, ?_⟩
    cases h : sem op s with
    | ok r =>
      exact ih (fun o ho => hI o (List.mem_cons_of_mem op ho))
        (fun o ho => hG o (List.mem_cons_of_mem op ho)) (hI op List.mem_cons_self s r.2 hs h)
    | error e => trivial

/-- A condition that holds of a call whatever is added behind it. -/
def Grows (G : S → Op → List Op → Prop) : Prop :=
  ∀ s op rest more, G s op rest → G s op (rest ++ more)

theorem Grows.of_state {G : S → Op → Prop} : Grows fun s op (_ : List Op) => G s op :=
  fun _ _ _ _ h => h

theorem AtEach.append {G : S → Op → List Op → Prop} (hG : Grows G) {xs ys : List Op} {s : S}
    (hx : AtEach sem G xs s) (hy : ∀ t, runCalls sem xs s = .ok ((), t) → AtEach sem G ys t) :
    AtEach sem G (xs ++ ys) s := by
  induction xs generalizing s with
  | nil => exact hy s rfl
  | cons op xs ih =>
    obtain ⟨hop, hrest⟩ := hx
    refine ⟨hG s op xs ys hop, ?_⟩
    cases h : sem op s with
    | ok r =>
      rw [h] at hrest
      exact ih hrest fun t ht => hy t (runCalls_cons_ok.mpr ⟨r.2, h, ht⟩)
    | error e => trivial

theorem AtEach.flatMap {G : S → Op → List Op → Prop} (hG : Grows G) {I : S → Prop} {xs : List α}
    {f : α → List Op} (hI : ∀ x s t, I s → runCalls sem (f x) s = .ok ((), t) → I t)
    (h : ∀ x ∈ xs, ∀ s, I s → AtEach sem G (f x) s) {s : S} (hs : I s) :
    AtEach sem G (xs.flatMap f) s := by
  induction xs generalizing s with
  | nil => trivial
  | cons x xs ih =>
    rw [List.flatMap_cons]
    refine (h x List.mem_cons_self s hs).append hG fun t ht => ?_
    exact ih (fun y hy => h y (List.mem_cons_of_mem x hy)) (hI x s t hs ht)

/-- The step rule with the calls still to come: an invariant that may mention
the rest of the list, and a condition on each call. -/
theorem runCalls_induction {P : S → List Op → Prop} {G : S → Op → List Op → Prop}
    (hstep : ∀ op rest s s', P s (op :: rest) → G s op rest → sem op s = .ok ((), s') →
      P s' rest)
    {ops : List Op} {s s' : S} (hs : P s ops) (hG : AtEach sem G ops s)
    (h : runCalls sem ops s = .ok ((), s')) : P s' [] := by
  induction ops generalizing s with
  | nil =>
    cases h
    exact hs
  | cons op ops ih =>
    obtain ⟨t, hop, hrest⟩ := runCalls_cons_ok.mp h
    obtain ⟨hg, htail⟩ := hG
    rw [hop] at htail
    exact ih (hstep op ops s t hs hg hop) htail hrest

/-- What every group of calls preserves, the groups together preserve. -/
theorem runCalls_flatMap {I : S → Prop} {xs : List α} {f : α → List Op}
    (hI : ∀ x s t, I s → runCalls sem (f x) s = .ok ((), t) → I t) {s t : S} (hs : I s)
    (h : runCalls sem (xs.flatMap f) s = .ok ((), t)) : I t := by
  induction xs generalizing s with
  | nil =>
    cases h
    exact hs
  | cons x xs ih =>
    rw [List.flatMap_cons] at h
    obtain ⟨u, hx, hrest⟩ := runCalls_append_ok.mp h
    exact ih (hI x s u hs hx) hrest

variable (sem) in
/-- One of the calls has been reached and has returned, leaving `s'`. -/
def Returned (ops : List Op) (s : S) (op : Op) (s' : S) : Prop :=
  ∃ before after t, ops = before ++ op :: after ∧ runCalls sem before s = .ok ((), t) ∧
    sem op t = .ok ((), s')

theorem Returned.of_mem {ops : List Op} {s t : S} {op : Op} (hop : op ∈ ops)
    (h : runCalls sem ops s = .ok ((), t)) : ∃ s', Returned sem ops s op s' := by
  obtain ⟨before, after, rfl⟩ := List.append_of_mem hop
  obtain ⟨u, hbefore, hrest⟩ := runCalls_append_ok.mp h
  obtain ⟨v, hop, -⟩ := runCalls_cons_ok.mp hrest
  exact ⟨v, before, after, u, rfl, hbefore, hop⟩

/-- The condition held when the call was made. -/
theorem Returned.at {G : S → Op → List Op → Prop} {ops : List Op} {s s' : S} {op : Op}
    (h : Returned sem ops s op s') (hG : AtEach sem G ops s) :
    ∃ t rest, G t op rest ∧ sem op t = .ok ((), s') := by
  obtain ⟨before, after, t, rfl, hbefore, hop⟩ := h
  induction before generalizing s with
  | nil =>
    cases hbefore
    exact ⟨t, after, hG.1, hop⟩
  | cons first before ih =>
    obtain ⟨u, hfirst, hrest⟩ := runCalls_cons_ok.mp hbefore
    have htail := hG.2
    rw [hfirst] at htail
    exact ih htail hrest

theorem Returned.mem {ops : List Op} {s s' : S} {op : Op} (h : Returned sem ops s op s') :
    op ∈ ops := by
  obtain ⟨before, after, t, rfl, -, -⟩ := h
  exact List.mem_append_right before List.mem_cons_self

/-- The step rule with both ends: each call keeps the invariant or aborts with an error
in `R`. -/
theorem runCalls_ends {P : S → List Op → Prop} {R : E → Prop}
    (hstep : ∀ op rest s, P s (op :: rest) →
      (∃ s', sem op s = .ok ((), s') ∧ P s' rest) ∨ ∃ e, sem op s = .error e ∧ R e)
    {ops : List Op} {s : S} (hs : P s ops) :
    (∃ s', runCalls sem ops s = .ok ((), s') ∧ P s' []) ∨
      ∃ e, runCalls sem ops s = .error e ∧ R e := by
  induction ops generalizing s with
  | nil => exact .inl ⟨s, rfl, hs⟩
  | cons op ops ih =>
    rcases hstep op ops s hs with ⟨t, hop, ht⟩ | ⟨e, hop, he⟩
    · rcases ih ht with ⟨s', hrest, hs'⟩ | ⟨e, hrest, he⟩
      · exact .inl ⟨s', runCalls_cons_ok.mpr ⟨t, hop, hrest⟩, hs'⟩
      · exact .inr ⟨e, runCalls_cons_error.mpr (.inr ⟨t, hop, hrest⟩), he⟩
    · exact .inr ⟨e, runCalls_cons_error.mpr (.inl hop), he⟩

/-- Calls none of which aborts where its condition holds do not abort. -/
theorem runCalls_ne_error {P : S → List Op → Prop} {G : S → Op → List Op → Prop} {e : E}
    (hstep : ∀ op rest s s', P s (op :: rest) → G s op rest → sem op s = .ok ((), s') →
      P s' rest)
    (hsafe : ∀ op rest s, P s (op :: rest) → G s op rest → sem op s ≠ .error e)
    {ops : List Op} {s : S} (hs : P s ops) (hG : AtEach sem G ops s) :
    runCalls sem ops s ≠ .error e := by
  induction ops generalizing s with
  | nil => exact nofun
  | cons op ops ih =>
    obtain ⟨hg, htail⟩ := hG
    intro h
    rcases runCalls_cons_error.mp h with h | ⟨t, hop, hrest⟩
    · exact hsafe op ops s hs hg h
    · rw [hop] at htail
      exact ih (hstep op ops s t hs hg hop) htail hrest

/-! ## Executing a plan -/

theorem Plan.run_eq_ok {p : Plan Op E α} {s s' : S} {a : α} :
    p.run sem s = .ok (a, s') ↔ p.out = .ok a ∧ runCalls sem p.calls s = .ok ((), s') := by
  rw [Plan.run, Comp.bind_eq_ok]
  cases ho : p.out with
  | ok b =>
    constructor
    · rintro ⟨u, t, hr, hp⟩
      cases hp
      exact ⟨rfl, hr⟩
    · rintro ⟨hb, hr⟩
      cases hb
      exact ⟨(), s', hr, rfl⟩
  | error e => simp

theorem Plan.run_eq_error {p : Plan Op E α} {s : S} {e : E} :
    p.run sem s = .error e ↔
      runCalls sem p.calls s = .error e ∨
        p.out = .error e ∧ ∃ s', runCalls sem p.calls s = .ok ((), s') := by
  rw [Plan.run, Comp.bind_eq_error]
  refine or_congr_right ?_
  cases ho : p.out with
  | ok b => simp
  | error e' =>
    constructor
    · rintro ⟨u, t, hr, he⟩
      cases he
      exact ⟨rfl, t, hr⟩
    · rintro ⟨he, t, hr⟩
      cases he
      exact ⟨(), t, hr, rfl⟩

@[simp] theorem Plan.run_pure (a : α) (s : S) :
    (pure a : Plan Op E α).run sem s = .ok (a, s) := rfl

theorem Plan.run_bind (p : Plan Op E α) (f : α → Plan Op E β) (s : S) :
    (p >>= f).run sem s = (p.run sem >>= fun a => (f a).run sem) s := by
  cases ho : p.out with
  | ok a =>
    rw [Plan.bind_of_ok ho]
    simp only [Plan.run, ho, Comp.bind_apply, runCalls_append]
    cases runCalls sem p.calls s <;> rfl
  | error e =>
    rw [Plan.bind_of_error ho]
    simp only [Plan.run, ho, Comp.bind_apply]
    cases runCalls sem p.calls s <;> rfl

/-! ## Plans that look at the state reached -/

variable (sem)

/-- Makes the calls of `p` from `s` and goes on with a plan chosen by the state
they lead to. -/
def Plan.goOn (p : Plan Op E α) (s : S) (q : α → S → Plan Op E β) : Plan Op E β :=
  match p.run sem s with
  | .ok (a, t) => ⟨p.calls ++ (q a t).calls, (q a t).out⟩
  | .error e => ⟨p.calls, .error e⟩

variable {sem}

theorem Plan.goOn_of_ok {p : Plan Op E α} {q : α → S → Plan Op E β} {s t : S} {a : α}
    (h : p.run sem s = .ok (a, t)) :
    p.goOn sem s q = ⟨p.calls ++ (q a t).calls, (q a t).out⟩ := by
  rw [Plan.goOn, h]

theorem Plan.goOn_of_error {p : Plan Op E α} {q : α → S → Plan Op E β} {s : S} {e : E}
    (h : p.run sem s = .error e) : p.goOn sem s q = ⟨p.calls, .error e⟩ := by
  rw [Plan.goOn, h]

theorem Plan.run_goOn (p : Plan Op E α) (q : α → S → Plan Op E β) (s : S) :
    (p.goOn sem s q).run sem s = match p.run sem s with
      | .ok (a, t) => (q a t).run sem t
      | .error e => .error e := by
  cases hr : p.run sem s with
  | ok r =>
    obtain ⟨a, t⟩ := r
    have hcalls := (Plan.run_eq_ok.mp hr).2
    rw [Plan.goOn_of_ok hr]
    simp only [Plan.run, Comp.bind_apply, runCalls_append, hcalls]
  | error e =>
    rw [Plan.goOn_of_error hr]
    simp only [Plan.run, Comp.bind_apply]
    rcases Plan.run_eq_error.mp hr with h | ⟨-, t, h⟩
    · rw [h]
    · rw [h]
      rfl

/-- A plan for each state a program may start in. -/
structure StatePlan (sem : Op → Comp S E Unit) (α : Type) where
  plan : S → Plan Op E α

namespace StatePlan

instance : Monad (StatePlan sem) where
  pure a := ⟨fun _ => pure a⟩
  bind p q := ⟨fun s => (p.plan s).goOn sem s fun a => (q a).plan⟩

/-- Looks at the state. -/
def looks (g : S → α) : StatePlan sem α := ⟨fun s => pure (g s)⟩

/-- A plan that does not depend on the state. -/
def fixed (p : Plan Op E α) : StatePlan sem α := ⟨fun _ => p⟩

def call (op : Op) : StatePlan sem Unit := fixed (Plan.call op)

def calls (ops : List Op) : StatePlan sem Unit := fixed ⟨ops, .ok ()⟩

theorem calls_bind_ofExcept (r : Except E α) (q : α → StatePlan sem β) (s : S) :
    ((fixed (Plan.ofExcept r) >>= q).plan s).calls = match r with
      | .ok a => ((q a).plan s).calls
      | .error _ => [] := by
  cases r <;> rfl

theorem plan_bind (p : StatePlan sem α) (q : α → StatePlan sem β) (s : S) :
    (p >>= q).plan s = (p.plan s).goOn sem s fun a => (q a).plan := rfl

end StatePlan

namespace StatePlan

theorem atEach_seq {G : S → Op → List Op → Prop} (hG : Grows G) {p : StatePlan sem α}
    {q : α → StatePlan sem β} {s : S} (hp : AtEach sem G (p.plan s).calls s)
    (hq : ∀ a t, (p.plan s).run sem s = .ok (a, t) → AtEach sem G ((q a).plan t).calls t) :
    AtEach sem G ((p >>= q).plan s).calls s := by
  rw [plan_bind]
  cases hr : (p.plan s).run sem s with
  | ok r =>
    obtain ⟨a, t⟩ := r
    rw [Plan.goOn_of_ok hr]
    refine hp.append hG fun u hu => ?_
    obtain rfl : t = u := by
      have := (Plan.run_eq_ok.mp hr).2.symm.trans hu
      cases this
      rfl
    exact hq a t hr
  | error e =>
    rw [Plan.goOn_of_error hr]
    exact hp

theorem atEach_loop {G : S → Op → List Op → Prop} (hG : Grows G) {xs : List α}
    {p : α → StatePlan sem Int} (h : ∀ x s, AtEach sem G ((p x).plan s).calls s) (s : S) :
    AtEach sem G ((forEach xs p).plan s).calls s := by
  induction xs generalizing s with
  | nil => trivial
  | cons x xs ih =>
    refine atEach_seq hG (h x s) fun r t _ => ?_
    split
    · trivial
    · exact ih t

/-- A plan runs to its end where its parts do, and makes the calls of both. -/
theorem run_bind_eq_ok {p : StatePlan sem α} {q : α → StatePlan sem β} {s t : S} {b : β} :
    ((p >>= q).plan s).run sem s = .ok (b, t) ↔
      ∃ a u, (p.plan s).run sem s = .ok (a, u) ∧ ((q a).plan u).run sem u = .ok (b, t) := by
  rw [plan_bind, Plan.run_goOn]
  cases (p.plan s).run sem s with
  | ok r =>
    constructor
    · exact fun h => ⟨r.1, r.2, rfl, h⟩
    · rintro ⟨a, u, hr, h⟩
      cases hr
      exact h
  | error e => simp

theorem calls_bind {p : StatePlan sem α} {q : α → StatePlan sem β} {s t : S} {a : α}
    (h : (p.plan s).run sem s = .ok (a, t)) :
    ((p >>= q).plan s).calls = (p.plan s).calls ++ ((q a).plan t).calls := by
  rw [plan_bind, Plan.goOn_of_ok h]

/-- Every call the plan may make satisfies `Q`, and if it aborts after its calls have
returned it does so with an error in `R`. -/
structure Within (Q : Op → Prop) (R : E → Prop) (p : StatePlan sem α) : Prop where
  calls : ∀ s, ∀ op ∈ (p.plan s).calls, Q op
  out : ∀ s t e, runCalls sem (p.plan s).calls s = .ok ((), t) → (p.plan s).out = .error e → R e

namespace Within

variable {Q : Op → Prop} {R : E → Prop}

theorem ret (a : α) : Within Q R (pure a : StatePlan sem α) := ⟨nofun, nofun⟩

theorem mono {Q' : Op → Prop} {R' : E → Prop} {p : StatePlan sem α} (h : Within Q R p)
    (hQ : ∀ op, Q op → Q' op) (hR : ∀ e, R e → R' e) : Within Q' R' p :=
  ⟨fun s op hop => hQ op (h.calls s op hop), fun s t e hrun he => hR e (h.out s t e hrun he)⟩

theorem looks (g : S → α) : Within Q R (looks g : StatePlan sem α) := ⟨nofun, nofun⟩

theorem fixed {p : Plan Op E α} (h : p.Within Q R) : Within Q R (fixed p : StatePlan sem α) :=
  ⟨fun _ => h.calls, fun _ _ e _ he => h.out e he⟩

theorem call {op : Op} (h : Q op) : Within Q R (call op : StatePlan sem Unit) := fixed (.call h)

theorem calls_of {ops : List Op} (h : ∀ op ∈ ops, Q op) :
    Within Q R (StatePlan.calls ops : StatePlan sem Unit) := ⟨fun _ => h, nofun⟩

theorem seq {p : StatePlan sem α} {q : α → StatePlan sem β} (hp : Within Q R p)
    (hq : ∀ a, Within Q R (q a)) : Within Q R (p >>= q) := by
  constructor
  · intro s op hop
    rw [plan_bind] at hop
    cases hr : (p.plan s).run sem s with
    | ok r =>
      obtain ⟨a, t⟩ := r
      rw [Plan.goOn_of_ok hr] at hop
      rcases List.mem_append.mp hop with hop | hop
      · exact hp.calls s op hop
      · exact (hq a).calls t op hop
    | error e =>
      rw [Plan.goOn_of_error hr] at hop
      exact hp.calls s op hop
  · intro s u e hrun hout
    rw [plan_bind] at hrun hout
    cases hr : (p.plan s).run sem s with
    | ok r =>
      obtain ⟨a, t⟩ := r
      rw [Plan.goOn_of_ok hr] at hrun hout
      obtain ⟨t', ht', hrest⟩ := runCalls_append_ok.mp hrun
      cases (Plan.run_eq_ok.mp hr).2.symm.trans ht'
      exact (hq a).out t u e hrest hout
    | error e' =>
      rw [Plan.goOn_of_error hr] at hrun hout
      cases hout
      rcases Plan.run_eq_error.mp hr with herr | ⟨hout, -⟩
      · exact nomatch hrun.symm.trans herr
      · exact hp.out s u e hrun hout

theorem ite {c : Prop} [Decidable c] {p p' : StatePlan sem α} (h : Within Q R p)
    (h' : Within Q R p') : Within Q R (if c then p else p') := by
  split
  · exact h
  · exact h'

theorem loop {xs : List α} {p : α → StatePlan sem Int} (h : ∀ x ∈ xs, Within Q R (p x)) :
    Within Q R (forEach xs p) := by
  induction xs with
  | nil => exact ret 0
  | cons x xs ih =>
    refine seq (h x List.mem_cons_self) fun r => ite (ret r) (ih fun y hy => ?_)
    exact h y (List.mem_cons_of_mem x hy)

end Within

end StatePlan

/-- `m` does what its plan for the starting state says. -/
def Follows (m : Comp S E α) (p : StatePlan sem α) : Prop := ∀ s, m s = (p.plan s).run sem s

namespace Follows

theorem ret (a : α) : Follows (pure a) (pure a : StatePlan sem α) := fun _ => rfl

theorem seq {m : Comp S E α} {f : α → Comp S E β} {p : StatePlan sem α}
    {q : α → StatePlan sem β} (hm : Follows m p) (hf : ∀ a, Follows (f a) (q a)) :
    Follows (m >>= f) (p >>= q) := by
  intro s
  rw [StatePlan.plan_bind, Plan.run_goOn, Comp.bind_apply, ← hm s]
  cases m s with
  | ok r => exact hf r.1 r.2
  | error e => rfl

theorem call (op : Op) : Follows (sem op) (StatePlan.call op : StatePlan sem Unit) := by
  intro s
  simp only [StatePlan.call, StatePlan.fixed, Plan.run, Plan.call_calls, Plan.call_out, runCalls,
    Comp.bind_apply]
  cases sem op s <;> rfl

theorem calls (ops : List Op) :
    Follows (runCalls sem ops) (StatePlan.calls ops : StatePlan sem Unit) := by
  intro s
  simp only [StatePlan.calls, StatePlan.fixed, Plan.run, Comp.bind_apply]
  cases runCalls sem ops s <;> rfl

/-- A call whose answer is a function of the state it is made in. -/
theorem answer {m : Comp S E α} {f : α → Comp S E β} {op : Op} {g : S → α}
    {q : α → StatePlan sem β}
    (hm : ∀ s, m s = match sem op s with
      | .ok (_, t) => .ok (g s, t)
      | .error e => .error e)
    (hf : ∀ a, Follows (f a) (q a)) :
    Follows (m >>= f) (StatePlan.looks g >>= fun a => StatePlan.call op >>= fun _ => q a) := by
  intro s
  have hgo : (StatePlan.looks g >>= fun a => StatePlan.call op >>= fun _ => q a).plan s =
      (StatePlan.call op >>= fun _ => q (g s) : StatePlan sem β).plan s := rfl
  rw [hgo, StatePlan.plan_bind, Plan.run_goOn, ← call op s, Comp.bind_apply, hm s]
  cases sem op s with
  | ok r => exact hf (g s) r.2
  | error e => rfl

theorem reads {g : S → γ} {f : γ → Comp S E β} {p : γ → StatePlan sem β}
    (hf : ∀ c, Follows (f c) (p c)) : Follows (Comp.reads g >>= f) (StatePlan.looks g >>= p) :=
  fun s => hf (g s) s

theorem ofExcept {m : Comp S E α} {r : Except E α} (hm : ∀ s, m s = r.map fun a => (a, s)) :
    Follows m (StatePlan.fixed (Plan.ofExcept r) : StatePlan sem α) := by
  intro s
  rw [hm s]
  cases r <;> rfl

theorem ite {c : Prop} [Decidable c] {m m' : Comp S E α} {p p' : StatePlan sem α}
    (h : c → Follows m p) (h' : ¬ c → Follows m' p') :
    Follows (if c then m else m') (if c then p else p') := by
  split
  · exact h ‹_›
  · exact h' ‹_›

theorem loop {xs : List α} {body : α → Comp S E Int} {p : α → StatePlan sem Int}
    (h : ∀ x, Follows (body x) (p x)) : Follows (forEach xs body) (forEach xs p) := by
  induction xs with
  | nil => exact ret 0
  | cons x xs ih => exact seq (h x) fun r => ite (fun _ => ret r) fun _ => ih

end Follows

/-! ## Implementing a plan -/

/-- From a state satisfying `I` the program does what the plan says, and leaves
a state satisfying `I`. -/
def Implements (sem : Op → Comp S E Unit) (I : S → Prop) (m : Comp S E α)
    (p : Plan Op E α) : Prop :=
  ∀ s, I s → m s = p.run sem s ∧ ∀ a s', m s = .ok (a, s') → I s'

namespace Implements

variable {I : S → Prop}

theorem ofExcept {m : Comp S E α} {r : Except E α}
    (hm : ∀ s, m s = r.map fun a => (a, s)) : Implements sem I m (Plan.ofExcept r) := by
  intro s hs
  rw [hm s]
  cases r with
  | ok a => exact ⟨rfl, fun _ _ h => by cases h; exact hs⟩
  | error e => exact ⟨rfl, fun _ _ h => by cases h⟩

theorem ret (a : α) : Implements sem I (pure a) (pure a) := fun s hs =>
  ⟨rfl, fun _ _ h => by cases h; exact hs⟩

theorem fail (e : E) :
    Implements sem I (throw e : Comp S E α) (Plan.abort e) := fun _ _ =>
  ⟨rfl, fun _ _ h => by cases h⟩

theorem call {op : Op} (hI : ∀ s s', I s → sem op s = .ok ((), s') → I s') :
    Implements sem I (sem op) (Plan.call op) := by
  intro s hs
  refine ⟨?_, fun a s' h => hI s s' hs h⟩
  simp only [Plan.run, Plan.call_calls, Plan.call_out, runCalls, Comp.bind_apply]
  cases sem op s <;> rfl

theorem seq {m : Comp S E α} {f : α → Comp S E β} {p : Plan Op E α} {q : α → Plan Op E β}
    (hm : Implements sem I m p) (hf : ∀ a, p.out = .ok a → Implements sem I (f a) (q a)) :
    Implements sem I (m >>= f) (p >>= q) := by
  intro s hs
  obtain ⟨hms, hmI⟩ := hm s hs
  rw [Plan.run_bind, Comp.bind_apply, Comp.bind_apply, ← hms]
  cases h : m s with
  | ok r =>
    obtain ⟨a, t⟩ := r
    have hout : p.out = .ok a := (Plan.run_eq_ok.mp (hms ▸ h)).1
    exact hf a hout t (hmI a t h)
  | error e => exact ⟨rfl, fun _ _ h => by cases h⟩

/-- Reading a fact that `I` determines. -/
theorem reads {g : S → γ} {c : γ} {f : γ → Comp S E β} {p : Plan Op E β}
    (hg : ∀ s, I s → g s = c) (hf : Implements sem I (f c) p) :
    Implements sem I (Comp.reads g >>= f) p := by
  intro s hs
  have hread : (Comp.reads g >>= f : Comp S E β) s = f c s := by
    rw [← hg s hs]
    rfl
  rw [hread]
  exact hf s hs

/-- A program that begins with a call. -/
theorem callThen {m k : Comp S E β} {op : Op} {p : Plan Op E β}
    (hm : m = sem op >>= fun _ => k) (hI : ∀ s s', I s → sem op s = .ok ((), s') → I s')
    (hk : Implements sem I k p) : Implements sem I m (Plan.call op >>= fun _ => p) := by
  rw [hm]
  exact seq (call hI) fun _ _ => hk

theorem ite {c : Prop} [Decidable c] {m m' : Comp S E α} {p p' : Plan Op E α}
    (h : c → Implements sem I m p) (h' : ¬ c → Implements sem I m' p') :
    Implements sem I (if c then m else m') (if c then p else p') := by
  split
  · exact h ‹_›
  · exact h' ‹_›

theorem loop {xs : List α} {body : α → Comp S E Int} {p : α → Plan Op E Int}
    (h : ∀ x ∈ xs, Implements sem I (body x) (p x)) :
    Implements sem I (forEach xs body) (forEach xs p) := by
  induction xs with
  | nil => exact ret 0
  | cons x xs ih =>
    refine seq (h x List.mem_cons_self) fun r _ => ite (fun _ => ret r) fun _ => ?_
    exact ih fun y hy => h y (List.mem_cons_of_mem x hy)

end Implements

theorem Implements.follows {m : Comp S E α} {p : Plan Op E α}
    (h : Implements sem (fun _ => True) m p) :
    Follows m (StatePlan.fixed p : StatePlan sem α) := fun s => (h s trivial).1

end Lib.CallPlan
