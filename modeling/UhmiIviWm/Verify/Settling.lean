import UhmiIviWm.Lib.Settling
import UhmiIviWm.Verify.Placement
import UhmiIviWm.Verify.Records
import UhmiIviWm.Verify.Strings

/-!
# Notifications settle

Once clients and applications rest, what is left are the records on the pipe and the
answers to the notifications. A creation makes one notification at most, an answer one
record, and a record of an answer nothing new; so this comes to an end, in whatever
order it is done, with every layer showing its existing surfaces in order
(`notifications_settle`).
-/

namespace UhmiIviWm

open Lib Lib.CallPlan Lib.KeyedList Lib.TransitionSystem

/-- The loop and the compositor go on by themselves. -/
def SessionAction.inner : SessionAction → Prop
  | .configure _ | .takeRecord => True
  | .create _ | .destroy _ | .message _ => False

/-- The record of a creation may leave an answer to wait for. -/
def Cbdata.isCreation : Cbdata → Bool
  | ⟨.creationDelection, _⟩ => true
  | ⟨.surfacePropChange, _⟩ => false

/-- A record is a step, and an answer is one and makes a record. -/
def Session.toDo (s : Session) : Nat :=
  s.pipe.length + 2 * (s.pipe.countP Cbdata.isCreation + s.world.ilm.pending.length)

/-- The call a record makes. -/
def Cbdata.call : Cbdata → Call
  | ⟨.creationDelection, id⟩ => .register id
  | ⟨.surfacePropChange, id⟩ => .place id

/-! ## Records -/

theorem Compositor.length_pending_place (c : Compositor) (prop : SurfaceProperties) (id : Id)
    (l : List LayerElm) : (c.place prop id l).pending.length ≤ c.pending.length := by
  let P (c' : Compositor) : Prop := c'.pending.length ≤ c.pending.length
  refine List.foldlRecOn (motive := P) l _ (Nat.le_refl _) fun c' hc' e _ => ?_
  refine List.foldlRecOn (motive := P) e.listHead _ hc' fun c' hc' x _ => ?_
  split
  · change (c'.setSurface prop id).pending.length ≤ _
    unfold Compositor.setSurface
    split
    · exact (List.length_filter_le _ _).trans hc'
    · exact hc'
  · exact hc'

section Records

variable {w : World Compositor}

/-- Where every surface has its record, handling one does not abort. -/
theorem handle_record (hrec : Recorded w.wm) (data : Cbdata) :
    (Event.record data).handle (Compositor.ilm false) w =
      .ok ((), ⟨w.wm, Compositor.onCall false w.wm data.call w.ilm⟩) := by
  have hreturns : ∃ c, data.call.sem (Compositor.ilm false) w =
      .ok ((), ⟨data.call.layout w.wm, c⟩) :=
    Call.sem_returns Compositor.succeeds hrec.not_unrecorded
  obtain ⟨c, hsem⟩ := hreturns
  have hworld := Call.sem_lenient hsem
  have hrun : runCalls (Call.sem (Compositor.ilm false)) [data.call] w =
      .ok ((), ⟨data.call.layout w.wm, Compositor.onCall false w.wm data.call w.ilm⟩) :=
    runCalls_cons_ok.mpr ⟨_, hsem, hworld ▸ rfl⟩
  obtain ⟨type, id⟩ := data
  cases type with
  | creationDelection => exact Event.handle_eq_ok.mpr ⟨rfl, hrun⟩
  | surfacePropChange => exact Event.handle_eq_ok.mpr ⟨rfl, hrun⟩

/-- A creation that no layer waits for may find no record. -/
theorem unhindered_of_recorded (hrec : Recorded w.wm) (pipe : List Cbdata) :
    Unhindered .takeRecord ⟨w, pipe⟩ := by
  cases pipe with
  | nil => trivial
  | cons data rest =>
    obtain ⟨type, id⟩ := data
    cases type with
    | surfacePropChange => trivial
    | creationDelection =>
      by_cases hmem : id ∈ w.wm.recordIds
      · exact .inl hmem
      · refine .inr (.inr (.inr fun e he hex => ?_))
        exact absurd (hrec e he id ((Compositor.mem_existing _).mp hex).1) hmem

/-- Handling a creation leaves one answer more at most. -/
theorem length_pending_record (data : Cbdata) (wm : Wm) (c : Compositor) :
    (Compositor.onCall false wm data.call c).pending.length ≤
      (if data.isCreation = true then 1 else 0) + c.pending.length := by
  obtain ⟨type, id⟩ := data
  cases type with
  | creationDelection =>
    have hle : (Compositor.onCall false wm (.register id) c).pending.length ≤
        c.pending.length + 1 := by
      rw [Compositor.onCall]
      split
      · exact Nat.le_succ _
      · exact Nat.le_refl _
    rwa [Nat.add_comm] at hle
  | surfacePropChange =>
    rw [Cbdata.isCreation, if_neg Bool.false_ne_true, Nat.zero_add]
    exact c.length_pending_place ((record wm.surfacePropertiesHead id).getD .zero) id
      (layersOf wm.screenHead)

end Records

/-! ## Inner steps -/

/-- The layout and the surfaces stay, and nothing is left out. -/
structure Steady (wm : Wm) (surfaces : List Id) (s : Session) : Prop where
  wm : s.world.wm = wm
  surfaces : s.world.ilm.surfaces = surfaces
  placed : Placed (Awaited s.pipe s.world.ilm) s.world []

theorem length_pending_answer {c : Compositor} {id : Id} (h : id ∈ c.pending) :
    (c.answer id).pending.length < c.pending.length :=
  List.length_filter_lt_length_iff_exists.mpr ⟨id, h, by simp⟩

theorem settling_session (start : Boot → World Compositor → Prop) {wm : Wm} (hrec : Recorded wm)
    (surfaces : List Id) :
    Settling (session start) SessionAction.inner (Steady wm surfaces) Session.toDo where
  kept := by
    rintro a ⟨w, pipe⟩ t ha ⟨hwm, hsurfaces, hplaced⟩ hstep
    have hstep : Session.perform ⟨w, pipe⟩ a = some t := hstep
    cases a with
    | configure id =>
      have hafter := hplaced.step (s := ⟨w, pipe⟩) (a := .configure id) trivial hstep
      simp only [Session.perform] at hstep
      split at hstep
      · cases hstep
        exact ⟨hwm, hsurfaces, hafter⟩
      · cases hstep
    | takeRecord =>
      have hrecorded : Recorded w.wm := hwm ▸ hrec
      have hafter := hplaced.step (s := ⟨w, pipe⟩) (unhindered_of_recorded hrecorded pipe) hstep
      cases pipe with
      | nil => cases hstep
      | cons data rest =>
        simp only [Session.perform, handle_record hrecorded data] at hstep
        cases hstep
        exact ⟨hwm, (w.ilm.onCall_surfaces w.wm data.call).trans hsurfaces, hafter⟩
    | create | destroy | message => exact ha.elim
  decreases := by
    rintro a ⟨w, pipe⟩ t ha ⟨hwm, -, -⟩ hstep
    have hstep : Session.perform ⟨w, pipe⟩ a = some t := hstep
    cases a with
    | configure id =>
      simp only [Session.perform] at hstep
      split at hstep
      · rename_i hpending
        cases hstep
        have hless := length_pending_answer (List.contains_iff_mem.mp hpending)
        simp only [Session.toDo, Session.notify, surfaceNotificationCallback, if_true,
          List.length_append, List.length_singleton, List.countP_append, List.countP_singleton,
          Cbdata.isCreation, Bool.false_eq_true, if_false]
        omega
      · cases hstep
    | takeRecord =>
      cases pipe with
      | nil => cases hstep
      | cons data rest =>
        simp only [Session.perform, handle_record (hwm ▸ hrec) data] at hstep
        cases hstep
        have hle := length_pending_record data w.wm w.ilm
        simp only [Session.toDo, List.length_cons, List.countP_cons]
        omega
    | create | destroy | message => exact ha.elim

/-- Nothing is left of the work where no inner step is possible. -/
theorem quiet_of_settled {start : Boot → World Compositor → Prop} {s : Session}
    (hrec : Recorded s.world.wm) (h : Settled (session start) SessionAction.inner s) :
    s.pipe = [] ∧ s.world.ilm.pending = [] := by
  obtain ⟨w, pipe⟩ := s
  constructor
  · cases pipe with
    | nil => rfl
    | cons data rest =>
      have hstep : (session start).step .takeRecord ⟨w, data :: rest⟩
          ⟨⟨w.wm, Compositor.onCall false w.wm data.call w.ilm⟩, rest⟩ := by
        change Session.perform _ _ = _
        simp only [Session.perform, handle_record hrec data]
      exact absurd hstep (h .takeRecord _ trivial)
  · refine List.eq_nil_iff_forall_not_mem.mpr fun id hid => ?_
    have hstep : (session start).step (.configure id) ⟨w, pipe⟩
        (Session.notify ⟨w, pipe⟩ (w.ilm.answer id) (surfaceNotificationCallback id true)) := by
      change Session.perform _ _ = _
      simp only [Session.perform, List.contains_iff_mem.mpr hid, if_true]
    exact h (.configure id) _ trivial hstep

/-- The work left comes to an end within `toDo` steps, in whatever order, and at its end
every layer shows its existing surfaces. -/
theorem notifications_settle {start : Boot → World Compositor → Prop} {s s' : Session}
    {as : List SessionAction} (h : (session start).Run Unhindered s) (hrec : Recorded s.world.wm)
    (has : ∀ a ∈ as, a.inner) (hpath : Path (session start) as s s') :
    as.length ≤ s.toDo ∧
      (∃ bs t, (∀ b ∈ bs, b.inner) ∧ Path (session start) bs s' t ∧
        Settled (session start) SessionAction.inner t) ∧
      (Settled (session start) SessionAction.inner s' →
        s'.pipe = [] ∧ s'.world.ilm.pending = [] ∧ s'.world.wm = s.world.wm ∧
          ∀ e ∈ layersOf s.world.wm.screenHead, s'.world.ilm.layerOrder e.id =
            (ids e.listHead).filter fun id => s.world.ilm.surfaces.contains id) := by
  have hsettling := settling_session start hrec s.world.ilm.surfaces
  have hsteady : Steady s.world.wm s.world.ilm.surfaces s := ⟨rfl, rfl, placed_of_run h⟩
  obtain ⟨hsteady', hle⟩ := hsettling.length_le hpath has hsteady
  refine ⟨(Nat.le_add_right _ _).trans hle, hsettling.exists_settled hsteady', fun hsettled => ?_⟩
  obtain ⟨hwm, hsurfaces, hplaced⟩ := hsteady'
  obtain ⟨hpipe, hpending⟩ := quiet_of_settled (hwm ▸ hrec) hsettled
  refine ⟨hpipe, hpending, hwm, fun e he => ?_⟩
  have hnone : ∀ id, ¬ Awaited s'.pipe s'.world.ilm id := by
    intro id hawait
    rw [hpipe, Awaited, hpending] at hawait
    exact hawait.elim List.not_mem_nil List.not_mem_nil
  have horder := hplaced.order_eq hnone (hwm ▸ he)
  rw [Compositor.existing, hsurfaces] at horder
  exact horder

/-! Surface 10 is created late, and its notification registered. -/

theorem settled_of_quiet {start : Boot → World Compositor → Prop} {s : Session}
    (hpipe : s.pipe = []) (hpending : s.world.ilm.pending = []) :
    Settled (session start) SessionAction.inner s := by
  intro a t ha hstep
  have hstep : s.perform a = some t := hstep
  cases a with
  | configure id =>
    rw [Session.perform, hpending] at hstep
    cases hstep
  | takeRecord =>
    rw [Session.perform, hpipe] at hstep
    cases hstep
  | create | destroy | message => exact ha.elim

/-- The condition on the store, as a check. -/
def recordedCheck (wm : Wm) : Bool :=
  (layersOf wm.screenHead).all fun e => (ids e.listHead).all fun id => wm.recordIds.contains id

theorem recorded_of_check {wm : Wm} (h : recordedCheck wm = true) : Recorded wm := by
  intro e he id hid
  exact List.contains_iff_mem.mp (List.all_eq_true.mp (List.all_eq_true.mp h e he) id hid)

theorem notifications_settle_createdLate : ∃ s s' : Session, s.toDo = 2 ∧
    s.world.ilm.layerOrder 3000 = [] ∧ s'.world.ilm.layerOrder 3000 = [10] ∧
      ∀ e ∈ layersOf s.world.wm.screenHead, s'.world.ilm.layerOrder e.id =
        (ids e.listHead).filter fun id => s.world.ilm.surfaces.contains id := by
  have hrun : ((Session.started [0]).bind (Session.performAll Unhindered createdLate)).any
      (fun s => recordedCheck s.world.wm && (s.toDo == 2 && s.world.ilm.layerOrder 3000 == []) &&
        ((s.perform (.configure 10)).bind (·.perform .takeRecord)).any
          fun s' => s'.quiet && s'.world.ilm.layerOrder 3000 == [10]) = true := by decide +kernel
  obtain ⟨s, hs, hend⟩ := Session.exists_run hrun
  rw [Bool.and_eq_true, Bool.and_eq_true, Bool.and_eq_true] at hend
  obtain ⟨⟨hrec, htoDo, hempty⟩, hmore⟩ := hend
  obtain ⟨s', hperform, hlast⟩ := (Option.any_eq_true _ _).mp hmore
  obtain ⟨t, hconfigure, htake⟩ := Option.bind_eq_some_iff.mp hperform
  rw [Session.quiet, Bool.and_eq_true, Bool.and_eq_true] at hlast
  obtain ⟨⟨hpipe, hpending⟩, horder⟩ := hlast
  have hpath : Path (session fun _ w => w = World.fresh [0]) [.configure 10, .takeRecord] s s' :=
    .snoc (.one hconfigure) htake
  have hinner : ∀ a ∈ [SessionAction.configure 10, .takeRecord], a.inner := by
    intro a ha
    rcases List.mem_cons.mp ha with rfl | ha
    · trivial
    · rw [List.mem_singleton.mp ha]
      trivial
  obtain ⟨-, -, hsettled⟩ := notifications_settle hs (recorded_of_check hrec) hinner hpath
  obtain ⟨-, -, -, hshown⟩ := hsettled
    (settled_of_quiet (List.isEmpty_iff.mp hpipe) (List.isEmpty_iff.mp hpending))
  exact ⟨s, s', beq_iff_eq.mp htoDo, beq_iff_eq.mp hempty, beq_iff_eq.mp horder, hshown⟩

end UhmiIviWm
