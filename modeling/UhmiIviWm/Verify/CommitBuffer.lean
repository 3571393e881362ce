import UhmiIviWm.Model.CommitBuffer
import UhmiIviWm.Verify.Interchangeable
import UhmiIviWm.Verify.Wrappers

/-!
# Changes are committed

Each wrapper makes one group of changes and commits it, and asks ilm nothing in between.
So it does not matter which of the changes ilm puts off until the commit: the daemon
behaves as if all of them took effect at once, and nothing is left waiting at the end of
a step (`commit_transparent`).
-/

namespace UhmiIviWm

open Lib Lib.CallPlan Lib.TransitionSystem Lib.WriteBuffer

/-- Nothing waits. -/
def Committed (b : Buffered Compositor IlmCall) (c : Compositor) : Prop := b = ⟨c, []⟩

namespace Compositor

variable {strict : Bool} {late : Buffered Compositor IlmCall → IlmCall → Bool}
  {P Q : IlmCall → Prop} {op : IlmCall}

/-! ## Rules for a group of changes -/

/-- Changes that may be made between two commits, in any order. -/
structure Group (strict : Bool) (P : IlmCall → Prop) : Prop extends
    (device strict).Independent P where
  uncommitted : ¬ P .commitChanges

theorem Group.ne_commit (h : Group strict P) (hop : P op) : op ≠ .commitChanges :=
  fun he => h.uncommitted (he ▸ hop)

theorem bufferedIlm_call (h : op ≠ .commitChanges) (b : Buffered Compositor IlmCall) :
    (bufferedIlm strict late).call op b =
      (device strict).performBuffered (fun b op => late b op && op.changesLayout) op b := by
  cases op with
  | commitChanges => exact absurd rfl h
  | _ => rfl

theorem ilm_call (op : IlmCall) (c : Compositor) :
    (Compositor.ilm strict).call op c = (device strict).perform op c := rfl

section Calls

variable {R : Buffered Compositor IlmCall → Compositor → Prop}

theorem checked_lockstep (hne : op ≠ .commitChanges)
    (h : ∀ b c, R b c →
      ((device strict).performBuffered (fun b op => late b op && op.changesLayout) op b).1 =
        ((device strict).perform op c).1 ∧
      (device strict).Behind P
        ((device strict).performBuffered (fun b op => late b op && op.changesLayout) op b).2
        ((device strict).perform op c).2) :
    Lockstep R ((device strict).Behind P) (checked (bufferedIlm strict late) op)
      (checked (Compositor.ilm strict) op) := by
  have hask : Lockstep R ((device strict).Behind P) (ask ((bufferedIlm strict late).call op))
      (ask ((Compositor.ilm strict).call op)) := by
    intro b c hR
    obtain ⟨hanswer, hbehind⟩ := h b c hR
    rw [ask, ask, bufferedIlm_call hne, ilm_call]
    generalize (device strict).performBuffered _ op b = x at hanswer hbehind
    obtain ⟨success, b'⟩ := x
    cases hanswer
    exact .ok hbehind
  exact hask.seq fun success => .ite (fun _ => .ret ()) fun _ => .throw _

theorem unchecked_lockstep (hne : op ≠ .commitChanges)
    (h : ∀ b c, R b c → (device strict).Behind P
      ((device strict).performBuffered (fun b op => late b op && op.changesLayout) op b).2
      ((device strict).perform op c).2) :
    Lockstep R ((device strict).Behind P) (unchecked (bufferedIlm strict late) op)
      (unchecked (Compositor.ilm strict) op) := by
  intro b c hR
  rw [unchecked, unchecked, bufferedIlm_call hne, ilm_call]
  exact .ok (h b c hR)

end Calls

theorem first_checked (P : IlmCall → Prop) (hop : P op) (hne : op ≠ .commitChanges) :
    Lockstep Committed ((device strict).Behind P) (checked (bufferedIlm strict late) op)
      (checked (Compositor.ilm strict) op) := by
  refine checked_lockstep hne fun b c hb => ?_
  rw [hb]
  exact Device.Behind.perform_first hop _ c

theorem first_unchecked (P : IlmCall → Prop) (hop : P op) (hne : op ≠ .commitChanges) :
    Lockstep Committed ((device strict).Behind P) (unchecked (bufferedIlm strict late) op)
      (unchecked (Compositor.ilm strict) op) := by
  refine unchecked_lockstep hne fun b c hb => ?_
  rw [hb]
  exact (Device.Behind.perform_first hop _ c).2

theorem next_checked (hP : Group strict P) (hop : P op) :
    Lockstep ((device strict).Behind P) ((device strict).Behind P)
      (checked (bufferedIlm strict late) op) (checked (Compositor.ilm strict) op) :=
  checked_lockstep (hP.ne_commit hop) fun _ _ hb => hb.perform hP.toIndependent hop _

theorem next_unchecked (hP : Group strict P) (hop : P op) :
    Lockstep ((device strict).Behind P) ((device strict).Behind P)
      (unchecked (bufferedIlm strict late) op) (unchecked (Compositor.ilm strict) op) :=
  unchecked_lockstep (hP.ne_commit hop) fun _ _ hb => (hb.perform hP.toIndependent hop _).2

/-- A call that changes nothing. -/
theorem inert_unchecked (op : IlmCall) (hinert : ∀ c : Compositor, c.apply op = c)
    (hlayout : op.changesLayout = false) (hne : op ≠ .commitChanges) :
    Lockstep ((device strict).Behind P) ((device strict).Behind P)
      (unchecked (bufferedIlm strict late) op) (unchecked (Compositor.ilm strict) op) := by
  refine unchecked_lockstep hne fun _ _ hb => hb.perform_inert hinert ?_
  rw [hlayout, Bool.and_false]

theorem commit_lockstep (P : IlmCall → Prop) :
    Lockstep ((device strict).Behind P) Committed
      (unchecked (bufferedIlm strict late) .commitChanges)
      (unchecked (Compositor.ilm strict) .commitChanges) := by
  intro b c hb
  have hnow : ((Compositor.ilm strict).call .commitChanges c).2 = c := by
    rw [ilm_call, Device.perform]
    exact apply_ite Prod.snd _ _ _ |>.trans (ite_self _)
  rw [unchecked, unchecked, hnow]
  exact .ok hb.commit

theorem begin_group {α : Type} {T : Buffered Compositor IlmCall → Compositor → Prop}
    {m : IlmM (Buffered Compositor IlmCall) α} {m' : IlmM Compositor α}
    (h : Lockstep ((device strict).Behind P) T m m') : Lockstep Committed T m m' := by
  intro b c hb
  rw [hb]
  exact h _ c (.of_committed c)

/-! ## Groups of independent changes -/

/-- The changes of `wrap_ilm_set_layer`. -/
def layerSets (lp : LayoutProperties) (id : Id) : List IlmCall :=
  [.layerSetDestinationRectangle id lp.dstX lp.dstY lp.dstW lp.dstH,
    .layerSetSourceRectangle id lp.srcX lp.srcY lp.srcW lp.srcH,
    .layerSetOpacity id lp.opacity, .layerSetVisibility id lp.visibility]

/-- The changes of `wrap_ilm_set_surface`. -/
def surfaceSets (lp : LayoutProperties) (id : Id) : List IlmCall :=
  [.surfaceSetDestinationRectangle id lp.dstX lp.dstY lp.dstW lp.dstH,
    .surfaceSetSourceRectangle id lp.srcX lp.srcY lp.srcW lp.srcH,
    .surfaceSetOpacity id lp.opacity, .surfaceSetVisibility id lp.visibility,
    .surfaceRemoveNotification id]

theorem group_layerSets (lp : LayoutProperties) (id : Id) : Group strict (· ∈ layerSets lp id) where
  uncommitted := by simp [layerSets]
  admits a b c ha hb := by
    simp only [layerSets, List.mem_cons, List.not_mem_nil, or_false] at ha hb
    rcases ha with rfl | rfl | rfl | rfl <;> rcases hb with rfl | rfl | rfl | rfl <;> rfl
  commute a b c ha hb := by
    simp only [layerSets, List.mem_cons, List.not_mem_nil, or_false] at ha hb
    rcases ha with rfl | rfl | rfl | rfl <;> rcases hb with rfl | rfl | rfl | rfl <;>
      simp only [device, apply, setAt_setAt] <;> simp [setAt]

theorem group_surfaceSets (lp : LayoutProperties) (id : Id) :
    Group strict (· ∈ surfaceSets lp id) where
  uncommitted := by simp [surfaceSets]
  admits a b c ha hb := by
    simp only [surfaceSets, List.mem_cons, List.not_mem_nil, or_false] at ha hb
    rcases ha with rfl | rfl | rfl | rfl | rfl <;>
      rcases hb with rfl | rfl | rfl | rfl | rfl <;> rfl
  commute a b c ha hb := by
    simp only [surfaceSets, List.mem_cons, List.not_mem_nil, or_false] at ha hb
    rcases ha with rfl | rfl | rfl | rfl | rfl <;>
      rcases hb with rfl | rfl | rfl | rfl | rfl <;>
      simp only [device, apply, setAt_setAt] <;> simp [setAt]

/-- The changes of `wrap_ilm_remove_surface`. -/
def surfaceRemoval (layerId surfaceId : Id) : List IlmCall :=
  [.layerRemoveSurface layerId surfaceId, .surfaceRemoveNotification surfaceId]

theorem group_surfaceRemoval (layerId surfaceId : Id) :
    Group strict (· ∈ surfaceRemoval layerId surfaceId) where
  uncommitted := by simp [surfaceRemoval]
  admits a b c ha hb := by
    simp only [surfaceRemoval, List.mem_cons, List.not_mem_nil, or_false] at ha hb
    rcases ha with rfl | rfl <;> rcases hb with rfl | rfl <;> rfl
  commute a b c ha hb := by
    simp only [surfaceRemoval, List.mem_cons, List.not_mem_nil, or_false] at ha hb
    rcases ha with rfl | rfl <;> rcases hb with rfl | rfl <;> rfl

/-! ## The wrappers -/

/-- What is asked between two groups. -/
theorem ask_committed {α : Type}
    {query : Buffered Compositor IlmCall → α × Buffered Compositor IlmCall}
    {query' : Compositor → α × Compositor}
    (h : ∀ c, query ⟨c, []⟩ = ((query' c).1, ⟨(query' c).2, []⟩)) :
    Lockstep Committed Committed (ask query) (ask query') := by
  intro b c hb
  rw [ask, ask, hb, h]
  exact .ok rfl

theorem surfaceExists_committed (id : Id) : Lockstep Committed Committed
    (wrapIlmSurfaceExists (bufferedIlm strict late) id)
    (wrapIlmSurfaceExists (Compositor.ilm strict) id) :=
  .seq (ask_committed fun _ => rfl) fun _ => .ret _

theorem layerExists_committed (id : Id) : Lockstep Committed Committed
    (wrapIlmLayerExists (bufferedIlm strict late) id)
    (wrapIlmLayerExists (Compositor.ilm strict) id) :=
  .seq (ask_committed fun _ => rfl) fun _ => .ret _

/-- A group of one change. -/
theorem single_committed (hne : op ≠ .commitChanges) : Lockstep Committed Committed
    (do checked (bufferedIlm strict late) op; unchecked (bufferedIlm strict late) .commitChanges)
    (do checked (Compositor.ilm strict) op; unchecked (Compositor.ilm strict) .commitChanges) :=
  (first_checked (· = op) rfl hne).seq fun _ => commit_lockstep _

theorem setLayer_committed (prop : LayerProperties) (id : Id) : Lockstep Committed Committed
    (wrapIlmSetLayer (bufferedIlm strict late) prop id)
    (wrapIlmSetLayer (Compositor.ilm strict) prop id) := by
  have hsets : Group strict (· ∈ layerSets prop.lp id) := group_layerSets prop.lp id
  refine (layerExists_committed id).seq fun found => ?_
  have hgroup : Lockstep Committed Committed
      (do
        checked (bufferedIlm strict late) (.layerSetDestinationRectangle id
          prop.lp.dstX prop.lp.dstY prop.lp.dstW prop.lp.dstH)
        checked (bufferedIlm strict late) (.layerSetSourceRectangle id
          prop.lp.srcX prop.lp.srcY prop.lp.srcW prop.lp.srcH)
        checked (bufferedIlm strict late) (.layerSetOpacity id prop.lp.opacity)
        checked (bufferedIlm strict late) (.layerSetVisibility id prop.lp.visibility)
        unchecked (bufferedIlm strict late) (.layerRemoveNotification id)
        unchecked (bufferedIlm strict late) .commitChanges)
      (do
        checked (Compositor.ilm strict) (.layerSetDestinationRectangle id
          prop.lp.dstX prop.lp.dstY prop.lp.dstW prop.lp.dstH)
        checked (Compositor.ilm strict) (.layerSetSourceRectangle id
          prop.lp.srcX prop.lp.srcY prop.lp.srcW prop.lp.srcH)
        checked (Compositor.ilm strict) (.layerSetOpacity id prop.lp.opacity)
        checked (Compositor.ilm strict) (.layerSetVisibility id prop.lp.visibility)
        unchecked (Compositor.ilm strict) (.layerRemoveNotification id)
        unchecked (Compositor.ilm strict) .commitChanges) := by
    refine begin_group ((next_checked hsets (by simp [layerSets])).seq fun _ => ?_)
    refine (next_checked hsets (by simp [layerSets])).seq fun _ => ?_
    refine (next_checked hsets (by simp [layerSets])).seq fun _ => ?_
    refine (next_checked hsets (by simp [layerSets])).seq fun _ => ?_
    exact (inert_unchecked (.layerRemoveNotification id) (fun _ => rfl) rfl nofun).seq fun _ =>
      commit_lockstep _
  refine .ite (fun _ => ?_) fun _ => ?_
  · exact Lockstep.seq (single_committed nofun) fun _ => hgroup
  · exact hgroup

theorem setSurface_committed (prop : SurfaceProperties) (id : Id) : Lockstep Committed Committed
    (wrapIlmSetSurface (bufferedIlm strict late) prop id)
    (wrapIlmSetSurface (Compositor.ilm strict) prop id) := by
  have hsets : Group strict (· ∈ surfaceSets prop.lp id) := group_surfaceSets prop.lp id
  refine (surfaceExists_committed id).seq fun found => .ite (fun _ => .ret ()) fun _ => ?_
  refine begin_group ((next_checked hsets (by simp [surfaceSets])).seq fun _ => ?_)
  refine (next_checked hsets (by simp [surfaceSets])).seq fun _ => ?_
  refine (next_checked hsets (by simp [surfaceSets])).seq fun _ => ?_
  refine (next_checked hsets (by simp [surfaceSets])).seq fun _ => ?_
  refine (next_unchecked hsets (by simp [surfaceSets])).seq fun _ => ?_
  exact commit_lockstep _

theorem removeLayer_committed (id : Id) : Lockstep Committed Committed
    (wrapIlmRemoveLayer (bufferedIlm strict late) id)
    (wrapIlmRemoveLayer (Compositor.ilm strict) id) := by
  refine (layerExists_committed id).seq fun found => .ite (fun _ => .ret ()) fun _ => ?_
  refine (first_checked (· = .layerRemove id) rfl nofun).seq fun _ => ?_
  exact (inert_unchecked (.layerRemoveNotification id) (fun _ => rfl) rfl nofun).seq fun _ =>
    commit_lockstep _

theorem removeSurface_committed (layerId surfaceId : Id) : Lockstep Committed Committed
    (wrapIlmRemoveSurface (bufferedIlm strict late) layerId surfaceId)
    (wrapIlmRemoveSurface (Compositor.ilm strict) layerId surfaceId) := by
  have hremoval : Group strict (· ∈ surfaceRemoval layerId surfaceId) :=
    group_surfaceRemoval layerId surfaceId
  refine (surfaceExists_committed surfaceId).seq fun found => .ite (fun _ => .ret ()) fun _ => ?_
  refine begin_group ((next_checked hremoval (by simp [surfaceRemoval])).seq fun _ => ?_)
  exact (next_unchecked hremoval (by simp [surfaceRemoval])).seq fun _ => commit_lockstep _

/-- Outside a group, a call that changes nothing. -/
theorem inert_committed (op : IlmCall) (hinert : ∀ c : Compositor, c.apply op = c)
    (hlayout : op.changesLayout = false) (hne : op ≠ .commitChanges) :
    Lockstep Committed Committed (unchecked (bufferedIlm strict late) op)
      (unchecked (Compositor.ilm strict) op) := by
  intro b c hb
  have hnone : (device strict).Behind (fun _ => False) b c := hb ▸ .of_committed c
  refine (inert_unchecked op hinert hlayout hne b c hnone).mono fun b' c' h => ?_
  cases b' with
  | mk committed queued =>
    have hqueued : queued = [] := List.eq_nil_iff_forall_not_mem.mpr h.queued
    subst hqueued
    exact congrArg (Buffered.mk · []) h.state

theorem addNotification_committed (registered : Int) (id : Id) : Lockstep Committed Committed
    (wrapIlmSetSurfaceAddNotification (bufferedIlm strict late) registered id)
    (wrapIlmSetSurfaceAddNotification (Compositor.ilm strict) registered id) := by
  refine .ite (fun _ => .ret ()) fun _ => ?_
  refine (first_unchecked (· = .surfaceAddNotification id) rfl nofun).seq fun _ => ?_
  exact (commit_lockstep _).seq fun _ =>
    inert_committed (.getPropertiesOfSurface id) (fun _ => rfl) rfl nofun

theorem interchangeable (strict : Bool) (late : Buffered Compositor IlmCall → IlmCall → Bool) :
    Interchangeable (bufferedIlm strict late) (Compositor.ilm strict) Committed where
  surfaceExists := surfaceExists_committed
  screenExists _ := ask_committed fun _ => rfl
  screenIds := .seq (ask_committed fun _ => rfl) fun ids => by
    cases ids with
    | some ids => exact .ret ids
    | none => exact .throw _
  setLayer := setLayer_committed
  addLayerToScreen _ _ := single_committed nofun
  removeLayer := removeLayer_committed
  setSurface := setSurface_committed
  addSurfaceToLayer _ _ := single_committed nofun
  removeSurface := removeSurface_committed
  addNotification := addNotification_committed
  setCallback := inert_committed .registerNotification (fun _ => rfl) rfl nofun

/-! ## The daemon -/

theorem related_of_committed {w : World (Buffered Compositor IlmCall)} (h : w.ilm.queued = []) :
    World.Related Committed w ⟨w.wm, w.ilm.committed⟩ :=
  ⟨rfl, congrArg (Buffered.mk w.ilm.committed) h⟩

theorem eq_of_related {w : World (Buffered Compositor IlmCall)} {t : World Compositor}
    (h : World.Related Committed w t) : w.ilm.queued = [] ∧ t = ⟨w.wm, w.ilm.committed⟩ := by
  obtain ⟨wm, ilm⟩ := w
  obtain ⟨wm', ilm'⟩ := t
  obtain ⟨hwm, hilm⟩ := h
  cases hwm
  cases hilm
  exact ⟨rfl, rfl⟩

/-- Whatever ilm lets wait for a commit, and however it chooses, the daemon leads to the same
layouts and the same screens as if nothing waited, and leaves nothing waiting. -/
theorem commit_transparent (strict : Bool) (late : Buffered Compositor IlmCall → IlmCall → Bool)
    (set : Setting Compositor) (w : World (Buffered Compositor IlmCall)) :
    (daemon (bufferedIlm strict late) (bufferedSetting set)).Reachable w ↔
      w.ilm.queued = [] ∧
        (daemon (Compositor.ilm strict) set).Reachable ⟨w.wm, w.ilm.committed⟩ := by
  have hinter := interchangeable strict late
  constructor
  · intro hw
    have hrefines : Refines (daemon (bufferedIlm strict late) (bufferedSetting set))
        (daemon (Compositor.ilm strict) set) fun w t _ => World.Related Committed w t :=
      hinter.refines (fun boot w hstart => ⟨_, hstart.2, related_of_committed hstart.1⟩)
      (fun b d c hb henv => by
        cases hb
        exact ⟨d.committed, henv.2, congrArg (Buffered.mk d.committed) henv.1⟩)
    obtain ⟨t, -, ht, hrelated⟩ := hrefines.reachable hw
    obtain ⟨hqueued, heq⟩ := eq_of_related hrelated
    exact ⟨hqueued, heq ▸ ht⟩
  · rintro ⟨hqueued, hw⟩
    have hrefines : Refines (daemon (Compositor.ilm strict) set)
        (daemon (bufferedIlm strict late) (bufferedSetting set))
        fun t w _ => World.Related (fun c b => Committed b c) t w :=
      hinter.symm.refines (fun boot w hstart => ⟨⟨w.wm, w.ilm, []⟩, ⟨rfl, hstart⟩, rfl, rfl⟩)
      (fun c d b hb henv => by
        cases hb
        exact ⟨⟨d, []⟩, ⟨rfl, henv⟩, rfl⟩)
    obtain ⟨t, -, ht, hwm, hilm⟩ := hrefines.reachable hw
    have heq : t = w := by
      obtain ⟨wm, ilm⟩ := t
      obtain ⟨wm', committed, queued⟩ := w
      cases hwm
      cases hilm
      cases hqueued
      rfl
    exact heq ▸ ht

end Compositor

end UhmiIviWm
