import UhmiIviWm.Verify.Dialogue
import UhmiIviWm.Verify.Strays

/-!
# The layout is a replay

Records leave the layout alone, and what a message makes of it depends on the layout and
the screens ilm knows (`Wm.afterMessage`), not on what ilm answers to anything else. So
the layout is that of `parser_init` with the messages replayed over it, however they are
interleaved with notifications and with what goes on in the compositor
(`layout_replayed`). For clients that send frames, these are the commands they have
been answered for (`acknowledged_applied`).
-/

namespace UhmiIviWm

open Lib Lib.CallPlan Lib.TransitionSystem

variable {σ : Type} {ilm : Ilm σ} {known : Id → Bool} {ids : List Id} {set : Setting σ}

/-- The layout a message leaves, computed without ilm. -/
def Wm.afterMessage (known : Id → Bool) (wm : Wm) (body : Option Json) : Wm :=
  match commandOf body with
  | none => wm
  | some command => (command.changes (fun _ => true) wm known body).foldl
      (fun wm call => call.layout wm) (command.base wm)

/-- The layout `parser_init` leaves: what the configuration asks for, or else the screens
of the compositor. -/
def Boot.layout (boot : Boot) (known : Id → Bool) (ids : List Id) (wm : Wm) : Wm :=
  let configured := (documentChanges (fun _ => true) (boot.processed known)).foldl
    (fun wm call => call.layout wm) ⟨[], [], wm.uninit⟩
  if configured.screenHead.isEmpty then ids.foldl addScreen configured else configured

/-- What ilm answers when it is asked for the screens. -/
def Ilm.Lists (ilm : Ilm σ) (ids : List Id) (c : σ) : Prop := (ilm.getScreenIDs c).1 = some ids

/-! ## One event -/

theorem Event.keeps_ilm {I : σ → Prop} (hI : ilm.Keeps I) {e : Event} {w w' : World σ}
    (hw : I w.ilm) (h : e.handle ilm w = .ok ((), w')) : I w'.ilm :=
  runCalls_keeps_ilm hI hw (Event.handle_eq_ok.mp h).2

theorem wm_of_record {data : Cbdata} {w w' : World σ}
    (h : (Event.record data).handle ilm w = .ok ((), w')) : w'.wm = w.wm := by
  rw [runCalls_wm (Event.handle_eq_ok.mp h).2]
  obtain ⟨type, id⟩ := data
  cases type with
  | creationDelection => rfl
  | surfacePropChange => rfl

theorem wm_of_handled (hkeep : ilm.Keeps (ilm.Knows known)) {body : Option Json} {w w' : World σ}
    (hk : ilm.Knows known w.ilm) (h : (Event.message body).handle ilm w = .ok ((), w')) :
    w'.wm = w.wm.afterMessage known body := by
  unfold Wm.afterMessage
  cases hcommand : commandOf body with
  | none =>
    have hcalls : (Event.message body).calls ilm w = [] := by
      rw [calls_message, hcommand]
      cases parseVersion body <;> rfl
    have hrun := (Event.handle_eq_ok.mp h).2
    rw [hcalls] at hrun
    cases hrun
    rfl
  | some command =>
    obtain ⟨hchanges, hwm⟩ := changes_of_message hkeep hcommand hk h
    rw [hwm, hchanges]

/-! ## `parser_init` -/

theorem wm_of_finish {w w' : World σ} (hlists : ilm.Lists ids w.ilm)
    (h : ((finishPlan ilm).plan w).run (Call.sem ilm) w = .ok ((), w')) :
    w'.wm = if w.wm.screenHead.isEmpty then ids.foldl addScreen w.wm else w.wm := by
  obtain ⟨empty, t, hlook, hrest⟩ := StatePlan.run_bind_eq_ok.mp h
  cases hlook
  by_cases hempty : w.wm.screenHead.isEmpty = true
  · rw [if_pos hempty] at hrest ⊢
    obtain ⟨screenArray, t, hlook, hrest⟩ := StatePlan.run_bind_eq_ok.mp hrest
    cases hlook
    obtain ⟨_, u, hask, hrest⟩ := StatePlan.run_bind_eq_ok.mp hrest
    obtain ⟨_, v, hadd, hcallback⟩ := StatePlan.run_bind_eq_ok.mp hrest
    have hasked : u.wm = w.wm := runCalls_wm (Plan.run_eq_ok.mp hask).2
    have hadded := runCalls_wm (Plan.run_eq_ok.mp hadd).2
    have hcalled : w'.wm = v.wm := runCalls_wm (Plan.run_eq_ok.mp hcallback).2
    have hids : ((ilm.getScreenIDs w.ilm).1).getD [] = ids := by
      rw [hlists]
      rfl
    dsimp only at hadded
    rw [hcalled, hadded, hasked, hids]
    exact List.foldl_map
  · rw [if_neg hempty] at hrest ⊢
    exact runCalls_wm (Plan.run_eq_ok.mp hrest).2

theorem wm_of_parserInit (hkeep : ilm.Keeps (ilm.Knows known)) (hkeep' : ilm.Keeps (ilm.Lists ids))
    {boot : Boot} {w w' : World σ} (hk : ilm.Knows known w.ilm) (hlists : ilm.Lists ids w.ilm)
    (h : parserInit ilm boot w = .ok ((), w')) : w'.wm = boot.layout known ids w.wm := by
  rw [parserInit_eq] at h
  unfold Boot.plan at h
  unfold Boot.layout Boot.processed
  cases hconfig : boot.config with
  | none =>
    rw [hconfig] at h
    exact wm_of_finish (w := w.cleared) hlists h
  | some file =>
    rw [hconfig] at h
    obtain ⟨ret, t, hdocuments, hfinish⟩ := StatePlan.run_bind_eq_ok.mp h
    have hcalls := (Plan.run_eq_ok.mp hdocuments).2
    have hlists' : ilm.Lists ids t.ilm := runCalls_keeps_ilm (w := w.cleared) hkeep' hlists hcalls
    have hdoc : ∀ call ∈ ((configPlan ilm boot.localHostname file).plan w.cleared).calls,
        call.touches = false → ∀ wm, call.layout wm = wm :=
      fun call hcall => layout_of_document ((configPlan_within _ _).calls w.cleared call hcall)
    have hwm := runCalls_wm hcalls
    rw [foldl_filter_touches hdoc] at hwm
    rw [wm_of_finish hlists' hfinish, hwm]
    cases file with
    | none => rfl
    | some rootJobj =>
      rw [(Processes.config hkeep _ _ w.cleared t ret hk hdocuments).1]
      rfl

/-! ## Runs -/

/-- The message an event is. -/
def Event.message? : Event → Option (Option Json)
  | .record _ => none
  | .message body => some body

/-- The message an action handles. -/
def Action.message? (a : Action) : Option (Option Json) := a.event?.bind Event.message?

theorem wm_of_path (hkeep : ilm.Keeps (ilm.Knows known))
    (henv : ∀ c c', ilm.Knows known c → set.env c c' → ilm.Knows known c') {as : List Action}
    {w w' : World σ} (hk : ilm.Knows known w.ilm) (h : Path (daemon ilm set) as w w') :
    w'.wm = (as.filterMap Action.message?).foldl (Wm.afterMessage known) w.wm ∧
      ilm.Knows known w'.ilm := by
  induction h with
  | nil => exact ⟨rfl, hk⟩
  | @snoc as a _ t w' _ hstep ih =>
    obtain ⟨hwm, hkt⟩ := ih hk
    rw [List.filterMap_append, List.foldl_append, ← hwm]
    match a with
    | .event (.message body) =>
      exact ⟨wm_of_handled hkeep hkt hstep, Event.keeps_ilm hkeep hkt hstep⟩
    | .event (.record data) =>
      exact ⟨wm_of_record hstep, Event.keeps_ilm hkeep hkt hstep⟩
    | .env =>
      obtain ⟨hsame, hc⟩ := hstep
      exact ⟨hsame, henv _ _ hkt hc⟩

theorem knows_of_parserInit {I : σ → Prop} (hI : ilm.Keeps I) {boot : Boot} {w w' : World σ}
    (hw : I w.ilm) (h : parserInit ilm boot w = .ok ((), w')) : I w'.ilm :=
  runCalls_keeps_ilm (w := w.cleared) hI hw (parserInit_eq_ok.mp h).2

theorem messages_of_log (jsonLoads : List UInt8 → Option Json) (log : List Handled) :
    (log.map (·.event jsonLoads)).filterMap Event.message? =
      (log.filterMap Handled.command?).map fun command => jsonLoads command.2 := by
  induction log with
  | nil => rfl
  | cons handled log ih =>
    cases handled with
    | record data => exact ih
    | command fd cmd => exact congrArg (jsonLoads cmd :: ·) ih

section Loop

variable {jsonLoads : List UInt8 → Option Json} {order : ByteOrder} {l : MainLoop σ}
  (hkeep : ilm.Keeps (ilm.Knows known)) (hkeep' : ilm.Keeps (ilm.Lists ids))
  (hstart : ∀ boot w, set.start boot w → ilm.Knows known w.ilm ∧ ilm.Lists ids w.ilm)
  (henv : ∀ c c', ilm.Knows known c → set.env c c' → ilm.Knows known c')

include hkeep hkeep' hstart henv

theorem wm_of_loop (h : (mainLoop ilm jsonLoads order set).Reachable l) :
    ∃ boot w₀, set.start boot w₀ ∧ l.world.wm =
      (l.commands.map fun command => jsonLoads command.2).foldl (Wm.afterMessage known)
        (boot.layout known ids w₀.wm) := by
  obtain ⟨w, as, w', ⟨boot, w₀, hset, hboot⟩, hpath, rfl, has⟩ :=
    (mainLoop_refines ilm jsonLoads order set).path h
  obtain ⟨hk, hlists⟩ := hstart boot w₀ hset
  obtain ⟨hwm, -⟩ := wm_of_path hkeep henv (knows_of_parserInit (w := w₀) hkeep hk hboot) hpath
  have hmessages : as.filterMap Action.message? =
      l.commands.map fun command => jsonLoads command.2 := by
    rw [MainLoop.commands, ← messages_of_log, ← has, List.filterMap_filterMap]
    rfl
  refine ⟨boot, w₀, hset, ?_⟩
  rw [hwm, hmessages, wm_of_parserInit hkeep hkeep' hk hlists hboot]

/-- The layout is what the commands make of the one `parser_init` left, whatever else
happens in between. -/
theorem layout_replayed (h : (mainLoop ilm jsonLoads order set).Reachable l) :
    ∃ boot w₀, set.start boot w₀ ∧ l.world.wm =
      (l.commands.map fun command => jsonLoads command.2).foldl (Wm.afterMessage known)
        (boot.layout known ids w₀.wm) :=
  wm_of_loop hkeep hkeep' hstart henv h

/-- The layout is that of the commands the clients have been answered for, client by client
in the order in which they have connected. -/
theorem acknowledged_applied
    (h : (mainLoop ilm jsonLoads order set).Run (AtTurns fun _ => Turn.Orderly) l)
    {cmds : Nat → List (List UInt8)}
    (hcmds : ∀ fd < l.opened, (∀ cmd ∈ cmds fd, IsCommand cmd) ∧
      (l.peers fd).stream = (cmds fd).flatMap encodeCommand) :
    ∃ (answered : Nat → Nat) (boot : Boot) (w₀ : World σ), set.start boot w₀ ∧
      (∀ fd < l.opened, answered fd ≤ (cmds fd).length ∧ (l.peers fd).answers =
        (List.replicate (answered fd) (magicCode ++ htonl 0)).flatten) ∧
      l.world.wm = (((List.range l.opened).flatMap fun fd =>
        (cmds fd).take (answered fd)).map jsonLoads).foldl (Wm.afterMessage known)
          (boot.layout known ids w₀.wm) := by
  have hconversed := fun fd => conversed_of_run (orderly_of_all h fd)
  obtain ⟨boot, w₀, hset, hwm⟩ := wm_of_loop hkeep hkeep' hstart henv h.reachable
  have hframes : ∀ fd, ∃ k, fd < l.opened → k ≤ (cmds fd).length ∧
      l.commandsOf fd = (cmds fd).take k ∧
      (l.peers fd).answers = (List.replicate k (magicCode ++ htonl 0)).flatten := by
    intro fd
    by_cases hfd : fd < l.opened
    · obtain ⟨k, hk, hcommands, hanswers, -⟩ :=
        (hconversed fd).frames hfd (hcmds fd hfd).1 (hcmds fd hfd).2
      exact ⟨k, fun _ => ⟨hk, hcommands, hanswers⟩⟩
    · exact ⟨0, fun h => absurd h hfd⟩
  choose answered hanswered using hframes
  refine ⟨answered, boot, w₀, hset,
    fun fd hfd => ⟨(hanswered fd hfd).1, (hanswered fd hfd).2.2⟩, ?_⟩
  have hinOrder := (hconversed 0).1
  have hbyClient : (List.range l.opened).flatMap (fun fd => (cmds fd).take (answered fd)) =
      l.commands.map (·.2) := by
    have hlt : ∀ command ∈ l.commands, command.1 < l.opened :=
      fun command hmem => (hinOrder.before _ (List.mem_map_of_mem hmem)).1
    conv_rhs => rw [← KeyedList.flatMap_filter_key hinOrder.commands hlt, List.map_flatMap]
    exact List.flatMap_congr fun fd hfd => (hanswered fd (List.mem_range.mp hfd)).2.1.symm
  rw [hwm, hbyClient, List.map_map]
  rfl

end Loop

/-! ## Two clients -/

theorem keeps_list : (Compositor.ilm false).Keeps ((Compositor.ilm false).Lists [0]) :=
  Compositor.keeps_screens false fun screens => some screens.dedup = some [0]

theorem lists_fresh {w : World Compositor} (h : w = World.fresh [0]) :
    (Compositor.ilm false).Knows (fun id => [0].contains id) w.ilm ∧
      (Compositor.ilm false).Lists [0] w.ilm := by
  cases h
  exact ⟨fun _ => rfl, rfl⟩

theorem layout_replayed_twoServed : ∃ (l : MainLoop Compositor) (boot : Boot)
    (w₀ : World Compositor), TwoServed l ∧ l.world.wm =
      ([[0x41], [0x42], [0x43]].map threeCommands).foldl
        (Wm.afterMessage fun id => [0].contains id)
          (boot.layout (fun id => [0].contains id) [0] w₀.wm) := by
  obtain ⟨l, hrun, hserved⟩ := exists_twoServed
  obtain ⟨boot, w₀, -, hwm⟩ := layout_replayed (Compositor.keeps_known false [0]) keeps_list
    (fun _ _ => lists_fresh) (fun _ _ _ => False.elim) hrun.reachable
  rw [hserved.commands] at hwm
  exact ⟨l, boot, w₀, hserved, hwm⟩

/-- What the three clients send. -/
def threeStreams (fd : Nat) : List (List UInt8) :=
  if fd = 0 then [[0x41], [0x42]] else if fd = 1 then [[0x43]] else [[0x41]]

theorem frames_threeStreams {l : MainLoop Compositor} (h : TwoServed l) {fd : Nat}
    (hfd : fd < l.opened) : (∀ cmd ∈ threeStreams fd, IsCommand cmd) ∧
      (l.peers fd).stream = (threeStreams fd).flatMap encodeCommand := by
  rw [h.opened] at hfd
  obtain rfl | rfl | rfl : fd = 0 ∨ fd = 1 ∨ fd = 2 := by omega
  · refine ⟨?_, h.first⟩
    simp only [threeStreams, if_true, List.forall_mem_cons]
    exact ⟨isCommand_byte (by decide), isCommand_byte (by decide), nofun⟩
  · refine ⟨fun cmd hmem => ?_, h.second⟩
    rw [List.mem_singleton.mp hmem]
    exact isCommand_byte (by decide)
  · refine ⟨fun cmd hmem => ?_, h.third⟩
    rw [List.mem_singleton.mp hmem]
    exact isCommand_byte (by decide)

theorem acknowledged_applied_twoServed : ∃ (l : MainLoop Compositor) (answered : Nat → Nat)
    (boot : Boot) (w₀ : World Compositor), TwoServed l ∧
      (∀ fd < 3, (l.peers fd).answers =
        (List.replicate (answered fd) (magicCode ++ htonl 0)).flatten) ∧
      l.world.wm = (((List.range 3).flatMap fun fd =>
        (threeStreams fd).take (answered fd)).map threeCommands).foldl
          (Wm.afterMessage fun id => [0].contains id)
            (boot.layout (fun id => [0].contains id) [0] w₀.wm) := by
  obtain ⟨l, hrun, hserved⟩ := exists_twoServed
  obtain ⟨answered, boot, w₀, -, hanswered, hwm⟩ := acknowledged_applied
    (Compositor.keeps_known false [0]) keeps_list (fun _ _ => lists_fresh)
    (fun _ _ _ => False.elim) hrun (fun _ => frames_threeStreams hserved)
  rw [hserved.opened] at hanswered hwm
  exact ⟨l, answered, boot, w₀, hserved, fun fd hfd => (hanswered fd hfd).2, hwm⟩

end UhmiIviWm
