import Nodeakt.Actor.Nested
import Nodeakt.Actor.Scheduler

/-! What a suspended actor does.

    The receive loop looks at the suspended flag only after a behavior has settled. A suspension that
    comes from outside while the loop waits in the ready queue, or is between two messages, is seen
    one message late; `suspended_silent` needs suspensions and restarts to come at other moments, and
    no continuation to throw, which leaves entries of the ready queue to be dispatched again. -/

namespace Nodeakt.Actor
open Schemes PidState

variable {μ ρ ι : Type}

namespace PidState

variable {s next : PidState μ ρ} {loop processed : ℕ}

/-- No loop is in the ready queue or between two messages. -/
def Settled (s : PidState μ ρ) : Prop := ∀ loop ∈ s.loops, loop.between = false

/-- Whoever suspends or restarts the actor does so while its loop is idle or in a behavior call. -/
def Patient (s : PidState μ ρ) : PidEvent μ ρ → Prop
  | .suspend => s.Settled
  | .restart _ => s.stopping = false → s.running = true → s.restarting = false → s.Settled
  | _ => True

instance (s : PidState μ ρ) : Decidable s.Settled :=
  inferInstanceAs (Decidable (∀ loop ∈ s.loops, loop.between = false))

instance (s : PidState μ ρ) (event) : Decidable (s.Patient event) := by
  rcases event <;> dsimp only [Patient] <;> infer_instance

/-- The loop of a suspended actor is settled, and an actor that does not run has no mail. -/
structure Halted (s : PidState μ ρ) : Prop where
  settled : s.suspended = true → s.Settled
  empty : s.running = false → s.mailbox = []

theorem halted_create (admits : List (Message μ ρ) → Message μ ρ → Bool)
    (reentrancy : Option ReentrancyState) : (create admits reentrancy : PidState μ ρ).Halted :=
  ⟨nofun, fun _ => rfl⟩

section

variable (h : s.Halted)
include h

theorem Halted.fed (hfed : Fed s next) : next.Halted := by
  obtain ⟨hrunning, -, hsuspended, -⟩ := hfed.fields
  constructor
  · intro hsus
    rcases hfed.armed with ⟨-, hloops, -⟩ | ⟨hrun, -⟩
    · rw [Settled, hloops]
      exact h.settled (hsuspended ▸ hsus)
    · simp [isRunning, ← hsuspended, hsus] at hrun
  · intro hnot
    rcases hfed.armed with ⟨-, -, -, hmail⟩ | ⟨hrun, -⟩
    · by_contra hne
      exact hmail hne (h.empty (hrunning ▸ hnot))
    · simp [isRunning, ← hrunning, hnot] at hrun

/-- What runs in an actor that is not suspended. -/
theorem Halted.of_not_suspended (hsuspended : next.suspended = false)
    (hrunning : next.running = s.running) (hmail : next.mailbox = s.mailbox) : next.Halted := by
  constructor
  · intro hsus
    cases hsuspended.symm.trans hsus
  · rw [hrunning, hmail]
    exact h.empty

/-- A loop that is between two messages is not suspended. -/
theorem Halted.not_suspended {old : Loop μ} (hloop : s.loops[loop]? = some old)
    (hbetween : old.between = true) : s.suspended = false := by
  by_contra hsus
  have hsettled := h.settled (by simpa using hsus) old (List.mem_of_getElem? hloop)
  cases hbetween.symm.trans hsettled

/-- The loop of a suspended actor ends when its behavior settles. -/
theorem Halted.postReceive (hregular : s.Regular) {old : Loop μ}
    (hloop : s.loops[loop]? = some old) : (s.postReceive loop processed).Halted := by
  unfold PidState.postReceive
  split_ifs with hsus
  · obtain ⟨rfl, honly, -⟩ := hregular.only hloop
    refine ⟨fun _ => ?_, h.empty⟩
    simp [Settled, leaveLoop, notifyIdle, honly]
  · unfold continueLoop
    split <;> exact h.of_not_suspended (by simpa using hsus) rfl rfl

theorem Halted.steers (hsteers : Steers s next) : next.Halted := by
  rw [hsteers.same]
  exact ⟨h.settled, h.empty⟩

theorem Halted.restart (children : Bool) (hcond : s.Patient (.restart children)) :
    (s.restart children).Halted := by
  rcases steers_restart s children with hsteers | ⟨⟨hstopping, hrunning, hrestarting⟩, hsteers⟩
  · exact h.steers hsteers
  · have hsettled := hcond hstopping hrunning hrestarting
    have hbegun : { s with restarting := true, suspended := true }.Halted :=
      ⟨fun _ => hsettled, h.empty⟩
    exact hbegun.steers hsteers

theorem Halted.process (hsuspended : s.suspended = false) (loop processed : ℕ)
    (mail : Message μ ρ) : (s.process loop processed mail).Halted := by
  cases mail with
  | requestReply index outcome => exact h.fed (fed_completeRequest s index outcome)
  | poisonPill => exact h.steers (steers_shutdown s false)
  | panicking => exact h
  | user message =>
    dsimp only [PidState.process]
    split
    · unfold continueLoop
      split <;> exact h.of_not_suspended hsuspended rfl rfl
    · exact h.of_not_suspended hsuspended rfl rfl

theorem Halted.step (hregular : s.Regular) {event : PidEvent μ ρ}
    (hcond : s.Patient event) (hstep : s.step event = some next) : next.Halted := by
  cases does_of_step hstep with
  | started hstarting =>
    obtain ⟨-, -, hsuspended, -, hmail, -⟩ := hregular.starting hstarting
    refine ⟨fun hsus => ?_, fun _ => hmail⟩
    cases hsuspended.symm.trans hsus
  | tell | poisonPill | panicking | stash | unstash | unstashAll | request | outcome | cancel
  | onReply => exact h.fed (fed_of_step rfl hstep)
  | dispatch hloop => exact h.of_not_suspended (h.not_suspended hloop rfl) rfl rfl
  | @take _ index _ _ hloop =>
    have herased := h.fed (fed_eraseIdx s index)
    exact herased.process (h.not_suspended hloop rfl) _ _ _
  | drained hloop => exact h.of_not_suspended (h.not_suspended hloop rfl) rfl rfl
  | returned hloop | fulfilled hloop => exact h.postReceive hregular hloop
  | @threw loop _ message resume hloop | @rejected loop _ message resume hloop =>
    obtain ⟨rfl, honly, hp⟩ := hregular.only hloop
    have hfault : (s.handleFault resume).Halted := by
      refine ⟨fun _ => ?_, h.empty⟩
      simp [Settled, handleFault, honly, Loop.between]
    exact hfault.postReceive (hregular.handleFault resume hp) hloop
  | park hloop =>
    refine ⟨fun hsus other hother => ?_, h.empty⟩
    rcases List.mem_or_eq_of_mem_set hother with hold | rfl
    · exact h.settled hsus other hold
    · rfl
  | suspend => exact ⟨fun _ => hcond, h.empty⟩
  | reinstate =>
    unfold doReinstate resume
    split
    · split <;> exact h.of_not_suspended rfl rfl rfl
    · exact h
  | restart children => exact h.restart children hcond
  | restartResumed => exact h.steers (steers_resumeRestart s _ _)
  | restartChildrenStopped => exact h.steers (steers_restartPostStop s _)
  | restartPostStopEnded | restartFailed | shutdownChildrenStopped => exact { h with }
  | restartCompleted =>
    unfold completeRestart resume
    split <;> exact h.of_not_suspended rfl rfl rfl
  | shutdown children => exact h.steers (steers_shutdown s children)
  | shutdownResumed => exact h.steers (steers_stopChildren s _)
  | shutdownPostStopEnded => exact ⟨nofun, fun _ => rfl⟩

/-- Only a loop between two messages, with mail to take, calls the behavior. -/
theorem Halted.handled_eq {event : PidEvent μ ρ} (hstep : s.step event = some next)
    (hquiet : s.suspended = true ∨ s.mailbox = []) : next.handled = s.handled := by
  rcases (still_of_step hstep).2 with hsame | ⟨loop, index, processed, mail, hloop, hmail⟩
  · exact hsame
  · rcases hquiet with hsus | hempty
    · cases (h.not_suspended hloop rfl).symm.trans hsus
    · simp [hempty] at hmail

end

/-- A suspension that was not lifted: the actor is still suspended, or it has stopped. -/
def Held (s : PidState μ ρ) : Prop := s.suspended = true ∨ s.running = false ∧ s.starting = false

/-- The events that lift a suspension. -/
def revives : PidEvent μ ρ → Bool
  | .reinstate => true
  | .restartPreStartEnded completed => completed
  | _ => false

theorem Held.fed (h : s.Held) (hfed : Fed s next) : next.Held := by
  obtain ⟨hrunning, -, hsuspended, -, hstarting, -⟩ := hfed.fields
  rw [Held, hsuspended, hrunning, hstarting]
  exact h

theorem Held.postReceive (h : s.Held) (loop processed : ℕ) :
    (s.postReceive loop processed).Held := by
  unfold PidState.postReceive
  split
  · exact h
  · unfold continueLoop
    split <;> exact h

theorem Held.steers (h : s.Held) (hsteers : Steers s next) : next.Held := by
  rw [hsteers.same]
  exact h

theorem Held.step (h : s.Held) (hregular : s.Regular) {event : PidEvent μ ρ}
    (hrevives : revives event = false) (hstep : s.step event = some next) : next.Held := by
  cases does_of_step hstep with
  | started hstarting =>
    obtain ⟨-, -, hsuspended, -⟩ := hregular.starting hstarting
    rcases h with hsus | ⟨-, hnot⟩
    · cases hsuspended.symm.trans hsus
    · cases hnot.symm.trans hstarting
  | tell | poisonPill | panicking | stash | unstash | unstashAll | request | outcome | cancel
  | onReply => exact h.fed (fed_of_step rfl hstep)
  | dispatch | drained | park | restartPostStopEnded | restartFailed
  | shutdownChildrenStopped => exact h
  | @take loop index processed mail =>
    have herased := h.fed (fed_eraseIdx s index)
    cases mail with
    | requestReply handle outcome => exact herased.fed (fed_completeRequest _ handle outcome)
    | poisonPill => exact herased.steers (steers_shutdown _ false)
    | panicking => exact herased
    | user message =>
      dsimp only [process]
      split
      · unfold continueLoop
        split <;> exact h
      · exact h
  | returned | fulfilled => exact h.postReceive _ _
  | @threw _ _ _ resume | @rejected _ _ _ resume =>
    have hfault : (s.handleFault resume).Held := by
      rcases h with hsus | hgone
      · exact Or.inl (by simp [handleFault, hsus])
      · exact Or.inr hgone
    exact hfault.postReceive _ _
  | suspend => exact Or.inl rfl
  | reinstate | restartCompleted => cases hrevives
  | restart children =>
    rcases steers_restart s children with hsteers | ⟨-, hsteers⟩
    · exact h.steers hsteers
    · have hbegun : { s with restarting := true, suspended := true }.Held := Or.inl rfl
      exact hbegun.steers hsteers
  | restartResumed => exact h.steers (steers_resumeRestart s _ _)
  | restartChildrenStopped => exact h.steers (steers_restartPostStop s _)
  | shutdown children => exact h.steers (steers_shutdown s children)
  | shutdownResumed => exact h.steers (steers_stopChildren s _)
  | shutdownPostStopEnded hphase =>
    have hstop := hregular.stopping (by simp [hphase]) (by simp [hphase])
    exact Or.inr ⟨rfl, hregular.not_starting (hregular.stopsRunning hstop)⟩

/-- An event within which the suspension is not lifted calls no behavior. -/
theorem Held.nested_step (hheld : s.Held) (hregular : s.Regular) (hhalted : s.Halted)
    {e : NestedEvent μ ρ} (hcond : s.Within Patient e)
    (hrevives : ∀ event ∈ e.plainly, revives event = false) (hstep : s.nestedStep e = some next) :
    next.Held ∧ next.handled = s.handled := by
  have hkept := run_preserves (P := fun t : PidState μ ρ => t.Regular ∧ t.Halted ∧ t.Held ∧
      t.handled = s.handled)
    (fun t event t' ⟨hregular, hhalted, hheld, hhandled⟩ hcond hstep =>
      ⟨hregular.step hstep, hhalted.step hregular hcond.1 hstep, hheld.step hregular hcond.2 hstep,
        (hhalted.handled_eq hstep (hheld.imp_right fun hgone => hhalted.empty hgone.1)).trans
          hhandled⟩)
    ⟨hregular, hhalted, hheld, rfl⟩ (hcond.2.and (Meets.of_forall s hrevives))
    (run_plainly hcond.1 hstep)
  exact hkept.2.2

end PidState

/-- What can happen to the runtime, with the events that have others in their middle. -/
inductive NestedRuntimeEvent (μ ρ ι : Type) where
  | plain (event : RuntimeEvent μ ρ ι)
  | nested (actor : ι) (event : NestedEvent μ ρ)

namespace Runtime

variable [DecidableEq ι] {w next : Runtime μ ρ ι}

/-- When a nested event can come: a continuation throws on the stack, a fault where a behavior
    settles, and what an interrupted pump left in the queue is dispatched by the next one. -/
def permitsNested (w : Runtime μ ρ ι) (actor : ι) : NestedEvent μ ρ → Bool
  | .plain event => w.permits actor event
  | .continuationThrew .. => w.stack = some actor
  | .faultThrew loop => w.permits actor (.threw loop true) || w.permits actor (.rejected loop true)
  | .strayDispatch => w.stack = none ∧ w.due.head? = some actor ∧
      w.pump.any fun pump => pump.index < pump.total
  | .shutdownAgain .. | .reinstated _ | .restarted _ => true

/-- What a nested event does to the pump: a throw ends it with its entries still in the queue. -/
def interrupt (w : Runtime μ ρ ι) : NestedEvent μ ρ → Runtime μ ρ ι
  | .continuationThrew .. | .faultThrew _ => { w with pump := none }
  | .strayDispatch => { w with pump := w.pump.map fun pump => { pump with index := pump.index + 1 } }
  | .plain _ | .shutdownAgain .. | .reinstated _ | .restarted _ => w

/-- One event, nested or not. -/
def nestedStep (w : Runtime μ ρ ι) : NestedRuntimeEvent μ ρ ι → Option (Runtime μ ρ ι)
  | .plain event => w.step event
  | .nested actor event =>
    if w.permitsNested actor event then
      ((w.actors actor).nestedStep event).map ((w.interrupt event).put actor)
    else none

omit [DecidableEq ι] in
theorem flush_actors (actor : ι) : ∀ (wakes : List Bool) (w : Runtime μ ρ ι),
    (w.flush actor wakes).actors = w.actors
  | [], _ => rfl
  | _ :: rest, _ => flush_actors actor rest _

theorem put_actors (w : Runtime μ ρ ι) (actor : ι) (state : PidState μ ρ) :
    (w.put actor state).actors = Function.update w.actors actor { state with wakes := [] } := by
  rw [put, flush_actors]

/-- What an event of the runtime is for one actor. -/
theorem local_of_step {event : RuntimeEvent μ ρ ι} (h : w.step event = some next) (actor : ι) :
    next.actors actor = w.actors actor ∨
    ∃ own state, (w.actors actor).step own = some state ∧
      next.actors actor = { state with wakes := [] } ∧
      (event = .act actor own ∨ ∃ loop, own = .dispatch loop) := by
  cases does_of_step h with
  | @act other own state hpermits hstep =>
    rw [put_actors]
    by_cases hother : other = actor
    · subst hother
      exact Or.inr ⟨own, state, hstep, by simp, Or.inl rfl⟩
    · exact Or.inl (by simp [Ne.symm hother])
  | pumpStarted => exact Or.inl rfl
  | @pumpNext loop pump other state hpump hindex hstack hactor hstep =>
    rw [put_actors]
    by_cases hother : other = actor
    · subst hother
      exact Or.inr ⟨.dispatch loop, state, hstep, by simp, Or.inr ⟨loop, rfl⟩⟩
    · exact Or.inl (by simp [Ne.symm hother])
  | pumpEnded =>
    left
    simp only [compact, apply_ite Runtime.actors, arm, ite_self]

/-- The condition on the event of one actor. -/
def Patient (w : Runtime μ ρ ι) : RuntimeEvent μ ρ ι → Prop
  | .act actor event => (w.actors actor).Patient event
  | .pumpStarted | .pumpNext _ | .pumpEnded => True

instance (w : Runtime μ ρ ι) (event) : Decidable (w.Patient event) := by
  rcases event <;> dsimp only [Patient] <;> infer_instance

/-- The events that lift the suspension of an actor. -/
def revives (actor : ι) : RuntimeEvent μ ρ ι → Bool
  | .act other event => other = actor && PidState.revives event
  | .pumpStarted | .pumpNext _ | .pumpEnded => false

/-- Every actor is regular and halts when it is suspended. -/
def Halted (w : Runtime μ ρ ι) : Prop := ∀ actor, (w.actors actor).Regular ∧ (w.actors actor).Halted

theorem Halted.step (h : w.Halted) {event : RuntimeEvent μ ρ ι} (hcond : w.Patient event)
    (hstep : w.step event = some next) : next.Halted := by
  intro actor
  rcases local_of_step hstep actor with hsame | ⟨own, state, hown, hstate, hevent⟩
  · rw [hsame]
    exact h actor
  · have hcond' : (w.actors actor).Patient own := by
      rcases hevent with rfl | ⟨loop, rfl⟩
      · exact hcond
      · trivial
    obtain ⟨hregular, hhalted⟩ := h actor
    rw [hstate]
    exact ⟨(hregular.step hown).with_wakes [],
      { hhalted.step hregular hcond' hown with }⟩

/-- A step that does not lift the suspension of an actor calls no behavior of it. -/
theorem Halted.held_step (h : w.Halted) {actor : ι} {event : RuntimeEvent μ ρ ι}
    (hrevives : revives actor event = false) (hheld : (w.actors actor).Held)
    (hstep : w.step event = some next) :
    (next.actors actor).Held ∧ (next.actors actor).handled = (w.actors actor).handled := by
  rcases local_of_step hstep actor with hsame | ⟨own, state, hown, hstate, hevent⟩
  · rw [hsame]
    exact ⟨hheld, rfl⟩
  · have hrevives' : PidState.revives own = false := by
      rcases hevent with rfl | ⟨loop, rfl⟩
      · simpa [revives] using hrevives
      · rfl
    obtain ⟨hregular, hhalted⟩ := h actor
    have hhandled := hhalted.handled_eq hown (hheld.imp_right fun hgone => hhalted.empty hgone.1)
    have hheld' : state.Held := hheld.step hregular hrevives' hown
    rw [hstate]
    exact ⟨hheld', hhandled⟩

omit [DecidableEq ι] in
theorem actors_interrupt (w : Runtime μ ρ ι) (event : NestedEvent μ ρ) :
    (w.interrupt event).actors = w.actors := by
  cases event <;> rfl

/-- What a nested event is for one actor. -/
theorem local_of_nested {other : ι} {event : NestedEvent μ ρ}
    (h : w.nestedStep (.nested other event) = some next) (actor : ι) :
    next.actors actor = w.actors actor ∨ other = actor ∧ ∃ state,
      (w.actors actor).nestedStep event = some state ∧
      next.actors actor = { state with wakes := [] } := by
  obtain ⟨-, hnext⟩ := Option.ite_none_right_eq_some.mp h
  obtain ⟨state, hstate, rfl⟩ := Option.map_eq_some_iff.mp hnext
  rw [put_actors, actors_interrupt]
  by_cases hother : other = actor
  · subst hother
    exact Or.inr ⟨rfl, state, hstate, by simp⟩
  · exact Or.inl (by simp [Ne.symm hother])

/-- The condition on an event, nested or not. -/
def PatientWithin (w : Runtime μ ρ ι) : NestedRuntimeEvent μ ρ ι → Prop
  | .plain event => w.Patient event
  | .nested actor event => (w.actors actor).Within PidState.Patient event

instance (w : Runtime μ ρ ι) (event) : Decidable (w.PatientWithin event) := by
  rcases event <;> dsimp only [PatientWithin] <;> infer_instance

/-- The events that lift the suspension of an actor, nested or not. -/
def revivesWithin (actor : ι) : NestedRuntimeEvent μ ρ ι → Bool
  | .plain event => revives actor event
  | .nested other event => other = actor && event.plainly.any PidState.revives

theorem Halted.nested_step (h : w.Halted) {event : NestedRuntimeEvent μ ρ ι}
    (hcond : w.PatientWithin event) (hstep : w.nestedStep event = some next) : next.Halted := by
  cases event with
  | plain event => exact h.step hcond hstep
  | nested other event =>
    intro actor
    rcases local_of_nested hstep actor with hsame | ⟨rfl, state, hstate, hnext⟩
    · rw [hsame]
      exact h actor
    · have hkept := nested_preserves (P := fun s => s.Regular ∧ s.Halted)
        (fun _ _ _ h hcond hstep => ⟨h.1.step hstep, h.2.step h.1 hcond hstep⟩) (h other) hcond hstate
      rw [hnext]
      exact ⟨hkept.1.with_wakes [], { hkept.2 with }⟩

theorem Halted.held_nested_step (h : w.Halted) {actor : ι} {event : NestedRuntimeEvent μ ρ ι}
    (hcond : w.PatientWithin event) (hrevives : revivesWithin actor event = false)
    (hheld : (w.actors actor).Held) (hstep : w.nestedStep event = some next) :
    (next.actors actor).Held ∧ (next.actors actor).handled = (w.actors actor).handled := by
  cases event with
  | plain event => exact h.held_step hrevives hheld hstep
  | nested other event =>
    rcases local_of_nested hstep actor with hsame | ⟨rfl, state, hstate, hnext⟩
    · rw [hsame]
      exact ⟨hheld, rfl⟩
    · have hkept := hheld.nested_step (h other).1 (h other).2 hcond
        (by simpa [revivesWithin] using hrevives) hstate
      rw [hnext]
      exact hkept

/-- In a run in which suspensions and restarts reach an actor only while its loop is idle or in a
    behavior call, and nothing that runs in the middle of a step matters to it: from a state in which
    an actor is suspended, for as long as it is not reinstated and no restart of it completes, no call
    of its behavior begins. -/
theorem suspended_silent {admits : ι → List (Message μ ρ) → Message μ ρ → Bool}
    {config : ι → Option (ReentrancyMode × ℚ)} {before during : List (NestedRuntimeEvent μ ρ ι)}
    {actor : ι} (hmeets : Meets nestedStep PatientWithin (create admits config) (before ++ during))
    (hbefore : run nestedStep (create admits config) before = some w)
    (hsuspended : (w.actors actor).suspended = true)
    (hrevives : ∀ event ∈ during, revivesWithin actor event = false)
    (hduring : run nestedStep w during = some next) :
    (next.actors actor).handled = (w.actors actor).handled := by
  obtain ⟨hmeets, hmeets'⟩ := hmeets.of_append hbefore
  have hhalted : w.Halted := run_preserves (P := Halted) (fun _ _ _ h hcond hstep =>
    h.nested_step hcond hstep) (fun _ => ⟨regular_create _ _, halted_create _ _⟩) hmeets
    hbefore
  have hkept := run_preserves (P := fun v : Runtime μ ρ ι => v.Halted ∧ (v.actors actor).Held ∧
      (v.actors actor).handled = (w.actors actor).handled)
    (fun v event v' ⟨h, hheld, hhandled⟩ hcond hstep =>
      have hnext := h.held_nested_step hcond.1 hcond.2 hheld hstep
      ⟨h.nested_step hcond.1 hstep, hnext.1, hnext.2.trans hhandled⟩)
    ⟨hhalted, Or.inl hsuspended, rfl⟩
    (hmeets'.and (Meets.of_forall w hrevives)) hduring
  exact hkept.2.2

/-- An actor is suspended while its behavior is pending: the message behind it waits until the
    actor is reinstated. -/
theorem suspended_while_parked :
    ∃ w ∈ run nestedStep (create (fun _ => unbounded) (fun _ => none) : Runtime ℕ ℕ ℕ)
      ([.act 0 (.started true), .act 0 (.tell 5), .act 0 (.tell 6), .pumpStarted, .pumpNext 0,
        .act 0 (.take 0 0), .act 0 (.park 0), .act 0 .suspend].map .plain),
    ∃ next ∈ run nestedStep w ([.pumpEnded, .act 0 (.fulfilled 0)].map .plain),
      (next.actors 0).handled = (w.actors 0).handled := by
  refine ends_imp (P := fun w => (w.actors 0).suspended = true ∧ ∃ next ∈ run nestedStep w
      ([.pumpEnded, .act 0 (.fulfilled 0)].map .plain), True) (by decide +kernel) ?_
  rintro w hbefore ⟨hsuspended, next, hduring⟩
  exact ⟨next, hduring.1,
    suspended_silent (by decide +kernel) hbefore hsuspended (by decide) hduring.1⟩

/-- A supervisor suspends an actor whose loop waits in the ready queue; the pump dispatches it, and
    its behavior is called although it is suspended. -/
theorem suspended_actor_dispatched :
    ∃ w ∈ run nestedStep (create (fun _ => unbounded) (fun _ => none) : Runtime ℕ ℕ ℕ)
      ([.act 0 (.started true), .act 0 (.tell 5), .act 0 .suspend].map .plain),
      (w.actors 0).suspended = true ∧ (w.actors 0).handled = [] ∧
      ∃ next ∈ run nestedStep w ([.pumpStarted, .pumpNext 0, .act 0 (.take 0 0)].map .plain),
        (next.actors 0).suspended = true ∧ (next.actors 0).handled = [5] := by
  decide +kernel

end Runtime

end Nodeakt.Actor
