import Nodeakt.Actor.Nested

/-! The order of an actor's hooks, behavior calls and lifecycle promises.

    `Legal` reads the history of an actor. A restart looks for a shutdown once, after the loop is
    idle, and a reinstatement clears the flag that keeps the loop out, so `lifecycle_legal` asks
    callers for three things: no shutdown before the start has ended or once a restart has passed
    that point, no reinstatement during a restart or a shutdown, and no teardown of an actor that a
    failed restart has torn down already. And it asks that no call comes in the middle of a step that
    has not yet recorded what it does. -/

namespace Nodeakt.Actor
open Schemes RestartPhase List Option

variable {μ ρ : Type}

/-- The number of hooks that are running. -/
def hooks : List Mark → ℤ
  | [] => 0
  | .preStart :: past => hooks past + 1
  | .postStop :: past => hooks past + 1
  | .preStartEnded _ :: past => hooks past - 1
  | .postStopEnded :: past => hooks past - 1
  | .behavior :: past => hooks past
  | .shutdownResolved :: past => hooks past
  | .restartSettled _ :: past => hooks past

/-- A postStop ran, and no preStart has completed since. -/
def torn : List Mark → Bool
  | [] => false
  | .postStop :: _ => true
  | .preStartEnded true :: _ => false
  | _ :: past => torn past

/-- What may follow a history. -/
def Allowed (past : List Mark) : Mark → Prop
  | .behavior => .preStartEnded true ∈ past ∧ hooks past = 0
  | .postStop => torn past = false ∧ .shutdownResolved ∉ past
  | .preStart | .preStartEnded _ | .postStopEnded => .shutdownResolved ∉ past
  | .shutdownResolved => True
  | .restartSettled outcome => .shutdownResolved ∈ past → outcome = .dead

/-- A legal history: no behavior call begins before a preStart has completed or while a hook runs,
    postStop does not run twice without a completed preStart in between, and once the shutdown has
    resolved no hook starts or ends and every restart that settles is rejected as dead. -/
def Legal : List Mark → Prop
  | [] => True
  | mark :: past => Allowed past mark ∧ Legal past

instance (past : List Mark) (mark) : Decidable (Allowed past mark) := by
  cases mark <;> dsimp only [Allowed] <;> infer_instance

instance decidableLegal : ∀ trace, Decidable (Legal trace)
  | [] => isTrue trivial
  | mark :: past =>
    have : Decidable (Legal past) := decidableLegal past
    inferInstanceAs (Decidable (Allowed past mark ∧ Legal past))

def Message.isPoisonPill : Message μ ρ → Bool
  | .poisonPill => true
  | .user _ | .requestReply .. | .panicking => false

/-- The hook a restart waits for. -/
def RestartPhase.hook : RestartPhase → ℤ
  | .postStop | .preStart => 1
  | .idle _ | .woken _ | .children _ => 0

/-- The hook a shutdown waits for. -/
def ShutdownPhase.hook : ShutdownPhase → ℤ
  | .postStop => 1
  | .idle | .woken | .children | .done => 0

/-- The restart has yet to look for a shutdown. -/
def RestartPhase.early : RestartPhase → Bool
  | .idle _ | .woken _ => true
  | .children _ | .postStop | .preStart => false

/-- The restart will run postStop. -/
def RestartPhase.tears : RestartPhase → Bool
  | .idle wasSuspended | .woken wasSuspended | .children wasSuspended => !wasSuspended
  | .postStop | .preStart => false

/-- The shutdown will run postStop. -/
def ShutdownPhase.tears : ShutdownPhase → Bool
  | .idle | .woken | .children => true
  | .postStop | .done => false

namespace PidState

variable {s next : PidState μ ρ} {loop processed : ℕ}

/-- A first shutdown comes after the start has ended, before a restart in progress has looked for
    one, and not to an actor that is torn down. -/
def Stoppable (s : PidState μ ρ) : Prop := s.shutdownPhase = none → s.starting = false ∧
    (s.running = true → torn s.trace = false ∧ ∀ phase ∈ s.restartPhase, phase.early = true)

/-- What the callers of the lifecycle have to keep to. -/
def Considerate (s : PidState μ ρ) : PidEvent μ ρ → Prop
  | .shutdown _ => s.Stoppable
  | .take _ index => s.mailbox[index]?.any Message.isPoisonPill = true → s.Stoppable
  | .reinstate => s.suspended = true → s.restartPhase = none ∧ s.stopping = false
  | .restart _ => s.stopping = false → s.running = true → s.restarting = false →
      s.suspended = false → torn s.trace = false
  | _ => True

instance (s : PidState μ ρ) : Decidable s.Stoppable := inferInstanceAs (Decidable (_ → _))

instance (s : PidState μ ρ) (event) : Decidable (s.Considerate event) := by
  rcases event <;> dsimp only [Considerate] <;> infer_instance

/-- The history is legal, and says which hooks run and what the phases still have to do. -/
structure Lawful (s : PidState μ ρ) : Prop where
  legal : Legal s.trace
  hooks : hooks s.trace = (if s.starting then 1 else 0) +
    (s.restartPhase.map RestartPhase.hook).getD 0 + (s.shutdownPhase.map ShutdownPhase.hook).getD 0
  started : s.running = true → .preStartEnded true ∈ s.trace
  resolved : .shutdownResolved ∈ s.trace → s.running = false ∧ s.starting = false
  quiet : s.processing = true → s.running = true ∧
    (∀ phase ∈ s.restartPhase, ∃ wasSuspended, phase = .idle wasSuspended) ∧
    ∀ phase ∈ s.shutdownPhase, phase = .idle
  suspended : s.suspended = true → s.running = true
  restart : s.restartPhase ≠ none → s.suspended = true
  overlap : s.shutdownPhase ≠ none → ∀ phase ∈ s.restartPhase, phase.early = true
  stopTears : ∀ phase ∈ s.shutdownPhase, phase.tears = true → torn s.trace = false
  restartTears : s.shutdownPhase = none → ∀ phase ∈ s.restartPhase, phase.tears = true →
    torn s.trace = false

theorem lawful_create (admits : List (Message μ ρ) → Message μ ρ → Bool)
    (reentrancy : Option ReentrancyState) : (create admits reentrancy : PidState μ ρ).Lawful := by
  constructor <;> simp [create, Legal, Allowed, Actor.hooks]

section

variable (h : s.Lawful)
include h

/-- A running actor is neither restarting nor stopping. -/
theorem Lawful.phases (hregular : s.Regular) (hrun : s.isRunning = true) :
    s.restartPhase = none ∧ s.shutdownPhase = none := by
  simp only [isRunning, Bool.and_eq_true, Bool.not_eq_true'] at hrun
  obtain ⟨⟨hrunning, hstopping⟩, hsuspended⟩ := hrun
  constructor
  · by_contra hphase
    cases hsuspended.symm.trans (h.restart hphase)
  · exact hregular.no_shutdown hrunning hstopping

/-- The loop is idle once a restart is past waiting for it. -/
theorem Lawful.idle_of_restart {phase : RestartPhase}
    (hphase : s.restartPhase = some phase) (hne : ∀ wasSuspended, phase ≠ .idle wasSuspended) :
    s.processing = false := by
  by_contra hp
  obtain ⟨wasSuspended, hidle⟩ := (h.quiet (by simpa using hp)).2.1 phase hphase
  exact hne wasSuspended hidle

/-- The loop is idle once a shutdown is past waiting for it. -/
theorem Lawful.idle_of_shutdown {phase : ShutdownPhase}
    (hphase : s.shutdownPhase = some phase) (hne : phase ≠ .idle) : s.processing = false := by
  by_contra hp
  exact hne ((h.quiet (by simpa using hp)).2.2 phase hphase)

/-- There is no shutdown once a restart has looked for one. -/
theorem Lawful.no_shutdown {phase : RestartPhase}
    (hphase : s.restartPhase = some phase) (hlate : phase.early = false) :
    s.shutdownPhase = none := by
  by_contra hne
  cases hlate.symm.trans (h.overlap hne phase hphase)

/-- What leaves the lifecycle alone, and starts a loop in a running actor only. -/
theorem Lawful.of_eq (hregular : s.Regular) (htrace : next.trace = s.trace)
    (hflags : next.running = s.running ∧ next.starting = s.starting ∧ next.stopping = s.stopping ∧
      next.suspended = s.suspended)
    (hphases : next.restartPhase = s.restartPhase ∧ next.shutdownPhase = s.shutdownPhase)
    (hprocessing : next.processing = s.processing ∨ s.isRunning = true) : next.Lawful := by
  obtain ⟨hrunning, hstarting, hstopping, hsuspended⟩ := hflags
  obtain ⟨hrestart, hshutdown⟩ := hphases
  constructor
  · rw [htrace]
    exact h.legal
  · rw [htrace, hstarting, hrestart, hshutdown]
    exact h.hooks
  · rw [htrace, hrunning]
    exact h.started
  · rw [htrace, hrunning, hstarting]
    exact h.resolved
  · rw [hrunning, hrestart, hshutdown]
    intro hp
    rcases hprocessing with hsame | hrun
    · exact h.quiet (hsame ▸ hp)
    · obtain ⟨hnone, hnone'⟩ := h.phases hregular hrun
      simp only [isRunning, Bool.and_eq_true] at hrun
      simp [hnone, hnone', hrun.1.1]
  · rw [hrunning, hsuspended]
    exact h.suspended
  · rw [hrestart, hsuspended]
    exact h.restart
  · rw [hrestart, hshutdown]
    exact h.overlap
  · rw [hshutdown, htrace]
    exact h.stopTears
  · rw [hshutdown, hrestart, htrace]
    exact h.restartTears

theorem Lawful.fed (hregular : s.Regular) (hfed : Fed s next) : next.Lawful := by
  obtain ⟨hrun, hstop, hsus, -, hstart, hrestart, hshut, -, htrace⟩ := hfed.fields
  refine h.of_eq hregular htrace ⟨hrun, hstart, hstop, hsus⟩ ⟨hrestart, hshut⟩ ?_
  rcases hfed.armed with ⟨hp, -⟩ | ⟨hrunning, -⟩
  · exact Or.inl hp
  · exact Or.inr hrunning

/-- The actor may be suspended. -/
theorem Lawful.suspend (hrunning : s.running = true) : { s with suspended := true }.Lawful :=
  { h with suspended := fun _ => hrunning, restart := fun _ => rfl }

theorem Lawful.handleFault (hp : s.processing = true) (resume : Bool) :
    (s.handleFault resume).Lawful := by
  cases resume with
  | true => simpa [PidState.handleFault] using h
  | false => simpa [PidState.handleFault] using h.suspend (h.quiet hp).1

/-- The loops may change. -/
theorem Lawful.with_loops (loops : List (Loop μ)) (wakes : List Bool) :
    { s with loops, wakes }.Lawful := { h with }

/-- A mark that no hook leaves and no shutdown. -/
theorem Lawful.marked (mark : Mark) (hallowed : Allowed s.trace mark)
    (hhooks : Actor.hooks (mark :: s.trace) = Actor.hooks s.trace)
    (htorn : torn (mark :: s.trace) = torn s.trace) (hresolved : mark ≠ .shutdownResolved) :
    (s.mark mark).Lawful :=
  { h with
    legal := ⟨hallowed, h.legal⟩
    hooks := hhooks.trans h.hooks
    started := fun hrunning => mem_cons_of_mem _ (h.started hrunning)
    resolved := fun hmem => h.resolved (mem_of_ne_of_mem hresolved.symm hmem)
    stopTears := fun phase hphase htears => htorn.trans (h.stopTears phase hphase htears)
    restartTears := fun hstop phase hphase htears =>
      htorn.trans (h.restartTears hstop phase hphase htears) }

end

/-- A woken phase has the same things to do. -/
theorem wake_restart (phase : RestartPhase) : phase.wake.hook = phase.hook ∧
    phase.wake.early = phase.early ∧ phase.wake.tears = phase.tears := by
  cases phase <;> exact ⟨rfl, rfl, rfl⟩

theorem wake_shutdown (phase : ShutdownPhase) :
    phase.wake.hook = phase.hook ∧ phase.wake.tears = phase.tears := by
  cases phase <;> exact ⟨rfl, rfl⟩

section

variable (h : s.Lawful)
include h

theorem Lawful.leaveLoop (loop : ℕ) : (s.leaveLoop loop).Lawful := by
  refine ⟨h.legal, ?_, h.started, h.resolved, nofun, h.suspended,
    fun hphase => h.restart fun hnone => hphase (map_eq_none_iff.mpr hnone),
    fun hstop phase hphase => ?_, fun phase hphase htears => ?_, fun hstop phase hphase htears => ?_⟩
  · have hhook : hook ∘ wake = hook := funext fun phase => (wake_restart phase).1
    have hhook' : ShutdownPhase.hook ∘ ShutdownPhase.wake = ShutdownPhase.hook :=
      funext fun phase => (wake_shutdown phase).1
    simp only [PidState.leaveLoop, notifyIdle, Option.map_map, hhook, hhook']
    exact h.hooks
  · obtain ⟨old, hold, rfl⟩ := map_eq_some_iff.mp hphase
    rw [(wake_restart old).2.1]
    exact h.overlap (fun hnone => hstop (map_eq_none_iff.mpr hnone)) old hold
  · obtain ⟨old, hold, rfl⟩ := map_eq_some_iff.mp hphase
    rw [(wake_shutdown old).2] at htears
    exact h.stopTears old hold htears
  · obtain ⟨old, hold, rfl⟩ := map_eq_some_iff.mp hphase
    rw [(wake_restart old).2.2] at htears
    exact h.restartTears (map_eq_none_iff.mp hstop) old hold htears

theorem Lawful.continueLoop (loop processed : ℕ) : (s.continueLoop loop processed).Lawful := by
  unfold PidState.continueLoop
  split <;> exact h.with_loops _ _

theorem Lawful.postReceive (loop processed : ℕ) : (s.postReceive loop processed).Lawful := by
  unfold PidState.postReceive
  split
  · exact h.leaveLoop loop
  · exact h.continueLoop loop processed

/-- A loop may call the behavior: no hook runs. -/
theorem Lawful.behavior (hstart : s.starting = false) (hp : s.processing = true) :
    (s.mark .behavior).Lawful := by
  obtain ⟨hrunning, hrestart, hshutdown⟩ := h.quiet hp
  have hzero : Actor.hooks s.trace = 0 := by
    rw [h.hooks, hstart]
    have hnone : (s.restartPhase.map hook).getD 0 = 0 := by
      cases hphase : s.restartPhase with
      | none => rfl
      | some phase =>
        obtain ⟨wasSuspended, rfl⟩ := hrestart phase hphase
        rfl
    have hnone' : (s.shutdownPhase.map ShutdownPhase.hook).getD 0 = 0 := by
      cases hphase : s.shutdownPhase with
      | none => rfl
      | some phase =>
        rw [hshutdown phase hphase]
        rfl
    simp [hnone, hnone']
  exact h.marked .behavior ⟨h.started hrunning, hzero⟩ rfl rfl nofun

/-! ### Shutdown -/

theorem Lawful.not_resolved (hrunning : s.running = true) : .shutdownResolved ∉ s.trace := by
  intro hresolved
  cases hrunning.symm.trans (h.resolved hresolved).1

/-- An actor that is stopping may wait for its children. -/
theorem Lawful.await_children (hp : s.processing = false)
    (hnone : (s.shutdownPhase.map ShutdownPhase.hook).getD 0 = 0)
    (hearly : ∀ phase ∈ s.restartPhase, phase.early = true) (htorn : torn s.trace = false) :
    { s with shutdownPhase := some .children }.Lawful := by
  refine { h with
    hooks := ?_, quiet := fun hp' => ?_, overlap := fun _ => hearly,
    stopTears := fun _ _ _ => htorn, restartTears := nofun }
  · rw [h.hooks, hnone]
    rfl
  · cases hp.symm.trans hp'

theorem Lawful.shutdownPostStop (hp : s.processing = false) (hrunning : s.running = true)
    (hnone : (s.shutdownPhase.map ShutdownPhase.hook).getD 0 = 0)
    (hearly : ∀ phase ∈ s.restartPhase, phase.early = true) (htorn : torn s.trace = false) :
    s.shutdownPostStop.Lawful := by
  refine ⟨⟨⟨htorn, h.not_resolved hrunning⟩, h.legal⟩, ?_, fun _ => ?_, fun hresolved => ?_,
    fun hp' => ?_, h.suspended, h.restart, fun _ => hearly, ?_, nofun⟩
  · change Actor.hooks s.trace + 1 = _ + (1 : ℤ)
    rw [h.hooks, hnone, add_zero]
    rfl
  · exact mem_cons_of_mem _ (h.started hrunning)
  · simp only [PidState.shutdownPostStop, mark, mem_cons, reduceCtorEq, false_or] at hresolved
    exact h.resolved hresolved
  · cases hp.symm.trans hp'
  · rintro phase ⟨⟩ htears
    cases htears

theorem Lawful.stopChildren (hp : s.processing = false) (hrunning : s.running = true)
    (hnone : (s.shutdownPhase.map ShutdownPhase.hook).getD 0 = 0)
    (hearly : ∀ phase ∈ s.restartPhase, phase.early = true) (htorn : torn s.trace = false)
    (children : Bool) : (s.stopChildren children).Lawful := by
  cases children with
  | true => exact h.await_children hp hnone hearly htorn
  | false => exact h.shutdownPostStop hp hrunning hnone hearly htorn

theorem Lawful.shutdown (hcond : s.Stoppable) (children : Bool) : (s.shutdown children).Lawful := by
  unfold PidState.shutdown PidState.doShutdown
  split
  · exact h
  rename_i hphase
  have hnone : s.shutdownPhase = none := by simpa using hphase
  obtain ⟨hstart, hrest⟩ := hcond hnone
  split
  · rename_i hnot
    refine { h with
      legal := ⟨trivial, h.legal⟩, started := fun hrunning => ?_, resolved := fun _ => ⟨hnot, hstart⟩ }
    cases hnot.symm.trans hrunning
  rename_i hrunning
  obtain ⟨htorn, hearly⟩ := hrest (by simpa using hrunning)
  split_ifs with hp
  · refine { h with
      hooks := ?_, quiet := fun hp => ?_, overlap := fun _ => hearly,
      stopTears := fun _ _ _ => htorn, restartTears := nofun }
    · rw [h.hooks, hnone]
      rfl
    · refine ⟨(h.quiet hp).1, (h.quiet hp).2.1, ?_⟩
      rintro phase ⟨⟩
      rfl
  · have hbegun : { s with stopping := true }.Lawful := { h with }
    exact hbegun.stopChildren (by simpa using hp) (by simpa using hrunning) (by simp [hnone])
      hearly htorn children

/-- Nothing is left of a restart once the shutdown runs its last hook. -/
theorem Lawful.no_restart (hregular : s.Regular) (hphase : s.shutdownPhase ≠ none)
    (hp : s.processing = false) (hqueued : s.restartQueued = false) : s.restartPhase = none := by
  cases hrestart : s.restartPhase with
  | none => rfl
  | some phase =>
    have hearly := h.overlap hphase phase hrestart
    cases phase with
    | idle wasSuspended =>
      cases hp.symm.trans (hregular.restartIdle wasSuspended hrestart)
    | woken wasSuspended => simp [restartQueued, hrestart] at hqueued
    | children | postStop | preStart => cases hearly

theorem Lawful.finish (hregular : s.Regular)
    (hphase : s.shutdownPhase = some .postStop) (hqueued : s.restartQueued = false) :
    ((s.mark .postStopEnded).reset.mark .shutdownResolved).Lawful := by
  have hrunning := hregular.stopsRunning (hregular.stopping (by simp [hphase]) (by simp [hphase]))
  have hp := h.idle_of_shutdown hphase nofun
  have hnone := h.no_restart hregular (by simp [hphase]) hp hqueued
  have hstart := hregular.not_starting hrunning
  refine ⟨⟨trivial, h.not_resolved hrunning, h.legal⟩, ?_, nofun,
    fun _ => ⟨rfl, hstart⟩, fun hp' => ?_, nofun, fun hne => absurd hnone hne, ?_,
    ?_, ?_⟩
  · change Actor.hooks s.trace - 1 = _
    rw [h.hooks, hphase]
    simp [reset, mark, hstart, hnone, ShutdownPhase.hook]
  · cases hp.symm.trans hp'
  · intro _ phase hrestart
    cases hnone.symm.trans hrestart
  · rintro phase ⟨⟩ htears
    cases htears
  · intro _ phase hrestart
    cases hnone.symm.trans hrestart

/-! ### Restart -/

/-- Without the phase of a restart that runs no hook. -/
theorem Lawful.drop_phase (hnone : (s.restartPhase.map RestartPhase.hook).getD 0 = 0) :
    { s with restartPhase := none }.Lawful := by
  refine { h with
    hooks := ?_, quiet := fun hp => ⟨(h.quiet hp).1, nofun, (h.quiet hp).2.2⟩,
    restart := fun hne => absurd rfl hne, overlap := fun _ => nofun, restartTears := fun _ => nofun }
  rw [h.hooks, hnone]
  rfl

/-- Without the phase of a restart whose postStop has ended. -/
theorem Lawful.postStopEnded (hphase : s.restartPhase = some .postStop) :
    { s with restartPhase := none, trace := .postStopEnded :: s.trace }.Lawful := by
  have hrunning := h.suspended (h.restart (by simp [hphase]))
  refine ⟨⟨h.not_resolved hrunning, h.legal⟩, ?_, fun _ => ?_, fun hresolved => ?_, fun hp => ?_,
    h.suspended, (fun hne => absurd rfl hne), fun _ => nofun, h.stopTears,
    fun _ => nofun⟩
  · change Actor.hooks s.trace - 1 = _
    rw [h.hooks, hphase]
    change _ + (1 : ℤ) + _ - 1 = _ + (0 : ℤ) + _
    ring
  · exact mem_cons_of_mem _ (h.started hrunning)
  · simp only [mem_cons, reduceCtorEq, false_or] at hresolved
    exact h.resolved hresolved
  · exact ⟨(h.quiet hp).1, (fun _ hnot => nomatch hnot), (h.quiet hp).2.2⟩

end

/-- A suspended actor that is not stopping may run a hook of its restart. -/
theorem Lawful.restart_hook (phase : RestartPhase) (mark : Mark)
    (h : { s with restartPhase := none }.Lawful) (hsuspended : s.suspended = true)
    (hp : s.processing = false) (hshutdown : s.shutdownPhase = none)
    (hphase : phase.hook = 1 ∧ phase.tears = false)
    (hmark : Actor.hooks (mark :: s.trace) = Actor.hooks s.trace + 1)
    (hallowed : Allowed s.trace mark) (hresolved : mark ≠ .shutdownResolved) (stash : List μ) :
    { s with stash, restartPhase := some phase, trace := mark :: s.trace }.Lawful := by
  refine ⟨⟨hallowed, h.legal⟩, ?_, fun hrunning => ?_, fun hmem => ?_, fun hp' => ?_, h.suspended,
    fun _ => hsuspended, fun hne => absurd hshutdown hne, ?_, ?_⟩
  · have hhooks := h.hooks
    change Actor.hooks (mark :: s.trace) = _ + phase.hook + _
    rw [hmark, hphase.1, hhooks]
    simp only [map_none, getD_none]
    ring
  · exact mem_cons_of_mem _ (h.started hrunning)
  · rcases mem_cons.mp hmem with heq | hpast
    · exact absurd heq.symm hresolved
    · exact h.resolved hpast
  · cases hp.symm.trans hp'
  · intro other hother
    cases hshutdown.symm.trans hother
  · rintro - other ⟨⟩ htears
    cases hphase.2.symm.trans htears

theorem Lawful.restartPreStart (h : { s with restartPhase := none }.Lawful)
    (hsuspended : s.suspended = true) (hp : s.processing = false)
    (hshutdown : s.shutdownPhase = none) : s.restartPreStart.Lawful :=
  Lawful.restart_hook .preStart .preStart h hsuspended hp hshutdown ⟨rfl, rfl⟩ rfl
    (h.not_resolved (h.suspended hsuspended)) nofun []

theorem Lawful.restartPostStop (h : { s with restartPhase := none }.Lawful)
    (hsuspended : s.suspended = true) (hp : s.processing = false)
    (hshutdown : s.shutdownPhase = none) {wasSuspended : Bool}
    (htorn : wasSuspended = false → torn s.trace = false) :
    (s.restartPostStop wasSuspended).Lawful := by
  cases wasSuspended with
  | true => exact h.restartPreStart hsuspended hp hshutdown
  | false =>
    exact Lawful.restart_hook .postStop .postStop h hsuspended hp hshutdown ⟨rfl, rfl⟩ rfl
      ⟨htorn rfl, h.not_resolved (h.suspended hsuspended)⟩ nofun s.stash

theorem Lawful.settleRestart (h : { s with restartPhase := none }.Lawful) {outcome : RestartOutcome}
    (hresolved : .shutdownResolved ∈ s.trace → outcome = .dead) :
    (s.settleRestart outcome).Lawful := by
  exact { h.marked (.restartSettled outcome) hresolved rfl rfl nofun with }

theorem Lawful.resumeRestart (h : { s with restartPhase := none }.Lawful) (hregular : s.Regular)
    (hsuspended : s.suspended = true) (hp : s.processing = false) {wasSuspended : Bool}
    (htorn : s.shutdownPhase = none → wasSuspended = false → torn s.trace = false)
    (children : Bool) :
    (s.resumeRestart wasSuspended children).Lawful := by
  unfold PidState.resumeRestart
  split
  · exact h.settleRestart fun _ => rfl
  rename_i hstop
  have hstopping : s.stopping = false := by simpa using hstop
  have hshutdown := hregular.no_shutdown (h.suspended hsuspended) hstopping
  split
  · refine { h with
      quiet := fun hp' => ?_, restart := fun _ => hsuspended,
      overlap := fun hne => absurd hshutdown hne, restartTears := ?_ }
    · cases hp.symm.trans hp'
    · rintro - phase ⟨⟩ htears
      exact htorn hshutdown (by simpa [tears] using htears)
  · exact h.restartPostStop hsuspended hp hshutdown (htorn hshutdown)

section

variable (h : s.Lawful)
include h

theorem Lawful.restart_step (hregular : s.Regular) (children : Bool)
    (hcond : s.Considerate (.restart children)) : (s.restart children).Lawful := by
  unfold PidState.restart
  split
  · exact h.marked _ (fun _ => rfl) rfl rfl nofun
  rename_i hguard
  simp only [not_or, Bool.not_eq_true, Bool.not_eq_false] at hguard
  obtain ⟨hstopping, hrunning, hrestarting⟩ := hguard
  have hnone : s.restartPhase = none := by
    by_contra hphase
    cases hrestarting.symm.trans (hregular.restarting hphase)
  have htorn := hcond hstopping hrunning hrestarting
  have hbegun := h.suspend hrunning
  have hdropped : { s with restarting := true, suspended := true, restartPhase := none }.Lawful :=
    { hbegun.drop_phase (by simp [hnone]) with }
  dsimp only
  split_ifs with hp
  · refine { hdropped with
      quiet := fun hp' => ⟨hrunning, ?_, (h.quiet hp).2.2⟩, restart := fun _ => rfl,
      overlap := ?_, restartTears := ?_ }
    · rintro phase ⟨⟩
      exact ⟨_, rfl⟩
    · rintro - phase ⟨⟩
      rfl
    · rintro - phase ⟨⟩ htears
      exact htorn (by simpa [tears] using htears)
  · exact hdropped.resumeRestart (hregular.begin_restart (hregular.not_starting hrunning)) rfl
      (by simpa using hp) (fun _ => htorn) children

/-- An actor that is neither restarting nor stopping may start its loop. -/
theorem Lawful.schedule (hrunning : s.running = true)
    (hrestart : s.restartPhase = none) (hshutdown : s.shutdownPhase = none) : s.schedule.Lawful := by
  refine { h with quiet := fun _ => ⟨hrunning, ?_, ?_⟩ }
  · intro phase hphase
    cases hrestart.symm.trans hphase
  · intro phase hphase
    cases hshutdown.symm.trans hphase

/-- Without the phase of a restart whose preStart has ended. -/
theorem Lawful.preStartEnded (hphase : s.restartPhase = some .preStart) (completed : Bool) :
    { s with suspended := s.suspended && !completed, restartPhase := none
             trace := .preStartEnded completed :: s.trace }.Lawful := by
  have hsuspended := h.restart (by simp [hphase])
  have hrunning := h.suspended hsuspended
  have hshutdown := h.no_shutdown hphase rfl
  refine ⟨⟨h.not_resolved hrunning, h.legal⟩, ?_, fun _ => ?_, fun hmem => ?_, fun hp => ?_,
    fun _ => hrunning, (fun hne => absurd rfl hne), fun _ => nofun, ?_,
    fun _ => nofun⟩
  · change Actor.hooks s.trace - 1 = _
    rw [h.hooks, hphase]
    change _ + (1 : ℤ) + _ - 1 = _ + (0 : ℤ) + _
    ring
  · exact mem_cons_of_mem _ (h.started hrunning)
  · simp only [mem_cons, reduceCtorEq, false_or] at hmem
    exact h.resolved hmem
  · exact ⟨hrunning, (fun _ hnot => nomatch hnot), (h.quiet hp).2.2⟩
  · intro phase hother
    cases hshutdown.symm.trans hother

theorem Lawful.completeRestart (hphase : s.restartPhase = some .preStart) :
    s.completeRestart.Lawful := by
  have hended := h.preStartEnded hphase true
  simp only [Bool.not_true, Bool.and_false] at hended
  have hrunning := h.suspended (h.restart (by simp [hphase]))
  have hshutdown := h.no_shutdown hphase rfl
  have hresolved := hended.not_resolved hrunning
  unfold PidState.completeRestart PidState.resume
  split
  · exact Lawful.settleRestart hended fun hmem => absurd hmem hresolved
  · exact Lawful.settleRestart (hended.schedule hrunning rfl hshutdown)
      fun hmem => absurd hmem hresolved

theorem Lawful.doReinstate (hregular : s.Regular)
    (hcond : s.Considerate .reinstate) : s.doReinstate.Lawful := by
  unfold PidState.doReinstate
  split_ifs with hsuspended
  · obtain ⟨hrestart, hstopping⟩ := hcond hsuspended
    have hrunning := h.suspended hsuspended
    have hrevived : { s with suspended := false }.Lawful :=
      { h with suspended := nofun, restart := fun hne => absurd hrestart hne }
    have hshutdown := hregular.no_shutdown hrunning hstopping
    unfold PidState.resume
    split
    · exact hrevived
    · exact hrevived.schedule hrunning hrestart hshutdown
  · exact h

theorem Lawful.process (hregular : s.Regular) (hp : s.processing = true)
    (loop processed : ℕ) {mail : Message μ ρ} (hcond : mail = .poisonPill → s.Stoppable) :
    (s.process loop processed mail).Lawful := by
  cases mail with
  | requestReply index outcome => exact h.fed hregular (fed_completeRequest s index outcome)
  | poisonPill => exact h.shutdown (hcond rfl) false
  | panicking => exact h
  | user message =>
    dsimp only [PidState.process]
    split
    · refine Lawful.continueLoop ?_ loop processed
      exact h.fed hregular (fed_with s _ s.requests)
    · have hstart := hregular.not_starting (h.quiet hp).1
      exact { h.behavior hstart hp with }

theorem Lawful.step (hregular : s.Regular) {event : PidEvent μ ρ}
    (hcond : s.Considerate event) (hstep : s.step event = some next) : next.Lawful := by
  cases does_of_step hstep with
  | @started completed hstarting =>
    obtain ⟨hrunning, hstopping, hsuspended, hp, -, hrestart, hshutdown⟩ :=
      hregular.starting hstarting
    refine ⟨⟨?_, h.legal⟩, ?_, fun hrunning' => ?_, fun hmem => ?_, fun hp' => ?_, fun hsus => ?_,
      fun hne => absurd hrestart hne, fun hne => absurd hshutdown hne, ?_, ?_⟩
    · intro hmem
      cases hstarting.symm.trans (h.resolved hmem).2
    · change Actor.hooks s.trace - 1 = _
      rw [h.hooks, hstarting, hrestart, hshutdown]
      simp [mark]
    · have hcompleted : completed = true := hrunning'
      rw [hcompleted]
      exact mem_cons_self ..
    · simp only [mark, mem_cons, reduceCtorEq, false_or] at hmem
      cases hstarting.symm.trans (h.resolved hmem).2
    · cases hp.symm.trans hp'
    · cases hsuspended.symm.trans hsus
    · intro phase hphase
      cases hshutdown.symm.trans hphase
    · intro _ phase hphase
      cases hrestart.symm.trans hphase
  | tell | poisonPill | panicking | stash | unstash | unstashAll | request | outcome | cancel
  | onReply => exact h.fed hregular (fed_of_step rfl hstep)
  | dispatch | park => exact h.with_loops _ _
  | @take _ index _ mail hloop hmail =>
    have htaken := h.fed hregular (fed_eraseIdx s index)
    refine htaken.process (hregular.fed (fed_eraseIdx s index)) (hregular.only hloop).2.2 _ _
      fun hpill => ?_
    exact hcond (by rw [hmail, hpill]; rfl)
  | drained => exact h.leaveLoop _
  | returned | fulfilled => exact h.postReceive _ _
  | threw hloop | rejected hloop =>
    exact (h.handleFault (hregular.only hloop).2.2 _).postReceive _ _
  | suspend hrunning =>
    simp only [isRunning, Bool.and_eq_true] at hrunning
    exact h.suspend hrunning.1.1
  | reinstate => exact h.doReinstate hregular hcond
  | restart children => exact h.restart_step hregular children hcond
  | @restartResumed wasSuspended children hphase =>
    have hdropped := h.drop_phase (by rw [hphase]; rfl)
    refine hdropped.resumeRestart hregular (h.restart (by simp [hphase]))
      (h.idle_of_restart hphase (by simp)) (fun hshutdown hwas => ?_) children
    exact h.restartTears hshutdown _ hphase (by simp [tears, hwas])
  | @restartChildrenStopped wasSuspended hphase =>
    have hdropped := h.drop_phase (by rw [hphase]; rfl)
    have hshutdown := h.no_shutdown hphase rfl
    refine hdropped.restartPostStop (h.restart (by simp [hphase]))
      (h.idle_of_restart hphase (by simp)) hshutdown fun hwas => ?_
    exact h.restartTears hshutdown _ hphase (by simp [tears, hwas])
  | restartPostStopEnded hphase =>
    exact (h.postStopEnded hphase).restartPreStart (h.restart (by simp [hphase]))
      (h.idle_of_restart hphase (by simp)) (h.no_shutdown hphase rfl)
  | restartCompleted hphase => exact h.completeRestart hphase
  | restartFailed hphase =>
    have hended := h.preStartEnded hphase false
    have hrunning := h.suspended (h.restart (by simp [hphase]))
    simp only [Bool.not_false, Bool.and_true] at hended
    exact Lawful.settleRestart hended fun hmem => absurd hmem (hended.not_resolved hrunning)
  | shutdown children => exact h.shutdown hcond children
  | @shutdownResumed children hphase =>
    have hstop := hregular.stopping (by simp [hphase]) (by simp [hphase])
    exact h.stopChildren (h.idle_of_shutdown hphase (by decide)) (hregular.stopsRunning hstop)
      (by rw [hphase]; rfl) (h.overlap (by simp [hphase])) (h.stopTears _ hphase rfl) children
  | shutdownChildrenStopped hphase =>
    have hstop := hregular.stopping (by simp [hphase]) (by simp [hphase])
    exact h.shutdownPostStop (h.idle_of_shutdown hphase (by decide)) (hregular.stopsRunning hstop)
      (by rw [hphase]; rfl) (h.overlap (by simp [hphase])) (h.stopTears _ hphase rfl)
  | shutdownPostStopEnded hphase hqueued => exact h.finish hregular hphase hqueued

end

/-- In a run whose callers keep to the conditions, the history of the actor is legal at every
    point. -/
theorem lifecycle_legal {admits : List (Message μ ρ) → Message μ ρ → Bool}
    {reentrancy : Option ReentrancyState} {events : List (NestedEvent μ ρ)}
    (hmeets : Meets nestedStep (Within Considerate) (create admits reentrancy) events)
    (hrun : run nestedStep (create admits reentrancy) events = some s) : Legal s.trace := by
  have hkept : s.Regular ∧ s.Lawful := run_preserves (P := fun s => s.Regular ∧ s.Lawful)
      (fun _ _ _ h hcond hstep => nested_preserves (P := fun s => s.Regular ∧ s.Lawful)
        (fun _ _ _ h hcond hstep => ⟨h.1.step hstep, h.2.step h.1 hcond hstep⟩) h hcond hstep)
      ⟨regular_create _ _, lawful_create _ _⟩ hmeets hrun
  exact hkept.2.legal

/-- A restart waits for a behavior, runs both hooks, and a shutdown comes after it. -/
theorem restart_then_shutdown_legal : ∃ s ∈ run nestedStep (create unbounded none : PidState ℕ ℕ)
      ([.started true, .tell 1, .dispatch 0, .take 0 0, .restart false, .returned 0,
        .restartResumed false, .restartPostStopEnded, .restartPreStartEnded true, .shutdown false,
        .shutdownPostStopEnded].map .plain),
      Mark.shutdownResolved ∈ s.trace ∧ Legal s.trace := by
  refine ends_imp (P := fun s => Mark.shutdownResolved ∈ s.trace) (by decide +kernel) ?_
  intro s hrun hresolved
  exact ⟨hresolved, lifecycle_legal (by decide +kernel) hrun⟩

/-- A shutdown that comes while a restart runs postStop runs it once more and resolves; then the
    restart runs preStart and completes. -/
theorem restart_outlives_shutdown : ∃ s ∈ run nestedStep (create unbounded none : PidState ℕ ℕ)
      ([.started true, .restart false, .shutdown false, .shutdownPostStopEnded,
        .restartPostStopEnded, .restartPreStartEnded true].map .plain),
      s.trace.reverse = [.preStart, .preStartEnded true, .postStop, .postStop, .postStopEnded,
        .shutdownResolved, .postStopEnded, .preStart, .preStartEnded true,
        .restartSettled .completed] ∧ ¬ Legal s.trace := by
  decide +kernel

end PidState

end Nodeakt.Actor
