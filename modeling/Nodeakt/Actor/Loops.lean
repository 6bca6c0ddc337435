import Nodeakt.Actor.Pid

/-! What the flags of an actor say about its loops.

    The `processing` flag is set exactly while the actor has a receive loop, and then it has one; a
    running actor with mail has one; and the flags of the lifecycle go with the phases of the restart
    and the shutdown in progress. Everything that only feeds the mailbox is one case, `Fed`. -/

namespace Nodeakt.Actor
open Schemes

variable {μ ρ : Type}
variable {mail : Message μ ρ} {l : Loop μ}

namespace PidState

variable {s next : PidState μ ρ} {loop processed : ℕ} {message : μ}

/-- `next` differs from `s` in its mailbox, stash and requests, and in a loop that was scheduled if
    mail came in. -/
structure Fed (s next : PidState μ ρ) : Prop where
  same : next = { s with
    mailbox := next.mailbox, stash := next.stash, requests := next.requests
    accepted := next.accepted, processing := next.processing, loops := next.loops
    wakes := next.wakes }
  armed : (next.processing = s.processing ∧ next.loops = s.loops ∧ next.wakes = s.wakes ∧
      (next.mailbox ≠ [] → s.mailbox ≠ [])) ∨
    (s.isRunning = true ∧ next.processing = true ∧ next.loops = s.schedule.loops ∧
      next.wakes = s.schedule.wakes)

theorem Fed.refl (s : PidState μ ρ) : Fed s s := ⟨rfl, Or.inl ⟨rfl, rfl, rfl, id⟩⟩

/-- What feeding leaves alone. -/
theorem Fed.fields (h : Fed s next) : next.running = s.running ∧ next.stopping = s.stopping ∧
    next.suspended = s.suspended ∧ next.restarting = s.restarting ∧ next.starting = s.starting ∧
    next.restartPhase = s.restartPhase ∧ next.shutdownPhase = s.shutdownPhase ∧
    next.handled = s.handled ∧ next.trace = s.trace := by
  rw [h.same]
  exact ⟨rfl, rfl, rfl, rfl, rfl, rfl, rfl, rfl, rfl⟩

theorem Fed.isRunning (h : Fed s next) : next.isRunning = s.isRunning := by
  obtain ⟨hr, hs, hsus, -⟩ := h.fields
  simp only [PidState.isRunning, hr, hs, hsus]

/-- A loop is not lost. -/
theorem Fed.processing (h : Fed s next) (hp : s.processing = true) : next.processing = true := by
  rcases h.armed with ⟨hsame, -⟩ | ⟨-, hp', -⟩
  · exact hsame.trans hp
  · exact hp'

theorem Fed.trans {mid : PidState μ ρ} (h : Fed s mid) (h' : Fed mid next) : Fed s next := by
  refine ⟨?_, ?_⟩
  · rw [h'.same, h.same]
  · rcases h.armed with ⟨hp, hl, hw, hm⟩ | ⟨hrun, hp, hl, hw⟩
    · rcases h'.armed with ⟨hp', hl', hw', hm'⟩ | ⟨hrun', hp', hl', hw'⟩
      · exact Or.inl ⟨hp'.trans hp, hl'.trans hl, hw'.trans hw, hm ∘ hm'⟩
      · refine Or.inr ⟨h.isRunning ▸ hrun', hp', ?_, ?_⟩
        · rw [hl']
          simp only [schedule, hp, hl]
        · rw [hw']
          simp only [schedule, hp, hw]
    · refine Or.inr ⟨hrun, ?_⟩
      rcases h'.armed with ⟨hp', hl', hw', -⟩ | ⟨-, hp', hl', hw'⟩
      · exact ⟨hp'.trans hp, hl'.trans hl, hw'.trans hw⟩
      · refine ⟨hp', ?_, ?_⟩
        · rw [hl']
          simp only [schedule, hp, if_true]
          exact hl
        · rw [hw']
          simp only [schedule, hp, if_true]
          exact hw

/-- What a mailbox that took a message looks like. -/
theorem doReceive_ok (h : s.doReceive mail = .ok next) :
    s.isRunning = true ∧ s.disposed = false ∧ s.admits s.mailbox mail = true ∧
      next = { s with mailbox := s.mailbox ++ [mail] }.schedule := by
  unfold doReceive at h
  split at h
  · cases h
  split at h
  · cases h
  split at h
  · cases h
  · rename_i hrun hdisposed hadmits
    exact ⟨by simpa using hrun, by simpa using hdisposed, by simpa using hadmits,
      (Except.ok.inj h).symm⟩

theorem doReceive_eq (hrun : s.isRunning = true) (hdisposed : s.disposed = false)
    (hadmits : s.admits s.mailbox mail = true) :
    s.doReceive mail = .ok { s with mailbox := s.mailbox ++ [mail] }.schedule := by
  simp [doReceive, hrun, hdisposed, hadmits]

theorem fed_doReceive (h : s.doReceive mail = .ok next) : Fed s next := by
  obtain ⟨hrun, -, -, rfl⟩ := doReceive_ok h
  exact ⟨rfl, Or.inr ⟨hrun, rfl, rfl, rfl⟩⟩

theorem fed_receive (s : PidState μ ρ) (mail : Message μ ρ) : Fed s (s.receive mail) := by
  unfold receive
  split
  · rename_i h
    exact fed_doReceive h
  · exact .refl s

theorem fed_tell (s : PidState μ ρ) (message : μ) : Fed s (s.tell message) := by
  unfold tell
  split
  · rename_i h
    obtain ⟨hrun, -, -, rfl⟩ := doReceive_ok h
    exact ⟨rfl, Or.inr ⟨hrun, rfl, rfl, rfl⟩⟩
  · exact .refl s

/-- The stash and the requests may change at any time. -/
theorem fed_with (s : PidState μ ρ) (stash : List μ) (requests : Requests ρ) :
    Fed s { s with stash, requests } := ⟨rfl, Or.inl ⟨rfl, rfl, rfl, id⟩⟩

theorem fed_unstash (s : PidState μ ρ) : Fed s s.unstash := by
  unfold unstash
  split
  · exact .refl s
  · exact (fed_with s _ s.requests).trans (fed_receive _ _)

theorem fed_unstashEach : ∀ (messages : List μ) (s : PidState μ ρ), Fed s (s.unstashEach messages)
  | [], s => fed_with s [] s.requests
  | message :: rest, s => by
      unfold unstashEach
      split
      · rename_i h
        exact ((fed_with s rest s.requests).trans (fed_doReceive h)).trans (fed_unstashEach rest _)
      · exact fed_with s rest s.requests

theorem fed_request (s : PidState μ ρ) (mode : Option ReentrancyMode) (delivered : Bool) :
    Fed s (s.request mode delivered) := by
  unfold request
  split
  · exact .refl s
  · split
    · exact fed_with s s.stash _
    · exact .refl s

theorem fed_deliverRequestReply (s : PidState μ ρ) (index : ℕ) (outcome : Except ActorError ρ) :
    Fed s (s.deliverRequestReply index outcome) := by
  unfold deliverRequestReply
  split
  · rename_i h
    exact fed_doReceive h
  · exact fed_with s s.stash _

theorem fed_cancel (s : PidState μ ρ) (index : ℕ) (handle : RequestHandle ρ) :
    Fed s (s.cancel index handle) := by
  unfold cancel
  split
  · exact .refl s
  · exact fed_deliverRequestReply s index _

/-- The events that only feed. -/
def feeds : PidEvent μ ρ → Bool
  | .tell _ | .poisonPill | .panicking | .stash _ | .unstash | .unstashAll | .request .. | .outcome ..
  | .cancel _ | .onReply _ => true
  | _ => false

theorem fed_of_step {event : PidEvent μ ρ} (hfeeds : feeds event = true)
    (hstep : s.step event = some next) : Fed s next := by
  cases does_of_step hstep with
  | tell message => exact fed_tell s message
  | poisonPill | panicking => exact fed_receive s _
  | stash => exact fed_with s _ s.requests
  | unstash => exact fed_unstash s
  | unstashAll => exact fed_unstashEach _ s
  | request => exact fed_request s _ _
  | outcome => exact fed_deliverRequestReply s _ _
  | cancel => exact fed_cancel s _ _
  | onReply => exact fed_with s s.stash _
  | _ => cases hfeeds

theorem fed_completeRequest (s : PidState μ ρ) (index : ℕ) (outcome : Except ActorError ρ) :
    Fed s (s.completeRequest index outcome) := by
  unfold completeRequest
  split
  · exact .refl s
  split
  · exact .refl s
  · rename_i handle _ _
    refine Fed.trans ?_ (fed_with _ _ _)
    refine (fed_with s s.stash (s.requests.complete index handle outcome)).trans ?_
    dsimp only
    split
    · exact fed_unstashEach _ _
    · exact .refl _

theorem fed_eraseIdx (s : PidState μ ρ) (index : ℕ) :
    Fed s { s with mailbox := s.mailbox.eraseIdx index } := by
  refine ⟨rfl, Or.inl ⟨rfl, rfl, rfl, fun hne hempty => hne ?_⟩⟩
  change s.mailbox.eraseIdx index = []
  rw [hempty, List.eraseIdx_nil]

/-- What the loop and the lifecycle leave alone: the rule of the mailbox, the requests, what was
    accepted and handled, and whether the actor started; and it does not stop to stop. -/
structure Keeps (s next : PidState μ ρ) : Prop where
  admits : next.admits = s.admits
  requests : next.requests = s.requests
  accepted : next.accepted = s.accepted
  handled : next.handled = s.handled
  running : next.running = s.running
  starting : next.starting = s.starting
  stopping : s.stopping = true → next.stopping = true

theorem Keeps.trans {mid : PidState μ ρ} (h : Keeps s mid) (h' : Keeps mid next) : Keeps s next :=
  ⟨h'.admits.trans h.admits, h'.requests.trans h.requests, h'.accepted.trans h.accepted,
    h'.handled.trans h.handled, h'.running.trans h.running, h'.starting.trans h.starting,
    h'.stopping ∘ h.stopping⟩

theorem keeps_doReceive (h : s.doReceive mail = .ok next) : Keeps s next := by
  obtain ⟨-, -, -, rfl⟩ := doReceive_ok h
  exact ⟨rfl, rfl, rfl, rfl, rfl, rfl, id⟩

theorem keeps_receive (s : PidState μ ρ) (mail : Message μ ρ) : Keeps s (s.receive mail) := by
  unfold receive
  split
  · rename_i h
    exact keeps_doReceive h
  · exact ⟨rfl, rfl, rfl, rfl, rfl, rfl, id⟩

theorem keeps_unstash (s : PidState μ ρ) : Keeps s s.unstash := by
  unfold unstash
  split
  · exact ⟨rfl, rfl, rfl, rfl, rfl, rfl, id⟩
  · refine Keeps.trans ?_ (keeps_receive _ _)
    exact ⟨rfl, rfl, rfl, rfl, rfl, rfl, id⟩

theorem keeps_unstashEach : ∀ (messages : List μ) (s : PidState μ ρ),
    Keeps s (s.unstashEach messages)
  | [], _ => ⟨rfl, rfl, rfl, rfl, rfl, rfl, id⟩
  | message :: rest, s => by
      unfold unstashEach
      split
      · rename_i h
        refine Keeps.trans ?_ (keeps_unstashEach rest _)
        refine Keeps.trans ?_ (keeps_doReceive h)
        exact ⟨rfl, rfl, rfl, rfl, rfl, rfl, id⟩
      · exact ⟨rfl, rfl, rfl, rfl, rfl, rfl, id⟩

theorem keeps_continueLoop (s : PidState μ ρ) (loop processed : ℕ) :
    Keeps s (s.continueLoop loop processed) := by
  unfold continueLoop
  split <;> exact ⟨rfl, rfl, rfl, rfl, rfl, rfl, id⟩

theorem keeps_postReceive (s : PidState μ ρ) (loop processed : ℕ) :
    Keeps s (s.postReceive loop processed) := by
  unfold postReceive
  split
  · exact ⟨rfl, rfl, rfl, rfl, rfl, rfl, id⟩
  · exact keeps_continueLoop s loop processed

/-- What a shutdown or a restart does to an actor: it changes the flags and phases of the lifecycle,
    the stash and the history, and suspends nothing. -/
structure Steers (s next : PidState μ ρ) : Prop where
  same : next = { s with
    stash := next.stash, stopping := next.stopping, restarting := next.restarting
    restartPhase := next.restartPhase, shutdownPhase := next.shutdownPhase, trace := next.trace }
  stopping : s.stopping = true → next.stopping = true

theorem Steers.keeps (h : Steers s next) : Keeps s next := by
  rw [h.same]
  exact ⟨rfl, rfl, rfl, rfl, rfl, rfl, h.stopping⟩

theorem steers_stopChildren (s : PidState μ ρ) (children : Bool) :
    Steers s (s.stopChildren children) := by
  cases children <;> exact ⟨rfl, id⟩

theorem steers_shutdown (s : PidState μ ρ) (children : Bool) : Steers s (s.shutdown children) := by
  unfold shutdown doShutdown
  split
  · exact ⟨rfl, id⟩
  split
  · exact ⟨rfl, id⟩
  split
  · exact ⟨rfl, fun _ => rfl⟩
  · cases children <;> exact ⟨rfl, fun _ => rfl⟩

theorem steers_restartPostStop (s : PidState μ ρ) (wasSuspended : Bool) :
    Steers s (s.restartPostStop wasSuspended) := by
  cases wasSuspended <;> exact ⟨rfl, id⟩

theorem steers_resumeRestart (s : PidState μ ρ) (wasSuspended children : Bool) :
    Steers s (s.resumeRestart wasSuspended children) := by
  unfold resumeRestart
  split
  · exact ⟨rfl, id⟩
  split
  · exact ⟨rfl, id⟩
  · exact steers_restartPostStop s wasSuspended

/-- A restart that is not refused suspends the actor first. -/
theorem steers_restart (s : PidState μ ρ) (children : Bool) : Steers s (s.restart children) ∨
    (s.stopping = false ∧ s.running = true ∧ s.restarting = false) ∧
      Steers { s with restarting := true, suspended := true } (s.restart children) := by
  unfold restart
  split
  · exact .inl ⟨rfl, id⟩
  · rename_i hguard
    simp only [not_or, Bool.not_eq_true, Bool.not_eq_false] at hguard
    refine .inr ⟨hguard, ?_⟩
    dsimp only
    split
    · exact ⟨rfl, id⟩
    · exact steers_resumeRestart _ _ children

theorem keeps_restart (s : PidState μ ρ) (children : Bool) : Keeps s (s.restart children) := by
  rcases steers_restart s children with h | ⟨-, h⟩
  · exact h.keeps
  · refine Keeps.trans ?_ h.keeps
    exact ⟨rfl, rfl, rfl, rfl, rfl, rfl, id⟩

theorem keeps_resume (s : PidState μ ρ) : Keeps s s.resume := by
  unfold resume
  split <;> exact ⟨rfl, rfl, rfl, rfl, rfl, rfl, id⟩

theorem keeps_completeRestart (s : PidState μ ρ) : Keeps s s.completeRestart := by
  have h := keeps_resume ({ s with suspended := false }.mark (.preStartEnded true))
  exact { h with }

theorem keeps_doReinstate (s : PidState μ ρ) : Keeps s s.doReinstate := by
  unfold doReinstate
  split
  · have h := keeps_resume { s with suspended := false }
    exact { h with }
  · exact ⟨rfl, rfl, rfl, rfl, rfl, rfl, id⟩

/-- No event but its own start starts an actor, and only a loop that takes a message calls the
    behavior. -/
theorem still_of_step {event : PidEvent μ ρ} (hstep : s.step event = some next) :
    (s.starting = false → next.starting = false) ∧ (next.handled = s.handled ∨
      ∃ (loop index processed : ℕ) (mail : Message μ ρ), s.loops[loop]? = some (.turn processed) ∧
        s.mailbox[index]? = some mail) := by
  have hfed : ∀ {mid : PidState μ ρ} {P : Prop}, Fed s mid →
      (s.starting = false → mid.starting = false) ∧ (mid.handled = s.handled ∨ P) :=
    fun h => ⟨h.fields.2.2.2.2.1.trans, .inl h.fields.2.2.2.2.2.2.2.1⟩
  have hkept : ∀ {mid : PidState μ ρ} {P : Prop}, Keeps s mid →
      (s.starting = false → mid.starting = false) ∧ (mid.handled = s.handled ∨ P) :=
    fun h => ⟨h.starting.trans, .inl h.handled⟩
  cases does_of_step hstep with
  | started => exact ⟨fun _ => rfl, .inl rfl⟩
  | tell | poisonPill | panicking | stash | unstash | unstashAll | request | outcome | cancel
  | onReply => exact hfed (fed_of_step rfl hstep)
  | dispatch | drained | park | suspend | restartPostStopEnded | restartFailed
  | shutdownChildrenStopped | shutdownPostStopEnded => exact ⟨id, .inl rfl⟩
  | @take _ index _ mail hloop hmail =>
    refine ⟨fun h => ?_, .inr ⟨_, _, _, _, hloop, hmail⟩⟩
    have herased := (fed_eraseIdx s index).fields.2.2.2.2.1.trans h
    cases mail with
    | requestReply handle outcome =>
      exact (fed_completeRequest _ handle outcome).fields.2.2.2.2.1.trans herased
    | poisonPill => exact (steers_shutdown _ false).keeps.starting.trans herased
    | panicking => exact h
    | user message =>
      dsimp only [PidState.process]
      split
      · exact (keeps_continueLoop _ _ _).starting.trans h
      · exact h
  | returned | fulfilled => exact hkept (keeps_postReceive s _ _)
  | threw | rejected =>
    exact ⟨(keeps_postReceive (s.handleFault _) _ _).starting.trans,
      .inl (keeps_postReceive (s.handleFault _) _ _).handled⟩
  | reinstate => exact hkept (keeps_doReinstate s)
  | restart children => exact hkept (keeps_restart s children)
  | restartResumed => exact hkept (steers_resumeRestart s _ _).keeps
  | restartChildrenStopped => exact hkept (steers_restartPostStop s _).keeps
  | restartCompleted => exact hkept (keeps_completeRestart s)
  | shutdown children => exact hkept (steers_shutdown s children).keeps
  | shutdownResumed => exact hkept (steers_stopChildren s _).keeps

theorem wake_ne_idle (phase : Option RestartPhase) (wasSuspended : Bool) :
    phase.map RestartPhase.wake ≠ some (.idle wasSuspended) := by
  rcases phase with _ | (_ | _ | _ | _ | _) <;> simp [RestartPhase.wake]

theorem wake_ne_shutdownIdle (phase : Option ShutdownPhase) :
    phase.map ShutdownPhase.wake ≠ some .idle := by
  rcases phase with _ | (_ | _ | _ | _ | _) <;> simp [ShutdownPhase.wake]

theorem wake_eq_done {phase : Option ShutdownPhase} :
    phase.map ShutdownPhase.wake = some .done ↔ phase = some .done := by
  rcases phase with _ | (_ | _ | _ | _ | _) <;> simp [ShutdownPhase.wake]

/-- The actor's loops and phases agree with its flags. -/
structure Regular (s : PidState μ ρ) : Prop where
  serial : s.loops.length = if s.processing then 1 else 0
  starting : s.starting = true → s.running = false ∧ s.stopping = false ∧ s.suspended = false ∧
    s.processing = false ∧ s.mailbox = [] ∧ s.restartPhase = none ∧ s.shutdownPhase = none
  awake : s.isRunning = true → s.mailbox ≠ [] → s.processing = true
  restarting : s.restartPhase ≠ none → s.restarting = true
  stopping : s.shutdownPhase ≠ none → s.shutdownPhase ≠ some .done → s.stopping = true
  stopsRunning : s.stopping = true → s.running = true
  done : s.shutdownPhase = some .done → s.running = false
  restartIdle : ∀ wasSuspended, s.restartPhase = some (.idle wasSuspended) → s.processing = true
  shutdownIdle : s.shutdownPhase = some .idle → s.processing = true

/-- The loop a step found is the only one. -/
theorem Regular.only (h : s.Regular) (hloop : s.loops[loop]? = some l) :
    loop = 0 ∧ s.loops = [l] ∧ s.processing = true := by
  have hserial := h.serial
  have hlt := (List.getElem?_eq_some_iff.mp hloop).1
  cases hp : s.processing with
  | false =>
    rw [hp] at hserial
    simp only [Bool.false_eq_true, if_false] at hserial
    omega
  | true =>
    rw [hp, if_pos rfl] at hserial
    obtain ⟨only, honly⟩ := List.length_eq_one_iff.mp hserial
    have hzero : loop = 0 := by omega
    subst hzero
    rw [honly] at hloop ⊢
    exact ⟨rfl, by simpa using hloop, rfl⟩

/-- A running actor that is not stopping was never shut down. -/
theorem Regular.no_shutdown (h : s.Regular) (hrunning : s.running = true)
    (hstopping : s.stopping = false) : s.shutdownPhase = none := by
  by_contra hphase
  by_cases hdone : s.shutdownPhase = some .done
  · cases hrunning.symm.trans (h.done hdone)
  · cases hstopping.symm.trans (h.stopping hphase hdone)

theorem Regular.not_starting_of_loop (h : s.Regular) (hloop : s.loops[loop]? = some l) :
    s.starting = false := by
  by_contra hstarting
  have hp := (h.only hloop).2.2
  simp [(h.starting (by simpa using hstarting)).2.2.2.1] at hp

theorem regular_create (admits : List (Message μ ρ) → Message μ ρ → Bool)
    (reentrancy : Option ReentrancyState) : (create admits reentrancy : PidState μ ρ).Regular := by
  constructor <;> simp [create, isRunning]

section

variable (h : s.Regular)
include h

theorem Regular.fed (hfed : Fed s next) : next.Regular := by
  obtain ⟨hrun, hstop, hsus, hres, hstart, hrestart, hshut, -, -⟩ := hfed.fields
  constructor
  · rcases hfed.armed with ⟨hp, hl, -⟩ | ⟨-, hp, hl, -⟩
    · rw [hp, hl, h.serial]
    · have hserial := h.serial
      rw [hp, hl]
      cases hproc : s.processing <;> simp_all [schedule]
  · intro hstarting
    obtain ⟨hr, hst, hsu, hpr, hmail, hre, hsh⟩ := h.starting (hstart ▸ hstarting)
    rcases hfed.armed with ⟨hp, -, -, hm⟩ | ⟨hrunning, -⟩
    · have hmail' : next.mailbox = [] := by
        by_contra hne
        exact hm hne hmail
      exact ⟨hrun.trans hr, hstop.trans hst, hsus.trans hsu, hp.trans hpr, hmail',
        hrestart.trans hre, hshut.trans hsh⟩
    · simp [PidState.isRunning, hr] at hrunning
  · intro hrunning hmail
    rcases hfed.armed with ⟨hp, -, -, hm⟩ | ⟨-, hp, -⟩
    · exact hp.trans (h.awake (hfed.isRunning ▸ hrunning) (hm hmail))
    · exact hp
  · rw [hres, hrestart]
    exact h.restarting
  · rw [hstop, hshut]
    exact h.stopping
  · rw [hstop, hrun]
    exact h.stopsRunning
  · rw [hshut, hrun]
    exact h.done
  · intro wasSuspended hphase
    exact hfed.processing (h.restartIdle wasSuspended (hrestart ▸ hphase))
  · intro hphase
    exact hfed.processing (h.shutdownIdle (hshut ▸ hphase))

/-- A loop may move on. -/
theorem Regular.set_loop (loop : ℕ) (l : Loop μ) (wakes : List Bool)
    (handled : List μ) (trace : List Mark) :
    { s with loops := s.loops.set loop l, wakes, handled, trace }.Regular :=
  { h with serial := by simpa using h.serial }

theorem Regular.leaveLoop (hloop : s.loops[loop]? = some l)
    (hidle : s.mailbox = [] ∨ s.suspended = true) : (s.leaveLoop loop).Regular := by
  obtain ⟨rfl, honly, hp⟩ := h.only hloop
  constructor
  · simp [PidState.leaveLoop, notifyIdle, honly]
  · intro hstarting
    exact absurd hp (by simp [(h.starting hstarting).2.2.2.1])
  · intro hrunning hmail
    rcases hidle with hempty | hsuspended
    · exact absurd hempty hmail
    · have hnot : s.isRunning = false := by simp [PidState.isRunning, hsuspended]
      cases hnot.symm.trans hrunning
  · exact fun hphase => h.restarting fun hnone => hphase (Option.map_eq_none_iff.mpr hnone)
  · exact fun hphase hdone => h.stopping (fun hnone => hphase (Option.map_eq_none_iff.mpr hnone))
      (fun hdone' => hdone (wake_eq_done.mpr hdone'))
  · exact h.stopsRunning
  · exact fun hdone => h.done (wake_eq_done.mp hdone)
  · exact fun wasSuspended hphase => absurd hphase (wake_ne_idle _ wasSuspended)
  · exact fun hphase => absurd hphase (wake_ne_shutdownIdle _)

theorem Regular.continueLoop (loop processed : ℕ) : (s.continueLoop loop processed).Regular := by
  unfold PidState.continueLoop
  split
  · exact h.set_loop loop _ s.wakes s.handled s.trace
  · exact h.set_loop loop _ _ s.handled s.trace

theorem Regular.handleFault (resume : Bool) (hp : s.processing = true) :
    (s.handleFault resume).Regular := by
  refine { h with starting := fun hstarting => ?_, awake := fun _ _ => hp }
  exact absurd hp (by simp [(h.starting hstarting).2.2.2.1])

theorem Regular.postReceive (hloop : s.loops[loop]? = some l) (processed : ℕ) :
    (s.postReceive loop processed).Regular := by
  unfold PidState.postReceive
  split_ifs with hsuspended
  · exact h.leaveLoop hloop (Or.inr hsuspended)
  · exact h.continueLoop loop processed

/-- The stash and the history do not matter. -/
theorem Regular.with_stash (stash : List μ) (trace : List Mark) : { s with stash, trace }.Regular :=
  { h with }

/-- A stopping actor may go from phase to phase. -/
theorem Regular.stop (hstop : s.stopping = true) (phase : ShutdownPhase)
    (hdone : phase ≠ .done) (hidle : phase = .idle → s.processing = true) :
    { s with shutdownPhase := some phase }.Regular := by
  refine { h with
    starting := fun hstarting => ?_, stopping := fun _ _ => hstop
    done := fun hphase => absurd (Option.some.inj hphase) hdone
    shutdownIdle := fun hphase => hidle (Option.some.inj hphase) }
  exact absurd hstop (by simp [(h.starting hstarting).2.1])

theorem Regular.stopChildren (hstop : s.stopping = true) (children : Bool) :
    (s.stopChildren children).Regular := by
  cases children with
  | true => exact h.stop hstop .children (by decide) nofun
  | false =>
    exact (h.stop hstop .postStop (by decide) nofun).with_stash s.stash (.postStop :: s.trace)

/-- A running actor may begin to stop. -/
theorem Regular.begin_stop (hrun : s.running = true) : { s with stopping := true }.Regular := by
  refine { h with
    starting := fun hstarting => ?_, awake := fun hrunning => ?_, stopping := fun _ _ => rfl
    stopsRunning := fun _ => hrun }
  · exact absurd hrun (by simp [(h.starting hstarting).1])
  · simp [PidState.isRunning] at hrunning

theorem Regular.shutdown (children : Bool) : (s.shutdown children).Regular := by
  unfold PidState.shutdown PidState.doShutdown
  split
  · exact h
  split
  · exact h.with_stash s.stash _
  rename_i hrun
  split_ifs with hp
  · exact (h.begin_stop (by simpa using hrun)).stop rfl .idle (by decide) (fun _ => hp)
  · exact (h.begin_stop (by simpa using hrun)).stopChildren rfl children

theorem Regular.reset (hstop : s.stopping = true) : s.reset.Regular := by
  refine ⟨h.serial, fun hstarting => ?_, fun hrunning => ?_, h.restarting, ?_, ?_, fun _ => rfl,
    h.restartIdle, ?_⟩
  · exact absurd (h.stopsRunning hstop) (by simp [(h.starting hstarting).1])
  · simp [PidState.isRunning, PidState.reset] at hrunning
  · simp [PidState.reset]
  · intro hstopping
    cases hstopping
  · intro hphase
    cases hphase

theorem Regular.not_starting (hrun : s.running = true) : s.starting = false := by
  by_contra hstarting
  exact absurd hrun (by simp [(h.starting (by simpa using hstarting)).1])

theorem Regular.not_starting_of_phase {phase : RestartPhase}
    (hphase : s.restartPhase = some phase) : s.starting = false := by
  by_contra hstarting
  have hnone := (h.starting (by simpa using hstarting)).2.2.2.2.2.1
  cases hphase.symm.trans hnone

/-- A restart may go from phase to phase. -/
theorem Regular.phase (hres : s.restarting = true) (hstart : s.starting = false)
    (phase : RestartPhase) (hidle : ∀ wasSuspended, phase = .idle wasSuspended →
      s.processing = true) : { s with restartPhase := some phase }.Regular := by
  refine { h with
    starting := fun hstarting => ?_, restarting := fun _ => hres
    restartIdle := fun wasSuspended hphase => hidle wasSuspended (Option.some.inj hphase) }
  cases hstart.symm.trans hstarting

theorem Regular.suspend (hstart : s.starting = false) : { s with suspended := true }.Regular := by
  refine { h with starting := fun hstarting => ?_, awake := fun hrunning => ?_ }
  · cases hstart.symm.trans hstarting
  · simp [PidState.isRunning] at hrunning

/-- A suspension may be lifted, if a loop is scheduled for the mail. -/
theorem Regular.revive (hstart : s.starting = false) (trace : List Mark) :
    { s with suspended := false, trace }.resume.Regular := by
  unfold resume
  split_ifs with hempty
  · refine { h with starting := fun hstarting => ?_, awake := fun _ hmail => ?_ }
    · cases hstart.symm.trans hstarting
    · exact absurd (List.isEmpty_iff.mp hempty) hmail
  · refine { h with
      serial := ?_, starting := fun hstarting => ?_, awake := fun _ _ => rfl
      restartIdle := fun _ _ => rfl, shutdownIdle := fun _ => rfl }
    · have hserial := h.serial
      cases hp : s.processing <;> simp_all [schedule]
    · cases hstart.symm.trans hstarting

theorem Regular.settleRestart (hstart : s.starting = false)
    (outcome : RestartOutcome) : (s.settleRestart outcome).Regular := by
  refine { h with
    starting := fun hstarting => ?_, restarting := fun hphase => absurd rfl hphase
    restartIdle := nofun }
  cases hstart.symm.trans hstarting

theorem Regular.restartPreStart (hres : s.restarting = true)
    (hstart : s.starting = false) : s.restartPreStart.Regular :=
  (h.phase hres hstart .preStart (fun _ hphase => nomatch hphase)).with_stash []
    (.preStart :: s.trace)

theorem Regular.restartPostStop (hres : s.restarting = true)
    (hstart : s.starting = false) (wasSuspended : Bool) :
    (s.restartPostStop wasSuspended).Regular := by
  cases wasSuspended with
  | true => exact h.restartPreStart hres hstart
  | false =>
    exact (h.phase hres hstart .postStop (fun _ hphase => nomatch hphase)).with_stash s.stash
      (.postStop :: s.trace)

theorem Regular.resumeRestart (hres : s.restarting = true)
    (hstart : s.starting = false) (wasSuspended children : Bool) :
    (s.resumeRestart wasSuspended children).Regular := by
  unfold PidState.resumeRestart
  split
  · exact h.settleRestart hstart .dead
  split
  · exact h.phase hres hstart (.children wasSuspended) (fun _ hphase => nomatch hphase)
  · exact h.restartPostStop hres hstart wasSuspended

/-- A running actor may begin to restart. -/
theorem Regular.begin_restart (hstart : s.starting = false) :
    { s with restarting := true, suspended := true }.Regular :=
  { h.suspend hstart with restarting := fun _ => rfl }

theorem Regular.restarting_of_phase {phase : RestartPhase}
    (hphase : s.restartPhase = some phase) : s.restarting = true := by
  refine h.restarting ?_
  rw [hphase]
  exact nofun

theorem Regular.restart (children : Bool) : (s.restart children).Regular := by
  unfold PidState.restart
  split
  · exact h.with_stash s.stash _
  · rename_i hguard
    simp only [not_or, Bool.not_eq_true, Bool.not_eq_false] at hguard
    have hstart := h.not_starting hguard.2.1
    have hbegun := h.begin_restart hstart
    dsimp only
    split
    · rename_i hp
      exact hbegun.phase rfl hstart (.idle s.suspended) (fun _ _ => hp)
    · exact hbegun.resumeRestart rfl hstart s.suspended children

theorem Regular.completeRestart (hstart : s.starting = false) : s.completeRestart.Regular := by
  have hrevived := h.revive hstart (.preStartEnded true :: s.trace)
  exact hrevived.settleRestart ((keeps_resume _).starting.trans hstart) .completed

theorem Regular.doReinstate : s.doReinstate.Regular := by
  unfold PidState.doReinstate
  split_ifs with hsuspended
  · have hstart : s.starting = false := by
      by_contra hstarting
      exact absurd hsuspended (by simp [(h.starting (by simpa using hstarting)).2.2.1])
    exact h.revive hstart s.trace
  · exact h

theorem Regular.process (loop processed : ℕ) (mail : Message μ ρ) :
    (s.process loop processed mail).Regular := by
  cases mail with
  | requestReply index outcome => exact h.fed (fed_completeRequest s index outcome)
  | poisonPill => exact h.shutdown false
  | panicking => exact h
  | user message =>
    dsimp only [PidState.process]
    split
    · exact (h.with_stash _ s.trace).continueLoop loop processed
    · exact h.set_loop loop _ s.wakes _ _

theorem Regular.step {event : PidEvent μ ρ} (hstep : s.step event = some next) : next.Regular := by
  cases does_of_step hstep with
  | started hstarting =>
    obtain ⟨-, hstop, -, -, hmail, hrestart, hshutdown⟩ := h.starting hstarting
    refine ⟨h.serial, nofun, fun _ hne => absurd hmail hne, h.restarting,
      h.stopping, fun hstop' => ?_, fun hdone => ?_, h.restartIdle, h.shutdownIdle⟩
    · cases hstop.symm.trans hstop'
    · cases hshutdown.symm.trans hdone
  | tell | poisonPill | panicking | stash | unstash | unstashAll | request | outcome | cancel
  | onReply => exact h.fed (fed_of_step rfl hstep)
  | dispatch => exact h.set_loop _ _ s.wakes s.handled s.trace
  | take => exact (h.fed (fed_eraseIdx s _)).process _ _ _
  | drained hloop hempty => exact h.leaveLoop hloop (Or.inl hempty)
  | returned hloop | fulfilled hloop => exact h.postReceive hloop _
  | threw hloop | rejected hloop =>
    exact (h.handleFault _ (h.only hloop).2.2).postReceive hloop _
  | park => exact h.set_loop _ _ s.wakes s.handled s.trace
  | suspend hrunning =>
    refine h.suspend (h.not_starting ?_)
    simp only [isRunning, Bool.and_eq_true] at hrunning
    exact hrunning.1.1
  | reinstate => exact h.doReinstate
  | restart children => exact h.restart children
  | restartResumed hphase =>
    exact h.resumeRestart (h.restarting_of_phase hphase) (h.not_starting_of_phase hphase) _ _
  | restartChildrenStopped hphase =>
    exact h.restartPostStop (h.restarting_of_phase hphase) (h.not_starting_of_phase hphase) _
  | restartPostStopEnded hphase =>
    have hmarked := h.with_stash s.stash (.postStopEnded :: s.trace)
    exact hmarked.restartPreStart (h.restarting_of_phase hphase) (h.not_starting_of_phase hphase)
  | restartCompleted hphase => exact h.completeRestart (h.not_starting_of_phase hphase)
  | restartFailed hphase =>
    have hmarked := h.with_stash s.stash (.preStartEnded false :: s.trace)
    exact hmarked.settleRestart (h.not_starting_of_phase hphase) .failed
  | shutdown children => exact h.shutdown children
  | shutdownResumed hphase =>
    exact h.stopChildren (h.stopping (by simp [hphase]) (by simp [hphase])) _
  | shutdownChildrenStopped hphase =>
    exact h.stopChildren (h.stopping (by simp [hphase]) (by simp [hphase])) false
  | shutdownPostStopEnded hphase =>
    have hmarked := h.with_stash s.stash (.postStopEnded :: s.trace)
    have hstop := h.stopping (by simp [hphase]) (by simp [hphase])
    exact (hmarked.reset hstop).with_stash _ _

end

end PidState

end Nodeakt.Actor
