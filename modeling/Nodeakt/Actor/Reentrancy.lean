import Nodeakt.Actor.Loops

/-! Request bookkeeping (`reentrancy.ts`, `PID.request` to `PID.completeRequest`).

    The counters of an actor follow its handles: a request is counted when it is admitted and
    discounted when its outcome is processed on the actor's turn. An outcome that the actor refuses
    settles the handle without that turn, so `requests_exact` needs every outcome of an unsettled
    request to be taken. -/

namespace Nodeakt.Actor
open Schemes List Option

variable {μ ρ : Type}

namespace Requests

variable {requests : Requests ρ} {index : ℕ} {handle : RequestHandle ρ}

/-- The admitted requests that are not settled. -/
def unsettled (requests : Requests ρ) : ℕ := requests.handles.countP fun handle => !handle.settled

/-- Those of them that were admitted in stash mode. -/
def unsettledStash (requests : Requests ρ) : ℕ :=
  requests.handles.countP fun handle => !handle.settled && handle.stashMode

/-- The counters are exact, and the limit is not negative. -/
structure Exact (requests : Requests ρ) : Prop where
  inFlight : ∀ state ∈ requests.reentrancy, state.inFlight = requests.unsettled
  paused : ∀ state ∈ requests.reentrancy, state.paused = requests.unsettledStash
  limit : ∀ state ∈ requests.reentrancy, 0 ≤ state.maxInFlight

theorem Exact.admitRequest (h : requests.Exact) (hnew : handle.settled = false) :
    (requests.admitRequest handle).Exact := by
  constructor
  · intro next hnext
    obtain ⟨state, hstate, rfl⟩ := map_eq_some_iff.mp hnext
    simp [Requests.admitRequest, unsettled, countP_append, hnew, h.inFlight state hstate]
  · intro next hnext
    obtain ⟨state, hstate, rfl⟩ := map_eq_some_iff.mp hnext
    have hpaused := h.paused state hstate
    cases hmode : handle.stashMode <;>
      simp [Requests.admitRequest, unsettledStash, countP_append, hnew, hmode, hpaused]
  · intro next hnext
    obtain ⟨state, hstate, rfl⟩ := map_eq_some_iff.mp hnext
    exact h.limit state hstate

/-- Replacing one handle changes a count by what the two handles count for. -/
theorem countP_set_handle (p : RequestHandle ρ → Bool)
    (hhandle : requests.handles[index]? = some handle) (new : RequestHandle ρ) :
    ((requests.handles.set index new).countP p : ℤ) + (if p handle then 1 else 0) =
      requests.handles.countP p + if p new then 1 else 0 := by
  obtain ⟨hlt, rfl⟩ := List.getElem?_eq_some_iff.mp hhandle
  have hpos : (if p requests.handles[index] then 1 else 0) ≤ requests.handles.countP p := by
    split_ifs with hp
    · exact countP_pos_iff.mpr ⟨_, getElem_mem hlt, hp⟩
    · exact Nat.zero_le _
  rw [countP_set hlt]
  push_cast [Nat.cast_sub hpos]
  split <;> split <;> simp

theorem Exact.complete (h : requests.Exact) (hhandle : requests.handles[index]? = some handle)
    (hunsettled : handle.settled = false) (outcome : Except ActorError ρ) :
    (requests.complete index handle outcome).Exact := by
  have hcount := countP_set_handle (fun handle => !handle.settled) hhandle (handle.settle outcome)
  have hstash := countP_set_handle (fun handle => !handle.settled && handle.stashMode) hhandle
    (handle.settle outcome)
  simp only [hunsettled, RequestHandle.settle, Bool.not_false, Bool.not_true, if_true,
    Bool.true_and, Bool.false_and, Bool.false_eq_true, if_false] at hcount hstash
  constructor
  · intro next hnext
    obtain ⟨state, hstate, rfl⟩ := map_eq_some_iff.mp hnext
    have hinFlight := h.inFlight state hstate
    unfold unsettled at hinFlight ⊢
    change state.inFlight - 1 = ((requests.handles.set index (handle.settle outcome)).countP _ : ℤ)
    simp only [RequestHandle.settle]
    omega
  · intro next hnext
    obtain ⟨state, hstate, rfl⟩ := map_eq_some_iff.mp hnext
    have hpaused := h.paused state hstate
    unfold unsettledStash at hpaused ⊢
    change (if handle.stashMode then state.paused - 1 else state.paused) =
      ((requests.handles.set index (handle.settle outcome)).countP _ : ℤ)
    simp only [RequestHandle.settle]
    split_ifs with hmode
    · rw [if_pos hmode] at hstash
      omega
    · rw [if_neg hmode] at hstash
      omega
  · intro next hnext
    obtain ⟨state, hstate, rfl⟩ := map_eq_some_iff.mp hnext
    exact h.limit state hstate

theorem countP_modify_handle (p : RequestHandle ρ → Bool) {f : RequestHandle ρ → RequestHandle ρ}
    (hf : ∀ handle, requests.handles[index]? = some handle → p (f handle) = p handle) :
    (requests.handles.modify index f).countP p = requests.handles.countP p := by
  rw [modify_eq_set_getElem?]
  cases hfound : requests.handles[index]? with
  | none => rfl
  | some handle =>
    have hcount := countP_set_handle p hfound (f handle)
    rw [hf handle hfound] at hcount
    change (requests.handles.set index (f handle)).countP p = _
    omega

/-- A change that settles no handle keeps the counters exact. -/
theorem Exact.modify (h : requests.Exact) {f : RequestHandle ρ → RequestHandle ρ}
    (hf : ∀ handle, requests.handles[index]? = some handle →
      (f handle).settled = handle.settled ∧ (f handle).stashMode = handle.stashMode) :
    (requests.modify index f).Exact := by
  constructor
  · intro state hstate
    rw [h.inFlight state hstate]
    refine congrArg Int.ofNat (countP_modify_handle _ fun handle hhandle => ?_).symm
    rw [(hf handle hhandle).1]
  · intro state hstate
    rw [h.paused state hstate]
    refine congrArg Int.ofNat (countP_modify_handle _ fun handle hhandle => ?_).symm
    rw [(hf handle hhandle).1, (hf handle hhandle).2]
  · exact h.limit

theorem exact_create (mode : ReentrancyMode) (maxInFlight : ℚ) :
    (⟨some (.create mode maxInFlight), []⟩ : Requests ρ).Exact := by
  constructor
  · rintro state ⟨⟩
    rfl
  · rintro state ⟨⟩
    rfl
  · rintro state ⟨⟩
    unfold ReentrancyState.create
    dsimp only
    split_ifs with hpos
    · exact hpos.le
    · exact le_rfl

/-- An exact count of zero refuses no request for the limit. -/
theorem Exact.openRequest (h : requests.Exact) (hzero : requests.unsettled = 0)
    (mode : Option ReentrancyMode) :
    requests.openRequest mode ≠ .error .reentrancyInFlightLimit := by
  unfold Requests.openRequest
  split
  · simp
  · rename_i state hstate
    have hinFlight : state.inFlight = 0 := by rw [h.inFlight state hstate, hzero]; rfl
    have hfree : ¬ (state.maxInFlight ≠ 0 ∧ state.maxInFlight ≤ state.inFlight) := by
      rw [hinFlight]
      rintro ⟨hne, hle⟩
      exact hne (le_antisymm (by exact_mod_cast hle) (h.limit state hstate))
    dsimp only
    split
    · simp
    split
    · simp
    · simp

/-- An actor with no unsettled request in stash mode is not paused. -/
theorem Exact.not_paused_of_stash (h : requests.Exact) (hzero : requests.unsettledStash = 0) :
    requests.paused = 0 := by
  unfold Requests.paused
  cases hstate : requests.reentrancy with
  | none => rfl
  | some state =>
    have hpaused := h.paused state hstate
    rw [hzero] at hpaused
    exact hpaused

end Requests

namespace PidState

variable {s next : PidState μ ρ}

/-! ### Runs -/

/-- The mailbox takes the message. -/
def accepts (s : PidState μ ρ) (mail : Message μ ρ) : Bool :=
  s.isRunning && !s.disposed && s.admits s.mailbox mail

/-- The actor is not gone: it starts, or it runs and does not stop. -/
def Alive (s : PidState μ ρ) : Prop := s.starting = true ∨ s.running = true ∧ s.stopping = false

/-- While the actor runs and does not stop, it takes every outcome and every cancel of a request
    that is not settled. -/
def RepliesTaken (s : PidState μ ρ) : PidEvent μ ρ → Prop
  | .outcome index outcome => ∀ handle ∈ s.requests.handles[index]?, handle.settled = false →
      s.running = true → s.stopping = false → s.accepts (.requestReply index outcome) = true
  | .cancel index => ∀ handle ∈ s.requests.handles[index]?, handle.settled = false →
      s.running = true → s.stopping = false →
      s.accepts (.requestReply index (.error .requestCanceled)) = true
  | _ => True

instance (s : PidState μ ρ) (event) : Decidable (s.RepliesTaken event) := by
  rcases event <;> dsimp only [RepliesTaken] <;> infer_instance

theorem Keeps.alive (h : Keeps s next) (halive : next.Alive) : s.Alive := by
  rcases halive with hstarting | ⟨hrunning, hstopping⟩
  · exact Or.inl (h.starting ▸ hstarting)
  · refine Or.inr ⟨h.running ▸ hrunning, ?_⟩
    by_contra hstop
    have hstop' := h.stopping (by simpa using hstop)
    cases hstopping.symm.trans hstop'

theorem Fed.alive (h : Fed s next) (halive : next.Alive) : s.Alive := by
  obtain ⟨hrunning, hstopping, -, -, hstarting, -⟩ := h.fields
  rcases halive with hstart | ⟨hrun, hstop⟩
  · exact Or.inl (hstarting ▸ hstart)
  · exact Or.inr ⟨hrunning ▸ hrun, hstopping ▸ hstop⟩

theorem doReceive_of_accepts {mail : Message μ ρ} (h : s.accepts mail = true) :
    ∃ next, s.doReceive mail = .ok next := by
  simp only [accepts, Bool.and_eq_true, Bool.not_eq_true'] at h
  obtain ⟨⟨hrun, hdisposed⟩, hadmits⟩ := h
  exact ⟨_, doReceive_eq hrun hdisposed hadmits⟩

/-- The counters of an actor that is not gone are exact; one that starts has no requests. -/
structure Counted (s : PidState μ ρ) : Prop where
  exact : s.Alive → s.requests.Exact
  fresh : s.starting = true → s.requests.handles = []

/-- An actor starts with exact counters. -/
theorem counted_spawned (admits : List (Message μ ρ) → Message μ ρ → Bool)
    (config : Option (ReentrancyMode × ℚ)) : (spawned admits config).Counted := by
  refine ⟨fun _ => ?_, fun _ => rfl⟩
  cases config with
  | none => exact ⟨nofun, nofun, nofun⟩
  | some config => exact Requests.exact_create config.1 config.2

theorem Counted.keeps (h : s.Counted) (hkeeps : Keeps s next) : next.Counted := by
  constructor
  · intro halive
    rw [hkeeps.requests]
    exact h.exact (hkeeps.alive halive)
  · intro hstarting
    rw [hkeeps.requests]
    exact h.fresh (hkeeps.starting ▸ hstarting)

/-- What only changes the requests, of an actor that has some, has to keep them exact. -/
theorem Counted.fed (h : s.Counted) (hfed : Fed s next) (hstart : s.starting = false)
    (hexact : s.running = true → s.stopping = false → s.requests.Exact → next.requests.Exact) :
    next.Counted := by
  obtain ⟨-, -, -, -, hstarting, -⟩ := hfed.fields
  constructor
  · intro halive
    have halive' := hfed.alive halive
    rcases halive' with hstarting' | ⟨hrun, hstop⟩
    · cases hstart.symm.trans hstarting'
    · exact hexact hrun hstop (h.exact (Or.inr ⟨hrun, hstop⟩))
  · intro hstarting'
    cases hstart.symm.trans (hstarting ▸ hstarting')

theorem Counted.not_starting (h : s.Counted) {index : ℕ} {handle : RequestHandle ρ}
    (hhandle : s.requests.handles[index]? = some handle) : s.starting = false := by
  by_contra hstarting
  rw [h.fresh (by simpa using hstarting)] at hhandle
  cases hhandle

/-- The handle of a request that is let through. -/
theorem openRequest_ok {requests : Requests ρ} {mode : Option ReentrancyMode}
    {handle : RequestHandle ρ} (h : requests.openRequest mode = .ok handle) :
    ∃ state, requests.reentrancy = some state ∧
      handle = RequestHandle.create (mode.getD state.mode = .stashNonReentrant) := by
  unfold Requests.openRequest at h
  split at h
  · cases h
  rename_i state hstate
  dsimp only at h
  split at h
  · cases h
  split at h
  · cases h
  split at h
  · cases h
  · exact ⟨state, hstate, (Except.ok.inj h).symm⟩

theorem Counted.request (h : s.Counted) (hstart : s.starting = false)
    (mode : Option ReentrancyMode) (delivered : Bool) : (s.request mode delivered).Counted := by
  refine h.fed (fed_request s mode delivered) hstart fun _ _ hexact => ?_
  unfold PidState.request
  split
  · exact hexact
  · rename_i handle hopen
    obtain ⟨state, -, rfl⟩ := openRequest_ok hopen
    split
    · exact hexact.admitRequest rfl
    · exact hexact

theorem Counted.deliverRequestReply (h : s.Counted) {index : ℕ} {handle : RequestHandle ρ}
    (hhandle : s.requests.handles[index]? = some handle) (outcome : Except ActorError ρ)
    (htaken : handle.settled = false → s.running = true → s.stopping = false →
      s.accepts (.requestReply index outcome) = true) :
    (s.deliverRequestReply index outcome).Counted := by
  refine h.fed (fed_deliverRequestReply s index outcome) (h.not_starting hhandle)
    fun hrun hstop hexact => ?_
  unfold PidState.deliverRequestReply
  split
  · rename_i hok
    rw [(keeps_doReceive hok).requests]
    exact hexact
  · rename_i herror
    refine hexact.modify fun handle' hhandle' => ?_
    cases (hhandle.symm.trans hhandle')
    -- the outcome of an unsettled request would have been taken
    cases hsettled : handle.settled with
    | true => exact ⟨rfl, rfl⟩
    | false =>
      obtain ⟨next, hok⟩ := doReceive_of_accepts (htaken hsettled hrun hstop)
      rw [hok] at herror
      cases herror

theorem Counted.completeRequest (h : s.Counted) (hstart : s.starting = false) (index : ℕ)
    (outcome : Except ActorError ρ) : (s.completeRequest index outcome).Counted := by
  refine h.fed (fed_completeRequest s index outcome) hstart fun _ _ hexact => ?_
  unfold PidState.completeRequest
  split
  · exact hexact
  rename_i handle hhandle
  split_ifs with hunsettled
  · exact hexact
  · have hcompleted := hexact.complete hhandle (by simpa using hunsettled) outcome
    refine Requests.Exact.modify ?_ fun _ _ => ⟨rfl, rfl⟩
    dsimp only
    split
    · rw [unstashAll, (keeps_unstashEach _ _).requests]
      exact hcompleted
    · exact hcompleted

theorem Counted.process (h : s.Counted) (hstart : s.starting = false) (loop processed : ℕ)
    (mail : Message μ ρ) : (s.process loop processed mail).Counted := by
  cases mail with
  | requestReply index outcome => exact h.completeRequest hstart index outcome
  | poisonPill => exact h.keeps (steers_shutdown s false).keeps
  | panicking => exact h
  | user message =>
    dsimp only [PidState.process]
    split
    · refine h.keeps (Keeps.trans ?_ (keeps_continueLoop _ loop processed))
      exact ⟨rfl, rfl, rfl, rfl, rfl, rfl, id⟩
    · exact ⟨h.exact, h.fresh⟩

theorem Counted.step (h : s.Counted) (hregular : s.Regular) {event : PidEvent μ ρ}
    (htaken : s.RepliesTaken event) (hstep : s.step event = some next) : next.Counted := by
  cases does_of_step hstep with
  | started hstarting =>
    refine ⟨fun _ => h.exact (Or.inl hstarting), nofun⟩
  | tell message =>
    unfold PidState.tell
    split
    · rename_i hok
      have hnext := h.keeps (keeps_doReceive hok)
      exact ⟨hnext.exact, hnext.fresh⟩
    · exact h
  | poisonPill | panicking => exact h.keeps (keeps_receive s _)
  | dispatch | park | stash => exact ⟨h.exact, h.fresh⟩
  | @take _ index _ _ hloop =>
    have htaken : { s with mailbox := s.mailbox.eraseIdx index }.Counted := ⟨h.exact, h.fresh⟩
    exact htaken.process (hregular.not_starting_of_loop hloop) _ _ _
  | drained => exact ⟨h.exact, h.fresh⟩
  | returned | fulfilled => exact h.keeps (keeps_postReceive s _ _)
  | threw | rejected =>
    refine h.keeps (Keeps.trans ?_ (keeps_postReceive _ _ _))
    exact ⟨rfl, rfl, rfl, rfl, rfl, rfl, id⟩
  | unstash => exact h.keeps (keeps_unstash s)
  | unstashAll => exact h.keeps (keeps_unstashEach _ s)
  | request hrunning => exact h.request (hregular.not_starting hrunning) _ _
  | outcome hhandle => exact h.deliverRequestReply hhandle _ (htaken _ hhandle)
  | cancel hhandle =>
    unfold PidState.cancel
    split
    · exact h
    · exact h.deliverRequestReply hhandle _ (htaken _ hhandle)
  | onReply hhandle =>
    refine h.fed (fed_with s s.stash _) (h.not_starting hhandle) fun _ _ hexact => ?_
    refine hexact.modify fun handle _ => ?_
    unfold RequestHandle.onReply
    split <;> exact ⟨rfl, rfl⟩
  | suspend => exact ⟨h.exact, h.fresh⟩
  | reinstate => exact h.keeps (keeps_doReinstate s)
  | restart children => exact h.keeps (keeps_restart s children)
  | restartResumed => exact h.keeps (steers_resumeRestart s _ _).keeps
  | restartChildrenStopped => exact h.keeps (steers_restartPostStop s _).keeps
  | restartPostStopEnded | restartFailed => exact ⟨h.exact, h.fresh⟩
  | restartCompleted => exact h.keeps (keeps_completeRestart s)
  | shutdown children => exact h.keeps (steers_shutdown s children).keeps
  | shutdownResumed => exact h.keeps (steers_stopChildren s _).keeps
  | shutdownChildrenStopped => exact h.keeps (steers_stopChildren s false).keeps
  | shutdownPostStopEnded =>
    refine ⟨fun halive => ?_, h.fresh⟩
    rcases halive with hstarting | ⟨hrun, -⟩
    · exact h.exact (Or.inl hstarting)
    · cases hrun

/-- In a run in which every outcome of an unsettled request is taken, the counters of a running
    actor are exact. So with no unsettled request it stashes no user message and refuses no request
    for the limit. -/
theorem requests_exact {admits : List (Message μ ρ) → Message μ ρ → Bool} {mode : ReentrancyMode}
    {maxInFlight : ℚ} {events : List (PidEvent μ ρ)}
    (hmeets : Meets step RepliesTaken (create admits (some (.create mode maxInFlight))) events)
    (hrun : run step (create admits (some (.create mode maxInFlight))) events = some s)
    (hrunning : s.isRunning = true) :
    (∀ state ∈ s.requests.reentrancy, state.inFlight = s.requests.unsettled ∧
      state.paused = s.requests.unsettledStash) ∧
    (s.requests.unsettled = 0 → (∀ loop processed message,
        (s.process loop processed (.user message)).stash = s.stash) ∧
      ∀ mode, s.requests.openRequest mode ≠ .error .reentrancyInFlightLimit) := by
  have hkept : s.Regular ∧ s.Counted := run_preserves (P := fun s => s.Regular ∧ s.Counted)
      (fun _ _ _ h hcond hstep => ⟨h.1.step hstep, h.2.step h.1 hcond hstep⟩)
      ⟨regular_create _ _, fun _ => Requests.exact_create mode maxInFlight, fun _ => rfl⟩
      hmeets hrun
  simp only [isRunning, Bool.and_eq_true, Bool.not_eq_true'] at hrunning
  have hexact := hkept.2.exact (Or.inr ⟨hrunning.1.1, hrunning.1.2⟩)
  refine ⟨fun state hstate => ⟨hexact.inFlight state hstate, hexact.paused state hstate⟩,
    fun hzero => ⟨fun loop processed message => ?_, hexact.openRequest hzero⟩⟩
  have hstash : s.requests.unsettledStash ≤ s.requests.unsettled :=
    List.countP_mono_left fun _ _ h => (Bool.and_eq_true_iff.mp h).1
  simp [process, hexact.not_paused_of_stash (Nat.le_zero.mp (hzero ▸ hstash)), mark]

/-- A request is answered on the actor's turn, and nothing is left in flight. -/
theorem answered_request_counted : ∃ s : PidState ℕ ℕ,
    run step (create unbounded (some (.create .stashNonReentrant 1)))
      [.started true, .tell 1, .dispatch 0, .take 0 0, .request none true, .returned 0,
        .outcome 0 (.ok 7), .take 0 0] = some s ∧
    s.isRunning = true ∧ s.requests.unsettled = 0 ∧
    s.requests.openRequest none ≠ .error .reentrancyInFlightLimit := by
  refine ends_imp (P := fun s => s.isRunning = true ∧ s.requests.unsettled = 0)
    (by decide +kernel) ?_
  rintro s hrun ⟨hrunning, hzero⟩
  have hexact := requests_exact (by decide +kernel) hrun hrunning
  exact ⟨hrunning, hzero, (hexact.2 hzero).2 none⟩

/-- A reply that arrives while the actor is suspended is refused and its request abandoned. Once the
    actor is reinstated it has no unsettled request, and still it stashes every user message and
    refuses every request. -/
theorem refused_reply_counted : ∃ s stashed : PidState ℕ ℕ,
    run step (create unbounded (some (.create .stashNonReentrant 1)))
      [.started true, .tell 1, .dispatch 0, .take 0 0, .request none true, .threw 0 false,
        .outcome 0 (.ok 7), .reinstate] = some s ∧
    s.isRunning = true ∧ s.requests.unsettled = 0 ∧
    s.requests.reentrancy.map (fun state => (state.inFlight, state.paused)) = some (1, 1) ∧
    s.requests.openRequest none = .error .reentrancyInFlightLimit ∧
    run step s [.tell 2, .dispatch 0, .take 0 0] = some stashed ∧ stashed.stash = [2] := by
  obtain ⟨s, hrun, hrunning, hzero, hcounters, hlimit, stashed, hstashed⟩ : ∃ s ∈ run step
      (create unbounded (some (.create .stashNonReentrant 1)) : PidState ℕ ℕ) [.started true, .tell 1,
        .dispatch 0, .take 0 0, .request none true, .threw 0 false, .outcome 0 (.ok 7), .reinstate],
      s.isRunning = true ∧ s.requests.unsettled = 0 ∧
      s.requests.reentrancy.map (fun state => (state.inFlight, state.paused)) = some (1, 1) ∧
      s.requests.openRequest none = .error .reentrancyInFlightLimit ∧
      ∃ stashed ∈ run step s [.tell 2, .dispatch 0, .take 0 0], stashed.stash = [2] := by
    decide +kernel
  exact ⟨s, stashed, hrun, hrunning, hzero, hcounters, hlimit, hstashed⟩

end PidState

end Nodeakt.Actor
