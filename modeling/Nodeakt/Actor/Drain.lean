import Nodeakt.Actor.Nested
import Nodeakt.Actor.StashOrder

/-! What a graceful stop leaves behind.

    A stopping actor works off its mailbox before postStop runs, but it refuses whatever would come
    back to the mailbox: replies and stashed messages. `stop_drains` asks for an actor that is neither
    paused nor suspended when the shutdown comes, unless no user message waits, for the stash not to
    be dropped before, and for no subscriber to shut the actor down in the middle of its revival. -/

namespace Nodeakt.Actor
open Schemes List Option Multiset

variable {μ ρ : Type}

/-! ### The pause counter -/

namespace Requests

variable {requests : Requests ρ} {index : ℕ} {handle : RequestHandle ρ}

/-- Every unsettled request in stash mode is counted. -/
def Covered (requests : Requests ρ) : Prop :=
  ∀ state ∈ requests.reentrancy, (requests.unsettledStash : ℤ) ≤ state.paused

theorem Covered.admitRequest (h : requests.Covered) (hnew : handle.settled = false) :
    (requests.admitRequest handle).Covered := by
  intro next hnext
  obtain ⟨state, hstate, rfl⟩ := map_eq_some_iff.mp hnext
  have hpaused := h state hstate
  cases hmode : handle.stashMode <;>
    simpa [Requests.admitRequest, unsettledStash, countP_append, hnew, hmode] using hpaused

theorem Covered.complete (h : requests.Covered) (hhandle : requests.handles[index]? = some handle)
    (hunsettled : handle.settled = false) (outcome : Except ActorError ρ) :
    (requests.complete index handle outcome).Covered := by
  intro next hnext
  obtain ⟨state, hstate, rfl⟩ := map_eq_some_iff.mp hnext
  have hpaused := h state hstate
  have hstash := countP_set_handle (fun handle => !handle.settled && handle.stashMode) hhandle
    (handle.settle outcome)
  simp only [hunsettled, RequestHandle.settle, Bool.not_false, Bool.not_true, Bool.true_and,
    Bool.false_and, Bool.false_eq_true, if_false] at hstash
  unfold unsettledStash at hpaused ⊢
  change ((requests.handles.set index (handle.settle outcome)).countP _ : ℤ) ≤
    if handle.stashMode then state.paused - 1 else state.paused
  simp only [RequestHandle.settle]
  split_ifs with hmode
  · rw [if_pos hmode] at hstash
    omega
  · rw [if_neg hmode] at hstash
    omega

/-- A change that opens no handle keeps the counter above. -/
theorem Covered.modify (h : requests.Covered) {f : RequestHandle ρ → RequestHandle ρ}
    (hf : ∀ handle, (handle.settled = true → (f handle).settled = true) ∧
      (f handle).stashMode = handle.stashMode) : (requests.modify index f).Covered := by
  intro state hstate
  refine le_trans ?_ (h state hstate)
  unfold unsettledStash Requests.modify
  dsimp only
  rw [modify_eq_set_getElem?]
  cases hfound : requests.handles[index]? with
  | none => exact le_rfl
  | some handle =>
    have hcount := countP_set_handle (fun handle => !handle.settled && handle.stashMode) hfound
      (f handle)
    obtain ⟨hsettled, hmode⟩ := hf handle
    change ((requests.handles.set index (f handle)).countP _ : ℤ) ≤ _
    cases hs : handle.settled with
    | true =>
      simp only [hs, hsettled hs, Bool.not_true, Bool.false_and, Bool.false_eq_true, if_false]
        at hcount
      omega
    | false =>
      cases hm : handle.stashMode <;> cases hs' : (f handle).settled <;>
        simp only [hs, hm, hs', hmode, Bool.not_true, Bool.not_false, Bool.false_and,
          Bool.true_and, Bool.false_eq_true, if_false, if_true] at hcount <;> omega

/-- Without a pause no unsettled request is in stash mode, so a reply does not count. -/
theorem Covered.paused_complete (h : requests.Covered) (hpaused : requests.paused = 0)
    (hhandle : requests.handles[index]? = some handle) (hunsettled : handle.settled = false)
    (outcome : Except ActorError ρ) : (requests.complete index handle outcome).paused = 0 := by
  cases hstate : requests.reentrancy with
  | none => simp [paused, Requests.complete, hstate]
  | some state =>
    have hcovered := h state hstate
    simp only [paused, hstate, map_some, getD_some] at hpaused
    have hmode : handle.stashMode = false := by
      by_contra hmode
      have hpos : 0 < requests.unsettledStash :=
        countP_pos_iff.mpr ⟨handle, mem_of_getElem? hhandle, by simp_all⟩
      omega
    simp [paused, Requests.complete, hstate, hmode, hpaused]

end Requests

/-! ### The messages of an actor -/

/-- Taking mail out of a mailbox takes its user messages out. -/
theorem users_eraseIdx : ∀ {mailbox : List (Message μ ρ)} {index : ℕ} {mail : Message μ ρ},
    mailbox[index]? = some mail →
    (users mailbox : Multiset μ) = users [mail] + (users (mailbox.eraseIdx index) : Multiset μ)
  | [], _, _, h => by simp at h
  | first :: rest, 0, mail, h => by
      obtain rfl : first = mail := by simpa using h
      rw [coe_add, ← users_append]
      rfl
  | first :: rest, index + 1, mail, h => by
      have hrest := users_eraseIdx (by simpa using h : rest[index]? = some mail)
      have hsplit : ∀ mails : List (Message μ ρ),
          (users (first :: mails) : Multiset μ) = users [first] + users mails := by
        intro mails
        rw [coe_add, ← users_append]
        rfl
      rw [eraseIdx_cons_succ, hsplit rest, hsplit (rest.eraseIdx index), hrest]
      abel

namespace PidState

variable {s next : PidState μ ρ} {loop processed : ℕ}

/-- The mailbox takes the messages one after another. -/
def Takes (s : PidState μ ρ) (messages : List μ) : Prop :=
  s.isRunning = true ∧ s.disposed = false ∧ Fits s.admits s.mailbox messages

/-- A first shutdown finds an empty stash, and an actor that is neither suspended nor paused unless
    no user message waits. -/
def Drainable (s : PidState μ ρ) : Prop := s.shutdownPhase = none → s.running = true →
    s.stash = [] ∧ (users s.mailbox = [] ∨ s.suspended = false ∧ s.requests.paused = 0)

/-- Mail that stops the actor finds it drainable, and a reply that ends the pause finds room for
    the stash. -/
def Handles (s : PidState μ ρ) : Message μ ρ → Prop
  | .user _ | .panicking => True
  | .poisonPill => s.Drainable
  | .requestReply index _ => ∀ handle ∈ s.requests.handles[index]?, handle.settled = false →
      handle.stashMode = true → s.requests.paused ≤ 1 → s.stash ≠ [] → s.Takes s.stash

/-- Whether an event drops the stash, because a restart comes to its preStart. -/
def dropsStash (s : PidState μ ρ) : PidEvent μ ρ → Bool
  | .restart children => !s.stopping && s.running && !s.restarting && !s.processing &&
      s.suspended && !children
  | .restartResumed children =>
    s.restartPhase == some (.woken true) && !s.stopping && !children
  | .restartChildrenStopped => s.restartPhase == some (.children true)
  | .restartPostStopEnded => true
  | _ => false

/-- The runs of an actor whose behavior neither fails nor stashes. -/
def Steady : PidEvent μ ρ → Prop
  | .threw .. | .rejected .. | .stash _ => False
  | _ => True

/-- Nothing takes a message out of the stash but into the mailbox, a shutdown finds the actor
    drainable, and a stopping actor with mail is not paused. -/
def Orderly (s : PidState μ ρ) (event : PidEvent μ ρ) : Prop :=
  (s.dropsStash event = true → s.stash = []) ∧
  match event with
  | .unstash => ∀ message ∈ s.stash.head?, s.Takes [message]
  | .unstashAll => s.stash ≠ [] → s.Takes s.stash
  | .take _ index => ∀ mail ∈ s.mailbox[index]?,
      { s with mailbox := s.mailbox.eraseIdx index }.Handles mail
  | .shutdown _ => s.Drainable
  | .request mode _ => s.stopping = true → users s.mailbox ≠ [] →
      ∀ state ∈ s.requests.reentrancy, mode.getD state.mode ≠ .stashNonReentrant
  | _ => True

instance (s : PidState μ ρ) (messages : List μ) : Decidable (s.Takes messages) :=
  inferInstanceAs (Decidable (_ ∧ _ ∧ _))

instance (s : PidState μ ρ) : Decidable s.Drainable := inferInstanceAs (Decidable (_ → _ → _))

instance (s : PidState μ ρ) (mail) : Decidable (s.Handles mail) := by
  cases mail <;> dsimp only [Handles] <;> infer_instance

instance (event : PidEvent μ ρ) : Decidable (Steady event) := by
  rcases event <;> dsimp only [Steady] <;> infer_instance

instance (s : PidState μ ρ) (event) : Decidable (s.Orderly event) := by
  rcases event <;> dsimp only [Orderly] <;> infer_instance

/-- Every accepted message is handled, stashed or in the mailbox; a stopping actor will get to all
    of them, and has done so when it goes on to stop its children. -/
structure Draining (s : PidState μ ρ) : Prop where
  bag : (s.accepted : Multiset μ) = ↑s.handled + ↑s.stash + ↑(users s.mailbox)
  covered : s.requests.Covered
  stops : s.stopping = true → s.shutdownPhase ≠ none
  stopping : s.stopping = true →
    s.stash = [] ∧ (users s.mailbox = [] ∨ s.suspended = false ∧ s.requests.paused = 0)
  drained : ∀ phase ∈ s.shutdownPhase, phase ≠ .idle → s.stash = [] ∧ users s.mailbox = []

theorem draining_spawned (admits : List (Message μ ρ) → Message μ ρ → Bool)
    (config : Option (ReentrancyMode × ℚ)) : (spawned admits config).Draining := by
  constructor
  · simp [spawned, create, users]
  · intro state hstate
    obtain ⟨config, -, rfl⟩ := map_eq_some_iff.mp hstate
    simp [Requests.unsettledStash, spawned, create, ReentrancyState.create]
  · simp [spawned, create]
  · simp [spawned, create]
  · simp [spawned, create]

/-- An actor that takes messages is not stopping. -/
theorem Draining.of_running (hrun : s.isRunning = true) (hregular : s.Regular)
    (hflags : next.stopping = s.stopping ∧ next.shutdownPhase = s.shutdownPhase)
    (hbag : (next.accepted : Multiset μ) = ↑next.handled + ↑next.stash + ↑(users next.mailbox))
    (hcovered : next.requests.Covered) : next.Draining := by
  simp only [isRunning, Bool.and_eq_true, Bool.not_eq_true'] at hrun
  have hnot : next.stopping ≠ true := by simp [hflags.1, hrun.1.2]
  have hnone : next.shutdownPhase = none := hflags.2.trans (hregular.no_shutdown hrun.1.1 hrun.1.2)
  refine ⟨hbag, hcovered, fun hstop => absurd hstop hnot, fun hstop => absurd hstop hnot, ?_⟩
  intro phase hphase
  cases hnone.symm.trans hphase

section

variable (h : s.Draining)
include h

/-- An empty stash may be dropped. -/
theorem Draining.drop_stash (hstash : s.stash = []) : { s with stash := [] }.Draining := by
  rw [← hstash]
  exact h

/-- A suspension may be lifted, and come to an actor that is not stopping. -/
theorem Draining.with_suspended (suspended : Bool)
    (hsuspended : suspended = true → s.suspended = true ∨ s.stopping = false) :
    { s with suspended }.Draining := by
  refine { h with stopping := fun hstop => ⟨(h.stopping hstop).1, ?_⟩ }
  refine (h.stopping hstop).2.imp_right fun hclear => ⟨?_, hclear.2⟩
  by_contra hnot
  rcases hsuspended (by simpa using hnot) with hsus | hnostop
  · cases hclear.1.symm.trans hsus
  · cases hstop.symm.trans hnostop

theorem Draining.receive_command (hregular : s.Regular) {mail : Message μ ρ}
    (hok : s.doReceive mail = .ok next) (husers : users [mail] = []) : next.Draining := by
  obtain ⟨hrun, -, -, rfl⟩ := doReceive_ok hok
  refine Draining.of_running hrun hregular ⟨rfl, rfl⟩ ?_ h.covered
  simp only [schedule, users_append, husers, append_nil]
  exact h.bag

/-- The requests may change, if they do not pause the actor. -/
theorem Draining.with_requests {requests : Requests ρ} (hcovered : requests.Covered)
    (hpaused : s.stopping = true → users s.mailbox ≠ [] → s.requests.paused = 0 →
      requests.paused = 0) : { s with requests }.Draining := by
  refine ⟨h.bag, hcovered, h.stops, fun hstop => ⟨(h.stopping hstop).1, ?_⟩, h.drained⟩
  by_cases hempty : users s.mailbox = []
  · exact Or.inl hempty
  · rcases (h.stopping hstop).2 with hnone | hclear
    · exact absurd hnone hempty
    · exact Or.inr ⟨hclear.1, hpaused hstop hempty hclear.2⟩

theorem Draining.request {mode : Option ReentrancyMode} (delivered : Bool)
    (hcond : s.stopping = true → users s.mailbox ≠ [] →
      ∀ state ∈ s.requests.reentrancy, mode.getD state.mode ≠ .stashNonReentrant) :
    (s.request mode delivered).Draining := by
  unfold PidState.request
  split
  · exact h
  rename_i handle hopen
  obtain ⟨state, hstate, rfl⟩ := openRequest_ok hopen
  split
  · refine h.with_requests (h.covered.admitRequest rfl) fun hstop husers hpaused => ?_
    have hmode := hcond hstop husers state hstate
    simp only [Requests.paused, hstate, map_some, getD_some] at hpaused
    simp [Requests.paused, Requests.admitRequest, RequestHandle.create, hstate, hmode, hpaused]
  · exact h

theorem Draining.deliverRequestReply (hregular : s.Regular) (index : ℕ)
    (outcome : Except ActorError ρ) : (s.deliverRequestReply index outcome).Draining := by
  unfold PidState.deliverRequestReply
  split
  · rename_i hok
    exact h.receive_command hregular hok rfl
  · exact h.with_requests (h.covered.modify fun _ => ⟨fun _ => rfl, rfl⟩) fun _ _ hpaused => hpaused

/-- Stashed messages may go back into a mailbox that takes them. -/
theorem Draining.unstashEach (hregular : s.Regular) (htakes : s.Takes s.stash) :
    (s.unstashEach s.stash).Draining := by
  obtain ⟨hmailbox, hstash, -⟩ := unstashEach_fits s.stash s htakes.1 htakes.2.1 htakes.2.2
  have hkeeps := keeps_unstashEach s.stash s
  obtain ⟨-, hstopping, -, -, -, -, hshutdown, -⟩ := (fed_unstashEach s.stash s).fields
  refine Draining.of_running htakes.1 hregular ⟨hstopping, hshutdown⟩ ?_ ?_
  · rw [hkeeps.accepted, hkeeps.handled, hstash, hmailbox, users_append, users_map, h.bag,
      ← coe_add, coe_nil]
    abel
  · rw [hkeeps.requests]
    exact h.covered

theorem Draining.unstash (hregular : s.Regular)
    (htakes : ∀ message ∈ s.stash.head?, s.Takes [message]) : s.unstash.Draining := by
  unfold PidState.unstash
  split
  · exact h
  rename_i message rest hstash
  obtain ⟨hrun, hdisposed, hadmits, -⟩ := htakes message (by rw [hstash]; rfl)
  have hreceive := doReceive_eq (s := { s with stash := rest }) hrun hdisposed hadmits
  rw [PidState.receive, hreceive]
  refine Draining.of_running hrun hregular ⟨rfl, rfl⟩ ?_ h.covered
  simp only [schedule, users_append, users]
  rw [h.bag, hstash, ← coe_add, ← cons_coe, ← singleton_add]
  rw [← coe_singleton]
  abel

theorem Draining.completeRequest (hregular : s.Regular) (index : ℕ)
    (outcome : Except ActorError ρ) (hcond : s.Handles (.requestReply index outcome)) :
    (s.completeRequest index outcome).Draining := by
  unfold PidState.completeRequest
  split
  · exact h
  rename_i handle hhandle
  split
  · exact h
  rename_i hsettled
  have hunsettled : handle.settled = false := by simpa using hsettled
  have hcompleted : { s with requests := s.requests.complete index handle outcome }.Draining :=
    h.with_requests (h.covered.complete hhandle hunsettled outcome)
      fun _ _ hpaused => h.covered.paused_complete hpaused hhandle hunsettled outcome
  dsimp only
  split_ifs with hends
  · have hle : s.requests.paused ≤ 1 := by
      rcases paused_complete hends.1 hends.2 with hzero | hone <;> omega
    have hresumed : { s with requests := s.requests.complete index handle outcome
        }.unstashAll.Draining := by
      by_cases hempty : s.stash = []
      · rw [unstashAll, hempty]
        exact hcompleted.drop_stash hempty
      · have htakes := hcond handle hhandle hunsettled hends.1 hle hempty
        exact hcompleted.unstashEach (hregular.fed (fed_with s s.stash _)) htakes
    exact hresumed.with_requests (hresumed.covered.modify fun _ => ⟨id, rfl⟩)
      fun _ _ hpaused => hpaused
  · exact hcompleted.with_requests (hcompleted.covered.modify fun _ => ⟨id, rfl⟩)
      fun _ _ hpaused => hpaused

theorem Draining.continueLoop (loop processed : ℕ) : (s.continueLoop loop processed).Draining := by
  unfold PidState.continueLoop
  split <;> exact { h with }

/-- A loop ends when it has drained the mailbox, or in a suspended actor, where a shutdown has
    nothing to drain. -/
theorem Draining.leaveLoop (hregular : s.Regular) (loop : ℕ)
    (hidle : s.mailbox = [] ∨ s.suspended = true) : (s.leaveLoop loop).Draining := by
  refine ⟨h.bag, h.covered, fun hstop hnone => ?_, h.stopping, fun phase hphase hne => ?_⟩
  · exact h.stops hstop (map_eq_none_iff.mp hnone)
  · obtain ⟨old, hold, rfl⟩ := map_eq_some_iff.mp hphase
    by_cases hwaits : old = .idle
    · have hphase' : s.shutdownPhase = some .idle := hwaits ▸ hold
      obtain ⟨hstash, hclear⟩ :=
        h.stopping (hregular.stopping (by simp [hphase']) (by simp [hphase']))
      refine ⟨hstash, ?_⟩
      rcases hidle with hempty | hsuspended
      · change users s.mailbox = []
        rw [hempty]
        rfl
      · rcases hclear with hnone | hrest
        · exact hnone
        · cases hrest.1.symm.trans hsuspended
    · exact h.drained old hold hwaits

theorem Draining.postReceive (hregular : s.Regular) (loop processed : ℕ) :
    (s.postReceive loop processed).Draining := by
  unfold PidState.postReceive
  split_ifs with hsuspended
  · exact h.leaveLoop hregular loop (Or.inr hsuspended)
  · exact h.continueLoop loop processed

/-- A stopping actor without user messages may go from phase to phase. -/
theorem Draining.phase (hempty : s.stash = [] ∧ users s.mailbox = [])
    (phase : ShutdownPhase) (trace : List Mark) :
    { s with shutdownPhase := some phase, trace }.Draining :=
  ⟨h.bag, h.covered, fun _ => nofun, h.stopping, fun _ _ _ => hempty⟩

theorem Draining.stopChildren (hempty : s.stash = [] ∧ users s.mailbox = [])
    (children : Bool) : (s.stopChildren children).Draining := by
  cases children with
  | true => exact h.phase hempty .children s.trace
  | false => exact h.phase hempty .postStop (.postStop :: s.trace)

theorem Draining.shutdown (hregular : s.Regular) (hcond : s.Drainable)
    (children : Bool) : (s.shutdown children).Draining := by
  unfold PidState.shutdown PidState.doShutdown
  split
  · exact h
  rename_i hphase
  have hnone : s.shutdownPhase = none := by simpa using hphase
  split
  · exact { h with }
  rename_i hnot
  have hrunning : s.running = true := by simpa using hnot
  obtain ⟨hstash, hclear⟩ := hcond hnone hrunning
  split_ifs with hp
  · refine ⟨h.bag, h.covered, fun _ => some_ne_none _, fun _ => ⟨hstash, hclear⟩, ?_⟩
    rintro phase ⟨⟩ hne
    exact absurd rfl hne
  · -- an idle actor that is not suspended has no mail
    have hempty : users s.mailbox = [] := by
      rcases hclear with hempty | ⟨hsuspended, -⟩
      · exact hempty
      · have hmail : s.mailbox = [] := by
          by_contra hmail
          have hstopping : s.stopping = false := by
            by_contra hstop
            exact h.stops (by simpa using hstop) hnone
          exact hp (hregular.awake (by simp [isRunning, hrunning, hstopping, hsuspended]) hmail)
        rw [hmail]
        rfl
    cases children <;>
      exact ⟨h.bag, h.covered, fun _ => some_ne_none _, fun _ => ⟨hstash, hclear⟩,
        fun _ _ _ => ⟨hstash, hempty⟩⟩

theorem Draining.reset (hempty : s.stash = [] ∧ users s.mailbox = []) : s.reset.Draining := by
  refine ⟨?_, h.covered, nofun, nofun, fun _ _ _ => ⟨rfl, rfl⟩⟩
  have hbag := h.bag
  rw [hempty.1, hempty.2] at hbag
  exact hbag

theorem Draining.process (hregular : s.Regular) (loop processed : ℕ)
    {index : ℕ} {mail : Message μ ρ} (hmail : s.mailbox[index]? = some mail)
    (hcond : { s with mailbox := s.mailbox.eraseIdx index }.Handles mail) :
    ({ s with mailbox := s.mailbox.eraseIdx index }.process loop processed mail).Draining := by
  have hsplit := users_eraseIdx hmail
  have htaken := hregular.fed (fed_eraseIdx s index)
  -- a command leaves the user messages as they are
  have hcommand : users [mail] = [] → { s with mailbox := s.mailbox.eraseIdx index }.Draining := by
    intro hnone
    have hle : users (s.mailbox.eraseIdx index) = [] ↔ users s.mailbox = [] := by
      rw [← coe_eq_zero, ← coe_eq_zero (users s.mailbox), hsplit, hnone]
      simp
    refine ⟨?_, h.covered, h.stops, fun hstop => ?_, fun phase hphase hne => ?_⟩
    · rw [h.bag, hsplit, hnone]
      simp
    · exact ⟨(h.stopping hstop).1, (h.stopping hstop).2.imp_left hle.mpr⟩
    · exact ⟨(h.drained phase hphase hne).1, hle.mpr (h.drained phase hphase hne).2⟩
  cases mail with
  | requestReply handle outcome =>
    exact (hcommand rfl).completeRequest htaken handle outcome hcond
  | poisonPill => exact (hcommand rfl).shutdown htaken hcond false
  | panicking => exact hcommand rfl
  | user message =>
    have hmem : users s.mailbox ≠ [] := by
      intro hnone
      rw [hnone] at hsplit
      have hcard := congrArg card hsplit
      simp [users] at hcard
    have hphases : ∀ phase ∈ s.shutdownPhase, phase = .idle := by
      intro phase hphase
      by_contra hne
      exact hmem (h.drained phase hphase hne).2
    dsimp only [PidState.process]
    split_ifs with hpaused
    · refine Draining.continueLoop ?_ loop processed
      refine ⟨?_, h.covered, h.stops, fun hstop => ?_, fun phase hphase hne => ?_⟩
      · rw [h.bag, hsplit, ← coe_add]
        simp only [users]
        abel
      · rcases (h.stopping hstop).2 with hnone | hclear
        · exact absurd hnone hmem
        · exact absurd hclear.2 hpaused
      · exact absurd (hphases phase hphase) hne
    · refine ⟨?_, h.covered, h.stops, fun hstop => ⟨(h.stopping hstop).1, ?_⟩,
        fun phase hphase hne => absurd (hphases phase hphase) hne⟩
      · change (s.accepted : Multiset μ) = ↑(s.handled ++ [message]) + _ + _
        rw [h.bag, hsplit, ← coe_add]
        simp only [users, mark]
        abel
      · rcases (h.stopping hstop).2 with hnone | hclear
        · exact absurd hnone hmem
        · exact Or.inr hclear

/-- What a restart does next, if the stash it drops is empty. -/
theorem Draining.restartPostStop (wasSuspended : Bool)
    (hstash : wasSuspended = true → s.stash = []) : (s.restartPostStop wasSuspended).Draining := by
  cases wasSuspended with
  | true => exact { h.drop_stash (hstash rfl) with }
  | false => exact { h with }

theorem Draining.resumeRestart (wasSuspended children : Bool)
    (hstash : s.stopping = false → wasSuspended = true → children = false → s.stash = []) :
    (s.resumeRestart wasSuspended children).Draining := by
  unfold PidState.resumeRestart
  split
  · exact { h with }
  rename_i hstop
  split_ifs with hchildren
  · exact { h with }
  · exact h.restartPostStop wasSuspended fun hwas =>
      hstash (by simpa using hstop) hwas (by simpa using hchildren)

theorem Draining.restart (children : Bool)
    (hcond : s.dropsStash (.restart children) = true → s.stash = []) :
    (s.restart children).Draining := by
  unfold PidState.restart
  split
  · exact { h with }
  rename_i hguard
  simp only [not_or, Bool.not_eq_true, Bool.not_eq_false] at hguard
  obtain ⟨hstopping, hrunning, hrestarting⟩ := hguard
  dsimp only
  split_ifs with hp
  · exact { h.with_suspended true fun _ => Or.inr hstopping with }
  · have hbegun : { s with restarting := true, suspended := true }.Draining :=
      { h.with_suspended true fun _ => Or.inr hstopping with }
    refine hbegun.resumeRestart s.suspended children fun _ hwas hchildren => hcond ?_
    simp [dropsStash, hstopping, hrunning, hrestarting, hp, hwas, hchildren]

theorem Draining.completeRestart : s.completeRestart.Draining := by
  unfold PidState.completeRestart PidState.resume
  split <;> exact { h.with_suspended false nofun with }

theorem Draining.doReinstate : s.doReinstate.Draining := by
  unfold PidState.doReinstate PidState.resume
  split
  · dsimp only
    split <;> exact { h.with_suspended false nofun with }
  · exact h

theorem Draining.step (hregular : s.Regular) {event : PidEvent μ ρ}
    (hsteady : Steady event) (hcond : s.Orderly event) (hstep : s.step event = some next) :
    next.Draining := by
  obtain ⟨hdrops, hcond⟩ := hcond
  cases does_of_step hstep with
  | started | dispatch | park => exact { h with }
  | tell message =>
    unfold PidState.tell
    split
    · rename_i hok
      obtain ⟨hrun, -, -, rfl⟩ := doReceive_ok hok
      refine Draining.of_running hrun hregular ⟨rfl, rfl⟩ ?_ h.covered
      simp only [schedule, users_append, users]
      rw [← coe_add, ← coe_add, h.bag]
      abel
    · exact h
  | poisonPill | panicking =>
    unfold PidState.receive
    split
    · rename_i hok
      exact h.receive_command hregular hok rfl
    · exact h
  | take hloop hmail => exact h.process hregular _ _ hmail (hcond _ hmail)
  | drained hloop hempty => exact h.leaveLoop hregular _ (Or.inl hempty)
  | returned | fulfilled => exact h.postReceive hregular _ _
  | threw | rejected | stash => exact hsteady.elim
  | unstash => exact h.unstash hregular hcond
  | unstashAll =>
    by_cases hempty : s.stash = []
    · rw [unstashAll, hempty]
      exact h.drop_stash hempty
    · exact h.unstashEach hregular (hcond hempty)
  | request => exact h.request _ hcond
  | outcome => exact h.deliverRequestReply hregular _ _
  | cancel =>
    unfold PidState.cancel
    split
    · exact h
    · exact h.deliverRequestReply hregular _ _
  | onReply =>
    refine h.with_requests (h.covered.modify fun handle => ?_) fun _ _ hpaused => hpaused
    unfold RequestHandle.onReply
    split <;> exact ⟨id, rfl⟩
  | suspend hrun =>
    simp only [isRunning, Bool.and_eq_true, Bool.not_eq_true'] at hrun
    exact h.with_suspended true fun _ => Or.inr hrun.1.2
  | reinstate => exact h.doReinstate
  | restart children => exact h.restart children hdrops
  | @restartResumed wasSuspended children hphase =>
    refine h.resumeRestart wasSuspended children fun hstop hwas hchildren => hdrops ?_
    simp [dropsStash, hphase, hstop, hwas, hchildren]
  | @restartChildrenStopped wasSuspended hphase =>
    refine h.restartPostStop wasSuspended fun hwas => hdrops ?_
    simp [dropsStash, hphase, hwas]
  | restartPostStopEnded =>
    exact { h.drop_stash (hdrops rfl) with }
  | restartCompleted => exact h.completeRestart
  | restartFailed => exact { h with }
  | shutdown children => exact h.shutdown hregular hcond children
  | shutdownResumed hphase => exact h.stopChildren (h.drained _ hphase (by decide)) _
  | shutdownChildrenStopped hphase => exact h.stopChildren (h.drained _ hphase (by decide)) false
  | shutdownPostStopEnded hphase =>
    have hmarked : (s.mark .postStopEnded).Draining := { h with }
    have hreset := hmarked.reset (h.drained _ hphase (by decide))
    exact { hreset with }

end

/-- In a run that meets the conditions, every accepted message was handed to the behavior, as often
    as it was accepted, when the postStop of the shutdown begins, and nothing is accepted after. -/
theorem stop_drains {admits : List (Message μ ρ) → Message μ ρ → Bool}
    {config : Option (ReentrancyMode × ℚ)} {events : List (NestedEvent μ ρ)}
    (hmeets : Meets nestedStep (Within fun s event => Steady event ∧ s.Orderly event)
      (spawned admits config) events)
    (hrun : run nestedStep (spawned admits config) events = some s)
    (hphase : s.shutdownPhase = some .postStop ∨ s.shutdownPhase = some .done) :
    s.accepted.Perm s.handled := by
  have hkept : s.Regular ∧ s.Draining := run_preserves (P := fun s => s.Regular ∧ s.Draining)
      (fun _ _ _ h hcond hstep => nested_preserves (P := fun s => s.Regular ∧ s.Draining)
        (fun _ _ _ h hcond hstep => ⟨h.1.step hstep, h.2.step h.1 hcond.1 hcond.2 hstep⟩)
        h hcond hstep)
      ⟨regular_create _ _, draining_spawned admits config⟩ hmeets hrun
  obtain ⟨hstash, hmailbox⟩ : s.stash = [] ∧ users s.mailbox = [] := by
    rcases hphase with hphase | hphase
    · exact hkept.2.drained _ hphase nofun
    · exact hkept.2.drained _ hphase nofun
  have hbag := hkept.2.bag
  rw [hstash, hmailbox] at hbag
  exact Multiset.coe_eq_coe.mp (by simpa using hbag)

/-- A request is answered, then the actor is shut down with a message in its mailbox. -/
theorem stopped_actor_drained :
    ∃ s ∈ run nestedStep (spawned unbounded (some (.stashNonReentrant, 0)) : PidState ℕ ℕ)
      ([.started true, .tell 1, .dispatch 0, .take 0 0, .request none true, .park 0,
        .outcome 0 (.ok 7), .fulfilled 0, .take 0 0, .take 0 0, .tell 2, .shutdown false, .dispatch 0,
        .take 0 0, .returned 0, .take 0 0, .shutdownResumed false].map .plain),
      s.accepted = [1, 2] ∧ s.accepted.Perm s.handled := by
  refine ends_imp (P := fun s => s.accepted = [1, 2] ∧ s.shutdownPhase = some .postStop)
    (by decide +kernel) ?_
  rintro s hrun ⟨haccepted, hphase⟩
  exact ⟨haccepted, stop_drains (by decide +kernel) hrun (Or.inl hphase)⟩

/-- A shutdown comes while a behavior is pending, its request is in flight and a message waits: the
    loop stashes the message, the reply is refused, and postStop runs without it. -/
theorem paused_message_lost :
    ∃ s ∈ run nestedStep (spawned unbounded (some (.stashNonReentrant, 0)) : PidState ℕ ℕ)
      ([.started true, .tell 1, .dispatch 0, .take 0 0, .request none true, .park 0, .tell 2,
        .shutdown false, .fulfilled 0, .take 0 0, .take 0 0, .outcome 0 (.ok 7),
        .shutdownResumed false].map .plain),
      s.accepted = [1, 2] ∧ s.handled = [1] ∧ s.shutdownPhase = some .postStop := by
  decide +kernel

end PidState

end Nodeakt.Actor
