import Nodeakt.Schemes.Run

/-! One actor at run time (`pid.ts`, with `reentrancy.ts`, `stash.ts` and the mailboxes).

    A step is what runs between two points where other code can run: a call from outside, the parts
    of the receive loop around a behavior call, and the parts of `start`, `restart` and `shutdown`
    between their awaits. Behaviors, hooks, callers and the targets of requests are the environment;
    they may do anything the interface lets them do at any time. A mailbox is a list and a rule for
    what it admits; a mailbox that is not first in first out takes another index than 0. Code that
    runs in the middle of a step is left to `Nodeakt.Actor.Nested`.

    Receive loops are kept in a list, because it is the `processing` flag alone that keeps a second
    one from starting. `wakes` records the pushes into the ready queue, with the argument of `arm`;
    `accepted`, `handled` and `trace` (newest first) are history. -/

namespace Nodeakt.Actor
open Schemes

/-- Maximum number of messages an actor processes per event-loop turn. -/
def THROUGHPUT : ℕ := 2048

inductive ActorError where
  | dead
  | mailboxFull
  | mailboxDisposed
  | reentrancyDisabled
  | invalidReentrancyMode
  | reentrancyInFlightLimit
  | requestTimeout
  | requestCanceled
  | failure
  deriving DecidableEq

/-- A reentrancy mode; `unknown` is any other value of an untyped caller. -/
inductive ReentrancyMode where
  | off
  | allowAll
  | stashNonReentrant
  | unknown
  deriving DecidableEq

/-- Reports whether the given value is a known reentrancy mode. -/
def isValidReentrancyMode (mode : ReentrancyMode) : Bool :=
  mode == .off || mode == .allowAll || mode == .stashNonReentrant

/-- The request bookkeeping of one reentrant actor. -/
structure ReentrancyState where
  mode : ReentrancyMode
  maxInFlight : ℚ
  inFlight : ℤ
  paused : ℤ

def ReentrancyState.create (mode : ReentrancyMode) (maxInFlight : ℚ) : ReentrancyState :=
  ⟨mode, if 0 < maxInFlight then maxInFlight else 0, 0, 0⟩

/-- The handle of one request; `callback` says whether a continuation is registered. -/
structure RequestHandle (ρ : Type) where
  stashMode : Bool
  callback : Bool
  settled : Bool
  delivered : Bool
  outcome : Option (Except ActorError ρ)
  deriving DecidableEq

namespace RequestHandle

variable {ρ : Type}

def create (stashMode : Bool) : RequestHandle ρ := ⟨stashMode, false, false, false, none⟩

/-- Records the outcome, of a handle that has none yet. -/
def settle (handle : RequestHandle ρ) (outcome : Except ActorError ρ) : RequestHandle ρ :=
  { handle with settled := true, outcome := some outcome }

/-- Runs the continuation, if it is registered. -/
def run (handle : RequestHandle ρ) : RequestHandle ρ :=
  { handle with callback := false, delivered := handle.delivered || handle.callback }

/-- Settles the request without a continuation. -/
def abandon (handle : RequestHandle ρ) : RequestHandle ρ :=
  { handle with settled := true, delivered := true, callback := false }

/-- Registers the continuation, or runs it at once when the outcome is known. -/
def onReply (handle : RequestHandle ρ) : RequestHandle ρ :=
  if handle.settled then { handle with delivered := true } else { handle with callback := true }

end RequestHandle

/-- The requests of an actor; `reentrancy` is none unless it was spawned with reentrancy. The
    handles are those that were admitted. -/
structure Requests (ρ : Type) where
  reentrancy : Option ReentrancyState
  handles : List (RequestHandle ρ)

namespace Requests

variable {ρ : Type}

/-- Runs request admission and mints the handle of one request. -/
def openRequest (requests : Requests ρ) (mode : Option ReentrancyMode) :
    Except ActorError (RequestHandle ρ) :=
  match requests.reentrancy with
  | none => .error .reentrancyDisabled
  | some state =>
    let mode := mode.getD state.mode
    if mode = .off then .error .reentrancyDisabled
    else if isValidReentrancyMode mode = false then .error .invalidReentrancyMode
    else if state.maxInFlight ≠ 0 ∧ state.maxInFlight ≤ state.inFlight then
      .error .reentrancyInFlightLimit
    else .ok (RequestHandle.create (mode = .stashNonReentrant))

/-- Commits an admitted request into the bookkeeping. -/
def admitRequest (requests : Requests ρ) (handle : RequestHandle ρ) : Requests ρ where
  reentrancy := requests.reentrancy.map fun state =>
    { state with
      inFlight := state.inFlight + 1
      paused := if handle.stashMode then state.paused + 1 else state.paused }
  handles := requests.handles ++ [handle]

/-- Settles a request on the actor's turn and takes it out of the bookkeeping. -/
def complete (requests : Requests ρ) (index : ℕ) (handle : RequestHandle ρ)
    (outcome : Except ActorError ρ) : Requests ρ where
  reentrancy := requests.reentrancy.map fun state =>
    { state with
      inFlight := state.inFlight - 1
      paused := if handle.stashMode then state.paused - 1 else state.paused }
  handles := requests.handles.set index (handle.settle outcome)

/-- Changes one handle. -/
def modify (requests : Requests ρ) (index : ℕ) (f : RequestHandle ρ → RequestHandle ρ) :
    Requests ρ :=
  { requests with handles := requests.handles.modify index f }

/-- In-flight requests that make the actor stash user messages. -/
def paused (requests : Requests ρ) : ℤ := (requests.reentrancy.map (·.paused)).getD 0

end Requests

/-- What a mailbox holds: a user message or a command of the runtime. -/
inductive Message (μ ρ : Type) where
  | user (message : μ)
  | requestReply (handle : ℕ) (outcome : Except ActorError ρ)
  | poisonPill
  | panicking

/-- A receive loop: in the ready queue, on the stack between two messages, in a behavior call on the
    stack, or parked on the promise a behavior returned; with the messages processed in this turn. -/
inductive Loop (μ : Type) where
  | ready
  | turn (processed : ℕ)
  | behavior (processed : ℕ) (message : μ)
  | parked (processed : ℕ) (message : μ)

/-- Where a restart waits: for the loop, in the queue of woken continuations, for the children, for
    a hook. -/
inductive RestartPhase where
  | idle (wasSuspended : Bool)
  | woken (wasSuspended : Bool)
  | children (wasSuspended : Bool)
  | postStop
  | preStart
  deriving DecidableEq

/-- Where a shutdown waits, or that it is done. -/
inductive ShutdownPhase where
  | idle
  | woken
  | children
  | postStop
  | done
  deriving DecidableEq

inductive RestartOutcome where
  | completed
  | dead
  | failed
  deriving DecidableEq

/-- What happens to an actor: its hooks and behavior calls, and the promises of its lifecycle. -/
inductive Mark where
  | preStart
  | preStartEnded (completed : Bool)
  | postStop
  | postStopEnded
  | behavior
  | shutdownResolved
  | restartSettled (outcome : RestartOutcome)
  deriving DecidableEq

structure PidState (μ ρ : Type) where
  admits : List (Message μ ρ) → Message μ ρ → Bool
  mailbox : List (Message μ ρ)
  disposed : Bool
  stash : List μ
  requests : Requests ρ
  running : Bool
  processing : Bool
  stopping : Bool
  suspended : Bool
  restarting : Bool
  loops : List (Loop μ)
  starting : Bool
  restartPhase : Option RestartPhase
  shutdownPhase : Option ShutdownPhase
  wakes : List Bool
  accepted : List μ
  handled : List μ
  trace : List Mark

/-- What can happen to an actor. `children` says whether it has children to stop, `resume` whether
    the supervisor resumes the actor after a fault. -/
inductive PidEvent (μ ρ : Type) where
  | started (completed : Bool)
  | tell (message : μ)
  | poisonPill
  | panicking
  | dispatch (loop : ℕ)
  | take (loop index : ℕ)
  | returned (loop : ℕ)
  | threw (loop : ℕ) (resume : Bool)
  | park (loop : ℕ)
  | fulfilled (loop : ℕ)
  | rejected (loop : ℕ) (resume : Bool)
  | stash (loop : ℕ)
  | unstash
  | unstashAll
  | request (mode : Option ReentrancyMode) (delivered : Bool)
  | outcome (handle : ℕ) (outcome : Except ActorError ρ)
  | cancel (handle : ℕ)
  | onReply (handle : ℕ)
  | suspend
  | reinstate
  | restart (children : Bool)
  | restartResumed (children : Bool)
  | restartChildrenStopped
  | restartPostStopEnded
  | restartPreStartEnded (completed : Bool)
  | shutdown (children : Bool)
  | shutdownResumed (children : Bool)
  | shutdownChildrenStopped
  | shutdownPostStopEnded

variable {μ ρ : Type}

/-- An unbounded mailbox. -/
def unbounded (_ : List (Message μ ρ)) (_ : Message μ ρ) : Bool := true

/-- A mailbox that holds at most `capacity` messages. -/
def bounded (capacity : ℕ) (held : List (Message μ ρ)) (_ : Message μ ρ) : Bool :=
  held.length ≠ capacity

/-- The loop is in the ready queue or on the stack between two messages. -/
def Loop.between : Loop μ → Bool
  | .ready => true
  | .turn _ => true
  | .behavior .. => false
  | .parked .. => false

def RestartPhase.wake : RestartPhase → RestartPhase
  | .idle wasSuspended => .woken wasSuspended
  | phase => phase

def ShutdownPhase.wake : ShutdownPhase → ShutdownPhase
  | .idle => .woken
  | phase => phase

namespace PidState

/-- An actor whose start was just called. -/
def create (admits : List (Message μ ρ) → Message μ ρ → Bool)
    (reentrancy : Option ReentrancyState) : PidState μ ρ where
  admits := admits
  mailbox := []
  disposed := false
  stash := []
  requests := ⟨reentrancy, []⟩
  running := false
  processing := false
  stopping := false
  suspended := false
  restarting := false
  loops := []
  starting := true
  restartPhase := none
  shutdownPhase := none
  wakes := []
  accepted := []
  handled := []
  trace := [.preStart]

/-- An actor spawned with a reentrancy mode and limit, or without reentrancy. -/
def spawned (admits : List (Message μ ρ) → Message μ ρ → Bool)
    (config : Option (ReentrancyMode × ℚ)) : PidState μ ρ :=
  create admits (config.map fun config => .create config.1 config.2)

variable (s : PidState μ ρ)

/-- Reports whether the actor has been started and can receive messages. -/
def isRunning : Bool := s.running && !s.stopping && !s.suspended

/-- Adds to the history. -/
def mark (mark : Mark) : PidState μ ρ := { s with trace := mark :: s.trace }

/-- Arms the receive loop unless it is already running. -/
def schedule : PidState μ ρ := { s with
    processing := true
    loops := if s.processing then s.loops else s.loops ++ [.ready]
    wakes := if s.processing then s.wakes else s.wakes ++ [false] }

/-- Enqueues a message and schedules the receive loop. -/
def doReceive (message : Message μ ρ) : Except ActorError (PidState μ ρ) :=
  if s.isRunning = false then .error .dead
  else if s.disposed then .error .mailboxDisposed
  else if s.admits s.mailbox message = false then .error .mailboxFull
  else .ok { s with mailbox := s.mailbox ++ [message] }.schedule

/-- Enqueues a message of the runtime; a refused one is dropped. -/
def receive (message : Message μ ρ) : PidState μ ρ := match s.doReceive message with
  | .ok next => next
  | .error _ => s

/-- Sends a user message. -/
def tell (message : μ) : PidState μ ρ := match s.doReceive (.user message) with
  | .ok next => { next with accepted := s.accepted ++ [message] }
  | .error _ => s

/-- Re-delivers the oldest stashed message; a refused one is dropped. -/
def unstash : PidState μ ρ := match s.stash with
  | [] => s
  | message :: rest => { s with stash := rest }.receive (.user message)

/-- Re-delivers the given stashed messages in order, up to the first that is refused. -/
def unstashEach (s : PidState μ ρ) : List μ → PidState μ ρ
  | [] => { s with stash := [] }
  | message :: rest =>
    match { s with stash := rest }.doReceive (.user message) with
    | .ok next => unstashEach next rest
    | .error _ => { s with stash := rest }

/-- Re-delivers all stashed messages, oldest first. -/
def unstashAll : PidState μ ρ := s.unstashEach s.stash

/-- Sends a request; one whose delivery fails is not admitted. -/
def request (mode : Option ReentrancyMode) (delivered : Bool) : PidState μ ρ :=
  match s.requests.openRequest mode with
  | .error _ => s
  | .ok handle => if delivered then { s with requests := s.requests.admitRequest handle } else s

/-- Routes a request outcome through the mailbox, and abandons the request when it is refused. -/
def deliverRequestReply (handle : ℕ) (outcome : Except ActorError ρ) : PidState μ ρ :=
  match s.doReceive (.requestReply handle outcome) with
  | .ok next => next
  | .error _ => { s with requests := s.requests.modify handle RequestHandle.abandon }

/-- Cancels a request that is not settled. -/
def cancel (index : ℕ) (handle : RequestHandle ρ) : PidState μ ρ :=
  if handle.settled then s else s.deliverRequestReply index (.error .requestCanceled)

/-- Settles one request on the actor's turn, resumes stashed messages when the last stash-mode
    request completes, and runs the continuation. -/
def completeRequest (index : ℕ) (outcome : Except ActorError ρ) : PidState μ ρ :=
  match s.requests.handles[index]? with
  | none => s
  | some handle =>
    if handle.settled then s
    else
      let completed : PidState μ ρ :=
        { s with requests := s.requests.complete index handle outcome }
      let resumed := if handle.stashMode ∧ completed.requests.paused = 0 then completed.unstashAll
        else completed
      { resumed with requests := resumed.requests.modify index RequestHandle.run }

/-- Wakes the parked shutdown or restart once the receive loop exits. -/
def notifyIdle : PidState μ ρ := { s with
    restartPhase := s.restartPhase.map RestartPhase.wake
    shutdownPhase := s.shutdownPhase.map ShutdownPhase.wake }

/-- Ends a receive loop. -/
def leaveLoop (loop : ℕ) : PidState μ ρ :=
  { s with processing := false, loops := s.loops.eraseIdx loop }.notifyIdle

/-- Counts a message, and yields when the quota is reached. -/
def continueLoop (loop processed : ℕ) : PidState μ ρ :=
  if processed + 1 < THROUGHPUT then { s with loops := s.loops.set loop (.turn (processed + 1)) }
  else { s with loops := s.loops.set loop .ready, wakes := s.wakes ++ [true] }

/-- What follows a behavior that settled: a suspended actor's loop halts. -/
def postReceive (loop processed : ℕ) : PidState μ ρ :=
  if s.suspended then s.leaveLoop loop else s.continueLoop loop processed

/-- Suspends the actor after a fault, unless its supervisor resumes it. -/
def handleFault (resume : Bool) : PidState μ ρ := { s with suspended := s.suspended || !resume }

/-- Starts the postStop hook of the shutdown. -/
def shutdownPostStop : PidState μ ρ := { s with shutdownPhase := some .postStop }.mark .postStop

/-- The shutdown once the receive loop is idle. -/
def stopChildren (children : Bool) : PidState μ ρ :=
  if children then { s with shutdownPhase := some .children } else s.shutdownPostStop

/-- The part of a shutdown before its first await. -/
def doShutdown (children : Bool) : PidState μ ρ :=
  if s.processing then { s with stopping := true, shutdownPhase := some .idle }
  else { s with stopping := true }.stopChildren children

/-- Stops the actor gracefully. Repeated calls return the same promise, and that of an actor that is
    not running is resolved at once. The promise is recorded when `doShutdown` returns it; a call from
    the code that `doShutdown` runs before is an event of its own. -/
def shutdown (children : Bool) : PidState μ ρ := if s.shutdownPhase ≠ none then s
  else if s.running = false then s.mark .shutdownResolved
  else s.doShutdown children

/-- Tears a stopped actor down. -/
def reset : PidState μ ρ := { s with
    mailbox := []
    disposed := true
    stash := []
    running := false
    stopping := false
    suspended := false
    shutdownPhase := some .done }

/-- Starts the preStart hook of a restart, after the stash is disposed. -/
def restartPreStart : PidState μ ρ :=
  { s with stash := [], restartPhase := some .preStart }.mark .preStart

/-- The restart once the children are stopped; a suspended actor skips postStop. -/
def restartPostStop (wasSuspended : Bool) : PidState μ ρ := if wasSuspended then s.restartPreStart
  else { s with restartPhase := some .postStop }.mark .postStop

/-- The end of a restart. -/
def settleRestart (outcome : RestartOutcome) : PidState μ ρ :=
  { s with restarting := false, restartPhase := none }.mark (.restartSettled outcome)

/-- The restart once the receive loop is idle; it backs off when a shutdown has started. -/
def resumeRestart (wasSuspended children : Bool) : PidState μ ρ :=
  if s.stopping then s.settleRestart .dead
  else if children then { s with restartPhase := some (.children wasSuspended) }
  else s.restartPostStop wasSuspended

/-- Restarts the actor. -/
def restart (children : Bool) : PidState μ ρ :=
  if s.stopping ∨ s.running = false ∨ s.restarting then s.mark (.restartSettled .dead)
  else
    let restarting := { s with restarting := true, suspended := true }
    if s.processing then { restarting with restartPhase := some (.idle s.suspended) }
    else restarting.resumeRestart s.suspended children

/-- Arms the receive loop of an actor that has mail. -/
def resume : PidState μ ρ := if s.mailbox.isEmpty then s else s.schedule

/-- Lifts the suspension of a restart whose preStart has completed. It is published before the loop is
    armed; a call from a subscriber is an event of its own. -/
def completeRestart : PidState μ ρ :=
  ({ s with suspended := false }.mark (.preStartEnded true)).resume.settleRestart .completed

/-- Lifts a suspension, published in the same way. -/
def doReinstate : PidState μ ρ := if s.suspended then { s with suspended := false }.resume else s

/-- Handles the message a loop took from the mailbox. -/
def process (loop processed : ℕ) : Message μ ρ → PidState μ ρ
  | .requestReply handle outcome => s.completeRequest handle outcome
  | .poisonPill => s.shutdown false
  | .panicking => s
  | .user message =>
    if s.requests.paused ≠ 0 then
      { s with stash := s.stash ++ [message] }.continueLoop loop processed
    else
      { s with
        loops := s.loops.set loop (.behavior processed message)
        handled := s.handled ++ [message] }.mark .behavior

/-- A woken restart is queued to continue. Continuations run in order, so those of a shutdown that
    started later come after it. -/
def restartQueued : Bool := match s.restartPhase with
  | some (.woken _) => true
  | _ => false

/-- One event. -/
def step (s : PidState μ ρ) : PidEvent μ ρ → Option (PidState μ ρ)
  | .started completed =>
    if s.starting then
      some ({ s with starting := false, running := completed }.mark (.preStartEnded completed))
    else none
  | .tell message => some (s.tell message)
  | .poisonPill => some (s.receive .poisonPill)
  | .panicking => some (s.receive .panicking)
  | .dispatch loop =>
    match s.loops[loop]? with
    | some .ready => some { s with loops := s.loops.set loop (.turn 0) }
    | _ => none
  | .take loop index =>
    match s.loops[loop]?, s.mailbox[index]? with
    | some (.turn processed), some message =>
      some ({ s with mailbox := s.mailbox.eraseIdx index }.process loop processed message)
    | some (.turn _), none => if s.mailbox.isEmpty then some (s.leaveLoop loop) else none
    | _, _ => none
  | .returned loop =>
    match s.loops[loop]? with
    | some (.behavior processed _) => some (s.postReceive loop processed)
    | _ => none
  | .threw loop resume =>
    match s.loops[loop]? with
    | some (.behavior processed _) => some ((s.handleFault resume).postReceive loop processed)
    | _ => none
  | .park loop =>
    match s.loops[loop]? with
    | some (.behavior processed message) =>
      some { s with loops := s.loops.set loop (.parked processed message) }
    | _ => none
  | .fulfilled loop =>
    match s.loops[loop]? with
    | some (.parked processed _) => some (s.postReceive loop processed)
    | _ => none
  | .rejected loop resume =>
    match s.loops[loop]? with
    | some (.parked processed _) => some ((s.handleFault resume).postReceive loop processed)
    | _ => none
  | .stash loop =>
    match s.loops[loop]? with
    | some (.behavior _ message) => some { s with stash := s.stash ++ [message] }
    | some (.parked _ message) => some { s with stash := s.stash ++ [message] }
    | _ => none
  | .unstash => some s.unstash
  | .unstashAll => some s.unstashAll
  | .request mode delivered => if s.running then some (s.request mode delivered) else none
  | .outcome index outcome =>
    s.requests.handles[index]?.map fun _ => s.deliverRequestReply index outcome
  | .cancel index => s.requests.handles[index]?.map fun handle => s.cancel index handle
  | .onReply index => s.requests.handles[index]?.map fun _ =>
      { s with requests := s.requests.modify index RequestHandle.onReply }
  | .suspend => if s.isRunning then some { s with suspended := true } else none
  | .reinstate => some s.doReinstate
  | .restart children => some (s.restart children)
  | .restartResumed children =>
    match s.restartPhase with
    | some (.woken wasSuspended) => some (s.resumeRestart wasSuspended children)
    | _ => none
  | .restartChildrenStopped =>
    match s.restartPhase with
    | some (.children wasSuspended) => some (s.restartPostStop wasSuspended)
    | _ => none
  | .restartPostStopEnded =>
    if s.restartPhase = some .postStop then some (s.mark .postStopEnded).restartPreStart else none
  | .restartPreStartEnded completed =>
    if s.restartPhase = some .preStart then
      some (if completed then s.completeRestart
        else (s.mark (.preStartEnded false)).settleRestart .failed)
    else none
  | .shutdown children => some (s.shutdown children)
  | .shutdownResumed children =>
    if s.shutdownPhase = some .woken ∧ s.restartQueued = false then some (s.stopChildren children)
    else none
  | .shutdownChildrenStopped =>
    if s.shutdownPhase = some .children ∧ s.restartQueued = false then some s.shutdownPostStop else none
  | .shutdownPostStopEnded =>
    if s.shutdownPhase = some .postStop ∧ s.restartQueued = false then
      some ((s.mark .postStopEnded).reset.mark .shutdownResolved)
    else none

/-- What an event does, with what it found. -/
inductive Does (s : PidState μ ρ) : PidEvent μ ρ → PidState μ ρ → Prop
  | started {completed : Bool} (hstarting : s.starting = true) : Does s (.started completed)
      ({ s with starting := false, running := completed }.mark (.preStartEnded completed))
  | tell (message : μ) : Does s (.tell message) (s.tell message)
  | poisonPill : Does s .poisonPill (s.receive .poisonPill)
  | panicking : Does s .panicking (s.receive .panicking)
  | dispatch {loop : ℕ} (hloop : s.loops[loop]? = some .ready) :
    Does s (.dispatch loop) { s with loops := s.loops.set loop (.turn 0) }
  | take {loop index processed : ℕ} {message : Message μ ρ}
    (hloop : s.loops[loop]? = some (.turn processed)) (hmessage : s.mailbox[index]? = some message) :
    Does s (.take loop index)
      ({ s with mailbox := s.mailbox.eraseIdx index }.process loop processed message)
  | drained {loop index processed : ℕ} (hloop : s.loops[loop]? = some (.turn processed))
    (hempty : s.mailbox = []) : Does s (.take loop index) (s.leaveLoop loop)
  | returned {loop processed : ℕ} {message : μ}
    (hloop : s.loops[loop]? = some (.behavior processed message)) :
    Does s (.returned loop) (s.postReceive loop processed)
  | threw {loop processed : ℕ} {message : μ} {resume : Bool}
    (hloop : s.loops[loop]? = some (.behavior processed message)) :
    Does s (.threw loop resume) ((s.handleFault resume).postReceive loop processed)
  | park {loop processed : ℕ} {message : μ}
    (hloop : s.loops[loop]? = some (.behavior processed message)) :
    Does s (.park loop) { s with loops := s.loops.set loop (.parked processed message) }
  | fulfilled {loop processed : ℕ} {message : μ}
    (hloop : s.loops[loop]? = some (.parked processed message)) :
    Does s (.fulfilled loop) (s.postReceive loop processed)
  | rejected {loop processed : ℕ} {message : μ} {resume : Bool}
    (hloop : s.loops[loop]? = some (.parked processed message)) :
    Does s (.rejected loop resume) ((s.handleFault resume).postReceive loop processed)
  | stash {loop : ℕ} (message : μ) : Does s (.stash loop) { s with stash := s.stash ++ [message] }
  | unstash : Does s .unstash s.unstash
  | unstashAll : Does s .unstashAll s.unstashAll
  | request {mode : Option ReentrancyMode} {delivered : Bool} (hrunning : s.running = true) :
    Does s (.request mode delivered) (s.request mode delivered)
  | outcome {index : ℕ} {outcome : Except ActorError ρ} {handle : RequestHandle ρ}
    (hhandle : s.requests.handles[index]? = some handle) :
    Does s (.outcome index outcome) (s.deliverRequestReply index outcome)
  | cancel {index : ℕ} {handle : RequestHandle ρ}
    (hhandle : s.requests.handles[index]? = some handle) :
    Does s (.cancel index) (s.cancel index handle)
  | onReply {index : ℕ} {handle : RequestHandle ρ}
    (hhandle : s.requests.handles[index]? = some handle) :
    Does s (.onReply index) { s with requests := s.requests.modify index RequestHandle.onReply }
  | suspend (hrunning : s.isRunning = true) : Does s .suspend { s with suspended := true }
  | reinstate : Does s .reinstate s.doReinstate
  | restart (children : Bool) : Does s (.restart children) (s.restart children)
  | restartResumed {wasSuspended children : Bool}
    (hphase : s.restartPhase = some (.woken wasSuspended)) :
    Does s (.restartResumed children) (s.resumeRestart wasSuspended children)
  | restartChildrenStopped {wasSuspended : Bool}
    (hphase : s.restartPhase = some (.children wasSuspended)) :
    Does s .restartChildrenStopped (s.restartPostStop wasSuspended)
  | restartPostStopEnded (hphase : s.restartPhase = some .postStop) :
    Does s .restartPostStopEnded (s.mark .postStopEnded).restartPreStart
  | restartCompleted (hphase : s.restartPhase = some .preStart) :
    Does s (.restartPreStartEnded true) s.completeRestart
  | restartFailed (hphase : s.restartPhase = some .preStart) :
    Does s (.restartPreStartEnded false) ((s.mark (.preStartEnded false)).settleRestart .failed)
  | shutdown (children : Bool) : Does s (.shutdown children) (s.shutdown children)
  | shutdownResumed {children : Bool} (hphase : s.shutdownPhase = some .woken)
    (hqueued : s.restartQueued = false) :
    Does s (.shutdownResumed children) (s.stopChildren children)
  | shutdownChildrenStopped (hphase : s.shutdownPhase = some .children)
    (hqueued : s.restartQueued = false) : Does s .shutdownChildrenStopped s.shutdownPostStop
  | shutdownPostStopEnded (hphase : s.shutdownPhase = some .postStop)
    (hqueued : s.restartQueued = false) :
    Does s .shutdownPostStopEnded ((s.mark .postStopEnded).reset.mark .shutdownResolved)

theorem does_of_step {s next : PidState μ ρ} {event : PidEvent μ ρ} (h : s.step event = some next) :
    Does s event next := by
  cases event with
  | tell | poisonPill | panicking | unstash | unstashAll | reinstate | restart | shutdown =>
    cases h
    constructor
  | started | request | suspend | restartPostStopEnded =>
    obtain ⟨hguard, rfl⟩ := of_guarded h
    constructor
    exact hguard
  | restartPreStartEnded completed =>
    obtain ⟨hguard, rfl⟩ := of_guarded h
    cases completed with
    | true => exact .restartCompleted hguard
    | false => exact .restartFailed hguard
  | shutdownResumed | shutdownChildrenStopped | shutdownPostStopEnded =>
    obtain ⟨⟨hphase, hqueued⟩, rfl⟩ := of_guarded h
    constructor
    · exact hphase
    · exact hqueued
  | outcome | cancel | onReply =>
    obtain ⟨handle, hhandle, rfl⟩ := Option.map_eq_some_iff.mp h
    constructor
    exact hhandle
  | dispatch | returned | threw | park | fulfilled | rejected | restartResumed
  | restartChildrenStopped =>
    simp only [step] at h
    split at h
    · rename_i hfound
      cases h
      constructor
      exact hfound
    · cases h
  | stash =>
    simp only [step] at h
    split at h
    · cases h
      constructor
    · cases h
      constructor
    · cases h
  | take loop index =>
    simp only [step] at h
    split at h
    · rename_i hloop hmessage
      cases h
      exact .take hloop hmessage
    · rename_i hloop _
      obtain ⟨hempty, rfl⟩ := of_guarded h
      exact .drained hloop (List.isEmpty_iff.mp hempty)
    · cases h

end PidState

end Nodeakt.Actor
