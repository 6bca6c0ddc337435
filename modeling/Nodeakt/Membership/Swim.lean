import Nodeakt.Membership.Suspicion

/-! The membership engine (`membership/swim.ts`, with the merge of `sync.ts` and the failure path of
    `probe.ts`), from its construction to the end of its started life.

    Every turn of the engine is a computation that may throw, and what it changed before it threw
    stays. One turn takes one reading of the clocks. The broadcast queue is present through what it
    refuses: it throws on truth that cannot be encoded. -/

namespace Nodeakt.Membership
open Schemes

/-- Unscaled protocol period. -/
def BASE_PROTOCOL_PERIOD_MS : ℕ := 1000

/-- The local clock and the wall time in one turn. -/
structure Reading where
  now : Millis
  epoch : ℕ
  deriving DecidableEq

/-- Lifecycle up to a leave or a stop. -/
inductive SwimState where | new | starting | started
  deriving DecidableEq

/-- What a turn can throw. -/
inductive SwimError where
  | view (error : ViewError)
  | protocol (error : ProtocolError)
  | range (error : RangeError)
  | exchange (message : String)
  | lifecycle (state : SwimState)
  | error (message : String) (name : JsString)

/-- The engine of one node: its table, the suspicions it times and the removals it has armed. -/
structure Swim where
  address : JsString
  metadata : Bytes
  fits : metadata.length ≤ MAX_METADATA_BYTES
  state : SwimState
  view : MembershipView
  suspicion : SuspicionManager
  reapTimers : OrderedMap JsString ReapOperation

/-- A turn of the engine. -/
abbrev SwimM := EStateM SwimError Swim

namespace Swim

/-- A new engine. -/
def create (address : JsString) (metadata : Bytes)
    (fits : metadata.length ≤ MAX_METADATA_BYTES) : Swim :=
  ⟨address, metadata, fits, .new, MembershipView.create address, SuspicionManager.empty,
    OrderedMap.empty⟩

/-- Rethrows the error of a part. -/
def check {ε α : Type} (wrap : ε → SwimError) : Except ε α → SwimM α
  | .ok a => pure a
  | .error e => throw (wrap e)

/-- Queues accepted truth for gossip. -/
def enqueue (truth : MembershipUpdate) : SwimM Unit := do
  let _ ← check .protocol (prepareUpdate truth)

def cancelThrough (member : JsString) (incarnation : ℕ) : SwimM Unit := do
  let engine ← get
  let (_, suspicion) ← check .range (engine.suspicion.cancelThrough member incarnation)
  set { engine with suspicion := suspicion }

/-- Suspect truth cancels the suspicions before its incarnation, other truth those through it. -/
def cancelSupersededSuspicion (update : MembershipUpdate) : SwimM Unit :=
  if update.state = .suspect then
    if 0 < update.incarnation then cancelThrough update.member (update.incarnation - 1) else pure ()
  else cancelThrough update.member update.incarnation

def cancelReap (member : JsString) : SwimM Unit :=
  modify fun engine => { engine with reapTimers := engine.reapTimers.delete member }

/-- Replaces the removal timer of a member by one for the retained truth. -/
def scheduleReap (member : JsString) : SwimM Unit := do
  cancelReap member
  let engine ← get
  match engine.view.reapOperation member with
  | none => throw (.error "cannot schedule a reap without retained terminal truth for " member)
  | some operation =>
    set { engine with reapTimers := engine.reapTimers.set member operation }

/-- Arms retention for dead and left truth and cancels it for other truth. -/
def updateRetention (update : MembershipUpdate) : SwimM Unit :=
  if isTerminalState update.state then scheduleReap update.member else cancelReap update.member

def truthApplied (update : MembershipUpdate) : SwimM Unit := do
  cancelSupersededSuspicion update
  updateRetention update

/-- Disseminates accepted truth and runs its maintenance. -/
def announce (truth : MembershipUpdate) : SwimM Unit := do
  enqueue truth
  truthApplied truth

/-- Applies truth of the engine's own; whether the table accepted it. -/
def applyLocalTruth (update : MembershipUpdate) (clock : Reading) : SwimM Bool := do
  let engine ← get
  let (result, view) ← check .view (engine.view.applyLocal update clock.now)
  set { engine with view := view }
  match result with
  | .applied record _ =>
    announce record.update
    pure true
  | _ => pure false

/-- The dead record of an expired suspicion. -/
def deadOf (expiry : SuspicionExpiry) (clock : Reading) : MembershipUpdate :=
  ⟨.dead, false, expiry.incarnation, clock.epoch, expiry.member, [], []⟩

/-- Declares a member dead whose suspicion expired, if that is still what the table retains. -/
def expireSuspicion (expiry : SuspicionExpiry) (clock : Reading) : SwimM Unit := do
  let engine ← get
  if engine.state ≠ .started then pure ()
  else if (engine.view.get expiry.member).any (fun current =>
      current.update.state = .suspect ∧ current.update.incarnation = expiry.incarnation) then
    let _ ← applyLocalTruth (deadOf expiry clock) clock
  else pure ()

section
variable (decay : Decay)

/-- Hands a further accuser to the suspicion, which may expire at once, and disseminates it if it
    was accepted. -/
def confirmSuspicion (update : MembershipUpdate) (clock : Reading) : SwimM Unit := do
  let engine ← get
  match engine.suspicion.confirm decay update.member update.incarnation update.reporter clock.now with
  | .refused => pure ()
  | .thrown e suspicion =>
    set { engine with suspicion := suspicion }
    throw (.range e)
  | .shortened suspicion =>
    set { engine with suspicion := suspicion }
    enqueue update
  | .expired expiry suspicion =>
    set { engine with suspicion := suspicion }
    expireSuspicion expiry clock
    enqueue update

/-- Starts the suspicion of a member at the Lifeguard scale of this moment. -/
def startSuspicion (member : JsString) (incarnation : ℕ) (reporter : JsString) (awareness : Fin 9)
    (clock : Reading) : SwimM Unit := do
  let engine ← get
  let (_, suspicion) ← check .range (engine.suspicion.start decay
    ⟨member, incarnation, reporter, engine.view.aliveOrSuspectCount,
      BASE_PROTOCOL_PERIOD_MS * (awareness.val + 1 : ℕ)⟩ clock.now)
  set { engine with suspicion := suspicion }

/-- Times suspect truth that was learned from another node. -/
def armRemoteSuspicion (update : MembershipUpdate) (awareness : Fin 9) (clock : Reading) :
    SwimM Unit := do
  let engine ← get
  if update.state ≠ .suspect ∨ update.member = engine.address then pure ()
  else startSuspicion decay update.member update.incarnation update.reporter awareness clock

/-- Applies one remote update: the pipeline of packets and of sync merges. -/
def applyRemoteTruth (awareness : Fin 9) (clock : Reading) (update : MembershipUpdate) :
    SwimM Unit := do
  let engine ← get
  let (result, view) ← check .view (engine.view.apply update clock.now clock.epoch)
  set { engine with view := view }
  match result with
  | .confirmed .. => confirmSuspicion decay update clock
  | .ignored => pure ()
  | .applied truth _ =>
    announce truth.update
    armRemoteSuspicion decay truth.update awareness clock
  | .refuted _ truth _ =>
    announce truth.update
    armRemoteSuspicion decay truth.update awareness clock

/-- One update of a packet; one that the table cannot take is dropped. -/
def applyUpdate (awareness : Fin 9) (clock : Reading) (update : MembershipUpdate) : SwimM Unit := do
  try applyRemoteTruth decay awareness clock update
  catch
    | .view _ => pure ()
    | e => throw e

/-- Checks a whole table against capacity and the incarnations left for refutations. -/
def preflight (view : MembershipView) (updates : List MembershipUpdate) : Except SwimError Unit := do
  let additions := updates.countP (fun incoming =>
    (view.get incoming.member).isNone && !isTerminalState incoming.state)
  let accusations := (updates.filter view.wouldRefute).map (fun incoming => incoming.incarnation)
  refuse (MAX_MEMBERS < view.size + additions)
    (.exchange "merged membership table exceeds 1024 retained members")
  refuse (accusations ≠ [] ∧ (MAX_INCARNATION ≤ accusations.foldl max 0 ∨
      MAX_INCARNATION ≤ ((view.get view.selfName).map
        (fun current => current.update.incarnation)).getD 0))
    (.exchange "self-refutation would exhaust the incarnation")

/-- Merges a remote table. -/
def mergeSyncTable (awareness : Fin 9) (clock : Reading) (updates : List MembershipUpdate) :
    SwimM Unit := do
  let engine ← get
  check id (preflight engine.view updates)
  updates.forM (applyRemoteTruth decay awareness clock)

/-- The engine's own suspicion of a member that did not answer. -/
def suspectOf (engine : Swim) (target : JsString) (incarnation : ℕ) (clock : Reading) :
    MembershipUpdate :=
  ⟨.suspect, false, incarnation, clock.epoch, target, engine.address, []⟩

/-- Follows the table's answer to a report of this engine; whether its suspicion may be timed. A
    report that is ignored still is, if the member is retained as suspect. -/
def answerReport (suspect : MembershipUpdate) (clock : Reading) : ApplyResult → SwimM Bool
  | .applied record _ => do
    announce record.update
    pure true
  | .confirmed .. => do
    confirmSuspicion decay suspect clock
    pure true
  | _ => do
    let engine ← get
    pure ((engine.view.get suspect.member).any (fun retained =>
      retained.update.state = .suspect ∧ retained.update.incarnation = suspect.incarnation))

/-- Applies the evidence of a failed probe; whether its suspicion may be timed. -/
def applyProbeFailure (target : JsString) (incarnation : ℕ) (clock : Reading) : SwimM Bool := do
  let engine ← get
  if engine.state ≠ .started then pure false
  else if (engine.view.get target).any (fun current =>
      current.update.incarnation = incarnation ∧ isProbeEligibleState current.update.state) then
    let suspect := engine.suspectOf target incarnation clock
    let (result, view) ← check .view (engine.view.apply suspect clock.now clock.epoch)
    set { engine with view := view }
    answerReport decay suspect clock result
  else pure false

/-- An unanswered probe. -/
def probeFailure (target : JsString) (incarnation : ℕ) (awareness : Fin 9) (clock : Reading) :
    SwimM Unit := do
  let applied ← applyProbeFailure decay target incarnation clock
  if applied then
    let engine ← get
    startSuspicion decay target incarnation engine.view.selfName awareness clock
  else pure ()

end

/-- Announces this node with other metadata. -/
def updateMetadata (metadata : Bytes) (clock : Reading) : SwimM Unit := do
  let engine ← get
  if engine.state ≠ .started then throw (.lifecycle engine.state)
  else if MAX_METADATA_BYTES < metadata.length then
    throw (.range ⟨"metadata cannot exceed 512 bytes"⟩)
  else
    match engine.view.get engine.view.selfName with
    | none =>
      throw (.error "cannot update metadata: the local member record was never installed" [])
    | some current =>
      let _ ← applyLocalTruth ⟨.alive, true, current.update.incarnation + 1, clock.epoch,
        current.update.member, [], metadata⟩ clock

/-- Installs and queues this node's own record. -/
def installSelf (clock : Reading) : SwimM Unit := do
  let engine ← get
  let (result, view) ← check .view (engine.view.applyLocal
    ⟨.alive, true, 0, clock.epoch, engine.address, [], engine.metadata⟩ clock.now)
  set { engine with view := view }
  match result with
  | .applied record _ => enqueue record.update
  | _ => pure ()

/-- Begins to start; a failure leads back to a new engine. -/
def start (clock : Reading) : SwimM Unit := do
  modify fun engine => { engine with state := .starting }
  try installSelf clock
  catch e =>
    modify fun engine => { engine with state := .new }
    throw e

/-- The timer of a suspicion. -/
def suspicionTimer (member : JsString) (clock : Reading) : SwimM Unit := do
  let engine ← get
  match engine.suspicion.expire member clock.now with
  | none => pure ()
  | some (expiry, suspicion) =>
    set { engine with suspicion := suspicion }
    expireSuspicion expiry clock

/-- The timer of a removal. -/
def reapTimer (member : JsString) : SwimM Unit := do
  let engine ← get
  match engine.reapTimers.get member with
  | none => pure ()
  | some operation =>
    set { engine with
      reapTimers := engine.reapTimers.delete member
      view := (engine.view.reap operation).2 }

end Swim

/-! ### Runs -/

/-- What happens to an engine. -/
inductive SwimEvent where
  | start (clock : Reading)
  | startFailed
  | started
  | packet (updates : List MembershipUpdate) (awareness : Fin 9) (clock : Reading)
  | sync (updates : List MembershipUpdate) (awareness : Fin 9) (clock : Reading)
  | probeFailure (target : JsString) (incarnation : ℕ) (awareness : Fin 9) (clock : Reading)
  | suspicionTimer (member : JsString) (clock : Reading)
  | updateMetadata (metadata : Bytes) (clock : Reading)
  | reapTimer (member : JsString)

namespace Swim

/-- The engine as a turn leaves it, whether or not it threw. -/
def after (turn : SwimM Unit) (engine : Swim) : Swim := match turn engine with
  | .ok _ engine' => engine'
  | .error _ engine' => engine'

/-- One event; packets are dropped until the probe runs, and an engine that was not started takes
    part in no exchange. -/
def step (decay : Decay) (engine : Swim) : SwimEvent → Option Swim
  | .start clock => if engine.state = .new then some (after (start clock) engine) else none
  | .startFailed =>
    if engine.state = .starting then some { engine with state := .new } else none
  | .started => if engine.state = .starting then some { engine with state := .started } else none
  | .packet updates awareness clock =>
    if engine.state = .started then
      some (after (updates.forM (applyUpdate decay awareness clock)) engine)
    else none
  | .sync updates awareness clock =>
    if engine.state = .new then none
    else some (after (mergeSyncTable decay awareness clock updates) engine)
  | .probeFailure target incarnation awareness clock =>
    some (after (probeFailure decay target incarnation awareness clock) engine)
  | .suspicionTimer member clock => some (after (suspicionTimer member clock) engine)
  | .updateMetadata metadata clock => some (after (updateMetadata metadata clock) engine)
  | .reapTimer member => some (after (reapTimer member) engine)

end Swim

end Nodeakt.Membership
