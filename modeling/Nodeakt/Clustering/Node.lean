import Nodeakt.Kv.Coordinator
import Nodeakt.Kv.Resolver
import Nodeakt.Kv.RecoveryMarks
import Nodeakt.Kv.Sendable

/-! One node of the cluster (`clustering.ts`).

    A view change runs the split-brain verdict, publishes the membership transitions and starts a
    rebalance. Rebalances run one after the other; each ends by installing the table the node holds,
    as an inbound push does. Installing builds the ring from the view of that moment, hands both to
    the router and to recovery, and claims the departures reported so far until that recovery has
    finished. Client calls are refused while the node is stopped, requests of peers are not.
    `Taken` says what an event can do; the results about whole runs split on it. -/

namespace Nodeakt.Clustering
open Schemes Nodeakt.Kv Option

/-- What a node publishes. -/
inductive ClusterEvent where
  | nodeJoined (address : JsString)
  | nodeLeft (address : JsString)
  | coordinatorChanged (coordinator : JsString)
  | rebalanceStarted
  | rebalanceCompleted
  deriving DecidableEq

/-- A rebalance that awaits its push; `again` marks the second push, after a learned table. -/
structure Rebalance where
  coordinating : Bool
  members : List Kv.ClusterMember
  own : OwnershipReport
  again : Bool
  deriving DecidableEq

/-- A read that waits for the copies of its sources; `own` is the local version as the read began, and
    `primary` whether the node reads as the primary. -/
structure ReadGather where
  key : JsString
  sources : List JsString
  own : Option Entry
  primary : Bool
  deriving DecidableEq

/-- What a node does as a primary: a write committed under its own timestamp, or a read answered. -/
inductive PrimaryAct where
  | committed (entry : Entry)
  | answered (key : JsString) (entry : Option Entry)
  deriving DecidableEq

/-- One node. `waiting` lists the rebalances behind the running one, with whether they announce
    themselves; `claims` the departures each unfinished recovery has claimed; `acts` what the node
    did as a primary and whether it was serving then. -/
structure Cluster where
  self : JsString
  partitionCount : ℕ
  resolver : KeepMajorityResolver
  view : List Kv.ClusterMember
  engine : Engine
  coordinator : Coordinator
  replicator : Replicator
  recovery : Recovery
  table : Option RoutingTable
  serving : Bool
  lastStable : List JsString
  stoppedAt : Kv.Millis
  stableTimer : Bool
  previousMembers : List JsString
  pendingLeft : List JsString
  leftBackstop : Bool
  waiting : List Bool
  pushing : Option Rebalance
  claims : List (List JsString)
  events : List ClusterEvent
  pipeline : List WriteOp
  gathers : List ReadGather
  acts : List (PrimaryAct × Bool)

/-- What happens to a node: the view changes, a timer fires, a table is pushed to it, a waiting
    rebalance starts, a push settles with the members' answers, a recovery proceeds or has finished,
    clients and peers call, a queued write runs, a gather has its answers, and copies arrive, expire
    or are handed off. -/
inductive NodeEvent where
  | view (members : List Kv.ClusterMember) (nowMs : Kv.Millis)
  | quiet
  | tick
  | backstop
  | table (sender : JsString) (pushed : RoutingTable)
  | rebalance
  | pushed (responses : List (Option PushAnswer))
  | recovery (e : RecoveryEvent)
  | recovered (index : ℕ)
  | write (op : WriteOp)
  | writeRequest (op : WriteOp)
  | applied (index : ℕ) (nowMs physical : Kv.Millis)
  | read (key : JsString) (nowMs : Kv.Millis)
  | readRequest (key : JsString) (nowMs : Kv.Millis)
  | gathered (index : ℕ) (answers : List (Option Entry)) (nowMs : Kv.Millis)
  | replicate (entry : Entry)
  | fragmentPush (chunk : FragmentChunk)
  | sweep (nowMs : Kv.Millis)
  | handedOff (partition : ℕ)

/-- Whether an event changes the view of a node. -/
def NodeEvent.isView : NodeEvent → Bool
  | .view .. => true
  | _ => false

/-- Whether an event is the end of a node's quiet window. -/
def NodeEvent.isQuiet : NodeEvent → Bool
  | .quiet => true
  | _ => false

namespace Cluster

/-- A node before its first view. -/
def create (self : JsString) (partitionCount : ℕ) (positive : 0 < partitionCount)
    (replicaCount writeQuorum : ℕ) (resolver : KeepMajorityResolver) : Cluster where
  self := self
  partitionCount := partitionCount
  resolver := resolver
  view := []
  engine := Engine.create self partitionCount positive
  coordinator := Coordinator.create self partitionCount
  replicator := ⟨self, replicaCount, .sync, writeQuorum, none⟩
  recovery := Recovery.create self replicaCount
  table := none
  serving := true
  lastStable := []
  stoppedAt := 0
  stableTimer := false
  previousMembers := []
  pendingLeft := []
  leftBackstop := false
  waiting := []
  pushing := none
  claims := []
  events := []
  pipeline := []
  gathers := []
  acts := []

section

variable (c : Cluster)

/-- The names of the current view, oldest first. -/
def memberNames : List JsString := c.view.map Kv.ClusterMember.name

/-- Whether this node is the oldest member. -/
def isCoordinator : Bool := coordinatorName c.view = some c.self

/-- The names the ring is built from: the members that are not draining, all when all drain. -/
def ringMembers : List JsString :=
  let active := (c.view.filter (fun member => !member.draining)).map Kv.ClusterMember.name
  if 0 < active.length then active else c.memberNames

/-! ### The split-brain verdict -/

/-- Discards every fragment after an absence longer than the tombstones last. -/
def onHeal (nowMs : Kv.Millis) : Engine :=
  if TOMBSTONE_TTL_MS < nowMs - c.stoppedAt then
    c.engine.heldPartitions.foldl Engine.drop c.engine
  else c.engine

/-- Whether this half keeps serving. -/
def survives : Bool := c.resolver.survives c.memberNames.toFinset c.lastStable

/-- Recomputes whether this half keeps serving and rearms the quiet window. -/
def applyResolver (nowMs : Kv.Millis) : Cluster := { c with
    engine := if c.survives && !c.serving then c.onHeal nowMs else c.engine
    stoppedAt := if !c.survives && c.serving then nowMs else c.stoppedAt
    serving := c.survives
    stableTimer := true }

/-- Records the current members as the baseline, while this half serves. -/
def promoteStable : Cluster := { c with
    stableTimer := false
    lastStable := if c.serving then c.memberNames else c.lastStable }

/-! ### Published events -/

/-- The peers in the view that the last change did not have. -/
def joined : List JsString :=
  c.memberNames.filter (fun name => decide (name ≠ c.self) && decide (name ∉ c.previousMembers))

/-- The peers of the last change that are gone. -/
def departed : List JsString :=
  c.previousMembers.filter (fun name => decide (name ≠ c.self) && decide (name ∉ c.memberNames))

/-- The announcement of a new oldest member. -/
def coordinatorChange : List ClusterEvent := match c.memberNames.head? with
  | none => []
  | some oldest =>
    if some oldest = c.previousMembers.head? then [] else [.coordinatorChanged oldest]

/-- Publishes joins and a change of the oldest member, and queues departures. -/
def emitMembershipEvents : Cluster := { c with
    events := c.events ++ c.joined.map .nodeJoined ++ c.coordinatorChange
    pendingLeft := c.pendingLeft ++ c.departed
    leftBackstop := c.leftBackstop || !(c.pendingLeft ++ c.departed).isEmpty
    previousMembers := c.memberNames }

/-- Publishes the departure of each name that is still absent. -/
def reportDepartures (names : List JsString) : Cluster := { c with
    events := c.events ++ (names.filter (fun name => decide (name ∉ c.memberNames))).map .nodeLeft }

/-- Reports the pending departures without waiting for their recovery any longer. -/
def releaseLeft : Cluster :=
  ({ c with leftBackstop := false, pendingLeft := [] } : Cluster).reportDepartures c.pendingLeft

/-! ### Tables -/

/-- Queues a rebalance, unless this half is stopped. -/
def rebalance (announce : Bool) : Cluster := if !c.serving then c else { c with
      events := c.events ++ if announce && c.isCoordinator then [.rebalanceStarted] else []
      waiting := c.waiting ++ [announce && c.isCoordinator] }

/-- Reacts to a membership change. -/
def onView (nowMs : Kv.Millis) : Cluster :=
  ((c.applyResolver nowMs).emitMembershipEvents).rebalance true

/-- Hands a table and its ring to the router and to recovery, which claims the departures. -/
def install (table : RoutingTable) (ring : PartitionRing) : Cluster := { c with
    replicator := c.replicator.install table ring
    table := some table
    recovery := c.recovery.onTable c.memberNames table ring
    claims := c.claims ++ [c.pendingLeft]
    pendingLeft := []
    leftBackstop := false }

/-- Whether a table is not newer than the installed one. -/
def isInstalled (table : RoutingTable) : Bool :=
  c.table.any (fun installed => table.version ≤ installed.version)

/-- Installs the table this node holds if it is newer, with the ring of the current view. -/
def applyLocalTable : Except KvError Cluster := if !c.serving then .ok c else
    match c.coordinator.table with
    | none => .ok c
    | some table =>
      if c.isInstalled table then .ok c
      else
        match PartitionRing.new c.ringMembers c.partitionCount with
        | .error e => .error e
        | .ok ring => .ok (c.install table ring)

/-- The end of a rebalance: an installation that throws ends it without the announcement. -/
def finish (coordinating : Bool) : Cluster := match c.applyLocalTable with
  | .error _ => c
  | .ok c =>
    { c with events := c.events ++ if coordinating then [.rebalanceCompleted] else [] }

/-- Recomputes the table and pushes it; a table that cannot be computed or encoded ends the
    rebalance. -/
def beginPush (coordinating : Bool) (members : List Kv.ClusterMember) (again : Bool) : Cluster :=
  match c.coordinator.recompute members with
  | .error _ => { c with pushing := none }
  | .ok (table, coordinator) =>
    { c with
      coordinator := coordinator
      pushing := if table.Sendable then
          some ⟨coordinating, members, coordinator.localReport c.engine.heldPartitions, again⟩
        else none }

/-- The next waiting rebalance starts: the oldest member authors and pushes, the others install. -/
def rebalanceOnce (coordinating : Bool) : Cluster :=
  if c.isCoordinator then c.beginPush coordinating c.view false else c.finish coordinating

/-- Stores what a push gathered; a learned table is adopted and re-authored once. -/
def settlePush (push : Rebalance) (responses : List (Option PushAnswer)) : Cluster :=
  let gathered := Coordinator.gather push.own responses
  let idle := { c with coordinator := c.coordinator.setReports gathered.1, pushing := none }
  match gathered.2 with
  | none => idle.finish push.coordinating
  | some learned =>
    if push.again then idle.finish push.coordinating
    else ({ idle with coordinator := idle.coordinator.adopt learned } : Cluster).beginPush
      push.coordinating push.members true

/-- Whether the answer to a push can be encoded. -/
def answerable : PushAnswer → Bool
  | .report report => (encodeMessage (.ownershipReport report)).toOption.isSome
  | .table table => (encodeMessage (.table table.toWire)).toOption.isSome

/-- Adopts a pushed table and installs it; an answer that cannot be encoded ends the request
    before. -/
def serveTable (sender : JsString) (pushed : RoutingTable) : Cluster :=
  let answer := c.coordinator.receive c.view c.engine.heldPartitions sender pushed
  let c := { c with coordinator := answer.2 }
  if answerable answer.1 then
    match c.applyLocalTable with
    | .error _ => c
    | .ok c => c
  else c

/-! ### Calls and requests -/

/-- Whether the partition of a key is being reconciled. -/
def isRecovering (key : JsString) : Bool :=
  c.recovery.isRecovering (c.engine.partitionFor key)

/-- Notes what the node does as a primary. -/
def act (act : PrimaryAct) : Cluster := { c with acts := c.acts ++ [(act, c.serving)] }

/-- A client's write: refused while stopped, else proposed here or forwarded. -/
def write (op : WriteOp) : Cluster := if !c.serving then c else
    match c.replicator.write op (c.engine.partitionFor op.key) (c.isRecovering op.key) with
    | .ok (.propose _) => { c with pipeline := c.pipeline ++ [op] }
    | _ => c

/-- A forwarded write, proposed here unless the gate is closed. -/
def serveWrite (op : WriteOp) : Cluster :=
  match c.replicator.serveWrite op (c.engine.partitionFor op.key) (c.isRecovering op.key) with
  | .ok (.propose _) => { c with pipeline := c.pipeline ++ [op] }
  | _ => c

/-- A queued write runs in its partition's pipeline. -/
def runWrite (index : ℕ) (op : WriteOp) (nowMs physical : Kv.Millis) : Cluster :=
  let written := c.engine.write op nowMs physical
  let c := { c with engine := written.2, pipeline := c.pipeline.eraseIdx index }
  match written.1 with
  | .ok (.applied entry) => c.act (.committed entry)
  | _ => c

/-- Whether a write is the first of its partition in the queue. -/
def isNext (index : ℕ) (op : WriteOp) : Bool := (c.pipeline.take index).all
    (fun earlier => c.engine.partitionFor earlier.key ≠ c.engine.partitionFor op.key)

/-- Asks the sources of a read for their versions of the key. -/
def beginGather (key : JsString) (sources : List JsString) (primary : Bool) : Cluster :=
  { c with gathers := c.gathers ++ [⟨key, sources, c.engine.peek key, primary⟩] }

/-- Serves a read as the primary: from the local fragment, or gathered while reconciling. -/
def servePrimaryRead (key : JsString) (nowMs : Kv.Millis) : Cluster :=
  match c.replicator.placementOf (c.engine.partitionFor key) with
  | .error _ => c
  | .ok placement =>
    if c.isRecovering key then c.beginGather key (c.self :: placement.backups) true
    else c.act (.answered key (c.engine.read key nowMs))

/-- Whether the installed table names the node the primary of a key. -/
def isPrimary (key : JsString) : Bool :=
  match c.replicator.placementOf (c.engine.partitionFor key) with
  | .error _ => false
  | .ok placement => placement.primary = c.self

/-- A client's read: refused while stopped, else served as the primary, gathered over the owners of
    a fragmented partition, or forwarded. -/
def read (key : JsString) (nowMs : Kv.Millis) : Cluster := if !c.serving then c else
    match c.replicator.read (c.engine.partitionFor key) with
    | .ok .primary => c.servePrimaryRead key nowMs
    | .ok (.gather owners) => c.beginGather key owners (c.isPrimary key)
    | _ => c

/-- The versions a gather has: the node's own where it is a source, nothing of a source that failed. -/
def gatherReads (pending : ReadGather) (answers : List (Option Entry)) : List (Option Entry) :=
  pending.sources.mapIdx (fun index source =>
    if source = c.self then pending.own else (answers[index]?).join)

/-- Whether the winner of a gather repairs the local copy. -/
def repairs (winner : Entry) (pending : ReadGather) : Bool :=
  c.self ∈ pending.sources && pending.own.all (fun entry => supersedes winner entry)

/-- A gather has every answer: the winner repairs the local copy and is returned if it is live. -/
def answerGather (index : ℕ) (pending : ReadGather)
    (answers : List (Option Entry)) (nowMs : Kv.Millis) : Cluster :=
  let reads := c.gatherReads pending answers
  let engine := match reads.foldl pickWinner none with
    | none => c.engine
    | some winner => if c.repairs winner pending then c.engine.merge winner else c.engine
  let c := { c with engine := engine, gathers := c.gathers.eraseIdx index }
  if pending.primary then c.act (.answered pending.key (gather reads nowMs)) else c

/-- One event. -/
def step : NodeEvent → Option Cluster
  | .view members nowMs => some (({ c with view := members } : Cluster).onView nowMs)
  | .quiet => if c.stableTimer then some c.promoteStable else none
  | .tick => some (c.rebalance false)
  | .backstop => if c.leftBackstop then some c.releaseLeft else none
  | .table sender pushed => some (c.serveTable sender pushed)
  | .rebalance =>
    match c.pushing, c.waiting with
    | none, coordinating :: waiting =>
      some (({ c with waiting := waiting } : Cluster).rebalanceOnce coordinating)
    | _, _ => none
  | .pushed responses => c.pushing.map (fun push => c.settlePush push responses)
  | .recovery (.table ..) => none
  | .recovery e => (c.recovery.step e).map (fun recovery => { c with recovery := recovery })
  | .recovered index =>
    (c.claims[index]?).map (fun claimed =>
      ({ c with claims := c.claims.eraseIdx index } : Cluster).reportDepartures claimed)
  | .write op => some (c.write op)
  | .writeRequest op => some (c.serveWrite op)
  | .applied index nowMs physical =>
    (c.pipeline[index]?).bind (fun op =>
      if c.isNext index op then some (c.runWrite index op nowMs physical) else none)
  | .read key nowMs => some (c.read key nowMs)
  | .readRequest key nowMs => some (c.servePrimaryRead key nowMs)
  | .gathered index answers nowMs =>
    (c.gathers[index]?).map (fun pending => c.answerGather index pending answers nowMs)
  | .replicate entry => some { c with engine := c.engine.merge entry }
  | .fragmentPush chunk => some { c with engine := applyChunk c.engine chunk }
  | .sweep nowMs => some { c with engine := c.engine.sweep nowMs }
  | .handedOff partition => some { c with engine := c.engine.drop partition }

/-! ### What an event can do -/

/-- A node whose rebalances have moved on: other coordinator state, other rebalances pending. -/
def moved (coordinator : Coordinator) (pushing : Option Rebalance)
    (waiting : List Bool) : Cluster :=
  { c with coordinator := coordinator, pushing := pushing, waiting := waiting }

/-- The node publishes `notices`. -/
def publish (notices : List ClusterEvent) : Cluster :=
  { c with events := c.events ++ notices }

/-- Whether an event announces the progress of a rebalance. -/
def isNotice : ClusterEvent → Bool
  | .rebalanceStarted => true
  | .rebalanceCompleted => true
  | _ => false

end

/-- The rebalances move on, possibly up to the installation of a newer table. -/
inductive Progress (c : Cluster) : Cluster → Prop
  | idle (coordinator : Coordinator) (pushing : Option Rebalance) (waiting : List Bool)
      (notices : List ClusterEvent) (hnotices : ∀ notice ∈ notices, isNotice notice = true) :
      Progress c ((c.moved coordinator pushing waiting).publish notices)
  | install (coordinator : Coordinator) (pushing : Option Rebalance) (waiting : List Bool)
      (notices : List ClusterEvent) {table : RoutingTable} {ring : PartitionRing}
      (hnotices : ∀ notice ∈ notices, isNotice notice = true) (hserving : c.serving = true)
      (hnewer : c.isInstalled table = false)
      (hring : PartitionRing.new c.ringMembers c.partitionCount = .ok ring) :
      Progress c (((c.moved coordinator pushing waiting).install table ring).publish notices)

/-- Only the store of the node changes. -/
def StoreOnly (c next : Cluster) : Prop := ∃ engine recovery pipeline gathers acts, next = { c with
    engine := engine, recovery := recovery, pipeline := pipeline, gathers := gathers, acts := acts }

/-- Everything an event can do to the topology of a node. -/
inductive Taken (c : Cluster) : NodeEvent → Cluster → Prop
  | view (members : List Kv.ClusterMember) (nowMs : Kv.Millis) :
      Taken c (.view members nowMs) (({ c with view := members } : Cluster).onView nowMs)
  | quiet : Taken c .quiet c.promoteStable
  | backstop : Taken c .backstop c.releaseLeft
  | recovered {index : ℕ} {claimed : List JsString} (hclaimed : c.claims[index]? = some claimed) :
      Taken c (.recovered index)
        (({ c with claims := c.claims.eraseIdx index } : Cluster).reportDepartures claimed)
  | progress {e : NodeEvent} {next : Cluster} (h : c.Progress next) : Taken c e next
  | store {e : NodeEvent} {next : Cluster} (h : c.StoreOnly next) : Taken c e next

variable {c next : Cluster}

theorem publish_nil (c : Cluster) : c.publish [] = c := by simp [publish]

/-- Progress of a node whose rebalances had moved on before is progress. -/
theorem Progress.of_moved (coordinator : Coordinator) (pushing : Option Rebalance)
    (waiting : List Bool) (h : (c.moved coordinator pushing waiting).Progress next) :
    c.Progress next := by
  cases h with
  | idle coordinator pushing waiting notices hnotices =>
    exact .idle coordinator pushing waiting notices hnotices
  | install coordinator pushing waiting notices hnotices hserving hnewer hring =>
    exact .install coordinator pushing waiting notices hnotices hserving hnewer hring

/-- Moving on without a notice. -/
theorem Progress.moved (c : Cluster) (coordinator : Coordinator) (pushing : Option Rebalance)
    (waiting : List Bool) : c.Progress (c.moved coordinator pushing waiting) := by
  have h := Progress.idle (c := c) coordinator pushing waiting [] (by simp)
  rwa [publish_nil] at h

/-- An application of the held table leaves the node as it is or installs the table. -/
theorem applyLocalTable_cases (h : c.applyLocalTable = .ok next) :
    next = c ∨ ∃ table ring, c.serving = true ∧ c.isInstalled table = false ∧
      PartitionRing.new c.ringMembers c.partitionCount = .ok ring ∧ next = c.install table ring := by
  unfold applyLocalTable at h
  split_ifs at h with hserving
  · exact .inl (Except.ok.inj h).symm
  · split at h
    · exact .inl (Except.ok.inj h).symm
    · rename_i table _
      split_ifs at h with hnewer
      · exact .inl (Except.ok.inj h).symm
      · split at h
        · cases h
        · rename_i ring hring
          exact .inr ⟨table, ring, by simpa using hserving, by simpa using hnewer, hring,
            (Except.ok.inj h).symm⟩

/-- An application followed by a notice is progress. -/
theorem progress_of_applyLocalTable (h : c.applyLocalTable = .ok next)
    (notices : List ClusterEvent) (hnotices : ∀ notice ∈ notices, isNotice notice = true) :
    c.Progress (next.publish notices) := by
  rcases applyLocalTable_cases h with rfl | ⟨table, ring, hserving, hnewer, hring, rfl⟩
  · exact .idle next.coordinator next.pushing next.waiting notices hnotices
  · exact .install c.coordinator c.pushing c.waiting notices hnotices hserving hnewer hring

section

variable (c)

theorem progress_finish (coordinating : Bool) : c.Progress (c.finish coordinating) := by
  unfold finish
  split
  · exact .moved c c.coordinator c.pushing c.waiting
  · rename_i next hnext
    exact progress_of_applyLocalTable hnext _ (by split <;> simp [isNotice])

theorem progress_beginPush (coordinating : Bool) (members : List Kv.ClusterMember) (again : Bool)
    : c.Progress (c.beginPush coordinating members again) := by
  unfold beginPush
  split <;> exact .moved c _ _ c.waiting

theorem progress_rebalanceOnce (coordinating : Bool) :
    c.Progress (c.rebalanceOnce coordinating) := by
  unfold rebalanceOnce
  split
  · exact progress_beginPush ..
  · exact progress_finish ..

theorem progress_settlePush (push : Rebalance) (responses : List (Option PushAnswer)) :
    c.Progress (c.settlePush push responses) := by
  have hidle : ∀ coordinator : Coordinator, ∀ {next : Cluster},
      ({ c with coordinator := coordinator, pushing := none } : Cluster).Progress next →
        c.Progress next := fun coordinator _ h => .of_moved coordinator none c.waiting h
  unfold settlePush
  dsimp only
  split
  · exact hidle _ (progress_finish ..)
  · split
    · exact hidle _ (progress_finish ..)
    · exact hidle _ (progress_beginPush ..)

theorem progress_serveTable (sender : JsString) (pushed : RoutingTable) :
    c.Progress (c.serveTable sender pushed) := by
  unfold serveTable
  dsimp only
  split
  · split
    · exact .moved c _ c.pushing c.waiting
    · rename_i next hnext
      have h := progress_of_applyLocalTable hnext [] (by simp)
      rw [publish_nil] at h
      exact .of_moved _ c.pushing c.waiting h
  · exact .moved c _ c.pushing c.waiting

theorem progress_rebalance (announce : Bool) : c.Progress (c.rebalance announce) := by
  unfold rebalance
  split
  · exact .moved c c.coordinator c.pushing c.waiting
  · have hnotices : ∀ notice ∈ (if announce && c.isCoordinator then [.rebalanceStarted] else []),
        isNotice notice = true := by
      split <;> simp [isNotice]
    exact .idle c.coordinator c.pushing (c.waiting ++ [announce && c.isCoordinator]) _ hnotices

theorem storeOnly_servePrimaryRead (key : JsString) (nowMs : Kv.Millis) :
    c.StoreOnly (c.servePrimaryRead key nowMs) := by
  unfold servePrimaryRead
  split
  · exact ⟨_, _, _, _, _, rfl⟩
  · split <;> exact ⟨_, _, _, _, _, rfl⟩

theorem storeOnly_read (key : JsString) (nowMs : Kv.Millis) : c.StoreOnly (c.read key nowMs) := by
  unfold read
  split
  · exact ⟨_, _, _, _, _, rfl⟩
  · split
    · exact storeOnly_servePrimaryRead ..
    all_goals exact ⟨_, _, _, _, _, rfl⟩

end

/-- Every step is one of the cases of `Taken`. -/
theorem taken_of_step {e : NodeEvent} (h : c.step e = some next) : c.Taken e next := by
  cases e with
  | view members nowMs =>
    cases h
    exact .view members nowMs
  | quiet =>
    obtain ⟨-, rfl⟩ := of_guarded h
    exact .quiet
  | tick =>
    cases h
    exact .progress (progress_rebalance c false)
  | backstop =>
    obtain ⟨-, rfl⟩ := of_guarded h
    exact .backstop
  | table sender pushed =>
    cases h
    exact .progress (progress_serveTable c sender pushed)
  | rebalance =>
    simp only [step] at h
    split at h
    · cases h
      exact .progress (.of_moved c.coordinator c.pushing _ (progress_rebalanceOnce _ _))
    · cases h
  | pushed responses =>
    obtain ⟨push, -, rfl⟩ := map_eq_some_iff.mp h
    exact .progress (progress_settlePush c push responses)
  | recovery e =>
    cases e with
    | table live table ring => cases h
    | pulled | rejected | settled =>
      obtain ⟨recovery, -, rfl⟩ := map_eq_some_iff.mp h
      exact .store ⟨_, _, _, _, _, rfl⟩
  | recovered index =>
    obtain ⟨claimed, hclaimed, rfl⟩ := map_eq_some_iff.mp h
    exact .recovered hclaimed
  | write op =>
    cases h
    refine .store ?_
    unfold write
    split
    · exact ⟨_, _, _, _, _, rfl⟩
    · split <;> exact ⟨_, _, _, _, _, rfl⟩
  | writeRequest op =>
    cases h
    refine .store ?_
    unfold serveWrite
    split <;> exact ⟨_, _, _, _, _, rfl⟩
  | applied index nowMs physical =>
    obtain ⟨op, -, h⟩ := bind_eq_some_iff.mp h
    obtain ⟨-, rfl⟩ := of_guarded h
    refine .store ?_
    unfold runWrite
    dsimp only
    split <;> exact ⟨_, _, _, _, _, rfl⟩
  | read key nowMs =>
    cases h
    exact .store (storeOnly_read c key nowMs)
  | readRequest key nowMs =>
    cases h
    exact .store (storeOnly_servePrimaryRead c key nowMs)
  | gathered index answers nowMs =>
    obtain ⟨pending, -, rfl⟩ := map_eq_some_iff.mp h
    refine .store ?_
    unfold answerGather
    dsimp only
    split <;> exact ⟨_, _, _, _, _, rfl⟩
  | replicate entry =>
    cases h
    exact .store ⟨_, _, _, _, _, rfl⟩
  | fragmentPush chunk =>
    cases h
    exact .store ⟨_, _, _, _, _, rfl⟩
  | sweep nowMs =>
    cases h
    exact .store ⟨_, _, _, _, _, rfl⟩
  | handedOff partition =>
    cases h
    exact .store ⟨_, _, _, _, _, rfl⟩

/-! ### What the verdict is taken from -/

/-- The verdict and everything it is taken from are as before. -/
structure SameVerdict (c next : Cluster) : Prop where
  resolver : next.resolver = c.resolver
  view : next.view = c.view
  lastStable : next.lastStable = c.lastStable
  serving : next.serving = c.serving

theorem SameVerdict.survives_eq (h : c.SameVerdict next) : next.survives = c.survives := by
  rw [survives, survives, memberNames, memberNames, h.resolver, h.view, h.lastStable]

theorem Progress.sameVerdict (h : c.Progress next) : c.SameVerdict next := by
  cases h with
  | idle | install => exact ⟨rfl, rfl, rfl, rfl⟩

/-- Only a view change and the quiet window touch the verdict. -/
theorem sameVerdict_of_step {e : NodeEvent} (hview : e.isView = false) (hquiet : e.isQuiet = false)
    (h : c.step e = some next) : c.SameVerdict next := by
  cases taken_of_step h with
  | view => cases hview
  | quiet => cases hquiet
  | backstop | recovered hclaimed => exact ⟨rfl, rfl, rfl, rfl⟩
  | progress h => exact h.sameVerdict
  | store h =>
    obtain ⟨_, _, _, _, _, rfl⟩ := h
    exact ⟨rfl, rfl, rfl, rfl⟩

/-- A view change takes the verdict against the baseline, which stays. -/
theorem onView_verdict (c : Cluster) (nowMs : Kv.Millis) :
    (c.onView nowMs).resolver = c.resolver ∧ (c.onView nowMs).view = c.view ∧
      (c.onView nowMs).lastStable = c.lastStable ∧ (c.onView nowMs).serving = c.survives := by
  have h := (progress_rebalance ((c.applyResolver nowMs).emitMembershipEvents) true).sameVerdict
  exact ⟨h.resolver, h.view, h.lastStable, h.serving⟩

end Cluster

end Nodeakt.Clustering
