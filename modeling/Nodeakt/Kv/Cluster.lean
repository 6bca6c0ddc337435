import Nodeakt.Kv.Handoff

/-! The whole cluster as one system.

    One coordinator authors tables; every node installs them at its own pace and drains what the
    table asks of it; clients write through any node, requests are forwarded late or twice, a write
    waits in the pipeline of its node and is sent to the backups later still, fragments move page by
    page. Every message is encoded and decoded on its way, and
    an event says which one is acted on. The transfers that only copy entries (refills, pulls of a
    reconcile) are a copy taken from a store and merged anywhere later. `Taken` is the inversion of a
    step: what each event needs and what it leaves. -/

namespace Nodeakt.Kv
open Schemes Option

/-- An authored table with its ring. -/
structure Epoch (partitionCount : ℕ) where
  table : RoutingTable
  ring : PartitionRing
  counted : table.partitionCount = partitionCount
  ring_counted : ring.partitionCount = partitionCount

namespace Epoch

/-- The first table of a cluster. -/
def first (ring : PartitionRing) : Epoch ring.partitionCount where
  table := RoutingTable.evolved none ring [] 1 ring.members
  ring := ring
  counted := RoutingTable.partitionCount_evolved ..
  ring_counted := rfl

variable {partitionCount : ℕ}

/-- The version of the table. -/
def version (epoch : Epoch partitionCount) : ℕ := epoch.table.version

/-- The next table, evolved onto the ring of `members`. -/
def next (epoch : Epoch partitionCount) (members live : List JsString)
    (reports : List OwnershipReport) : Option (Epoch partitionCount) :=
  match hring : PartitionRing.new members partitionCount with
  | .error _ => none
  | .ok ring =>
    have hnew := PartitionRing.new_eq_ok hring
    some
      { table := RoutingTable.evolved (some epoch.table) ring reports (epoch.version + 1) live
        ring := ring
        counted := by rw [RoutingTable.partitionCount_evolved, hnew.2]
        ring_counted := hnew.2 }

end Epoch

/-- One node: what it has installed, its store and the partitions it is reconciling. -/
structure ClusterNode where
  installed : Option (RoutingTable × PartitionRing)
  engine : Engine
  recovering : List ℕ

/-- A running drain of a node, and whether the page in flight has reached the target. -/
structure Move where
  source : JsString
  drain : Drain
  push : FragmentPush
  delivered : Bool

/-- A write on its way to a node or in the pipeline of it: what the client asked for and what the
    node is to do, which for a forwarded write is what it decodes. -/
structure PendingWrite where
  node : JsString
  asked : WriteOp
  op : WriteOp

/-- A write some node applied, as the client asked for it, and its replication once it is sent. -/
structure ExecutedWrite where
  node : JsString
  asked : WriteOp
  entry : Entry
  proposal : Option Proposal

/-- Whether the write has returned as applied. -/
def ExecutedWrite.acknowledged (write : ExecutedWrite) (writeQuorum : ℕ) : Bool :=
  match write.proposal.bind (fun proposal => proposal.outcome writeQuorum) with
  | some (.ok _) => true
  | _ => false

/-- The operation of a write request. -/
def KvMessage.requested : KvMessage → Option WriteOp
  | .writeRequest op => some op
  | _ => none

/-- An operation as the primary decodes it. -/
def deliveredOp (op : WriteOp) : Option WriteOp :=
  (delivered (.writeRequest op)).bind KvMessage.requested

theorem deliveredOp_eq_some {op arrived : WriteOp} (h : deliveredOp op = some arrived) :
    op.mapText arriving = arrived := by
  obtain ⟨message, hmessage, hrequested⟩ := bind_eq_some_iff.mp h
  rw [← delivered_eq_some hmessage, KvMessage.mapText, KvMessage.requested,
    some.injEq] at hrequested
  exact hrequested

/-- The report in a message. -/
def KvMessage.reported : KvMessage → Option OwnershipReport
  | .ownershipReport report => some report
  | _ => none

/-- The cluster. `history` lists every authored table, the newest included; `answers` are the reports
    of a rebalance that still gathers; a forwarded write and a copied entry are never removed, so they
    may arrive again. -/
structure Cluster (partitionCount : ℕ) where
  replicaCount : ℕ
  mode : ReplicationMode
  writeQuorum : ℕ
  newest : Epoch partitionCount
  history : List (Epoch partitionCount)
  reports : List OwnershipReport
  answers : List OwnershipReport
  nodes : JsString → ClusterNode
  requests : List PendingWrite
  pipeline : List PendingWrite
  writes : List ExecutedWrite
  queued : List (JsString × Drain)
  moves : List Move
  copies : List Entry

/-- What can happen. Lists are addressed by index; a request that does not arrive is given up on, and
    a pipeline may run its writes in any order. -/
inductive ClusterEvent where
  | report (name : JsString) (own : Bool)
  | gather
  | author (members live : List JsString)
  | install (name : JsString) (index : ℕ)
  | recover (name : JsString) (partitions : List ℕ)
  | drain (name : JsString)
  | write (name : JsString) (op : WriteOp)
  | serve (index : ℕ)
  | commit (index : ℕ) (nowMs physical : Millis)
  | send (index : ℕ)
  | replicate (index : ℕ) (name : JsString)
  | settle (index : ℕ) (name : JsString) (ok : Bool)
  | start (index : ℕ)
  | deliver (index : ℕ)
  | acknowledge (index : ℕ)
  | abandon (index : ℕ)
  | finish (index : ℕ)
  | copy (name key : JsString)
  | merge (index : ℕ) (name : JsString)

namespace Cluster

variable {partitionCount : ℕ}

/-- Fresh nodes and the first table of `ring`. -/
def create (ring : PartitionRing) (replicaCount : ℕ) (mode : ReplicationMode)
    (writeQuorum : ℕ) : Cluster ring.partitionCount where
  replicaCount := replicaCount
  mode := mode
  writeQuorum := writeQuorum
  newest := Epoch.first ring
  history := [Epoch.first ring]
  reports := []
  answers := []
  nodes := fun name => ⟨none, Engine.create name ring.partitionCount ring.positive, []⟩
  requests := []
  pipeline := []
  writes := []
  queued := []
  moves := []
  copies := []

section

variable (world : Cluster partitionCount)

/-- A node's store. -/
def engine (name : JsString) : Engine := (world.nodes name).engine

/-- A node's router. -/
def router (name : JsString) : Replicator :=
  ⟨name, world.replicaCount, world.mode, world.writeQuorum, (world.nodes name).installed⟩

/-- Whether a node reconciles a partition. -/
def isRecovering (name : JsString) (partition : ℕ) : Bool :=
  partition ∈ (world.nodes name).recovering

/-- A node changes. -/
def setNode (name : JsString) (node : ClusterNode) : Cluster partitionCount :=
  { world with nodes := Function.update world.nodes name node }

/-- A node's store changes. -/
def setEngine (name : JsString) (engine : Engine) : Cluster partitionCount :=
  world.setNode name { world.nodes name with engine := engine }

/-! ### Tables -/

/-- A node reports what it holds; the coordinator's own report does not travel. -/
def report (name : JsString) (own : Bool) : Cluster partitionCount :=
  let report := ⟨name, (world.engine name).heldPartitions⟩
  { world with
    answers := world.answers ++ if own then [report]
      else ((delivered (.ownershipReport report)).bind KvMessage.reported).toList }

/-- The coordinator stores the reports it was given. -/
def gather : Cluster partitionCount :=
  { world with reports := world.answers, answers := [] }

/-- The coordinator publishes a table. -/
def author (epoch : Epoch partitionCount) : Cluster partitionCount :=
  { world with newest := epoch, history := epoch :: world.history }

/-- A node installs a table. -/
def install (name : JsString) (epoch : Epoch partitionCount) : Cluster partitionCount :=
  world.setNode name { world.nodes name with installed := some (epoch.table, epoch.ring) }

/-- The recovering marks of a node change. -/
def recover (name : JsString) (partitions : List ℕ) : Cluster partitionCount :=
  world.setNode name { world.nodes name with recovering := partitions }

/-- A node runs a drain of its installed table. -/
def drain (name : JsString) (table : RoutingTable)
    (ring : PartitionRing) : Cluster partitionCount :=
  { world with
    queued := world.queued ++
      (drainPartitions name table).map (fun partition => (name, ⟨table, ring, partition⟩)) }

/-! ### Writes -/

/-- A client's write is sent on to the primary. -/
def forward (primary : JsString) (asked op : WriteOp) : Cluster partitionCount :=
  { world with requests := world.requests ++ [⟨primary, asked, op⟩] }

/-- A write enters the pipeline of a node. -/
def accept (write : PendingWrite) : Cluster partitionCount :=
  { world with pipeline := world.pipeline ++ [write] }

/-- A client's write at a node: accepted there, forwarded or refused. -/
def write (name : JsString) (op : WriteOp) : Cluster partitionCount :=
  let partition := (world.engine name).partitionFor op.key
  match (world.router name).write op partition (world.isRecovering name partition) with
  | .ok (.propose _) => world.accept ⟨name, op, op⟩
  | .ok (.forward primary) =>
    match deliveredOp op with
    | some arrived => world.forward primary op arrived
    | none => world
  | .error _ => world

/-- A forwarded write arrives. -/
def serve (request : PendingWrite) : Cluster partitionCount :=
  let partition := (world.engine request.node).partitionFor request.op.key
  match (world.router request.node).serveWrite request.op partition
    (world.isRecovering request.node partition) with
  | .ok (.propose _) => world.accept request
  | .ok (.rebalancing _) => world
  | .error _ => world

/-- The pipeline of a node runs a write; an applied one is recorded. -/
def commit (index : ℕ) (write : PendingWrite) (nowMs physical : Millis) : Cluster partitionCount :=
  let written := (world.engine write.node).write write.op nowMs physical
  { world.setEngine write.node written.2 with
    pipeline := world.pipeline.eraseIdx index
    writes := match written.1 with
      | .ok (.applied entry) => world.writes ++ [⟨write.node, write.asked, entry, none⟩]
      | _ => world.writes }

/-- An applied write is sent to the backups its node has by now, unless its entry cannot be encoded. -/
def send (index : ℕ) (write : ExecutedWrite) : Cluster partitionCount :=
  let partition := (world.engine write.node).partitionFor write.entry.key
  match (world.router write.node).placementOf partition >>= fun placement =>
    Kv.replicate world.mode world.writeQuorum placement.backups write.entry with
  | .ok proposal =>
    { world with writes := world.writes.set index { write with proposal := some proposal } }
  | .error _ => world

/-- A backup merges the entry it decoded from the replication request of a write. -/
def replicate (index : ℕ) (write : ExecutedWrite)
    (name : JsString) (entry : Entry) : Cluster partitionCount :=
  { world.setEngine name ((world.engine name).merge entry) with
    writes := world.writes.set index
      { write with proposal := write.proposal.map (fun proposal => proposal.execute name) } }

/-- A replication request of a write settles at the primary. -/
def settle (index : ℕ) (write : ExecutedWrite)
    (name : JsString) (ok : Bool) : Cluster partitionCount :=
  { world with
    writes := world.writes.set index
      { write with proposal := write.proposal.map (fun proposal => proposal.settle name ok) } }

/-! ### Fragments -/

/-- A queued drain starts: it sorts what the source holds now. -/
def start (index : ℕ) (queued : JsString × Drain) : Cluster partitionCount :=
  { world with
    queued := world.queued.eraseIdx index
    moves := world.moves ++ [⟨queued.1, queued.2,
      FragmentPush.start (world.engine queued.1) queued.2.partition, false⟩] }

/-- The page in flight reaches its target, which decodes `page`. -/
def deliver (index : ℕ) (move : Move) (page : FragmentChunk) : Cluster partitionCount :=
  { world.setEngine move.drain.target (applyChunk (world.engine move.drain.target) page) with
    moves := world.moves.set index { move with delivered := true } }

/-- The page in flight is acknowledged to its source. -/
def acknowledge (index : ℕ) (move : Move) : Cluster partitionCount :=
  { world with
    moves := world.moves.set index
      { move with push := move.push.acknowledge, delivered := false } }

/-- A page is not acknowledged, and its push ends. -/
def abandon (index : ℕ) : Cluster partitionCount :=
  { world with moves := world.moves.eraseIdx index }

/-- Whether the end of a drain drops the fragment at its source. -/
def drops (move : Move) : Bool :=
  !keepsCopy move.source move.drain.ring world.replicaCount move.drain.partition

/-- A completed drain ends. -/
def finish (index : ℕ) (move : Move) : Cluster partitionCount :=
  { world.setEngine move.source
      (if world.drops move then (world.engine move.source).drop move.drain.partition
        else world.engine move.source) with
    moves := world.moves.eraseIdx index }

/-- A node sends a copy of an entry. -/
def copy (entry : Entry) : Cluster partitionCount :=
  { world with copies := world.copies ++ [entry] }

/-! ### Steps -/

/-- One event. -/
def step : ClusterEvent → Option (Cluster partitionCount)
  | .report name own => some (world.report name own)
  | .gather => some world.gather
  | .author members live => (world.newest.next members live world.reports).map world.author
  | .install name index =>
    (world.history[index]?.filter (fun epoch => (world.router name).accepts epoch.table)).map
      (world.install name)
  | .recover name partitions => some (world.recover name partitions)
  | .drain name =>
    (world.nodes name).installed.map (fun installed => world.drain name installed.1 installed.2)
  | .write name op => some (world.write name op)
  | .serve index => world.requests[index]?.map world.serve
  | .commit index nowMs physical =>
    world.pipeline[index]?.map (fun write => world.commit index write nowMs physical)
  | .send index =>
    (world.writes[index]?.filter (fun write => write.proposal.isNone)).map (world.send index)
  | .replicate index name =>
    (world.writes[index]?.filter (fun write =>
      write.proposal.any (fun proposal => decide (name ∈ proposal.sends)))).bind
      (fun write => (deliveredEntry write.entry).map (world.replicate index write name))
  | .settle index name ok =>
    (world.writes[index]?.filter (fun write =>
      write.proposal.any (fun proposal => proposal.canSettle name ok))).map
      (fun write => world.settle index write name ok)
  | .start index => world.queued[index]?.map (world.start index)
  | .deliver index =>
    (world.moves[index]?.filter (fun move => !move.push.pushed)).bind
      (fun move => (deliveredPage move.push.page).map (world.deliver index move))
  | .acknowledge index =>
    (world.moves[index]?.filter (fun move => move.delivered && !move.push.pushed)).map
      (world.acknowledge index)
  | .abandon index => some (world.abandon index)
  | .finish index =>
    (world.moves[index]?.filter (fun move => move.push.pushed)).map (world.finish index)
  | .copy name key => ((world.engine name).peek key).map world.copy
  | .merge index name =>
    (world.copies[index]?.bind deliveredEntry).map
      (fun entry => world.setEngine name ((world.engine name).merge entry))

/-- The event runs this write. -/
def Runs (event : ClusterEvent) (write : PendingWrite) : Prop :=
  match event with
  | .commit index _ _ => world.pipeline[index]? = some write
  | _ => False

/-- What an event needs and what it leaves. -/
inductive Taken : ClusterEvent → Cluster partitionCount → Prop where
  | report (name : JsString) (own : Bool) : Taken (.report name own) (world.report name own)
  | gather : Taken .gather world.gather
  | author {members live : List JsString} {epoch : Epoch partitionCount}
      (hnext : world.newest.next members live world.reports = some epoch) :
      Taken (.author members live) (world.author epoch)
  | install {name : JsString} {index : ℕ} {epoch : Epoch partitionCount}
      (hepoch : epoch ∈ world.history) :
      Taken (.install name index) (world.install name epoch)
  | recover (name : JsString) (partitions : List ℕ) :
      Taken (.recover name partitions) (world.recover name partitions)
  | drain {name : JsString} {table : RoutingTable} {ring : PartitionRing}
      (hinstalled : (world.nodes name).installed = some (table, ring)) :
      Taken (.drain name) (world.drain name table ring)
  | forward {name : JsString} {op arrived : WriteOp} (primary : JsString)
      (harrived : deliveredOp op = some arrived) :
      Taken (.write name op) (world.forward primary op arrived)
  | refuse {event : ClusterEvent} : Taken event world
  | accept {event : ClusterEvent} {write : PendingWrite}
      (hwrite : write.op = write.asked ∨ write ∈ world.requests) : Taken event (world.accept write)
  | commit {index : ℕ} {write : PendingWrite} (hwrite : world.pipeline[index]? = some write)
      (nowMs physical : Millis) :
      Taken (.commit index nowMs physical) (world.commit index write nowMs physical)
  | send {index : ℕ} {write : ExecutedWrite} (hwrite : world.writes[index]? = some write)
      (proposal : Proposal) : Taken (.send index) { world with
        writes := world.writes.set index { write with proposal := some proposal } }
  | replicate {index : ℕ} {name : JsString} {write : ExecutedWrite} {entry : Entry}
      (hwrite : world.writes[index]? = some write)
      (harrived : deliveredEntry write.entry = some entry) :
      Taken (.replicate index name) (world.replicate index write name entry)
  | settle {index : ℕ} {name : JsString} {ok : Bool} {write : ExecutedWrite}
      (hwrite : world.writes[index]? = some write) :
      Taken (.settle index name ok) (world.settle index write name ok)
  | start {index : ℕ} {queued : JsString × Drain} (hqueued : world.queued[index]? = some queued) :
      Taken (.start index) (world.start index queued)
  | deliver {index : ℕ} {move : Move} {page : FragmentChunk}
      (hmove : world.moves[index]? = some move)
      (harrived : deliveredPage move.push.page = some page) :
      Taken (.deliver index) (world.deliver index move page)
  | acknowledge {index : ℕ} {move : Move} (hmove : world.moves[index]? = some move)
      (hdelivered : move.delivered = true) :
      Taken (.acknowledge index) (world.acknowledge index move)
  | abandon (index : ℕ) : Taken (.abandon index) (world.abandon index)
  | finish {index : ℕ} {move : Move} (hmove : world.moves[index]? = some move)
      (hpushed : move.push.pushed = true) :
      Taken (.finish index) (world.finish index move)
  | copy {name key : JsString} {entry : Entry} (hpeek : (world.engine name).peek key = some entry) :
      Taken (.copy name key) (world.copy entry)
  | merge {index : ℕ} {name : JsString} {sent entry : Entry}
      (hsent : world.copies[index]? = some sent) (harrived : deliveredEntry sent = some entry) :
      Taken (.merge index name) (world.setEngine name ((world.engine name).merge entry))

theorem taken_write (name : JsString) (op : WriteOp) :
    Taken world (.write name op) (world.write name op) := by
  unfold Cluster.write
  dsimp only
  split
  · exact .accept (Or.inl rfl)
  · split
    · rename_i harrived
      exact .forward _ harrived
    · exact .refuse
  · exact .refuse

end

/-- Every step is one of the listed ones. -/
theorem taken_of_step {world world' : Cluster partitionCount} {event : ClusterEvent}
    (hstep : world.step event = some world') : Taken world event world' := by
  cases event with
  | report name own =>
    cases hstep
    exact .report name own
  | gather =>
    cases hstep
    exact .gather
  | author members live =>
    obtain ⟨epoch, hnext, rfl⟩ := map_eq_some_iff.mp hstep
    exact .author hnext
  | install name index =>
    obtain ⟨epoch, hepoch, -, rfl⟩ := of_found hstep
    exact .install (List.mem_of_getElem? hepoch)
  | recover name partitions =>
    cases hstep
    exact .recover name partitions
  | drain name =>
    obtain ⟨⟨table, ring⟩, hinstalled, rfl⟩ := map_eq_some_iff.mp hstep
    exact .drain hinstalled
  | write name op =>
    cases hstep
    exact taken_write ..
  | serve index =>
    obtain ⟨request, hrequest, rfl⟩ := map_eq_some_iff.mp hstep
    unfold Cluster.serve
    dsimp only
    split
    · exact .accept (Or.inr (List.mem_of_getElem? hrequest))
    · exact .refuse
    · exact .refuse
  | commit index nowMs physical =>
    obtain ⟨write, hwrite, rfl⟩ := map_eq_some_iff.mp hstep
    exact .commit hwrite nowMs physical
  | send index =>
    obtain ⟨write, hwrite, -, rfl⟩ := of_found hstep
    unfold Cluster.send
    dsimp only
    split
    · exact .send hwrite _
    · exact .refuse
  | replicate index name =>
    obtain ⟨write, hfound, hstep⟩ := bind_eq_some_iff.mp hstep
    obtain ⟨entry, harrived, rfl⟩ := map_eq_some_iff.mp hstep
    exact .replicate (filter_eq_some_iff.mp hfound).1 harrived
  | settle index name ok =>
    obtain ⟨write, hwrite, -, rfl⟩ := of_found hstep
    exact .settle hwrite
  | start index =>
    obtain ⟨queued, hqueued, rfl⟩ := map_eq_some_iff.mp hstep
    exact .start hqueued
  | deliver index =>
    obtain ⟨move, hfound, hstep⟩ := bind_eq_some_iff.mp hstep
    obtain ⟨page, harrived, rfl⟩ := map_eq_some_iff.mp hstep
    exact .deliver (filter_eq_some_iff.mp hfound).1 harrived
  | acknowledge index =>
    obtain ⟨move, hmove, hguard, rfl⟩ := of_found hstep
    exact .acknowledge hmove (Bool.and_eq_true_iff.mp hguard).1
  | abandon index =>
    cases hstep
    exact .abandon index
  | finish index =>
    obtain ⟨move, hmove, hpushed, rfl⟩ := of_found hstep
    exact .finish hmove hpushed
  | copy name key =>
    obtain ⟨entry, hpeek, rfl⟩ := map_eq_some_iff.mp hstep
    exact .copy hpeek
  | merge index name =>
    obtain ⟨entry, hfound, rfl⟩ := map_eq_some_iff.mp hstep
    obtain ⟨sent, hsent, harrived⟩ := bind_eq_some_iff.mp hfound
    exact .merge hsent harrived

end Cluster

end Nodeakt.Kv
