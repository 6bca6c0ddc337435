import Nodeakt.Schemes.Run
import Nodeakt.Kv.Delivery
import Nodeakt.Kv.Recovery
import Nodeakt.Kv.Replication

/-! Dropping a fragment after a drain.

    One node installs tables, each of which queues its drains; the scheduler starts a queued drain
    at any later time, the drain snapshots the fragment and sends it page by page, and writes and
    merges reach the node throughout; a write it accepts is run by the pipeline of its partition later. The drain drops whatever the fragment holds at its end, by the
    ring it was queued with. `drops_are_safe`: in a run where nothing enters a partition under a
    running drain, no page of one carries a marked text and no table brings the node back to a
    partition it still has to drain, a dropped fragment was acknowledged entry by entry and the node
    had no role in its partition. -/

namespace Nodeakt.Kv
open Schemes List Option Engine

/-- A queued drain, with the table and ring it was queued for. -/
structure Drain where
  table : RoutingTable
  ring : PartitionRing
  partition : ℕ

/-- A running drain. -/
structure DrainRun where
  drain : Drain
  push : FragmentPush

/-- A dropped fragment, with the router and the acknowledged entries at that moment. -/
structure DroppedFragment where
  drain : Drain
  entries : List Entry
  router : Replicator
  acked : List (JsString × Entry)

/-- One node. `pipeline` lists the accepted writes that have yet to run, `acked` what each receiver
    acknowledged, `dropped` the dropped fragments. -/
structure HandoffNode where
  router : Replicator
  engine : Engine
  pipeline : List WriteOp
  queued : List Drain
  running : List DrainRun
  acked : List (JsString × Entry)
  dropped : List DroppedFragment

/-- What can happen at the node. A write may be forwarded by any sender, a merge is a replicate, a
    fragment page or a pulled page. -/
inductive HandoffEvent where
  | install (table : RoutingTable) (ring : PartitionRing)
  | start (index : ℕ)
  | acknowledge (index : ℕ)
  | lose (index : ℕ)
  | finish (index : ℕ)
  | write (op : WriteOp) (recovering : Bool)
  | commit (index : ℕ) (nowMs physical : Millis)
  | merge (entry : Entry)

/-- The node the fragment is drained to. -/
def Drain.target (drain : Drain) : JsString := drain.table.primary drain.partition

namespace HandoffNode

/-- A fresh node. -/
def create (name : JsString) (replicaCount : ℕ) (mode : ReplicationMode)
    (writeQuorum partitionCount : ℕ) (positive : 0 < partitionCount) : HandoffNode where
  router := ⟨name, replicaCount, mode, writeQuorum, none⟩
  engine := Engine.create name partitionCount positive
  pipeline := []
  queued := []
  running := []
  acked := []
  dropped := []

/-- Whether the drain leaves the copy in place. -/
def keeps (node : HandoffNode) (drain : Drain) : Bool :=
  keepsCopy node.router.self drain.ring node.router.replicaCount drain.partition

/-- Installs a table and queues its drains. -/
def install (node : HandoffNode) (table : RoutingTable) (ring : PartitionRing) : HandoffNode :=
  { node with
    router := node.router.install table ring
    queued := node.queued ++
      (drainPartitions node.router.self table).map (fun partition => ⟨table, ring, partition⟩) }

/-- The page in flight of a running drain is acknowledged by its receiver, which decoded `page`. -/
def acknowledge (node : HandoffNode) (index : ℕ) (run : DrainRun) (page : FragmentChunk) :
    HandoffNode :=
  { node with
    running := node.running.set index { run with push := run.push.acknowledge }
    acked := node.acked ++ page.entries.map (fun entry => (run.drain.target, entry)) }

/-- Ends a completed drain. -/
def finish (node : HandoffNode) (index : ℕ) (run : DrainRun) : HandoffNode :=
  if node.keeps run.drain then { node with running := node.running.eraseIdx index }
  else
    { node with
      engine := node.engine.drop run.drain.partition
      running := node.running.eraseIdx index
      dropped := ⟨run.drain, node.engine.snapshot run.drain.partition, node.router, node.acked⟩ ::
        node.dropped }

/-- One event. -/
def step (node : HandoffNode) : HandoffEvent → Option HandoffNode
  | .install table ring => if node.router.accepts table then some (node.install table ring) else none
  | .start index =>
    node.queued[index]?.map (fun drain =>
      { node with
        queued := node.queued.eraseIdx index
        running := node.running ++ [⟨drain, FragmentPush.start node.engine drain.partition⟩] })
  | .acknowledge index =>
    (node.running[index]?.filter (fun run => !run.push.pushed)).bind
      (fun run => (deliveredPage run.push.page).map (node.acknowledge index run))
  | .lose index =>
    (node.running[index]?.filter (fun run => !run.push.pushed)).map
      (fun _ => { node with running := node.running.eraseIdx index })
  | .finish index =>
    (node.running[index]?.filter (fun run => run.push.pushed)).map (node.finish index)
  | .write op recovering =>
    match node.router.serveWrite op (node.engine.partitionFor op.key) recovering with
    | .ok (.propose _) => some { node with pipeline := node.pipeline ++ [op] }
    | .ok (.rebalancing _) => some node
    | .error _ => none
  | .commit index nowMs physical =>
    node.pipeline[index]?.map (fun op =>
      { node with
        engine := (node.engine.write op nowMs physical).2
        pipeline := node.pipeline.eraseIdx index })
  | .merge entry => some { node with engine := node.engine.merge entry }

/-- The node is neither primary nor backup of the partition. -/
def OutOfPlace (router : Replicator) (table : RoutingTable) (ring : PartitionRing)
    (partition : ℕ) : Prop :=
  table.primary partition ≠ router.self ∧ router.self ∉ ring.backups partition router.replicaCount

instance (router : Replicator) (table : RoutingTable) (ring : PartitionRing) (partition : ℕ) :
    Decidable (OutOfPlace router table ring partition) := inferInstanceAs (Decidable (_ ∧ _))

/-- The node had no role in the dropped partition, and the receiver acknowledged every entry. -/
def Safe (record : DroppedFragment) : Prop := (∀ installed ∈ record.router.installed,
    OutOfPlace record.router installed.1 installed.2 record.drain.partition) ∧
  ∀ entry ∈ record.entries, ∃ acked ∈ record.acked, acked.1 = record.drain.target ∧
    acked.2.key = entry.key ∧ entry.timestamp ≤ acked.2.timestamp

instance (record : DroppedFragment) : Decidable (Safe record) :=
  inferInstanceAs (Decidable ((∀ installed ∈ record.router.installed, _) ∧
    ∀ entry ∈ record.entries, _))

/-- When an event leaves the drains alone: nothing enters a partition whose running drain will drop
    it, no key or node name in a page of such a drain starts with a byte order mark, and no table
    gives the node a role in a partition it is about to drop. -/
def Undisturbed (node : HandoffNode) : HandoffEvent → Prop
  | .install table ring => ∀ drain ∈ node.queued ++ node.running.map DrainRun.drain,
      node.keeps drain = true ∨ OutOfPlace node.router table ring drain.partition
  | .commit index _ _ => ∀ op ∈ node.pipeline[index]?, ∀ run ∈ node.running,
      node.keeps run.drain = true ∨ run.drain.partition ≠ node.engine.partitionFor op.key
  | .merge entry =>
    (∃ stored ∈ node.engine.peek entry.key, entry.timestamp ≤ stored.timestamp) ∨
    ∀ run ∈ node.running,
      node.keeps run.drain = true ∨ run.drain.partition ≠ node.engine.partitionFor entry.key
  | .acknowledge index => ∀ run ∈ node.running[index]?,
      node.keeps run.drain = true ∨ (KvMessage.fragmentPush run.push.page).Unmarked
  | _ => True

instance (node : HandoffNode) (event) : Decidable (node.Undisturbed event) := by
  rcases event <;> dsimp only [Undisturbed] <;> infer_instance

/-! ### The invariant -/

/-- What a running drain has sent and what it covers. -/
structure Covers (node : HandoffNode) (run : DrainRun) : Prop where
  reached : run.push.Reached
    (fun entry => node.keeps run.drain = true ∨ (run.drain.target, entry) ∈ node.acked)
  covered : node.keeps run.drain = false →
    ∀ entry ∈ node.engine.snapshot run.drain.partition, entry ∈ run.push.sorted

/-- Every drain that will drop is of a partition the node has no role in, every running drain covers
    its fragment, and every drop so far was safe. -/
structure Guarded (node : HandoffNode) : Prop where
  displaced : ∀ drain ∈ node.queued ++ node.running.map DrainRun.drain, node.keeps drain = false →
    ∀ installed ∈ node.router.installed,
      OutOfPlace node.router installed.1 installed.2 drain.partition
  covers : ∀ run ∈ node.running, node.Covers run
  safe : ∀ record ∈ node.dropped, Safe record

theorem guarded_create (name : JsString) (replicaCount : ℕ) (mode : ReplicationMode)
    (writeQuorum partitionCount : ℕ) (positive : 0 < partitionCount) :
    (create name replicaCount mode writeQuorum partitionCount positive).Guarded :=
  ⟨by simp [create], by simp [create], by simp [create]⟩

variable {node : HandoffNode}

section

variable (h : node.Guarded)
include h

/-- A change of the store that adds nothing to the drained partitions keeps the invariant. -/
theorem Guarded.store {engine : Engine} (pipeline : List WriteOp)
    (hstore : ∀ run ∈ node.running, node.keeps run.drain = false →
      ∀ entry ∈ engine.snapshot run.drain.partition,
        entry ∈ node.engine.snapshot run.drain.partition) :
    Guarded { node with engine, pipeline } where
  displaced := h.displaced
  covers := fun run hrun => ⟨(h.covers run hrun).reached,
    fun hkeeps entry he => (h.covers run hrun).covered hkeeps entry (hstore run hrun hkeeps entry he)⟩
  safe := h.safe

/-- Forgetting a running drain keeps the invariant. -/
theorem Guarded.erase (index : ℕ) :
    Guarded { node with running := node.running.eraseIdx index } where
  displaced := by
    intro drain hdrain
    refine h.displaced drain ?_
    rcases mem_append.mp hdrain with hq | hr
    · exact mem_append_left _ hq
    · obtain ⟨run, hrun, rfl⟩ := mem_map.mp hr
      exact mem_append_right _ (mem_map_of_mem (mem_of_mem_eraseIdx hrun))
  covers := fun run hrun =>
    have hrun := h.covers run (mem_of_mem_eraseIdx hrun)
    ⟨hrun.reached, hrun.covered⟩
  safe := h.safe

theorem Guarded.install {table : RoutingTable} {ring : PartitionRing}
    (hcond : node.Undisturbed (.install table ring)) : (node.install table ring).Guarded where
  displaced := by
    intro drain hdrain hkeeps installed hinstalled
    obtain rfl : (table, ring) = installed := some.inj hinstalled
    have hdrops : ¬ node.keeps drain = true := Bool.eq_false_iff.mp hkeeps
    rcases mem_append.mp hdrain with hq | hr
    · rcases mem_append.mp hq with hold | hnew
      · exact (hcond drain (mem_append_left _ hold)).resolve_left hdrops
      · obtain ⟨partition, hpartition, rfl⟩ := mem_map.mp hnew
        -- a drain of this very table: demoted by its rows, and no backup by its ring
        exact ⟨(mem_drainPartitions.mp hpartition).2.1, by simpa [keeps, keepsCopy] using hkeeps⟩
    · exact (hcond drain (mem_append_right _ hr)).resolve_left hdrops
  covers := fun run hrun =>
    have hrun := h.covers run hrun
    ⟨hrun.reached, hrun.covered⟩
  safe := h.safe

theorem Guarded.start {index : ℕ} {drain : Drain} (hdrain : node.queued[index]? = some drain) :
    Guarded { node with
      queued := node.queued.eraseIdx index
      running := node.running ++ [⟨drain, FragmentPush.start node.engine drain.partition⟩] } where
  displaced := by
    intro other hother
    refine h.displaced other ?_
    rw [map_append, mem_append, mem_append] at hother
    rcases hother with hq | hr | hnew
    · exact mem_append_left _ (mem_of_mem_eraseIdx hq)
    · exact mem_append_right _ hr
    · rw [mem_singleton.mp hnew]
      exact mem_append_left _ (mem_of_getElem? hdrain)
  covers := by
    intro run hrun
    rcases mem_append.mp hrun with hold | hnew
    · have hrun := h.covers run hold
      exact ⟨hrun.reached, hrun.covered⟩
    · obtain rfl := mem_singleton.mp hnew
      refine ⟨FragmentPush.reached_start _ _ _, fun _ entry he => ?_⟩
      exact mem_sortedFragment.mpr (mem_snapshot.mp he)
  safe := h.safe

/-- The receiver of a drain that will drop has decoded the page as it was sent. -/
theorem Guarded.acknowledge {index : ℕ} {run : DrainRun} {page : FragmentChunk}
    (hrun : node.running[index]? = some run)
    (hpage : node.keeps run.drain = true ∨ page = run.push.page) :
    (node.acknowledge index run page).Guarded where
  displaced := by
    intro drain hdrain
    refine h.displaced drain ?_
    rcases mem_append.mp hdrain with hq | hr
    · exact mem_append_left _ hq
    · refine mem_append_right _ ?_
      obtain ⟨other, hother, rfl⟩ := mem_map.mp hr
      rcases mem_or_eq_of_mem_set hother with hold | rfl
      · exact mem_map_of_mem hold
      · exact mem_map.mpr ⟨run, mem_of_getElem? hrun, rfl⟩
  covers := by
    intro other hother
    rcases mem_or_eq_of_mem_set hother with hold | rfl
    · have hother := h.covers other hold
      exact ⟨hother.reached.mono fun _ => Or.imp_right (mem_append_left _), hother.covered⟩
    · have hrun := h.covers run (mem_of_getElem? hrun)
      refine ⟨?_, fun hkeeps entry he => ?_⟩
      · refine FragmentPush.Reached.acknowledge
          (hrun.reached.mono fun _ => Or.imp_right (mem_append_left _)) fun entry he => ?_
        refine hpage.imp_right fun hsame => mem_append_right _ (mem_map_of_mem ?_)
        exact hsame ▸ he
      · simpa using hrun.covered hkeeps entry he
  safe := h.safe

/-- A completed drain drops only what its receiver acknowledged. -/
theorem Guarded.drop_safe {run : DrainRun} (hrun : run ∈ node.running)
    (hpushed : run.push.pushed = true) (hkeeps : node.keeps run.drain = false) :
    Safe ⟨run.drain, node.engine.snapshot run.drain.partition, node.router, node.acked⟩ := by
  refine ⟨?_, fun entry he => ?_⟩
  · exact h.displaced run.drain (mem_append_right _ (mem_map_of_mem hrun)) hkeeps
  · have hcovers := h.covers run hrun
    have hacked := hcovers.reached.complete hpushed entry (hcovers.covered hkeeps entry he)
    exact ⟨_, hacked.resolve_left (by simp [hkeeps]), rfl, rfl, le_rfl⟩

theorem Guarded.finish {index : ℕ} {run : DrainRun} (hrun : node.running[index]? = some run)
    (hpushed : run.push.pushed = true) : (node.finish index run).Guarded := by
  unfold HandoffNode.finish
  cases hkeeps : node.keeps run.drain with
  | true => exact h.erase index
  | false =>
    have hdropped : Guarded { node with engine := node.engine.drop run.drain.partition } := by
      refine h.store _ fun other _ _ entry he => ?_
      rw [mem_snapshot, drop_partitionFor, peek_drop] at he
      split at he
      · exact absurd he.2 (by simp)
      · exact mem_snapshot.mpr he
    have herased := hdropped.erase index
    refine ⟨herased.displaced, fun other hother => ?_, ?_⟩
    · have hother := herased.covers other hother
      exact ⟨hother.reached, hother.covered⟩
    · intro record hrecord
      rcases mem_cons.mp hrecord with rfl | hold
      · exact h.drop_safe (mem_of_getElem? hrun) hpushed hkeeps
      · exact h.safe record hold

theorem Guarded.commit {index : ℕ} {op : WriteOp} {nowMs physical : Millis}
    (hop : node.pipeline[index]? = some op)
    (hcond : node.Undisturbed (.commit index nowMs physical)) :
    Guarded { node with
      engine := (node.engine.write op nowMs physical).2
      pipeline := node.pipeline.eraseIdx index } := by
  refine h.store _ fun run hrun hkeeps entry he => ?_
  have hpartition := (hcond op hop run hrun).resolve_left (by simp [hkeeps])
  rw [mem_snapshot, write_partitionFor] at he
  have hkey : entry.key ≠ op.key := by
    intro hkey
    exact hpartition (he.1 ▸ congrArg _ hkey)
  rw [peek_write_of_ne _ _ _ _ hkey] at he
  exact mem_snapshot.mpr he

theorem Guarded.merge {entry : Entry} (hcond : node.Undisturbed (.merge entry)) :
    Guarded { node with engine := node.engine.merge entry } := by
  refine h.store _ fun run hrun hkeeps other he => ?_
  rw [mem_snapshot, merge_partitionFor, peek_merge] at he
  rw [mem_snapshot]
  by_cases hkey : other.key = entry.key
  · rw [if_pos hkey] at he
    refine ⟨he.1, ?_⟩
    rcases hcond with ⟨stored, hstored, hle⟩ | hcond
    · -- the stored entry is at least as recent, so the merge left it
      have hnot : supersedes entry stored = false := supersedes_eq_false.mpr hle
      rw [hkey, hstored, newest, hnot] at he
      rw [hkey, hstored]
      simpa using he.2
    · have hpartition := (hcond run hrun).resolve_left (by simp [hkeeps])
      exact absurd (he.1 ▸ congrArg _ hkey) hpartition
  · rw [if_neg hkey] at he
    exact he

/-- Every undisturbed event keeps the invariant. -/
theorem Guarded.step {node' : HandoffNode} {event : HandoffEvent} (hcond : node.Undisturbed event)
    (hstep : node.step event = some node') : node'.Guarded := by
  cases event with
  | install table ring =>
    obtain ⟨-, rfl⟩ := of_guarded hstep
    exact h.install hcond
  | start index =>
    obtain ⟨drain, hdrain, rfl⟩ := map_eq_some_iff.mp hstep
    exact h.start hdrain
  | acknowledge index =>
    obtain ⟨run, hfound, hstep⟩ := bind_eq_some_iff.mp hstep
    obtain ⟨page, hpage, rfl⟩ := map_eq_some_iff.mp hstep
    have hrun := (filter_eq_some_iff.mp hfound).1
    refine h.acknowledge hrun ((hcond run hrun).imp_right fun hunmarked => ?_)
    exact eq_of_deliveredPage hpage hunmarked
  | lose index =>
    obtain ⟨run, -, rfl⟩ := map_eq_some_iff.mp hstep
    exact h.erase index
  | finish index =>
    obtain ⟨run, hrun, rfl⟩ := map_eq_some_iff.mp hstep
    obtain ⟨hrun, hpushed⟩ := filter_eq_some_iff.mp hrun
    exact h.finish hrun hpushed
  | write op recovering =>
    simp only [HandoffNode.step] at hstep
    split at hstep
    · cases hstep
      exact h.store _ fun _ _ _ _ he => he
    · cases hstep
      exact h
    · cases hstep
  | commit index nowMs physical =>
    obtain ⟨op, hop, rfl⟩ := map_eq_some_iff.mp hstep
    exact h.commit hop hcond
  | merge entry =>
    cases hstep
    exact h.merge hcond

end

/-- In every undisturbed run of a node, whenever it drops a fragment it is neither primary nor
    backup of the partition, and the receiver has acknowledged every entry dropped. -/
theorem drops_are_safe {name : JsString} {replicaCount : ℕ} {mode : ReplicationMode}
    {writeQuorum partitionCount : ℕ} {positive : 0 < partitionCount} {events : List HandoffEvent}
    {final : HandoffNode}
    (hundisturbed : Meets HandoffNode.step Undisturbed
      (create name replicaCount mode writeQuorum partitionCount positive) events)
    (hrun : run HandoffNode.step
      (create name replicaCount mode writeQuorum partitionCount positive) events = some final) :
    ∀ record ∈ final.dropped, Safe record :=
  (run_preserves (fun _ _ _ h => h.step) (guarded_create ..) hundisturbed hrun).safe

/-- The partition owned by `a` alone, on the ring of `a`. -/
def ownedByA : RoutingTable × PartitionRing := (soleOwner 1 [97], ringA)

/-- The partition moving from `a` to `c`, on the ring of `a`, `b` and `c`. -/
def movedToC : RoutingTable × PartitionRing := (⟨2, [[[97], [99]]], by decide⟩, ringABC)

/-- Node `a` with two replicas and a write quorum of two. -/
def nodeOfA : HandoffNode := create [97] 2 .sync 2 1 Nat.one_pos

/-- Node `a` accepts a forwarded write after its drain has started. -/
def writeDuringDrain : List HandoffEvent :=
  [.install ownedByA.1 ownedByA.2, .write (.put [107] [1] .none none) false, .commit 0 0 0,
    .install movedToC.1 movedToC.2, .start 0, .write (.put [108] [2] .none none) false,
    .commit 0 1 1, .acknowledge 0, .finish 0]

/-- The drain drops the late write although `c` never received it. -/
theorem late_write_dropped : ∃ final, run step nodeOfA writeDuringDrain = some final ∧
    ∃ record ∈ final.dropped, ¬ Safe record := by
  decide +kernel

/-- Node `a` accepts its writes before its drain starts. -/
def writeBeforeDrain : List HandoffEvent :=
  [.install ownedByA.1 ownedByA.2, .write (.put [107] [1] .none none) false,
    .install movedToC.1 movedToC.2, .commit 0 0 0, .write (.put [108] [2] .none none) false,
    .commit 0 1 1, .start 0, .acknowledge 0, .finish 0]

theorem early_write_handed_over : ∃ final, run step nodeOfA writeBeforeDrain = some final ∧
    final.dropped ≠ [] ∧ ∀ record ∈ final.dropped, Safe record := by
  have hundisturbed : Meets step Undisturbed nodeOfA writeBeforeDrain := by decide +kernel
  obtain ⟨final, hrun, hdrops⟩ : ∃ final ∈ run step nodeOfA writeBeforeDrain,
      0 < final.dropped.length := by decide +kernel
  exact ⟨final, hrun, ne_nil_of_length_pos hdrops, drops_are_safe hundisturbed hrun⟩

end HandoffNode

end Nodeakt.Kv
