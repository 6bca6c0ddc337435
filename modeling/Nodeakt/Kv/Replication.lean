import Nodeakt.Kv.Delivery

/-! Routing and quorum replication (`kv/replication.ts`, `kv/primary.backup.ts`).

    A node routes an operation by its installed table and ring. As primary it applies a write to its
    own engine, encodes the stamped entry and sends it to the ring's backups, one request each; the
    write resolves when enough sends have settled with an acknowledgment. A group's replicas are
    always the backups of the installed placement, since `install` refreshes every group. -/

namespace Nodeakt.Kv
open Schemes List

variable {entry : Entry} {router : Replicator} {proposal : Proposal} {writeQuorum : ℕ}

/-- How far a write travels before it is acknowledged. -/
inductive ReplicationMode where | sync | async
  deriving DecidableEq

/-- Whether an operation must be refused while its partition is fragmented. -/
def WriteOp.isConditional : WriteOp → Bool
  | .put _ _ condition _ => condition ≠ .none
  | .delete _ => false
  | .increment _ _ => true
  | .compareAndSet _ _ _ => true

/-- One write's replication: the sends, which of them the addressed node has executed and which
    have settled, in order, with or without an acknowledgment. -/
structure Proposal where
  entry : Entry
  sends : List JsString
  needed : ℕ
  executed : List JsString
  settled : List (JsString × Bool)

/-- The count of acknowledgments once `needed` have arrived or all `total` sends have settled;
    nothing while neither is the case. -/
def firstAcks (needed total : ℕ) : ℕ → ℕ → List Bool → Option ℕ
  | _, _, [] => none
  | acks, settled, ok :: rest =>
    let acks := if ok then acks + 1 else acks
    let settled := settled + 1
    if needed ≤ acks ∨ settled = total then some acks else firstAcks needed total acks settled rest

namespace Proposal

/-- The entry on its way to every backup; asynchronous writes wait for nobody. -/
def sent (mode : ReplicationMode) (writeQuorum : ℕ) (replicas : List JsString)
    (entry : Entry) : Proposal where
  entry := entry
  sends := replicas
  needed := if mode = .async then 0 else min (writeQuorum - 1) replicas.length
  executed := []
  settled := []

/-- What the proposing call returns, once it does. -/
def outcome (proposal : Proposal) (writeQuorum : ℕ) : Option (Except KvError WriteResult) :=
  if proposal.needed = 0 then some (.ok (.applied proposal.entry))
  else
    match firstAcks proposal.needed proposal.sends.length 0 0 (proposal.settled.map Prod.snd) with
    | none => none
    | some acks =>
      if acks < proposal.needed then some (.error (.quorum (1 + acks) writeQuorum))
      else some (.ok (.applied proposal.entry))

/-- The addressed node runs the request. -/
def execute (proposal : Proposal) (name : JsString) : Proposal :=
  { proposal with executed := name :: proposal.executed }

/-- A send settles. -/
def settle (proposal : Proposal) (name : JsString) (ok : Bool) : Proposal :=
  { proposal with settled := proposal.settled ++ [(name, ok)] }

/-- A send can settle once, with an acknowledgment only after the node ran the request. -/
def canSettle (proposal : Proposal) (name : JsString) (ok : Bool) : Bool :=
  name ∈ proposal.sends ∧ name ∉ proposal.settled.map Prod.fst ∧ (ok → name ∈ proposal.executed)

end Proposal

/-- Encodes the entry, once for all, and sends it to every backup. -/
def replicate (mode : ReplicationMode) (writeQuorum : ℕ) (replicas : List JsString)
    (entry : Entry) : Except KvError Proposal := do
  let _frame ← encodeMessage (.replicate entry)
  return Proposal.sent mode writeQuorum replicas entry

/-- The router of one node. -/
structure Replicator where
  self : JsString
  replicaCount : ℕ
  mode : ReplicationMode
  writeQuorum : ℕ
  installed : Option (RoutingTable × PartitionRing)

/-- Where a write goes. -/
inductive WriteRoute where
  | propose (replicas : List JsString)
  | forward (primary : JsString)
  deriving DecidableEq

/-- How a forwarded write is answered: a rebalancing reply, or a proposal. -/
inductive ServedWrite where
  | rebalancing (partitionId : ℕ)
  | propose (replicas : List JsString)
  deriving DecidableEq

/-- Where a read goes. -/
inductive ReadRoute where
  | gather (owners : List JsString)
  | primary
  | forward (primary : JsString)
  deriving DecidableEq

namespace Replicator

/-- Installs a table and its ring. -/
def install (router : Replicator) (table : RoutingTable) (ring : PartitionRing) : Replicator :=
  { router with installed := some (table, ring) }

/-- Whether a table is newer than the installed one, if any. -/
def accepts (router : Replicator) (table : RoutingTable) : Bool := match router.installed with
  | some (current, _) => table.supersedes current
  | none => true

/-- Placement of a partition, requiring an installed table. -/
def placementOf (router : Replicator) (partition : ℕ) : Except KvError PartitionPlacement :=
  match router.installed with
  | some (table, ring) => .ok (table.placement partition ring router.replicaCount)
  | none => .error .clusterUnavailable

/-- The rebalance gate: a conditional write of a fragmented or recovering partition. -/
def gated (op : WriteOp) (placement : PartitionPlacement) (recovering : Bool) : Bool :=
  op.isConditional && (decide (1 < placement.owners.length) || recovering)

/-- Serves a write: locally as the primary, else forwarded to it. -/
def write (router : Replicator) (op : WriteOp) (partition : ℕ) (recovering : Bool) :
    Except KvError WriteRoute :=
  match router.placementOf partition with
  | .error e => .error e
  | .ok placement =>
    if gated op placement recovering then .error (.partitionRebalancing partition)
    else if placement.primary = router.self then .ok (.propose placement.backups)
    else .ok (.forward placement.primary)

/-- Serves a forwarded write: the gate is checked again, the primary is not. -/
def serveWrite (router : Replicator) (op : WriteOp) (partition : ℕ) (recovering : Bool) :
    Except KvError ServedWrite :=
  match router.placementOf partition with
  | .error e => .error e
  | .ok placement =>
    if gated op placement recovering then .ok (.rebalancing partition)
    else .ok (.propose placement.backups)

/-- Serves a read: a fragmented partition is gathered over its owners. -/
def read (router : Replicator) (partition : ℕ) : Except KvError ReadRoute :=
  match router.placementOf partition with
  | .error e => .error e
  | .ok placement =>
    if 1 < placement.owners.length then .ok (.gather placement.owners)
    else if placement.primary = router.self then .ok .primary
    else .ok (.forward placement.primary)

/-- Applies `op` as the primary and replicates the result; a write that is not applied returns at
    once, and one whose entry cannot be encoded fails after it was applied. -/
def propose (router : Replicator) (engine : Engine) (op : WriteOp) (replicas : List JsString)
    (nowMs physical : Millis) : (Except KvError WriteResult ⊕ Proposal) × Engine :=
  match engine.write op nowMs physical with
  | (.ok (.applied entry), engine') =>
    match replicate router.mode router.writeQuorum replicas entry with
    | .ok proposal => (.inr proposal, engine')
    | .error error => (.inl (.error error), engine')
  | (result, engine') => (.inl result, engine')

end Replicator

/-- Keeps the newer of the winner so far and one owner's answer. -/
def pickWinner (winner read : Option Entry) : Option Entry := match read, winner with
  | none, winner => winner
  | some entry, none => some entry
  | some entry, some best => if supersedes entry best then some entry else some best

/-- The newest version among the answers, when it is a live value. -/
def gather (reads : List (Option Entry)) (nowMs : Millis) : Option Entry :=
  match reads.foldl pickWinner none with
  | none => none
  | some winner => if isLiveValue winner nowMs then some winner else none

theorem replicate_eq_ok {mode : ReplicationMode} {replicas : List JsString} :
    replicate mode writeQuorum replicas entry = .ok proposal ↔
      (∃ bytes, encodeMessage (.replicate entry) = .ok bytes) ∧
        Proposal.sent mode writeQuorum replicas entry = proposal := by
  simp only [replicate, except_bind_eq_ok, except_pure_eq_ok, exists_and_right]

namespace Replicator

/-- A proposal starts with an applied write whose entry can be encoded. -/
theorem propose_eq_inr {engine engine' : Engine} {op : WriteOp} {replicas : List JsString}
    {nowMs physical : Millis}
    (h : router.propose engine op replicas nowMs physical = (.inr proposal, engine')) :
    ∃ entry, engine.write op nowMs physical = (.ok (.applied entry), engine') ∧
      (∃ bytes, encodeMessage (.replicate entry) = .ok bytes) ∧
      Proposal.sent router.mode router.writeQuorum replicas entry = proposal := by
  unfold propose at h
  split at h
  · rename_i entry engine'' hwrite
    split at h
    · rename_i started hreplicate
      cases h
      exact ⟨entry, hwrite, replicate_eq_ok.mp hreplicate⟩
    · cases h
  · cases h

/-- A node proposes a client's write when the gate is open and its table names it the primary. -/
theorem write_eq_propose {op : WriteOp} {partition : ℕ} {recovering : Bool}
    {replicas : List JsString} (h : router.write op partition recovering = .ok (.propose replicas)) :
    ∃ table ring, router.installed = some (table, ring) ∧
      gated op (table.placement partition ring router.replicaCount) recovering = false ∧
      replicas = ring.backups partition router.replicaCount ∧
      table.primary partition = router.self := by
  unfold write placementOf at h
  rcases hinstalled : router.installed with _ | ⟨table, ring⟩
  · simp [hinstalled] at h
  · simp only [hinstalled] at h
    refine ⟨table, ring, rfl, ?_⟩
    split at h
    · cases h
    · rename_i hopen
      split at h
      · rename_i hprimary
        exact ⟨Bool.eq_false_iff.mpr hopen, (WriteRoute.propose.inj (Except.ok.inj h)).symm, hprimary⟩
      · cases h

end Replicator

/-! ### Counting acknowledgments -/

/-- A resolved count is the acknowledgments of some prefix of the settled sends. -/
theorem firstAcks_eq_some {needed total : ℕ} : ∀ {results : List Bool} {acks settled count : ℕ},
    firstAcks needed total acks settled results = some count →
      count ≤ acks + results.countP (fun ok => ok)
  | [], _, _, _, h => by cases h
  | ok :: rest, acks, settled, count, h => by
      rw [countP_cons]
      cases ok <;> simp only [firstAcks, Bool.false_eq_true, if_false, if_true] at h ⊢ <;> split at h
      · cases h
        omega
      · have ih := firstAcks_eq_some h
        omega
      · cases h
        omega
      · have ih := firstAcks_eq_some h
        omega

namespace Proposal

/-- A write that resolves applied has at least the acknowledgments it needed. -/
theorem needed_le_of_outcome (h : proposal.outcome writeQuorum = some (.ok (.applied entry))) :
    entry = proposal.entry ∧ proposal.needed ≤ (proposal.settled.filter (fun s => s.2)).length := by
  unfold outcome at h
  split_ifs at h with hzero
  · simp only [Option.some.injEq, Except.ok.injEq, WriteResult.applied.injEq] at h
    exact ⟨h.symm, by omega⟩
  · split at h
    · cases h
    · rename_i acks hacks
      split at h
      · simp at h
      · simp only [Option.some.injEq, Except.ok.injEq, WriteResult.applied.injEq] at h
        refine ⟨h.symm, ?_⟩
        have hcount := firstAcks_eq_some hacks
        rw [Nat.zero_add, countP_map, countP_eq_length_filter] at hcount
        exact (Nat.not_lt.mp ‹_›).trans hcount

end Proposal

end Nodeakt.Kv
