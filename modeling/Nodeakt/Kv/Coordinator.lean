import Nodeakt.Kv.RoutingTable

/-! The table's author (`kv/coordinator.ts`).

    The oldest member recomputes the table from its view and the reports of its last push, pushes it
    to the others and stores what they answer: a report, or a table of their own that the pushed one
    did not supersede. A rebalance suspends while a push is awaited, so its halves are separate
    functions: `recompute` before, `gather` after. -/

namespace Nodeakt.Kv
open Schemes List

variable {members : List ClusterMember} {node : Coordinator}

/-- Whether two tables of one partition count list the same owners. -/
def sameOwners (first second : RoutingTable) : Bool :=
  (List.range first.partitionCount).all (fun id => first.owners id = second.owners id)

/-- Whether a member answers a push with the table it holds: that one is newer, or differs under
    the same version. -/
def informs (held pushed : RoutingTable) : Bool := if pushed.supersedes held then false
  else if held.supersedes pushed then true
  else !sameOwners held pushed

/-- Whether a table is newer than the one held, if any. -/
def isNewer (table : RoutingTable) : Option RoutingTable → Bool
  | none => true
  | some current => table.supersedes current

/-- A member's answer to a push. -/
inductive PushAnswer where
  | report (report : OwnershipReport)
  | table (table : RoutingTable)
  deriving DecidableEq

/-- One node's coordinator. -/
structure Coordinator where
  self : JsString
  partitionCount : ℕ
  table : Option RoutingTable
  maxVersion : ℕ
  reports : List OwnershipReport

/-- The oldest member of a view. -/
def coordinatorName (members : List ClusterMember) : Option JsString :=
  members.head?.map ClusterMember.name

/-- The names of a view, each once. -/
def liveNames (members : List ClusterMember) : List JsString :=
  distinct (members.map ClusterMember.name)

/-- The names the ring is built from: the members that are not draining, all when all drain. -/
def assignableNames (members : List ClusterMember) : List JsString :=
  let assignable := (members.filter (fun member => !member.draining)).map ClusterMember.name
  if 0 < assignable.length then assignable else liveNames members

namespace Coordinator

/-- Keeps the newer of the learned table and a peer's. -/
def pickNewest (learned : Option RoutingTable) (peer : RoutingTable) : Option RoutingTable :=
  if isNewer peer learned then some peer else learned

/-- The coordinator of a fresh node. -/
def create (name : JsString) (partitionCount : ℕ) : Coordinator := ⟨name, partitionCount, none, 0, []⟩

/-- This node's report. -/
def localReport (node : Coordinator) (held : List ℕ) : OwnershipReport := ⟨node.self, held⟩

/-- Adopts a newer table from the believed coordinator. -/
def handleTable (node : Coordinator) (members : List ClusterMember) (sender : JsString)
    (table : RoutingTable) : Coordinator :=
  if coordinatorName members = some sender ∧ isNewer table node.table = true then
    { node with table := some table, maxVersion := table.version }
  else node

/-- Handles a pushed table and answers it. -/
def receive (node : Coordinator) (members : List ClusterMember) (held : List ℕ)
    (sender : JsString) (pushed : RoutingTable) : PushAnswer × Coordinator :=
  let node := node.handleTable members sender pushed
  match node.table with
  | some current =>
    if informs current pushed then (.table current, node)
    else (.report (node.localReport held), node)
  | none => (.report (node.localReport held), node)

/-- Adopts the candidate, or keeps the current table when the owners are the same. -/
def author (node : Coordinator) (candidate : RoutingTable) : RoutingTable × Coordinator :=
  match node.table with
  | some table =>
    if sameOwners table candidate then (table, node)
    else (candidate, { node with table := some candidate, maxVersion := candidate.version })
  | none => (candidate, { node with table := some candidate, maxVersion := candidate.version })

/-- Evolves the current table onto the ring of `members`. -/
def recompute (node : Coordinator) (members : List ClusterMember) :
    Except KvError (RoutingTable × Coordinator) :=
  match PartitionRing.new (assignableNames members) node.partitionCount with
  | .error e => .error e
  | .ok ring =>
    match RoutingTable.evolve node.table ring node.reports (node.maxVersion + 1)
      (liveNames members) with
    | .error e => .error e
    | .ok candidate => .ok (node.author candidate)

/-- The members a push goes to. -/
def targets (node : Coordinator) (members : List ClusterMember) : List JsString :=
  (members.filter (fun member => member.name ≠ node.self)).map ClusterMember.name

/-- Folds one settled request into the gathered reports and the newest table learned. -/
def gatherOne (state : List OwnershipReport × Option RoutingTable) :
    Option PushAnswer → List OwnershipReport × Option RoutingTable
  | none => state
  | some (.report report) => (state.1 ++ [report], state.2)
  | some (.table peer) => (state.1, pickNewest state.2 peer)

/-- The reports and the learned table of a push, in the order of its targets. -/
def gather (own : OwnershipReport) (responses : List (Option PushAnswer)) :
    List OwnershipReport × Option RoutingTable :=
  responses.foldl gatherOne ([own], none)

/-- Stores the gathered reports. -/
def setReports (node : Coordinator) (reports : List OwnershipReport) : Coordinator :=
  { node with reports := reports }

/-- Adopts a learned table. -/
def adopt (node : Coordinator) (learned : RoutingTable) : Coordinator :=
  { node with table := some learned, maxVersion := learned.version }

end Coordinator

/-! ### Specifications -/

theorem sameOwners_iff {first second : RoutingTable} : sameOwners first second = true ↔
      ∀ id < first.partitionCount, first.owners id = second.owners id := by
  simp [sameOwners]

theorem sameOwners_refl (table : RoutingTable) : sameOwners table table = true :=
  sameOwners_iff.mpr fun _ _ => rfl

theorem informs_iff {held pushed : RoutingTable} :
    informs held pushed = true ↔ pushed.version < held.version ∨
      pushed.version = held.version ∧ sameOwners held pushed = false := by
  simp only [informs, RoutingTable.supersedes, decide_eq_true_eq]
  rcases lt_trichotomy pushed.version held.version with h | h | h
  · simp [h, h.not_gt]
  · simp [h]
  · simp [h, h.not_gt, h.ne']

theorem mem_liveNames {name : JsString} :
    name ∈ liveNames members ↔ ∃ member ∈ members, member.name = name := by
  simp [liveNames, mem_distinct]

namespace Coordinator

/-- A handled table is newer and adopted, or the node is as it was. -/
theorem handleTable_cases (node : Coordinator) (members : List ClusterMember) (sender : JsString)
    (table : RoutingTable) :
    isNewer table node.table = true ∧ node.handleTable members sender table = node.adopt table ∨
      node.handleTable members sender table = node := by
  unfold handleTable
  split_ifs with h
  · exact Or.inl ⟨h.2, rfl⟩
  · exact Or.inr rfl

/-- A member whose table is the pushed one or older answers with its report, and stays so. -/
theorem receive_report {pushed : RoutingTable}
    (h : ∀ table, node.table = some table → table = pushed ∨ table.version < pushed.version)
    (members : List ClusterMember) (held : List ℕ) (sender : JsString) :
    (∃ report, (node.receive members held sender pushed).1 = .report report) ∧
      ∀ table, (node.receive members held sender pushed).2.table = some table →
        table = pushed ∨ table.version < pushed.version := by
  have hafter : ∀ table, (node.handleTable members sender pushed).table = some table →
      table = pushed ∨ table.version < pushed.version := by
    intro table htable
    rcases handleTable_cases node members sender pushed with ⟨-, hadopt⟩ | hsame
    · rw [hadopt] at htable
      exact Or.inl (Option.some.inj htable).symm
    · rw [hsame] at htable
      exact h table htable
  unfold receive
  dsimp only
  cases hcur : (node.handleTable members sender pushed).table with
  | none => exact ⟨⟨_, rfl⟩, hafter⟩
  | some current =>
    have hquiet : informs current pushed = false := by
      rw [← Bool.not_eq_true, informs_iff]
      rcases hafter current hcur with rfl | hlt
      · simp [sameOwners_refl]
      · omega
    simp only [hquiet, Bool.false_eq_true, if_false]
    exact ⟨⟨_, rfl⟩, hafter⟩

/-- Everything a recompute can do: with the candidate evolved onto the ring of the view, keep a
    table of the same owners or adopt the candidate. -/
theorem recompute_cases {node' : Coordinator} {table : RoutingTable}
    (h : node.recompute members = .ok (table, node')) :
    ∃ ring candidate, PartitionRing.new (assignableNames members) node.partitionCount = .ok ring ∧
      candidate = RoutingTable.evolved node.table ring node.reports (node.maxVersion + 1)
        (liveNames members) ∧
      (node.table = some table ∧ sameOwners table candidate = true ∧ node' = node ∨
        (∀ current, node.table = some current → sameOwners current candidate = false) ∧
          table = candidate ∧ node' = node.adopt candidate) := by
  unfold recompute at h
  split at h
  · cases h
  · rename_i ring hring
    split at h
    · cases h
    · rename_i candidate hcandidate
      have heq : candidate = RoutingTable.evolved node.table ring node.reports
          (node.maxVersion + 1) (liveNames members) := by
        unfold RoutingTable.evolve at hcandidate
        split at hcandidate
        · rename_i current hcurrent
          split at hcandidate
          · cases hcandidate
          · rw [hcurrent]; exact (Except.ok.inj hcandidate).symm
        · rename_i hnone
          rw [hnone]; exact (Except.ok.inj hcandidate).symm
      refine ⟨ring, candidate, hring, heq, ?_⟩
      have hauthor := Except.ok.inj h
      unfold author at hauthor
      split at hauthor
      · rename_i current hcurrent
        split_ifs at hauthor with hsame
        · simp only [Prod.mk.injEq] at hauthor
          obtain ⟨rfl, rfl⟩ := hauthor
          exact Or.inl ⟨hcurrent, hsame, rfl⟩
        · simp only [Prod.mk.injEq] at hauthor
          obtain ⟨rfl, rfl⟩ := hauthor
          refine Or.inr ⟨fun current' hc => ?_, rfl, rfl⟩
          cases (hc.symm.trans hcurrent)
          exact Bool.not_eq_true _ ▸ hsame
      · rename_i hnone
        simp only [Prod.mk.injEq] at hauthor
        obtain ⟨rfl, rfl⟩ := hauthor
        exact Or.inr ⟨fun current' hc => absurd (hnone.symm.trans hc) (by simp), rfl, rfl⟩

/-- A recompute on a valid view authors the evolved candidate. -/
theorem recompute_eq {ring : PartitionRing}
    (hring : PartitionRing.new (assignableNames members) node.partitionCount = .ok ring)
    (hcount : ∀ table, node.table = some table → table.partitionCount = node.partitionCount) :
    node.recompute members = .ok (node.author (RoutingTable.evolved node.table ring node.reports
      (node.maxVersion + 1) (liveNames members))) := by
  have hsame : ∀ table, node.table = some table → table.partitionCount = ring.partitionCount :=
    fun table ht => (hcount table ht).trans (PartitionRing.new_eq_ok hring).2.symm
  have hevolve := RoutingTable.evolve_eq hsame node.reports (node.maxVersion + 1)
    (liveNames members)
  simp only [recompute, hring, hevolve]

/-- A push that is answered by reports only learns no table. -/
theorem gather_reports (own : OwnershipReport) : ∀ (responses : List (Option PushAnswer)),
    (∀ table, some (.table table) ∉ responses) →
      ∀ state : List OwnershipReport × Option RoutingTable,
        (responses.foldl gatherOne state).2 = state.2
  | [], _, _ => rfl
  | none :: rest, h, state => by
      rw [foldl_cons, gather_reports own rest fun t ht => h t (mem_cons_of_mem _ ht)]
      rfl
  | some (.report report) :: rest, h, state => by
      rw [foldl_cons, gather_reports own rest fun t ht => h t (mem_cons_of_mem _ ht)]
      rfl
  | some (.table table) :: rest, h, _ => absurd (mem_cons_self ..) (h table)

theorem pickNewest_ge (learned : Option RoutingTable) (peer : RoutingTable) {table : RoutingTable}
    (h : learned = some table ∨ peer = table) :
    ∃ newest, pickNewest learned peer = some newest ∧ table.version ≤ newest.version := by
  cases learned with
  | none =>
    obtain rfl := h.resolve_left (by simp)
    exact ⟨peer, rfl, le_rfl⟩
  | some held =>
    simp only [pickNewest, isNewer, RoutingTable.supersedes, decide_eq_true_eq]
    split_ifs with hlt
    · rcases h with h | rfl
      · exact ⟨peer, rfl, Option.some.inj h ▸ hlt.le⟩
      · exact ⟨peer, rfl, le_rfl⟩
    · rcases h with h | rfl
      · exact ⟨held, rfl, Option.some.inj h ▸ le_rfl⟩
      · exact ⟨held, rfl, not_lt.mp hlt⟩

/-- A push learns a table at least as new as every one it was answered with. -/
theorem gather_newest {table : RoutingTable} : ∀ (responses : List (Option PushAnswer))
    (state : List OwnershipReport × Option RoutingTable),
    state.2 = some table ∨ some (.table table) ∈ responses →
      ∃ learned, (responses.foldl gatherOne state).2 = some learned ∧
        table.version ≤ learned.version
  | [], _, h => ⟨table, h.resolve_right (by simp), le_rfl⟩
  | none :: rest, state, h => gather_newest rest state (by simpa using h)
  | some (.report report) :: rest, state, h => gather_newest rest _ (by simpa [gatherOne] using h)
  | some (.table peer) :: rest, state, h => by
      rw [foldl_cons]
      rcases or_assoc.mpr (h.imp_right mem_cons.mp) with hnow | hlater
      · obtain ⟨newest, hpick, hle⟩ := pickNewest_ge state.2 peer
          (hnow.imp_right fun heq => by cases heq; rfl)
        obtain ⟨learned, hlearned, hnewer⟩ := gather_newest rest
          (gatherOne state (some (.table peer))) (Or.inl hpick)
        exact ⟨learned, hlearned, hle.trans hnewer⟩
      · exact gather_newest rest _ (Or.inr hlater)

end Coordinator

end Nodeakt.Kv
