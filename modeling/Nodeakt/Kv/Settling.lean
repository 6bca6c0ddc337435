import Nodeakt.Kv.Coordinator
import Nodeakt.Kv.Recovery

/-! The end of a fragmentation.

    On a stable view every member holds one table. Its demoted owners drain, then two rebalances run
    with every push answered (`Coordinator.rebalance`): the first one gathers a report of every
    member, the second one prunes by them. A drained owner that is a backup keeps its copy and goes on
    reporting it, an entry may arrive in another partition than it left, and a report arrives without
    the leading mark of its node's name. `settles_iff`: every partition ends with one owner exactly
    when nothing that is left so keeps a demoted owner in the table. -/

namespace Nodeakt.Kv
open Schemes Coordinator JsString List

/-- The coordinator of a view and the other members in view order. -/
structure Cohort where
  coordinator : Coordinator
  followers : List Coordinator

/-- The message a member answers a push with. -/
def PushAnswer.message : PushAnswer → KvMessage
  | .report own => .ownershipReport own
  | .table own => .table own.toWire

/-- The answer in a message, if it is one. -/
def KvMessage.answered : KvMessage → Option PushAnswer
  | .ownershipReport report => some (.report report)
  | .table wire => (RoutingTable.fromWire wire).map .table
  | _ => none

/-- An answer as the coordinator decodes it. -/
def deliveredAnswer (answer : PushAnswer) : Option PushAnswer :=
  (delivered answer.message).bind KvMessage.answered

section Rounds

variable (members : List ClusterMember) (held : JsString → List ℕ)

/-- A follower handles the table it decoded, and its answer arrives. -/
def answerTo (leader : JsString) (pushed : RoutingTable) (follower : Coordinator) :
    Option (PushAnswer × Coordinator) :=
  let result := follower.receive members (held follower.self) leader pushed
  (deliveredAnswer result.1).map (·, result.2)

/-- Pushes a table to every follower, stores the reports and returns the learned table; nothing if
    a push or an answer does not arrive. -/
def pushTo (leader : Coordinator) (followers : List Coordinator) (table : RoutingTable) :
    Option (Option RoutingTable × Cohort) :=
  (deliveredTable table).bind fun pushed =>
    (followers.mapM (answerTo members held leader.self pushed)).map fun results =>
      let gathered := Coordinator.gather (leader.localReport (held leader.self))
        (results.map (fun result => some result.1))
      (gathered.2, ⟨leader.setReports gathered.1, results.map Prod.snd⟩)

/-- One rebalance: recompute and push, and once more from a learned table. -/
def rebalance (cohort : Cohort) : Option Cohort :=
  match cohort.coordinator.recompute members with
  | .error _ => none
  | .ok (table, leader) =>
    match pushTo members held leader cohort.followers table with
    | none => none
    | some (none, pushed) => some pushed
    | some (some learned, pushed) =>
      match (pushed.coordinator.adopt learned).recompute members with
      | .error _ => none
      | .ok (table', leader') => (pushTo members held leader' pushed.followers table').map Prod.snd

/-- Several rebalances in a row. -/
def rebalances : ℕ → Cohort → Option Cohort
  | 0, cohort => some cohort
  | n + 1, cohort => (rebalance members held cohort).bind (rebalances n)

/-- The reports the coordinator has after a push: its own, and those of the followers as they
    arrive. -/
def reportsFrom (leader : JsString) (followers : List JsString) : List OwnershipReport :=
  ⟨leader, held leader⟩ :: followers.map (fun name => ⟨arriving name, held name⟩)

/-- The name under which the coordinator has a member's report. -/
def reportedName (leader name : JsString) : JsString := if name = leader then name else arriving name

/-- Whether evolving a table onto the ring under the reports keeps its owners. -/
def Unchanged (ring : PartitionRing) (live : List JsString) (reports : List OwnershipReport)
    (table : RoutingTable) : Prop :=
  sameOwners table (RoutingTable.evolved (some table) ring reports 0 live) = true

end Rounds

/-- Every member of a stable view holds `table`. -/
structure HoldsTable (members : List ClusterMember) (ring : PartitionRing) (cohort : Cohort)
    (table : RoutingTable) : Prop where
  ring_eq : PartitionRing.new (assignableNames members) cohort.coordinator.partitionCount = .ok ring
  leads : coordinatorName members = some cohort.coordinator.self
  named : cohort.followers.map Coordinator.self = cohort.coordinator.targets members
  count : table.partitionCount = cohort.coordinator.partitionCount
  holds : cohort.coordinator.table = some table
  follows : ∀ f ∈ cohort.followers, f.table = some table
  version : cohort.coordinator.maxVersion = table.version

/-- A table with its ring on every member, and the moves of every demoted owner. -/
structure Demoted (members : List ClusterMember) (ring : PartitionRing) (cohort : Cohort)
    (table : RoutingTable) (moves : List (JsString × ℕ)) : Prop where
  agreed : HoldsTable members ring cohort table
  matching : ∀ id < ring.partitionCount, table.primary id = ring.primary id
  moves_iff : ∀ name id,
    (name, id) ∈ moves ↔ name ∈ liveNames members ∧ id ∈ drainPartitions name table

/-- Every member holds one table with exactly one owner for every partition. -/
def Settled (cohort : Cohort) : Prop :=
  ∃ table, cohort.coordinator.table = some table ∧ (∀ f ∈ cohort.followers, f.table = some table) ∧
    ∀ id < cohort.coordinator.partitionCount, (table.owners id).length = 1

/-- The owners the coordinator goes on sending have no mark, if there is somebody to send them to:
    the primaries, and the live ones that the reports do not clear. -/
def SendsUnmarked (members : List ClusterMember) (cohort : Cohort) (table : RoutingTable) : Prop :=
  cohort.followers = [] ∨ ∀ id < table.partitionCount, ∀ name ∈ table.owners id,
    name = table.primary id ∨
        name ∈ liveNames members ∧ ¬ Omits cohort.coordinator.reports name id →
      name.head? ≠ some byteOrderMark

/-- Whatever remains of a partition at a node that reports as a demoted owner, the stored reports
    clear that owner. -/
def Cleared (members : List ClusterMember) (ring : PartitionRing) (cohort : Cohort)
    (table : RoutingTable) (replicaCount : ℕ) (engines : JsString → Engine)
    (moves : List (JsString × ℕ)) : Prop :=
  ∀ id < ring.partitionCount, ∀ name ∈ table.owners id, name ≠ table.primary id →
    name ∈ liveNames members → ∀ member ∈ liveNames members,
      reportedName cohort.coordinator.self member = name →
      Remains table ring replicaCount engines moves member id →
      Omits cohort.coordinator.reports name id

instance (members : List ClusterMember) (ring : PartitionRing) (cohort : Cohort)
    (table : RoutingTable) (replicaCount : ℕ) (engines : JsString → Engine)
    (moves : List (JsString × ℕ)) :
    Decidable (Cleared members ring cohort table replicaCount engines moves) :=
  inferInstanceAs (Decidable (∀ id < _, ∀ name ∈ table.owners id, _))

variable {members : List ClusterMember} {held : JsString → List ℕ} {ring : PartitionRing}
  {cohort next : Cohort} {table pushed : RoutingTable}

/-- The owners the next table gives a partition under the stored reports. -/
abbrev nextOwners (members : List ClusterMember) (ring : PartitionRing) (cohort : Cohort)
    (table : RoutingTable) (id : ℕ) : List JsString :=
  RoutingTable.evolveOwners (some table) ring (aggregateReports cohort.coordinator.reports)
    (liveNames members) id

/-- None of them has a mark, if there is somebody to send them to. -/
def RowsUnmarked (members : List ClusterMember) (ring : PartitionRing) (cohort : Cohort)
    (table : RoutingTable) : Prop :=
  cohort.followers = [] ∨ ∀ id < ring.partitionCount, ∀ owner ∈ nextOwners members ring cohort table id,
    owner.head? ≠ some byteOrderMark

/-- What a fully answered push leaves of the cohort: its names, and a report of every member. -/
structure Reported (held : JsString → List ℕ) (cohort next : Cohort) : Prop where
  self : next.coordinator.self = cohort.coordinator.self
  named : next.followers.map Coordinator.self = cohort.followers.map Coordinator.self
  reports : next.coordinator.reports = reportsFrom held cohort.coordinator.self
    (cohort.followers.map Coordinator.self)

/-! ### One push -/

theorem informs_self (table : RoutingTable) : informs table table = false := by
  rw [← Bool.not_eq_true, informs_iff]
  simp [sameOwners_refl]

theorem gather_all_reports : ∀ (reports : List OwnershipReport)
    (state : List OwnershipReport × Option RoutingTable),
    (reports.map (fun report => some (PushAnswer.report report))).foldl gatherOne state =
      (state.1 ++ reports, state.2)
  | [], state => by simp
  | report :: rest, state => by
      rw [map_cons, foldl_cons, gather_all_reports rest]
      simp [gatherOne]

theorem deliveredAnswer_report {report : OwnershipReport} {answer : PushAnswer}
    (h : deliveredAnswer (.report report) = some answer) :
    answer = .report (report.mapText arriving) := by
  obtain ⟨message, hmessage, hanswered⟩ := Option.bind_eq_some_iff.mp h
  rw [← delivered_eq_some hmessage] at hanswered
  exact (Option.some.inj hanswered).symm

/-- A follower that is pushed its own table or a newer one holds it then, and reports. -/
theorem receive_common {leader : JsString} (hleads : coordinatorName members = some leader)
    {follower : Coordinator} (hholds : follower.table = some table)
    (hpushed : pushed = table ∨ table.version < pushed.version) (partitions : List ℕ) :
    ∃ node, follower.receive members partitions leader pushed =
        (.report ⟨follower.self, partitions⟩, node) ∧
      node.table = some pushed ∧ node.self = follower.self := by
  have hnode : ∃ node, follower.handleTable members leader pushed = node ∧
      node.table = some pushed ∧ node.self = follower.self := by
    refine ⟨_, rfl, ?_⟩
    rw [handleTable, hholds, isNewer, RoutingTable.supersedes]
    split_ifs with hnewer
    · exact ⟨rfl, rfl⟩
    · rcases hpushed with rfl | hlt
      · exact ⟨hholds, rfl⟩
      · exact absurd ⟨hleads, decide_eq_true hlt⟩ hnewer
  obtain ⟨node, hhandled, htable, hself⟩ := hnode
  refine ⟨node, ?_, htable, hself⟩
  simp only [receive, hhandled, htable, informs_self, Bool.false_eq_true, if_false, localReport,
    hself]

/-- All followers together. -/
theorem mapM_answerTo {leader : JsString} (hleads : coordinatorName members = some leader)
    (hpushed : pushed = table ∨ table.version < pushed.version) :
    ∀ {followers : List Coordinator} {results : List (PushAnswer × Coordinator)},
      (∀ f ∈ followers, f.table = some table) →
      followers.mapM (answerTo members held leader pushed) = some results →
      results.map (fun result => some result.1) = ((followers.map Coordinator.self).map
          (fun name => OwnershipReport.mk (arriving name) (held name))).map
            (fun report => some (PushAnswer.report report)) ∧
        (results.map Prod.snd).map Coordinator.self = followers.map Coordinator.self ∧
        ∀ f ∈ results.map Prod.snd, f.table = some pushed
  | [], results, _, h => by
      cases h
      simp
  | follower :: rest, results, hholds, h => by
      rw [mapM_cons] at h
      obtain ⟨result, hresult, h⟩ := Option.bind_eq_some_iff.mp h
      obtain ⟨others, hothers, h⟩ := Option.bind_eq_some_iff.mp h
      cases h
      obtain ⟨node, hreceive, htable, hself⟩ :=
        receive_common hleads (hholds follower (mem_cons_self ..)) hpushed (held follower.self)
      obtain ⟨answer, hanswer, rfl⟩ := Option.map_eq_some_iff.mp hresult
      rw [hreceive] at hanswer ⊢
      obtain ⟨hreports, hselves, hfollow⟩ :=
        mapM_answerTo hleads hpushed (fun f hf => hholds f (mem_cons_of_mem _ hf)) hothers
      refine ⟨?_, ?_, ?_⟩
      · rw [map_cons, hreports, deliveredAnswer_report hanswer]
        rfl
      · rw [map_cons, map_cons, hselves, hself, map_cons]
      · rintro f hf
        rcases mem_cons.mp hf with rfl | hf
        · exact htable
        · exact hfollow f hf

/-- A recompute keeps a table that evolving does not change, and otherwise authors above it. -/
theorem recompute_some {node : Coordinator}
    (hring : PartitionRing.new (assignableNames members) node.partitionCount = .ok ring)
    (htable : node.table = some table) (hcount : table.partitionCount = node.partitionCount) :
    Unchanged ring (liveNames members) node.reports table ∧
        node.recompute members = .ok (table, node) ∨
      ∃ candidate, candidate.version = node.maxVersion + 1 ∧
        candidate.partitionCount = node.partitionCount ∧
        (∀ id < ring.partitionCount, candidate.owners id = RoutingTable.evolveOwners (some table)
          ring (aggregateReports node.reports) (liveNames members) id) ∧
        node.recompute members = .ok (candidate, node.adopt candidate) := by
  have hcounts : ∀ t, node.table = some t → t.partitionCount = node.partitionCount := by
    intro t ht
    cases (ht.symm.trans htable)
    exact hcount
  rw [recompute_eq hring hcounts, author, htable]
  by_cases hsame : Unchanged ring (liveNames members) node.reports table
  · exact Or.inl ⟨hsame, congrArg Except.ok (if_pos hsame)⟩
  · refine Or.inr ⟨RoutingTable.evolved (some table) ring node.reports
      (node.maxVersion + 1) (liveNames members), rfl, ?_, fun _ => RoutingTable.owners_evolved,
      congrArg Except.ok (if_neg hsame)⟩
    rw [RoutingTable.partitionCount_evolved, (PartitionRing.new_eq_ok hring).2]

namespace HoldsTable

section

variable (h : HoldsTable members ring cohort table)
include h

theorem ring_partitionCount : ring.partitionCount = cohort.coordinator.partitionCount :=
  (PartitionRing.new_eq_ok h.ring_eq).2

theorem leader_live : cohort.coordinator.self ∈ liveNames members := by
  obtain ⟨member, hhead, hname⟩ := Option.map_eq_some_iff.mp h.leads
  exact mem_liveNames.mpr ⟨member, mem_of_mem_head? hhead, hname⟩

/-- The followers are the live members but the coordinator. -/
theorem mem_followers {name : JsString} : name ∈ cohort.followers.map Coordinator.self ↔
    name ∈ liveNames members ∧ name ≠ cohort.coordinator.self := by
  rw [h.named, Coordinator.targets, mem_liveNames]
  constructor
  · intro hname
    obtain ⟨member, hmember, rfl⟩ := mem_map.mp hname
    obtain ⟨hin, hne⟩ := mem_filter.mp hmember
    exact ⟨⟨member, hin, rfl⟩, of_decide_eq_true hne⟩
  · rintro ⟨⟨member, hin, rfl⟩, hne⟩
    exact mem_map_of_mem (mem_filter.mpr ⟨hin, decide_eq_true hne⟩)

/-- When everybody reports, an owner is cleared exactly when a member reports under its name and
    none that does holds the partition. -/
theorem omits_reportsFrom {name : JsString} {id : ℕ} :
    Omits (reportsFrom held cohort.coordinator.self (cohort.followers.map Coordinator.self)) name
        id ↔
      (∃ member ∈ liveNames members, reportedName cohort.coordinator.self member = name) ∧
        ∀ member ∈ liveNames members, reportedName cohort.coordinator.self member = name →
          id ∉ held member := by
  have hmem : ∀ report, report ∈ reportsFrom held cohort.coordinator.self
      (cohort.followers.map Coordinator.self) ↔ ∃ member ∈ liveNames members,
        ⟨reportedName cohort.coordinator.self member, held member⟩ = report := by
    intro report
    rw [reportsFrom, mem_cons, mem_map]
    constructor
    · rintro (rfl | ⟨member, hmember, rfl⟩)
      · exact ⟨_, h.leader_live, by rw [reportedName, if_pos rfl]⟩
      · obtain ⟨hlive, hne⟩ := h.mem_followers.mp hmember
        exact ⟨member, hlive, by rw [reportedName, if_neg hne]⟩
    · rintro ⟨member, hlive, rfl⟩
      by_cases hself : member = cohort.coordinator.self
      · rw [reportedName, if_pos hself, hself]
        exact Or.inl rfl
      · rw [reportedName, if_neg hself]
        exact Or.inr ⟨member, h.mem_followers.mpr ⟨hlive, hself⟩, rfl⟩
  simp only [Omits, hmem, exists_exists_and_eq_and, forall_exists_index, and_imp,
    forall_apply_eq_imp_iff₂]

/-- A fully answered push of the common table, or of a newer one, ends with every report and on that
    table. -/
theorem push {leader : Coordinator} {learned : Option RoutingTable}
    (hself : leader.self = cohort.coordinator.self)
    (hcount : leader.partitionCount = cohort.coordinator.partitionCount)
    (hholds : leader.table = some pushed) (hversion : leader.maxVersion = pushed.version)
    (hpushed : pushed = table ∨ table.version < pushed.version)
    (hsame : pushed.partitionCount = table.partitionCount)
    (hunmarked : cohort.followers = [] ∨ ∀ id < pushed.partitionCount, ∀ owner ∈ pushed.owners id,
      owner.head? ≠ some byteOrderMark)
    (hpush : pushTo members held leader cohort.followers pushed = some (learned, next)) :
    learned = none ∧ HoldsTable members ring next pushed ∧ Reported held cohort next := by
  have hleads : coordinatorName members = some leader.self := by rw [hself, h.leads]
  obtain ⟨arrived, harrived, hpush⟩ := Option.bind_eq_some_iff.mp hpush
  obtain ⟨results, hresults, hpush⟩ := Option.map_eq_some_iff.mp hpush
  have hanswers : cohort.followers.mapM (answerTo members held leader.self pushed) = some results := by
    rcases hunmarked with hnone | hunmarked
    · rw [hnone] at hresults ⊢
      exact hresults
    · rwa [eq_of_deliveredTable harrived hunmarked] at hresults
  obtain ⟨hreports, hselves, hfollows⟩ := mapM_answerTo hleads hpushed h.follows hanswers
  rw [Coordinator.gather, hreports, gather_all_reports] at hpush
  cases hpush
  refine ⟨rfl, ⟨?_, hleads, ?_, ?_, hholds, hfollows, hversion⟩, ⟨hself, hselves, ?_⟩⟩
  · exact hcount ▸ h.ring_eq
  · rw [hselves, h.named, Coordinator.targets, Coordinator.targets, ← hself]
    rfl
  · exact (hsame.trans h.count).trans hcount.symm
  · simp [setReports, localReport, reportsFrom, hself]

/-- A round on a common table ends on one common table again, evolved by the stored reports, with
    every member's report stored as it arrived. -/
theorem round (hround : rebalance members held cohort = some next)
    (hunmarked : RowsUnmarked members ring cohort table) :
    ∃ table', HoldsTable members ring next table' ∧ Reported held cohort next ∧
      ∀ id < ring.partitionCount, table'.owners id = nextOwners members ring cohort table id := by
  have hring := h.ring_partitionCount
  have hpush : ∀ {leader : Coordinator} {pushed : RoutingTable},
      cohort.coordinator.recompute members = .ok (pushed, leader) →
      ∃ learned after, pushTo members held leader cohort.followers pushed = some (learned, after) ∧
        (learned = none → after = next) := by
    intro leader pushed hrecompute
    simp only [rebalance, hrecompute] at hround
    split at hround
    · cases hround
    · rename_i after hafter
      exact ⟨none, after, hafter, fun _ => Option.some.inj hround⟩
    · rename_i learned after hafter
      exact ⟨some learned, after, hafter, nofun⟩
  rcases recompute_some h.ring_eq h.holds h.count with
    ⟨hsame, hrecompute⟩ | ⟨candidate, hversion, hcount, howners, hrecompute⟩
  · have hrows : ∀ id < ring.partitionCount,
        table.owners id = nextOwners members ring cohort table id := by
      intro id hid
      rw [sameOwners_iff.mp hsame id (by rw [h.count, ← hring]; exact hid),
        RoutingTable.owners_evolved hid]
    obtain ⟨learned, after, hafter, hlast⟩ := hpush hrecompute
    obtain ⟨hlearned, hnext⟩ := h.push rfl rfl h.holds h.version (Or.inl rfl) rfl
      (hunmarked.imp_right fun hrow id hid => by
        rw [h.count, ← hring] at hid
        exact hrows id hid ▸ hrow id hid) hafter
    obtain rfl := hlast hlearned
    exact ⟨table, hnext.1, hnext.2, hrows⟩
  · have hnewer : table.version < candidate.version := by
      rw [hversion, h.version]
      exact Nat.lt_succ_self _
    obtain ⟨learned, after, hafter, hlast⟩ := hpush hrecompute
    have hrows : cohort.followers = [] ∨ ∀ id < candidate.partitionCount, ∀ owner ∈
        candidate.owners id, owner.head? ≠ some byteOrderMark := by
      refine hunmarked.imp_right fun hrow id hid => ?_
      rw [hcount, ← hring] at hid
      exact howners id hid ▸ hrow id hid
    obtain ⟨hlearned, hnext⟩ := @push _ held _ _ _ _ _ h (cohort.coordinator.adopt candidate) _
      rfl rfl rfl rfl (Or.inr hnewer) (hcount.trans h.count.symm) hrows hafter
    obtain rfl := hlast hlearned
    exact ⟨candidate, hnext.1, hnext.2, howners⟩

end

end HoldsTable

/-- Who an evolved row lists. -/
theorem mem_evolveOwners {reports : List OwnershipReport} {live : List JsString} {name : JsString}
    {id : ℕ} : name ∈ RoutingTable.evolveOwners (some table) ring (aggregateReports reports) live id ↔
      (name ∈ table.owners id ∧ name ≠ ring.primary id ∧ name ∈ live ∧ ¬ Omits reports name id) ∨
        name = ring.primary id := by
  rw [RoutingTable.evolveOwners, mem_append, mem_singleton, mem_filter, isRetained_iff]

/-! ### Settling -/

section Settling

variable {engines drained : JsString → Engine} {moves : List (JsString × ℕ)} {final : Cohort}
  {replicaCount : ℕ} (h : Demoted members ring cohort table moves)
include h

/-- The next table's owners have no mark when those that go on being sent have none. -/
theorem Demoted.unmarked_rows (hnames : SendsUnmarked members cohort table) :
    RowsUnmarked members ring cohort table := by
  refine hnames.imp_right fun hrows id hid owner howner => ?_
  have hlt : id < table.partitionCount := by
    rw [h.agreed.count, ← h.agreed.ring_partitionCount]
    exact hid
  rcases mem_evolveOwners.mp howner with ⟨hmem, -, hlive, homits⟩ | rfl
  · exact hrows id hlt owner hmem (Or.inr ⟨hlive, homits⟩)
  · rw [← h.matching id hid]
    exact hrows id hlt _ (table.primary_mem_owners hlt) (Or.inl rfl)

/-- Two rounds with unchanged stores end on one common table that keeps, besides the ring's
    primary, the live owners that the stored reports do not clear and under whose name a member
    reports the partition. -/
theorem Demoted.two_rounds (hnames : SendsUnmarked members cohort table)
    (hrun : rebalances members held 2 cohort = some final) :
    ∃ table', HoldsTable members ring final table' ∧
      ∀ id < ring.partitionCount, ∃ retained, table'.owners id = retained ++ [ring.primary id] ∧
        ∀ name, name ∈ retained ↔ name ∈ table.owners id ∧ name ≠ ring.primary id ∧
          name ∈ liveNames members ∧ ¬ Omits cohort.coordinator.reports name id ∧
          ∃ member ∈ liveNames members, reportedName cohort.coordinator.self member = name ∧
            id ∈ held member := by
  obtain ⟨first, hfirst, hrun⟩ := Option.bind_eq_some_iff.mp hrun
  obtain ⟨second, hsecond, hrun⟩ := Option.bind_eq_some_iff.mp hrun
  cases hrun
  have hrows := h.unmarked_rows hnames
  obtain ⟨table₁, hholds₁, hreported, howners₁⟩ := h.agreed.round hfirst hrows
  have hrows₁ : RowsUnmarked members ring first table₁ := by
    refine hrows.imp (fun hnone => ?_) fun hrow id hid owner howner => hrow id hid owner ?_
    · have hselves := hreported.named
      rw [hnone, map_nil] at hselves
      exact map_eq_nil_iff.mp hselves
    · rcases mem_evolveOwners.mp howner with ⟨hmem, -⟩ | rfl
      · rwa [howners₁ id hid] at hmem
      · exact mem_evolveOwners.mpr (Or.inr rfl)
  obtain ⟨table₂, hholds₂, -, howners₂⟩ := hholds₁.round hsecond hrows₁
  refine ⟨table₂, hholds₂, fun id hid => ⟨_, howners₂ id hid, fun name => ?_⟩⟩
  rw [mem_filter, isRetained_iff, hreported.reports, h.agreed.omits_reportsFrom, howners₁ id hid,
    mem_evolveOwners]
  constructor
  · rintro ⟨hmem, hne, hlive, hkept⟩
    obtain ⟨howner, -, -, homits⟩ := hmem.resolve_right hne
    refine ⟨howner, hne, hlive, homits, ?_⟩
    -- the owner itself reports under its name, so only the second half can fail
    have hspoke : reportedName cohort.coordinator.self name = name := by
      rw [reportedName, ite_eq_left_iff]
      intro hother
      have hfollower := h.agreed.mem_followers.mpr ⟨hlive, hother⟩
      rcases hrows with hnone | hrow
      · rw [hnone] at hfollower
        cases hfollower
      · exact arriving_eq_self (hrow id hid name
          (mem_evolveOwners.mpr (Or.inl ⟨howner, hne, hlive, homits⟩)))
    rw [not_and, not_forall] at hkept
    obtain ⟨member, hmember⟩ := hkept ⟨name, hlive, hspoke⟩
    push Not at hmember
    exact ⟨member, hmember⟩
  · rintro ⟨howner, hne, hlive, homits, member, hmember, hname, hheld⟩
    exact ⟨Or.inl ⟨howner, hne, hlive, homits⟩, hne, hlive,
      fun hcleared => hcleared.2 member hmember hname hheld⟩

variable (hnames : SendsUnmarked members cohort table)
  (hdrained : drainAll table ring replicaCount engines moves = some drained)
  (hrun : rebalances members (fun name => (drained name).heldPartitions) 2 cohort = some final)
include hnames hdrained hrun

/-- The rows of the final table. -/
theorem Demoted.final_rows : ∃ table', HoldsTable members ring final table' ∧
    ∀ id < ring.partitionCount, ∃ retained, table'.owners id = retained ++ [ring.primary id] ∧
      ∀ name, name ∈ retained ↔ name ∈ table.owners id ∧ name ≠ table.primary id ∧
        name ∈ liveNames members ∧ ¬ Omits cohort.coordinator.reports name id ∧
        ∃ member ∈ liveNames members, reportedName cohort.coordinator.self member = name ∧
          Remains table ring replicaCount engines moves member id := by
  have hmoved : ∀ move ∈ moves, table.primary move.2 ≠ move.1 :=
    fun move hm => (mem_drainPartitions.mp ((h.moves_iff move.1 move.2).mp hm).2).2.1
  obtain ⟨table', hholds, hrows⟩ := h.two_rounds hnames hrun
  refine ⟨table', hholds, fun id hid => ?_⟩
  obtain ⟨retained, hrow, hretained⟩ := hrows id hid
  simp only [mem_held_drainAll hmoved hdrained, ← h.matching id hid] at hretained
  exact ⟨retained, hrow, hretained⟩

theorem Demoted.cleared_of_settled (hsettled : Settled final) :
    Cleared members ring cohort table replicaCount engines moves := by
  intro id hid name howner hne hlive member hmember hname hremains
  obtain ⟨table', hholds, hrows⟩ := h.final_rows hnames hdrained hrun
  obtain ⟨settled, htable, -, hsingle⟩ := hsettled
  cases (hholds.holds.symm.trans htable)
  obtain ⟨retained, hrow, hretained⟩ := hrows id hid
  by_contra homits
  have hmem : name ∈ retained :=
    (hretained name).mpr ⟨howner, hne, hlive, homits, member, hmember, hname, hremains⟩
  have hlen := hsingle id (hholds.ring_partitionCount ▸ hid)
  rw [hrow, length_append, length_singleton, Nat.add_eq_right, length_eq_zero_iff] at hlen
  rw [hlen] at hmem
  cases hmem

theorem Demoted.settled_of_cleared
    (hcleared : Cleared members ring cohort table replicaCount engines moves) : Settled final := by
  obtain ⟨table', hholds, hrows⟩ := h.final_rows hnames hdrained hrun
  refine ⟨table', hholds.holds, hholds.follows, fun id hid => ?_⟩
  rw [← hholds.ring_partitionCount] at hid
  obtain ⟨retained, hrow, hretained⟩ := hrows id hid
  have hnil : retained = [] := by
    refine eq_nil_iff_forall_not_mem.mpr fun name hmem => ?_
    obtain ⟨howner, hne, hlive, homits, member, hmember, hname, hremains⟩ := (hretained name).mp hmem
    exact homits (hcleared id hid name howner hne hlive member hmember hname hremains)
  rw [hrow, hnil]
  rfl

end Settling

/-- The view of `a`, `b` and `c`, oldest first. -/
def viewABC : List ClusterMember := [⟨[97], false⟩, ⟨[98], false⟩, ⟨[99], false⟩]

/-- The partition moving from `b` to `c`. -/
def tableBC : RoutingTable := ⟨1, [[[98], [99]]], by decide⟩

/-- Coordinator `a` and followers `b` and `c` with that table. -/
def cohortABC : Cohort := ⟨⟨[97], 1, some tableBC, 1, []⟩,
    [⟨[98], 1, some tableBC, 1, []⟩, ⟨[99], 1, some tableBC, 1, []⟩]⟩

/-- Stores of which only `b`'s holds the partition, written there while `b` was its primary. -/
def writtenByB (name : JsString) : Engine := if name = [98] then
    ((Engine.create name 1 Nat.one_pos).write (.put [107] [1] .none none) 0 0).2
  else Engine.create name 1 Nat.one_pos

/-- The partition has moved from `b` to `c` on a view of three, and `b` drains it. -/
theorem demoted_tableBC : Demoted viewABC ringABC cohortABC tableBC [([98], 0)] where
  agreed := ⟨rfl, rfl, rfl, rfl, rfl, by decide, rfl⟩
  matching := by decide +kernel
  moves_iff := by
    intro name id
    rw [mem_singleton, Prod.mk.injEq]
    constructor
    · rintro ⟨rfl, rfl⟩
      exact ⟨by decide, by decide⟩
    · rintro ⟨hlive, hdrain⟩
      obtain rfl : id = 0 := Nat.lt_one_iff.mp (mem_drainPartitions.mp hdrain).1
      have hone : ∀ name ∈ liveNames viewABC, 0 ∈ drainPartitions name tableBC → name = [98] := by
        decide
      exact ⟨hone name hlive hdrain, rfl⟩

end Nodeakt.Kv
