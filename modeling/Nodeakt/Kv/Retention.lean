import Nodeakt.Schemes.Run
import Nodeakt.Kv.Engine
import Nodeakt.Kv.Coordinator

/-! Keeping demoted owners that still hold data.

    One coordinator authors tables from its changing view while its pushes are answered or lost and
    the members accept writes under the table they hold and drain the partitions they lost. Retention
    is decided from the reports of the last push, which may predate a write. `retains_holders`: as
    long as no stored report omits a partition its node wrote to and holds, no such node returns
    from an absence, and only owners of the newest table accept writes, every table lists the members
    that hold what they accepted. -/

namespace Nodeakt.Kv
open Schemes Coordinator List Function Engine

variable {world world' : TableRun}

/-- A push awaiting its answers. -/
structure Push where
  table : RoutingTable
  members : List ClusterMember
  targets : List JsString
  own : OwnershipReport
  answers : List (JsString × PushAnswer)
  again : Bool

/-- The reports a push was answered with, and the newest table. -/
def Push.gathered (push : Push) : List OwnershipReport × Option RoutingTable :=
  gather push.own (push.targets.map (fun name => OrderedMap.assoc name push.answers))

/-- The table a settled push is re-authored from, once. -/
def Push.learned (push : Push) : Option RoutingTable :=
  if push.again then none else push.gathered.2

/-- Recomputes from `members` and starts a push; a recompute that throws ends the rebalance. -/
def Coordinator.startPush (node : Coordinator) (members : List ClusterMember) (held : List ℕ)
    (again : Bool) : Option (Push × Coordinator) :=
  match node.recompute members with
  | .error _ => none
  | .ok (table, node) =>
    some (⟨table, members, node.targets members, node.localReport held, [], again⟩, node)

theorem Coordinator.startPush_eq_some {node node' : Coordinator} {members : List ClusterMember}
    {held : List ℕ} {again : Bool} {push : Push}
    (h : node.startPush members held again = some (push, node')) :
    ∃ table, node.recompute members = .ok (table, node') ∧
      push = ⟨table, members, node'.targets members, node'.localReport held, [], again⟩ := by
  unfold startPush at h
  split at h
  · cases h
  · rename_i hrecompute
    cases h
    exact ⟨_, hrecompute, rfl⟩

/-- An authored table with the members live at that moment, and who then held a partition it had
    accepted a write for. -/
structure Authored where
  table : RoutingTable
  live : List JsString
  keeping : List (JsString × ℕ)
  deriving DecidableEq

/-- One coordinator `me` among the nodes it pushes to. `accepted` lists the writes accepted as
    primary, `lapsed` the nodes a recompute missed while they held such a write. -/
structure TableRun where
  me : JsString
  nodes : JsString → Coordinator
  engines : JsString → Engine
  view : List ClusterMember
  push : Option Push
  authored : List Authored
  accepted : List (JsString × ℕ)
  lapsed : List JsString

/-- What can happen. A delivered push may still lose its answer. -/
inductive TableEvent where
  | view (members : List ClusterMember)
  | rebalance
  | deliver (name : JsString) (members : List ClusterMember) (answered : Bool)
  | finish
  | write (name : JsString) (op : WriteOp) (nowMs physical : Millis)
  | drain (name : JsString) (partition : ℕ)

namespace TableRun

/-- A cluster of fresh nodes around the coordinator `me`. -/
def create (me : JsString) (partitionCount : ℕ) (positive : 0 < partitionCount) : TableRun where
  me := me
  nodes := fun name => Coordinator.create name partitionCount
  engines := fun name => Engine.create name partitionCount positive
  view := []
  push := none
  authored := []
  accepted := []
  lapsed := []

section

variable (world)

/-- The coordinator under study. -/
def author : Coordinator := world.nodes world.me

/-- The accepted writes whose partition their node still holds. -/
def keeping : List (JsString × ℕ) :=
  world.accepted.filter (fun np => np.2 ∈ (world.engines np.1).heldPartitions)

/-- The coordinator starts a push. -/
def begin (members : List ClusterMember) (again : Bool) : TableRun :=
  match world.author.startPush members (world.engines world.me).heldPartitions again with
  | none => { world with push := none }
  | some (push, node) =>
    { world with
      nodes := Function.update world.nodes world.me node
      push := some push
      authored := if world.author.table = some push.table then world.authored
        else ⟨push.table, liveNames members, world.keeping⟩ :: world.authored
      lapsed := world.lapsed ++
        (world.keeping.map Prod.fst).filter (fun name => name ∉ liveNames members) }

/-- Stores what the push gathered; a learned table is adopted and re-authored. -/
def settle (push : Push) : TableRun :=
  let node := world.author.setReports push.gathered.1
  let idle := { world with nodes := Function.update world.nodes world.me node, push := none }
  match push.learned with
  | some learned =>
    begin { idle with nodes := Function.update world.nodes world.me (node.adopt learned) }
      push.members true
  | none => idle

/-- A member receives the push under its own view and answers it, or the answer is lost. -/
def deliver (push : Push) (name : JsString) (members : List ClusterMember)
    (answered : Bool) : TableRun :=
  let received := (world.nodes name).receive members (world.engines name).heldPartitions world.me
    push.table
  { world with
    nodes := Function.update world.nodes name received.2
    push := some { push with
        answers := if answered then push.answers ++ [(name, received.1)] else push.answers } }

/-- A node writes as the primary of its table. -/
def write (name : JsString) (op : WriteOp) (nowMs physical : Millis) : TableRun :=
  match (world.engines name).write op nowMs physical with
  | (.ok (.applied _), engine) =>
    { world with
      engines := Function.update world.engines name engine
      accepted := (name, engine.partitionFor op.key) :: world.accepted }
  | _ => world

/-- One event. -/
def step : TableEvent → Option TableRun
  | .view members => some { world with view := members }
  | .rebalance =>
    if world.push.isSome then none
    else if coordinatorName world.view = some world.me then some (world.begin world.view false)
    else some world
  | .deliver name members answered =>
    match world.push with
    | some push =>
      if name ∈ push.targets ∧ name ∉ push.answers.map Prod.fst then
        some (world.deliver push name members answered)
      else none
    | none => none
  | .finish => world.push.map world.settle
  | .write name op nowMs physical =>
    match (world.nodes name).table with
    | some table =>
      if table.primary ((world.engines name).partitionFor op.key) = name then
        some (world.write name op nowMs physical)
      else none
    | none => none
  | .drain name partition =>
    match (world.nodes name).table with
    | some table =>
      if name ∈ table.previousOwners partition then
        some { world with
          engines := Function.update world.engines name ((world.engines name).drop partition) }
      else none
    | none => none

/-- No stored report omits a partition its node wrote to, holds and is no longer the primary of on
    the ring of the view. -/
def FreshReports : Prop :=
  match PartitionRing.new (assignableNames world.view) world.author.partitionCount with
  | .ok ring => ∀ np ∈ world.keeping,
      np.1 = ring.primary np.2 ∨ ¬ Omits world.author.reports np.1 np.2
  | .error _ => True

instance : Decidable world.FreshReports := by
  unfold FreshReports
  split <;> infer_instance

/-- When an event reads only fresh evidence: a recompute has fresh reports and finds no node that
    was missed before, a write is accepted by an owner of the newest table. -/
def Informed : TableEvent → Prop
  | .rebalance => world.FreshReports ∧ ∀ name ∈ liveNames world.view, name ∉ world.lapsed
  | .write name op _ _ =>
    ∀ table ∈ world.author.table, name ∈ table.owners ((world.engines name).partitionFor op.key)
  | _ => True

instance (event) : Decidable (world.Informed event) := by
  rcases event <;> dsimp only [Informed] <;> infer_instance

end

/-! ### One author -/

/-- Only `me` authors: every table held is its current one or older, and a push in flight carries
    the current table and is answered by reports. -/
structure SoleAuthor (world : TableRun) : Prop where
  named : world.author.self = world.me
  versioned : ∀ table, world.author.table = some table → world.author.maxVersion = table.version
  counted : ∀ table, world.author.table = some table →
    table.partitionCount = world.author.partitionCount
  followed : ∀ name table, (world.nodes name).table = some table →
    ∃ current, world.author.table = some current ∧
      (table = current ∨ table.version < current.version)
  pushed : ∀ push, world.push = some push → world.author.table = some push.table ∧
    world.me ∉ push.targets ∧ ∀ answer ∈ push.answers, ∃ report, answer.2 = .report report

theorem soleAuthor_create (me : JsString) (partitionCount : ℕ) (positive : 0 < partitionCount) :
    SoleAuthor (create me partitionCount positive) := by
  constructor <;> simp [create, author, Coordinator.create]

section

variable (h : SoleAuthor world)
include h

/-- A recompute authors above every table held. -/
theorem SoleAuthor.begin (members : List ClusterMember) (again : Bool) :
    SoleAuthor (world.begin members again) := by
  unfold TableRun.begin
  split
  · exact { h with pushed := nofun }
  · rename_i push node hstart
    obtain ⟨table, hrec, rfl⟩ := startPush_eq_some hstart
    obtain ⟨ring, candidate, hring, hcand, hcase⟩ := recompute_cases hrec
    have hcount := (PartitionRing.new_eq_ok hring).2
    have hnext : node.self = world.me ∧ node.table = some table ∧ node.maxVersion = table.version ∧
        table.partitionCount = node.partitionCount ∧
        ∀ name old, (world.nodes name).table = some old →
          old = table ∨ old.version < table.version := by
      rcases hcase with ⟨hsame, -, rfl⟩ | ⟨-, rfl, rfl⟩
      · refine ⟨h.named, hsame, h.versioned _ hsame, h.counted _ hsame, fun name old hold => ?_⟩
        obtain ⟨current, hcur, hle⟩ := h.followed name old hold
        cases (hcur.symm.trans hsame)
        exact hle
      · refine ⟨h.named, rfl, rfl, ?_, fun name old hold => Or.inr ?_⟩
        · rw [hcand, RoutingTable.partitionCount_evolved, hcount]
          rfl
        · obtain ⟨current, hcur, hle⟩ := h.followed name old hold
          rw [hcand, RoutingTable.version_evolved, h.versioned current hcur]
          rcases hle with rfl | hlt <;> omega
    obtain ⟨hself, htable, hversion, hcounted, hfollow⟩ := hnext
    refine ⟨?_, ?_, ?_, fun name old hold => ?_, ?_⟩
    · simpa [author] using hself
    · simpa [author, htable] using hversion
    · simpa [author, htable] using hcounted
    · refine ⟨table, by simpa [author] using htable, ?_⟩
      by_cases hname : name = world.me
      · subst hname
        left
        simpa [htable, eq_comm] using hold
      · exact hfollow name old (by simpa [hname] using hold)
    · simp [author, htable, targets, hself]

/-- A delivered push finds no newer table, so its answer is a report. -/
theorem SoleAuthor.deliver {push : Push} (hpush : world.push = some push)
    {name : JsString} (hname : name ∈ push.targets) (members : List ClusterMember) (answered : Bool)
    : SoleAuthor (world.deliver push name members answered) := by
  obtain ⟨htable, htargets, hanswers⟩ := h.pushed push hpush
  have hne : name ≠ world.me := fun heq => htargets (heq ▸ hname)
  have hauthor : (world.deliver push name members answered).author = world.author := by
    simp [TableRun.deliver, author, hne.symm]
  have hbehind : ∀ table, (world.nodes name).table = some table →
      table = push.table ∨ table.version < push.table.version := by
    intro table hold
    obtain ⟨current, hcur, hle⟩ := h.followed name table hold
    cases (hcur.symm.trans htable)
    exact hle
  obtain ⟨⟨report, hreport⟩, hstill⟩ := receive_report hbehind members
    (world.engines name).heldPartitions world.me
  refine ⟨?_, ?_, ?_, fun n table hold => ?_, fun next hnext => ?_⟩
  · rw [hauthor]; exact h.named
  · rw [hauthor]; exact h.versioned
  · rw [hauthor]; exact h.counted
  · rw [hauthor]
    by_cases hn : n = name
    · subst hn
      exact ⟨push.table, htable, hstill table (by simpa [TableRun.deliver] using hold)⟩
    · exact h.followed n table (by simpa [TableRun.deliver, hn] using hold)
  · cases hnext
    rw [hauthor]
    refine ⟨htable, htargets, fun answer ha => ?_⟩
    cases answered with
    | false => exact hanswers answer ha
    | true =>
      rcases mem_append.mp ha with ha | ha
      · exact hanswers answer ha
      · exact ⟨report, by rw [mem_singleton.mp ha]; exact hreport⟩

/-- A settled push has only reports to store. -/
theorem SoleAuthor.settle_eq {push : Push} (hpush : world.push = some push) :
    ∃ reports, world.settle push = { world with
      nodes := update world.nodes world.me (world.author.setReports reports)
      push := none } := by
  obtain ⟨-, -, hanswers⟩ := h.pushed push hpush
  have hnone : push.gathered.2 = none := by
    refine gather_reports push.own _ (fun table ht => ?_) _
    obtain ⟨name, -, hassoc⟩ := mem_map.mp ht
    obtain ⟨report, hreport⟩ := hanswers _ (OrderedMap.mem_of_assoc hassoc)
    cases hreport
  exact ⟨push.gathered.1, by simp [TableRun.settle, Push.learned, hnone]⟩

theorem SoleAuthor.settle {push : Push} (hpush : world.push = some push)
    : SoleAuthor (world.settle push) := by
  obtain ⟨reports, heq⟩ := h.settle_eq hpush
  rw [heq]
  refine ⟨?_, ?_, ?_, fun name table hold => ?_, by simp⟩
  · simpa [author, setReports] using h.named
  · simpa [author, setReports] using h.versioned
  · simpa [author, setReports] using h.counted
  · have hsame : (world.nodes name).table = some table := by
      by_cases hname : name = world.me
      · subst hname
        simpa [setReports, author] using hold
      · simpa [hname] using hold
    simpa [author, setReports] using h.followed name table hsame

theorem SoleAuthor.step {event : TableEvent} (hstep : world.step event = some world')
    : SoleAuthor world' := by
  cases event with
  | view members =>
    cases hstep
    exact { h with }
  | rebalance =>
    obtain ⟨-, hstep⟩ := Option.ite_none_left_eq_some.mp hstep
    split at hstep
    · cases hstep
      exact h.begin _ _
    · cases hstep
      exact h
  | deliver name members answered =>
    simp only [TableRun.step] at hstep
    split at hstep
    · rename_i push hpush
      obtain ⟨hname, rfl⟩ := of_guarded hstep
      exact h.deliver hpush hname.1 members answered
    · cases hstep
  | finish =>
    obtain ⟨push, hpush, rfl⟩ := Option.map_eq_some_iff.mp hstep
    exact h.settle hpush
  | write name op nowMs physical =>
    simp only [TableRun.step] at hstep
    split at hstep
    · split at hstep
      · cases hstep
        unfold TableRun.write
        split
        · exact { h with }
        · exact h
      · cases hstep
    · cases hstep
  | drain name partition =>
    simp only [TableRun.step] at hstep
    split at hstep
    · split at hstep
      · cases hstep
        exact { h with }
      · cases hstep
    · cases hstep

end

/-! ### Holders stay listed -/

/-- Every node that holds what it accepted, and was never missed, owns it in the current table, and
    every authored table listed the live ones. -/
structure Keeps (world : TableRun) : Prop where
  routed : ∀ name, (world.engines name).store.partitionCount = world.author.partitionCount
  owned : ∀ np ∈ world.keeping, np.1 ∉ world.lapsed →
    ∃ current, world.author.table = some current ∧ np.2 < current.partitionCount ∧
      np.1 ∈ current.owners np.2
  listed : ∀ record ∈ world.authored, ∀ np ∈ record.keeping,
    np.1 ∈ record.live → np.1 ∈ record.table.owners np.2

theorem keeps_create (me : JsString) (partitionCount : ℕ) (positive : 0 < partitionCount) :
    Keeps (create me partitionCount positive) :=
  ⟨fun _ => rfl, by simp [create, keeping], by simp [create]⟩

theorem mem_keeping {np : JsString × ℕ} : np ∈ world.keeping ↔
      np ∈ world.accepted ∧ np.2 ∈ (world.engines np.1).heldPartitions := by
  simp [keeping]

/-- The coordinator may take another state that keeps its table. -/
theorem Keeps.congr (h : Keeps world) {nodes : JsString → Coordinator} {push : Option Push}
    (htable : (nodes world.me).table = world.author.table)
    (hcount : (nodes world.me).partitionCount = world.author.partitionCount) :
    Keeps { world with nodes, push } where
  routed name := (h.routed name).trans hcount.symm
  owned np hnp hlapsed := by
    rw [author, htable]
    exact h.owned np hnp hlapsed
  listed := h.listed

/-- An informed recompute keeps every live holder. -/
theorem Keeps.begin (h : Keeps world) (hsole : SoleAuthor world) (hfresh : world.FreshReports)
    (hmissed : ∀ name ∈ liveNames world.view, name ∉ world.lapsed) (again : Bool) :
    Keeps (world.begin world.view again) := by
  unfold TableRun.begin
  split
  · exact { h with }
  · rename_i push node hstart
    obtain ⟨table, hrec, rfl⟩ := startPush_eq_some hstart
    obtain ⟨ring, candidate, hring, hcand, hcase⟩ := recompute_cases hrec
    have hcount := (PartitionRing.new_eq_ok hring).2
    rw [FreshReports, hring] at hfresh
    -- the table the recompute settles on lists every live holder
    have hlist : ∀ np ∈ world.keeping, np.1 ∈ liveNames world.view →
        np.2 < table.partitionCount ∧ np.1 ∈ table.owners np.2 := by
      intro np hnp hlive
      obtain ⟨current, hcur, hlt, howner⟩ := h.owned np hnp (hmissed _ hlive)
      have hring' : np.2 < ring.partitionCount := by
        rw [hcount, ← hsole.counted current hcur]; exact hlt
      have hkept : np.1 ∈ candidate.owners np.2 := by
        rw [hcand, hcur, RoutingTable.mem_owners_evolved hring']
        exact (hfresh np hnp).imp_right fun hreport => ⟨howner, hlive, hreport⟩
      rcases hcase with ⟨hsame, hrows, -⟩ | ⟨-, rfl, -⟩
      · cases (hcur.symm.trans hsame)
        exact ⟨hlt, by rw [sameOwners_iff.mp hrows np.2 hlt]; exact hkept⟩
      · refine ⟨?_, hkept⟩
        rw [hcand, RoutingTable.partitionCount_evolved]
        exact hring'
    have hnode : node.partitionCount = world.author.partitionCount ∧ node.table = some table := by
      rcases hcase with ⟨hsame, -, rfl⟩ | ⟨-, rfl, rfl⟩
      · exact ⟨rfl, hsame⟩
      · exact ⟨rfl, rfl⟩
    refine ⟨?_, fun np hnp hlapsed => ?_, fun record hrecord np hnp hlive => ?_⟩
    · simpa [author, hnode.1] using h.routed
    · have hnp' : np ∈ world.keeping := hnp
      rw [mem_append, not_or, mem_filter] at hlapsed
      have hlive : np.1 ∈ liveNames world.view := by
        by_contra hgone
        exact hlapsed.2 ⟨mem_map_of_mem hnp', by simpa using hgone⟩
      exact ⟨table, by simpa [author] using hnode.2, hlist np hnp' hlive⟩
    · dsimp only at hrecord
      split at hrecord
      · exact h.listed record hrecord np hnp hlive
      · rcases mem_cons.mp hrecord with rfl | hrecord
        · exact (hlist np hnp hlive).2
        · exact h.listed record hrecord np hnp hlive

/-- A write by an owner of the newest table keeps it. -/
theorem Keeps.write (h : Keeps world) (hsole : SoleAuthor world)
    {name : JsString} {op : WriteOp} {nowMs physical : Millis} {held : RoutingTable}
    (hheld : (world.nodes name).table = some held)
    (howner : ∀ table, world.author.table = some table →
      name ∈ table.owners ((world.engines name).partitionFor op.key)) :
    Keeps (world.write name op nowMs physical) := by
  unfold TableRun.write
  split
  · rename_i entry engine hwrite
    obtain ⟨current, hcur, -⟩ := hsole.followed name held hheld
    have hcountEq : engine.store.partitionCount = (world.engines name).store.partitionCount := by
      have := write_partitionCount (world.engines name) op nowMs physical
      rwa [hwrite] at this
    have hpart : engine.partitionFor op.key = (world.engines name).partitionFor op.key := by
      rw [partitionFor, partitionFor, Store.partitionFor, Store.partitionFor, hcountEq]
    have hlt : (world.engines name).partitionFor op.key < current.partitionCount := by
      rw [hsole.counted current hcur, ← h.routed name]
      exact partitionId_lt _ (world.engines name).store.positive
    refine ⟨fun n => ?_, fun np hnp hlapsed => ?_, h.listed⟩
    · by_cases hn : n = name
      · subst hn
        simpa [hcountEq, author] using h.routed n
      · simpa [hn, author] using h.routed n
    · obtain ⟨hacc, hheld'⟩ := mem_keeping.mp hnp
      by_cases hnew : np = (name, (world.engines name).partitionFor op.key)
      · subst hnew
        exact ⟨current, hcur, hlt, howner current hcur⟩
      · have hold : np ∈ world.accepted := by
          rcases mem_cons.mp hacc with heq | hold
          · exact absurd (heq.trans (by rw [hpart])) hnew
          · exact hold
        refine h.owned np (mem_keeping.mpr ⟨hold, ?_⟩) hlapsed
        by_cases hn : np.1 = name
        · rw [hn] at hheld' ⊢
          obtain ⟨value, expiresAt, -, -, rfl⟩ := write_applied hwrite
          simp only [update_self] at hheld'
          exact (Store.mem_heldPartitions_apply.mp hheld').resolve_left fun hp => hnew (Prod.ext hn hp)
        · simpa [hn] using hheld'
  · exact h

theorem Keeps.drain (h : Keeps world) (name : JsString) (partition : ℕ) :
    Keeps { world with
      engines := update world.engines name ((world.engines name).drop partition) } := by
  refine ⟨fun n => ?_, fun np hnp hlapsed => ?_, h.listed⟩
  · by_cases hn : n = name
    · subst hn
      simpa [author, Engine.drop] using h.routed n
    · simpa [hn, author] using h.routed n
  · obtain ⟨hacc, hheld⟩ := mem_keeping.mp hnp
    refine h.owned np (mem_keeping.mpr ⟨hacc, ?_⟩) hlapsed
    by_cases hn : np.1 = name
    · rw [hn] at hheld ⊢
      simp only [update_self, mem_heldPartitions_drop] at hheld
      exact hheld.2
    · simpa [hn] using hheld

theorem Keeps.step {event : TableEvent} (h : SoleAuthor world ∧ Keeps world)
    (hinformed : world.Informed event) (hstep : world.step event = some world') :
    SoleAuthor world' ∧ Keeps world' := by
  obtain ⟨hsole, hkeeps⟩ := h
  refine ⟨hsole.step hstep, ?_⟩
  cases event with
  | view members =>
    cases hstep
    exact { hkeeps with }
  | rebalance =>
    obtain ⟨-, hstep⟩ := Option.ite_none_left_eq_some.mp hstep
    split at hstep
    · cases hstep
      exact hkeeps.begin hsole hinformed.1 hinformed.2 false
    · cases hstep
      exact hkeeps
  | deliver name members answered =>
    simp only [TableRun.step] at hstep
    split at hstep
    · rename_i push hpush
      obtain ⟨hname, rfl⟩ := of_guarded hstep
      have hne : name ≠ world.me := fun heq => (hsole.pushed push hpush).2.1 (heq ▸ hname.1)
      exact hkeeps.congr (by simp [author, hne.symm]) (by simp [author, hne.symm])
    · cases hstep
  | finish =>
    obtain ⟨push, hpush, rfl⟩ := Option.map_eq_some_iff.mp hstep
    obtain ⟨reports, heq⟩ := hsole.settle_eq hpush
    rw [heq]
    exact hkeeps.congr (by simp [author, setReports]) (by simp [author, setReports])
  | write name op nowMs physical =>
    simp only [TableRun.step] at hstep
    split at hstep
    · rename_i held hheld
      obtain ⟨-, rfl⟩ := of_guarded hstep
      exact hkeeps.write hsole hheld hinformed
    · cases hstep
  | drain name partition =>
    simp only [TableRun.step] at hstep
    split at hstep
    · split at hstep
      · cases hstep
        exact hkeeps.drain name partition
      · cases hstep
    · cases hstep

/-- In every informed run, every authored table lists each live member that then held a partition it
    had accepted a write for as primary. -/
theorem retains_holders {me : JsString} {partitionCount : ℕ} {positive : 0 < partitionCount}
    {events : List TableEvent} {world : TableRun}
    (hinformed : Meets step Informed (create me partitionCount positive) events)
    (hrun : run step (create me partitionCount positive) events = some world) :
    ∀ record ∈ world.authored, ∀ np ∈ record.keeping,
      np.1 ∈ record.live → np.1 ∈ record.table.owners np.2 :=
  (run_preserves (fun _ _ _ => Keeps.step)
    ⟨soleAuthor_create me partitionCount positive, keeps_create me partitionCount positive⟩
    hinformed hrun).2.listed

/-- Node `a` starts alone, accepts a write after its first push, and `b` joins. -/
def joinAfterWrite : List TableEvent :=
  [.view [⟨[97], false⟩], .rebalance, .finish, .write [97] (.put [107] [1] .none none) 0 0,
    .view [⟨[97], false⟩, ⟨[98], false⟩], .rebalance]

/-- The report of the first push predates the write, so the next table prunes `a` although it holds
    what it accepted as primary. -/
theorem holder_pruned : ∃ world, run step (create [97] 1 Nat.one_pos) joinAfterWrite = some world ∧
    ∃ later earlier, world.authored = [later, earlier] ∧ earlier.table.primary 0 = [97] ∧
      ([97], 0) ∈ later.keeping ∧ [97] ∈ later.live ∧ [97] ∉ later.table.owners 0 := by
  have hlog : (run step (create [97] 1 Nat.one_pos) joinAfterWrite).map TableRun.authored =
      some [⟨⟨2, [[[98]]], by decide⟩, [[97], [98]], [([97], 0)]⟩,
        ⟨⟨1, [[[97]]], by decide⟩, [[97]], []⟩] := by decide +kernel
  obtain ⟨world, hrun, hauthored⟩ := Option.map_eq_some_iff.mp hlog
  exact ⟨world, hrun, _, _, hauthored, rfl, by decide, by decide, by decide⟩

/-- With a push between the write and the join, `a` stays an owner. -/
def joinAfterReport : List TableEvent :=
  [.view [⟨[97], false⟩], .rebalance, .finish, .write [97] (.put [107] [1] .none none) 0 0,
    .rebalance, .finish, .view [⟨[97], false⟩, ⟨[98], false⟩], .rebalance]

theorem holder_retained : ∃ world,
    run step (create [97] 1 Nat.one_pos) joinAfterReport = some world ∧
    Meets step Informed (create [97] 1 Nat.one_pos) joinAfterReport ∧
    ∀ record ∈ world.authored, ∀ np ∈ record.keeping,
      np.1 ∈ record.live → np.1 ∈ record.table.owners np.2 := by
  have hinformed : Meets step Informed (create [97] 1 Nat.one_pos) joinAfterReport := by
    decide +kernel
  obtain ⟨world, hrun, -⟩ : ∃ world ∈ run step (create [97] 1 Nat.one_pos) joinAfterReport, True :=
    by decide +kernel
  exact ⟨world, hrun, hinformed, retains_holders hinformed hrun⟩

end TableRun

end Nodeakt.Kv
