import Nodeakt.Kv.Retention

/-! Table versions at one node.

    A rebalance suspends while its push is awaited, and then overwrites the table and its version
    counter with the newest table it was answered with. Meanwhile the node may have adopted a newer
    one pushed to it. `versions_never_regress`: as long as a push that was answered with tables was
    answered with one at least as new as the table then held, the version of the held table never
    falls, and a table the node authors is above every one it has held. -/

namespace Nodeakt.Kv
open Schemes

variable {table : RoutingTable}

/-- An authored table with every table its author had held before. -/
structure Minted where
  table : RoutingTable
  before : List RoutingTable
  deriving DecidableEq

/-- One node with its view and the push it awaits. `held` lists every table it has held. -/
structure TableHolder where
  node : Coordinator
  view : List ClusterMember
  push : Option Push
  held : List RoutingTable
  authored : List Minted

/-- What can happen to a node. A member answers its push from any state of its own, and `reject`
    is a push that cannot be encoded. -/
inductive HolderEvent where
  | view (members : List ClusterMember)
  | rebalance (held : List ℕ)
  | answer (peer : Coordinator) (members : List ClusterMember) (held : List ℕ)
  | reject
  | finish (held : List ℕ)
  | receive (sender : JsString) (table : RoutingTable)

/-- The tables among the answers of a push, in the order of its targets. -/
def Push.tables (push : Push) : List RoutingTable :=
  (push.targets.map (fun name => OrderedMap.assoc name push.answers)).filterMap (fun response =>
      match response with
      | some (.table table) => some table
      | _ => none)

namespace TableHolder

/-- A fresh node. -/
def create (name : JsString) (partitionCount : ℕ) : TableHolder :=
  ⟨Coordinator.create name partitionCount, [], none, [], []⟩

/-- The node holds `table` from now on. -/
def adopt (world : TableHolder) (table : RoutingTable) : TableHolder :=
  { world with node := world.node.adopt table, held := table :: world.held }

/-- The node starts a push. -/
def begin (world : TableHolder) (members : List ClusterMember) (held : List ℕ) (again : Bool) :
    TableHolder :=
  match world.node.startPush members held again with
  | none => { world with push := none }
  | some (push, node) =>
    { world with
      node := node
      push := some push
      held := if world.node.table = some push.table then world.held else push.table :: world.held
      authored := if world.node.table = some push.table then world.authored
        else ⟨push.table, world.held⟩ :: world.authored }

/-- Stores what the push gathered; a learned table is adopted and re-authored. -/
def settle (world : TableHolder) (push : Push) (held : List ℕ) : TableHolder :=
  let idle := { world with node := world.node.setReports push.gathered.1, push := none }
  match push.learned with
  | some learned => (idle.adopt learned).begin push.members held true
  | none => idle

/-- Handles a table pushed to this node. -/
def receive (world : TableHolder) (sender : JsString) (table : RoutingTable) : TableHolder :=
  let node := world.node.handleTable world.view sender table
  { world with
    node := node
    held := if node.table = world.node.table then world.held else table :: world.held }

/-- One event. -/
def step (world : TableHolder) : HolderEvent → Option TableHolder
  | .view members => some { world with view := members }
  | .rebalance held =>
    if world.push.isSome then none
    else if coordinatorName world.view = some world.node.self then
      some (world.begin world.view held false)
    else some world
  | .answer peer members held =>
    match world.push with
    | some push =>
      if peer.self ∈ push.targets ∧ peer.self ∉ push.answers.map Prod.fst then
        some { world with
          push := some { push with
            answers := push.answers ++
              [(peer.self, (peer.receive members held world.node.self push.table).1)] } }
      else none
    | none => none
  | .reject => some { world with push := none }
  | .finish held => world.push.map (fun push => world.settle push held)
  | .receive sender table => some (world.receive sender table)

/-- A first push that was answered with tables was answered with one at least as new as the table
    the node holds when it settles. -/
def Revealed (world : TableHolder) : HolderEvent → Prop
  | .finish _ => ∀ push ∈ world.push, push.again = false → ∀ current ∈ world.node.table,
      push.tables = [] ∨ ∃ table ∈ push.tables, current.version ≤ table.version
  | _ => True

instance (world : TableHolder) (event) : Decidable (world.Revealed event) := by
  rcases event <;> dsimp only [Revealed] <;> infer_instance

/-! ### The version counter -/

/-- The counter is the version of the held table and bounds every one held before, and an authored
    table is above every one held before it. -/
structure Counted (world : TableHolder) : Prop where
  fresh : world.node.table = none → world.node.maxVersion = 0
  counter : ∀ table, world.node.table = some table → world.node.maxVersion = table.version
  bound : ∀ table ∈ world.held, table.version ≤ world.node.maxVersion
  above : ∀ minted ∈ world.authored, ∀ table ∈ minted.before, table.version < minted.table.version

/-- A table is held and its version has not fallen. -/
def HoldsFrom (version : ℕ) (world : TableHolder) : Prop :=
  ∃ table, world.node.table = some table ∧ version ≤ table.version

variable {world world' : TableHolder} {event : HolderEvent}

theorem counted_create (name : JsString) (partitionCount : ℕ) :
    (create name partitionCount).Counted := by
  constructor <;> simp [create, Coordinator.create]

/-- Adopting a table no older than the counter keeps it. -/
theorem Counted.adopt (h : world.Counted) (hnewer : world.node.maxVersion ≤ table.version) :
    (world.adopt table).Counted := by
  refine ⟨fun hnone => ?_, fun current hcurrent => ?_, fun old hold => ?_, h.above⟩
  · cases hnone
  · cases hcurrent
    rfl
  · rcases List.mem_cons.mp hold with rfl | hbefore
    · exact le_rfl
    · exact (h.bound old hbefore).trans hnewer

/-- A held table moves the counter up to any bound the adopted one meets. -/
theorem holdsFrom_adopt {version : ℕ} (h : version ≤ table.version) :
    (world.adopt table).HoldsFrom version := ⟨table, rfl, h⟩

theorem HoldsFrom.le_maxVersion {version : ℕ} (h : world.HoldsFrom version)
    (hcounted : world.Counted) : version ≤ world.node.maxVersion := by
  obtain ⟨table, htable, hle⟩ := h
  exact hle.trans_eq (hcounted.counter table htable).symm

/-- A recompute keeps the table or authors one above the counter. -/
theorem Counted.begin (h : world.Counted) (members : List ClusterMember) (held : List ℕ)
    (again : Bool) : (world.begin members held again).Counted ∧
      ∀ version, world.HoldsFrom version → (world.begin members held again).HoldsFrom version := by
  unfold TableHolder.begin
  split
  · exact ⟨{ h with }, fun version hfrom => hfrom⟩
  · rename_i push node hstart
    obtain ⟨table, hrec, rfl⟩ := Coordinator.startPush_eq_some hstart
    obtain ⟨ring, candidate, -, hcand, ⟨hsame, -, rfl⟩ | ⟨-, rfl, rfl⟩⟩ :=
      Coordinator.recompute_cases hrec
    · simp only [hsame, if_true]
      exact ⟨{ h with }, fun version hfrom => hfrom⟩
    · have hversion : table.version = world.node.maxVersion + 1 := by
        rw [hcand, RoutingTable.version_evolved]
      have hfresh : world.node.table ≠ some table := by
        intro hsame
        have := h.counter table hsame
        omega
      simp only [hfresh, if_false]
      have hadopt : (world.adopt table).Counted := h.adopt (by omega)
      refine ⟨{ hadopt with above := fun minted hminted => ?_ }, fun version hfrom => ?_⟩
      · rcases List.mem_cons.mp hminted with rfl | hbefore
        · intro old hold
          exact (Nat.lt_succ_of_le (h.bound old hold)).trans_eq hversion.symm
        · exact h.above minted hbefore
      · exact ⟨table, rfl, (hfrom.le_maxVersion h).trans (by omega)⟩

/-- A table newer than the held one is not older than the counter. -/
theorem Counted.le_of_isNewer (h : world.Counted) (hnewer : isNewer table world.node.table = true) :
    world.node.maxVersion ≤ table.version ∧ world.node.table ≠ some table := by
  cases hcurrent : world.node.table with
  | none =>
    rw [h.fresh hcurrent]
    exact ⟨Nat.zero_le _, by simp⟩
  | some current =>
    simp only [isNewer, hcurrent, RoutingTable.supersedes, decide_eq_true_eq] at hnewer
    rw [h.counter current hcurrent]
    refine ⟨hnewer.le, ?_⟩
    rintro heq
    cases heq
    exact lt_irrefl _ hnewer

/-- A handled table is adopted only above the held one. -/
theorem Counted.receive (h : world.Counted) (sender : JsString) (table : RoutingTable) :
    (world.receive sender table).Counted ∧
      ∀ version, world.HoldsFrom version → (world.receive sender table).HoldsFrom version := by
  rcases Coordinator.handleTable_cases world.node world.view sender table with
    ⟨hnewer, hadopt⟩ | hsame
  · obtain ⟨hle, hfresh⟩ := h.le_of_isNewer hnewer
    have hreceive : world.receive sender table = world.adopt table := by
      simp only [TableHolder.receive, TableHolder.adopt, hadopt]
      rw [if_neg]
      exact fun heq => hfresh heq.symm
    rw [hreceive]
    exact ⟨h.adopt hle, fun version hfrom => holdsFrom_adopt ((hfrom.le_maxVersion h).trans hle)⟩
  · simp only [TableHolder.receive, hsame, if_true]
    exact ⟨h, fun version hfrom => hfrom⟩

/-- A push answered with no table learns none. -/
theorem gathered_of_no_tables {push : Push} (h : push.tables = []) : push.gathered.2 = none := by
  refine Coordinator.gather_reports push.own _ (fun table hmem => ?_) _
  have hlisted : table ∈ push.tables := List.mem_filterMap.mpr ⟨_, hmem, rfl⟩
  rw [h] at hlisted
  cases hlisted

/-- A push learns a table at least as new as every one it was answered with. -/
theorem gathered_of_mem_tables {push : Push} (h : table ∈ push.tables) :
    ∃ learned, push.gathered.2 = some learned ∧ table.version ≤ learned.version := by
  obtain ⟨response, hresponse, htable⟩ := List.mem_filterMap.mp h
  split at htable
  · cases htable
    exact Coordinator.gather_newest _ _ (Or.inr hresponse)
  · cases htable

/-- A settled push that revealed a current table, or none, keeps the counter. -/
theorem Counted.settle (h : world.Counted) {push : Push} (held : List ℕ)
    (hrevealed : push.again = false → ∀ current ∈ world.node.table,
      push.tables = [] ∨ ∃ table ∈ push.tables, current.version ≤ table.version) :
    (world.settle push held).Counted ∧
      ∀ version, world.HoldsFrom version → (world.settle push held).HoldsFrom version := by
  have hidle : ∀ reports, ({ world with
      node := world.node.setReports reports, push := none } : TableHolder).Counted :=
    fun _ => { h with }
  unfold TableHolder.settle
  dsimp only
  split
  · rename_i learned hlearned
    obtain ⟨hagain, hlearned⟩ : push.again = false ∧ push.gathered.2 = some learned := by
      simpa [Push.learned] using hlearned
    have hnewer : world.node.maxVersion ≤ learned.version := by
      cases hcurrent : world.node.table with
      | none => rw [h.fresh hcurrent]; exact Nat.zero_le _
      | some current =>
        rw [h.counter current hcurrent]
        rcases hrevealed hagain current hcurrent with hnone | ⟨table, htable, hle⟩
        · rw [gathered_of_no_tables hnone] at hlearned
          cases hlearned
        · obtain ⟨newest, hnewest, hbound⟩ := gathered_of_mem_tables htable
          cases (hnewest.symm.trans hlearned)
          exact hle.trans hbound
    obtain ⟨hcounted, hholds⟩ := ((hidle push.gathered.1).adopt hnewer).begin push.members held true
    refine ⟨hcounted, fun version hfrom => hholds version ?_⟩
    exact holdsFrom_adopt ((hfrom.le_maxVersion h).trans hnewer)
  · exact ⟨hidle _, fun version hfrom => hfrom⟩

/-- One event keeps the counter, and the held version does not fall. -/
theorem Counted.step (h : world.Counted) (hrevealed : world.Revealed event)
    (hstep : world.step event = some world') : world'.Counted ∧
      ∀ version, world.HoldsFrom version → world'.HoldsFrom version := by
  cases event with
  | view members =>
    cases hstep
    exact ⟨{ h with }, fun version hfrom => hfrom⟩
  | rebalance held =>
    obtain ⟨-, hstep⟩ := Option.ite_none_left_eq_some.mp hstep
    split at hstep
    · cases hstep
      exact h.begin world.view held false
    · cases hstep
      exact ⟨h, fun version hfrom => hfrom⟩
  | answer peer members held =>
    simp only [TableHolder.step] at hstep
    split at hstep
    · split at hstep
      · cases hstep
        exact ⟨{ h with }, fun version hfrom => hfrom⟩
      · cases hstep
    · cases hstep
  | reject =>
    cases hstep
    exact ⟨{ h with }, fun version hfrom => hfrom⟩
  | finish held =>
    obtain ⟨push, hpush, rfl⟩ := Option.map_eq_some_iff.mp hstep
    exact h.settle held (hrevealed push hpush)
  | receive sender table =>
    cases hstep
    exact h.receive sender table

/-- In every run in which settling pushes reveal a current table, the held version never falls, and
    an authored table is above every table with other owners its author has held. -/
theorem versions_never_regress {name : JsString} {partitionCount : ℕ}
    {before after : List HolderEvent} {mid final : TableHolder}
    (hrevealed : Meets TableHolder.step Revealed (create name partitionCount) (before ++ after))
    (hmid : run TableHolder.step (create name partitionCount) before = some mid)
    (hfinal : run TableHolder.step mid after = some final) :
    (∀ table, mid.node.table = some table →
      ∃ table', final.node.table = some table' ∧ table.version ≤ table'.version) ∧
      ∀ minted ∈ final.authored, ∀ table ∈ minted.before,
        sameOwners table minted.table = false → table.version < minted.table.version := by
  obtain ⟨hbefore, hafter⟩ := hrevealed.of_append hmid
  have hcounted : mid.Counted :=
    run_preserves (fun _ _ _ h hcond hstep => (h.step hcond hstep).1) (counted_create ..)
      hbefore hmid
  have hkept : ∀ version, mid.HoldsFrom version → final.Counted ∧ final.HoldsFrom version :=
    fun version hfrom =>
      run_preserves (P := fun world => world.Counted ∧ world.HoldsFrom version)
        (fun world event world' h hcond hstep =>
          ⟨(h.1.step hcond hstep).1, (h.1.step hcond hstep).2 version h.2⟩)
        ⟨hcounted, hfrom⟩ hafter hfinal
  have hlast : final.Counted :=
    run_preserves (fun _ _ _ h hcond hstep => (h.step hcond hstep).1) hcounted hafter hfinal
  exact ⟨fun table htable => (hkept table.version ⟨table, htable, le_rfl⟩).2,
    fun minted hminted table htable _ => hlast.above minted hminted table htable⟩

/-- Node `b` as it answers: it holds version 2. -/
def holderOfTwo : Coordinator := ⟨[98], 1, some (soleOwner 2 [98]), 2, []⟩

/-- Members `a` and `b`, as `a` sees them. -/
def viewOfTwo : List ClusterMember := [⟨[97], false⟩, ⟨[98], false⟩]

/-- Coordinator `a` pushes its first table and `b` answers with its version 2. Before `a` resumes,
    `c` is the oldest member and pushes version 5. -/
def overtaken : List HolderEvent :=
  [.view viewOfTwo, .rebalance [], .answer holderOfTwo viewOfTwo [],
    .view (⟨[99], false⟩ :: viewOfTwo), .receive [99] (soleOwner 5 [99])]

/-- Node `a` adopts version 5, and goes back to a lower one when its push settles. -/
theorem adopted_version_regresses : ∃ mid final,
    run step (create [97] 1) overtaken = some mid ∧ run step mid [.finish []] = some final ∧
      mid.node.table.map RoutingTable.version = some 5 ∧
      ∃ table, final.node.table = some table ∧ table.version < 5 := by
  obtain ⟨mid, hrun, final, hlast, hlower⟩ : ∃ mid ∈ run step (create [97] 1) overtaken,
      ∃ final ∈ run step mid [.finish []], mid.node.table.map RoutingTable.version = some 5 ∧
        ∃ table ∈ final.node.table, table.version < 5 := by decide +kernel
  exact ⟨mid, final, hrun, hlast, hlower⟩

/-- Coordinator `a` pushes its first table, `b` answers with version 2, and `a` resumes. -/
def caughtUp : List HolderEvent :=
  [.view viewOfTwo, .rebalance [], .answer holderOfTwo viewOfTwo []]

/-- Node `a` goes from version 1 to version 2 or above. -/
theorem caught_up_version_advances : ∃ mid final,
    run step (create [97] 1) caughtUp = some mid ∧ run step mid [.finish []] = some final ∧
      ∃ table table', mid.node.table = some table ∧ final.node.table = some table' ∧
        table.version ≤ table'.version := by
  have hrevealed : Meets step Revealed (create [97] 1) (caughtUp ++ [.finish []]) := by
    decide +kernel
  obtain ⟨mid, hrun, final, hlast, table, htable, -⟩ : ∃ mid ∈ run step (create [97] 1) caughtUp,
      ∃ final ∈ run step mid [.finish []], ∃ table ∈ mid.node.table, True := by decide +kernel
  obtain ⟨table', htable', hle⟩ := (versions_never_regress hrevealed hrun hlast).1 table htable
  exact ⟨mid, final, hrun, hlast, table, table', htable, htable', hle⟩

end TableHolder

end Nodeakt.Kv
