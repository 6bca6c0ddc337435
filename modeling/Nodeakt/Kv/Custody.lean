import Nodeakt.Kv.Cluster

/-! Who holds a key, across the cluster.

    A step changes a store by merging entries that circulate already, as they arrive, by a write or
    by dropping a drained fragment, and nothing else; `Taken.engine` says so once, and what every
    step keeps follows from it. `Wired` is the bookkeeping of tables and drains. `Kept` says that a
    key is in the custody of an owner of the newest table; it survives a drain that is current, and
    a new table that keeps the owners which still hold the partition. -/

namespace Nodeakt.Kv
open Schemes List Engine

variable {partition : ℕ} {key : JsString}

section

variable {partitionCount : ℕ} {epoch next : Epoch partitionCount} {members live : List JsString}
variable {reports : List OwnershipReport} (h : epoch.next members live reports = some next)
include h

/-- The next table evolves the last one onto the ring of its members. -/
theorem Epoch.next_eq_some :
    PartitionRing.new members partitionCount = .ok next.ring ∧
      next.table = RoutingTable.evolved (some epoch.table) next.ring reports (epoch.version + 1)
        live := by
  unfold Epoch.next at h
  split at h
  · cases h
  · rename_i ring hring
    cases h
    exact ⟨hring, rfl⟩

/-- Membership in the next table's rows. -/
theorem Epoch.mem_owners_next {id : ℕ} (hid : id < partitionCount) {name : JsString} :
    name ∈ next.table.owners id ↔ name = next.ring.primary id ∨
      name ∈ epoch.table.owners id ∧ name ∈ live ∧ ¬ Omits reports name id := by
  rw [(Epoch.next_eq_some h).2]
  exact RoutingTable.mem_owners_evolved (next.ring_counted.symm ▸ hid)

theorem Epoch.version_next : next.version = epoch.version + 1 := by
  rw [Epoch.version, (Epoch.next_eq_some h).2, RoutingTable.version_evolved]

end

namespace Engine

variable {engine : Engine}

/-- The store has some version of the key. -/
def Has (engine : Engine) (key : JsString) : Prop := ∃ t, engine.Holds key t

theorem Has.merges (h : engine.Has key) (entries : List Entry) :
    (entries.foldl Engine.merge engine).Has key := h.imp fun _ ht => ht.merges entries

/-- A store has every key of a page it merges. -/
theorem has_applyChunk {chunk : FragmentChunk} {entry : Entry} (h : entry ∈ chunk.entries) :
    (applyChunk engine chunk).Has entry.key := ⟨_, holds_merges _ h⟩

theorem Has.write (h : engine.Has key) (op : WriteOp) (nowMs physical : Millis) :
    (engine.write op nowMs physical).2.Has key := h.imp fun _ ht => ht.write op nowMs physical

theorem Has.drop (h : engine.Has key) (hp : engine.partitionFor key ≠ partition) :
    (engine.drop partition).Has key := h.imp fun _ ht => ht.drop hp

end Engine

namespace Cluster

variable {partitionCount : ℕ} {world world' : Cluster partitionCount} {event : ClusterEvent}
variable {name : JsString} {move : Move} {epoch : Epoch partitionCount}

/-! ### Stores -/

section

variable (world)

@[simp] theorem engine_setEngine (name : JsString) (engine : Engine) (other : JsString) :
    (world.setEngine name engine).engine other =
      if other = name then engine else world.engine other := by
  simp only [Cluster.engine, setEngine, setNode, Function.update_apply]
  split
  · rfl
  · rfl

@[simp] theorem installed_setEngine (name : JsString) (engine : Engine) (other : JsString) :
    ((world.setEngine name engine).nodes other).installed = (world.nodes other).installed :=
  read_update ClusterNode.installed (by rfl) other

@[simp] theorem engine_install (name : JsString) (epoch : Epoch partitionCount)
    (other : JsString) : (world.install name epoch).engine other = world.engine other :=
  read_update ClusterNode.engine (by rfl) other

@[simp] theorem engine_recover (name : JsString) (partitions : List ℕ) (other : JsString) :
    (world.recover name partitions).engine other = world.engine other :=
  read_update ClusterNode.engine (by rfl) other

end

/-- An entry some store holds or some message carries. -/
inductive Circulates (world : Cluster partitionCount) (entry : Entry) : Prop where
  | stored {name : JsString} (h : (world.engine name).peek entry.key = some entry)
  | moving {move : Move} (h : move ∈ world.moves) (hentry : entry ∈ move.push.sorted)
  | written {write : ExecutedWrite} (h : write ∈ world.writes) (hentry : write.entry = entry)
  | copied (h : entry ∈ world.copies)

/-- The event ends a drain that drops this partition at this node. -/
def DropsAt (world : Cluster partitionCount) (event : ClusterEvent) (name : JsString)
    (partition : ℕ) : Prop :=
  ∃ index move, event = .finish index ∧ world.moves[index]? = some move ∧
    world.drops move = true ∧ move.source = name ∧ move.drain.partition = partition

/-- What a step can do to one store. -/
inductive EngineChange (world : Cluster partitionCount) (event : ClusterEvent) (name : JsString) :
    Engine → Prop where
  | same : EngineChange world event name (world.engine name)
  | merged (entries : List Entry)
      (hfrom : ∀ entry ∈ entries, ∃ source, world.Circulates source ∧
        source.mapText arriving = entry) :
      EngineChange world event name (entries.foldl Engine.merge (world.engine name))
  | written {write : PendingWrite} {nowMs physical : Millis} (hruns : world.Runs event write)
      (hnode : write.node = name) :
      EngineChange world event name ((world.engine name).write write.op nowMs physical).2
  | dropped {partition : ℕ} (hdrops : world.DropsAt event name partition) :
      EngineChange world event name ((world.engine name).drop partition)

/-- Changing one store changes that store only. -/
theorem engineChange_setEngine {engine : Engine} (h : EngineChange world event name engine)
    (other : JsString) :
    EngineChange world event other ((world.setEngine name engine).engine other) := by
  rw [engine_setEngine]
  split_ifs with hname
  · rw [hname]
    exact h
  · exact .same

section

variable (h : Taken world event world')
include h

/-- Every step changes a store in one of the listed ways. -/
theorem Taken.engine (name : JsString) : EngineChange world event name (world'.engine name) := by
  cases h with
  | install => rw [engine_install]; exact .same
  | recover => rw [engine_recover]; exact .same
  | @commit index write hwrite nowMs physical =>
    have hruns : world.Runs (.commit index nowMs physical) write := hwrite
    exact engineChange_setEngine (.written hruns rfl) name
  | @replicate index target write arrived hwrite harrived =>
    refine engineChange_setEngine (.merged [arrived] fun entry he => ?_) name
    rw [mem_singleton.mp he]
    exact ⟨_, .written (mem_of_getElem? hwrite) rfl, deliveredEntry_eq_some harrived⟩
  | deliver hmove harrived =>
    refine engineChange_setEngine (.merged _ fun entry he => ?_) name
    rw [← deliveredPage_eq_some harrived] at he
    obtain ⟨source, hsource, rfl⟩ := mem_map.mp he
    exact ⟨source, .moving (mem_of_getElem? hmove) (mem_page hsource), rfl⟩
  | @finish index move hmove hpushed =>
    refine engineChange_setEngine ?_ name
    split_ifs with hdrops
    · exact .dropped ⟨index, move, rfl, hmove, hdrops, rfl, rfl⟩
    · exact .same
  | @merge index target sent arrived hsent harrived =>
    refine engineChange_setEngine (.merged [arrived] fun entry he => ?_) name
    rw [mem_singleton.mp he]
    exact ⟨_, .copied (mem_of_getElem? hsent), deliveredEntry_eq_some harrived⟩
  | _ => exact .same

/-- A step loses no key but by a drop. -/
theorem Taken.has (hheld : (world.engine name).Has key)
    (hkept : ¬ world.DropsAt event name ((world.engine name).partitionFor key)) :
    (world'.engine name).Has key := by
  have hchange := h.engine name
  generalize world'.engine name = after at hchange ⊢
  cases hchange with
  | same => exact hheld
  | merged entries => exact hheld.merges entries
  | @written write nowMs physical => exact hheld.write write.op nowMs physical
  | dropped hdrops => exact hheld.drop fun hp => hkept (hp ▸ hdrops)

theorem Taken.partitionCount_engine (name : JsString) :
    (world'.engine name).store.partitionCount = (world.engine name).store.partitionCount := by
  have hchange := h.engine name
  generalize world'.engine name = after at hchange ⊢
  cases hchange with
  | same => rfl
  | merged entries => exact merges_partitionCount entries _
  | written => exact write_partitionCount ..
  | dropped => rfl

/-! ### Tables and drains -/

/-- Only the coordinator changes the newest table. -/
theorem Taken.newest (hauthor : ∀ members live, event ≠ .author members live) :
    world'.newest = world.newest := by
  cases h with
  | author => exact absurd rfl (hauthor _ _)
  | _ => rfl

/-- A node's table changes only when it installs one. -/
theorem Taken.installed (name : JsString) :
    (world'.nodes name).installed = (world.nodes name).installed ∨
      ∃ epoch ∈ world.history, (world'.nodes name).installed = some (epoch.table, epoch.ring) := by
  cases h with
  | @install target index epoch hepoch =>
    by_cases htarget : name = target
    · subst htarget
      exact Or.inr ⟨epoch, hepoch, by simp [Cluster.install, setNode]⟩
    · exact Or.inl (by simp [Cluster.install, setNode, htarget])
  | recover => exact Or.inl (read_update ClusterNode.installed (by rfl) name)
  | commit | replicate | deliver | finish | merge => exact Or.inl (installed_setEngine ..)
  | _ => exact Or.inl rfl

/-- Where a queued drain comes from: its source ran one of its table. -/
theorem Taken.queued {queued : JsString × Drain} (hqueued : queued ∈ world'.queued) :
    queued ∈ world.queued ∨
      (world.nodes queued.1).installed = some (queued.2.table, queued.2.ring) ∧
        queued.2.partition ∈ drainPartitions queued.1 queued.2.table := by
  cases h with
  | @drain name table ring hinstalled =>
    rcases mem_append.mp hqueued with hold | hnew
    · exact Or.inl hold
    · obtain ⟨partition, hpartition, rfl⟩ := mem_map.mp hnew
      exact Or.inr ⟨hinstalled, hpartition⟩
  | start => exact Or.inl (mem_of_mem_eraseIdx hqueued)
  | _ => exact Or.inl hqueued

end

/-- Where a running drain comes from: it ran before, its page was delivered or acknowledged, or it
    starts. -/
inductive Stems (world world' : Cluster partitionCount) : Move → Prop where
  | same {move : Move} (h : move ∈ world.moves) : Stems world world' move
  | delivered {move : Move} (h : move ∈ world.moves)
      (hpage : ∀ entry ∈ move.push.page.entries,
        (world'.engine move.drain.target).Has (arriving entry.key)) :
      Stems world world' { move with delivered := true }
  | acknowledged {move : Move} (h : move ∈ world.moves) (hdelivered : move.delivered = true) :
      Stems world world' { move with push := move.push.acknowledge, delivered := false }
  | started {queued : JsString × Drain} (h : queued ∈ world.queued) :
      Stems world world' ⟨queued.1, queued.2,
        FragmentPush.start (world.engine queued.1) queued.2.partition, false⟩

theorem Taken.moves (h : Taken world event world') (hmove : move ∈ world'.moves) :
    Stems world world' move := by
  cases h with
  | start hqueued =>
    rcases mem_append.mp hmove with hold | hnew
    · exact .same hold
    · rw [mem_singleton.mp hnew]
      exact .started (mem_of_getElem? hqueued)
  | @deliver index sent page hsent harrived =>
    rcases mem_or_eq_of_mem_set hmove with hold | rfl
    · exact .same hold
    · refine .delivered (mem_of_getElem? hsent) fun entry he => ?_
      have hself : (world.deliver index sent page).engine sent.drain.target =
          applyChunk (world.engine sent.drain.target) page :=
        (engine_setEngine ..).trans (if_pos rfl)
      rw [hself, ← deliveredPage_eq_some harrived]
      have hmem : entry.mapText arriving ∈ (sent.push.page.mapText arriving).entries :=
        mem_map_of_mem he
      have hhas : (applyChunk (world.engine sent.drain.target)
          (sent.push.page.mapText arriving)).Has (entry.mapText arriving).key := has_applyChunk hmem
      exact hhas
  | acknowledge hsent hdelivered =>
    rcases mem_or_eq_of_mem_set hmove with hold | rfl
    · exact .same hold
    · exact .acknowledged (mem_of_getElem? hsent) hdelivered
  | abandon | finish => exact .same (mem_of_mem_eraseIdx hmove)
  | _ => exact .same hmove

/-! ### Recorded writes -/

/-- Replacing a recorded write by one that was asked for alike leaves what was asked for. -/
theorem map_asked_set {writes : List ExecutedWrite} {index : ℕ} {write replaced : ExecutedWrite}
    (h : writes[index]? = some write) (hasked : replaced.asked = write.asked) :
    (writes.set index replaced).map ExecutedWrite.asked = writes.map ExecutedWrite.asked := by
  obtain ⟨hlt, rfl⟩ := List.getElem?_eq_some_iff.mp h
  have hmap : index < (writes.map ExecutedWrite.asked).length := by simpa using hlt
  have hget : (writes.map ExecutedWrite.asked)[index] = writes[index].asked := List.getElem_map ..
  rw [List.map_set, hasked, ← hget, List.set_getElem_self]

/-- A step keeps the list of what was asked for, or runs a write that applies and adds it. -/
theorem Taken.asked (h : Taken world event world') :
    world'.writes.map ExecutedWrite.asked = world.writes.map ExecutedWrite.asked ∨
      ∃ write nowMs physical entry, world.Runs event write ∧
        (world.engine write.node).write write.op nowMs physical =
          (.ok (.applied entry), world'.engine write.node) ∧
        world'.writes.map ExecutedWrite.asked =
          world.writes.map ExecutedWrite.asked ++ [write.asked] := by
  cases h with
  | @commit index write hwrite nowMs physical =>
    have hengine : (world.commit index write nowMs physical).engine write.node =
        ((world.engine write.node).write write.op nowMs physical).2 :=
      (engine_setEngine ..).trans (if_pos rfl)
    rcases hwritten : (world.engine write.node).write write.op nowMs physical with
      ⟨error | entry | reason, engine⟩
    · exact Or.inl (by simp [Cluster.commit, hwritten])
    · refine Or.inr ⟨write, nowMs, physical, entry, hwrite, ?_, by simp [Cluster.commit, hwritten]⟩
      rw [hengine, hwritten]
    · exact Or.inl (by simp [Cluster.commit, hwritten])
  | send hsent | replicate hsent harrived | settle hsent => exact Or.inl (map_asked_set hsent rfl)
  | _ => exact Or.inl rfl

/-- The entry of a recorded write was recorded before or is written now. -/
theorem Taken.written (h : Taken world event world') {write : ExecutedWrite}
    (hwrite : write ∈ world'.writes) :
    (∃ old ∈ world.writes, old.entry = write.entry) ∨
      ∃ pending nowMs physical, world.Runs event pending ∧
        ((world.engine pending.node).write pending.op nowMs physical).1 =
          .ok (.applied write.entry) := by
  cases h with
  | @commit index pending hpending nowMs physical =>
    simp only [Cluster.commit] at hwrite
    split at hwrite
    · rename_i entry happlied
      rcases mem_append.mp hwrite with hold | hnew
      · exact Or.inl ⟨write, hold, rfl⟩
      · rw [mem_singleton.mp hnew]
        exact Or.inr ⟨pending, nowMs, physical, hpending, happlied⟩
    · exact Or.inl ⟨write, hwrite, rfl⟩
  | send hsent | replicate hsent harrived | settle hsent =>
    rcases mem_or_eq_of_mem_set hwrite with hold | rfl
    · exact Or.inl ⟨write, hold, rfl⟩
    · exact Or.inl ⟨_, mem_of_getElem? hsent, rfl⟩
  | _ => exact Or.inl ⟨write, hwrite, rfl⟩

/-! ### Bookkeeping -/

/-- A drain is of a table some epoch authored, and of a partition its source is to drain. -/
def Aimed (world : Cluster partitionCount) (source : JsString) (drain : Drain) : Prop :=
  (∃ epoch ∈ world.history, epoch.table = drain.table ∧ epoch.ring = drain.ring) ∧
    drain.partition ∈ drainPartitions source drain.table

/-- Whether a drain is one of the newest table. -/
def current (world : Cluster partitionCount) (move : Move) : Bool :=
  move.drain.table.version = world.newest.version

/-- The target has the key once the push has passed it, and once the page in flight is delivered. -/
structure Received (key : JsString) (world : Cluster partitionCount) (move : Move) : Prop where
  reached : move.push.Reached
    (fun entry => entry.key = key → (world.engine move.drain.target).Has key)
  page : move.delivered = true → ∀ entry ∈ move.push.page.entries, entry.key = key →
    (world.engine move.drain.target).Has key

/-- A drain drops a fragment only under the table it was started for. -/
def TimelyDrop (world : Cluster partitionCount) : ClusterEvent → Prop
  | .finish index =>
    ∀ move ∈ world.moves[index]?, world.drops move = true → world.current move = true
  | _ => True

instance (world : Cluster partitionCount) (event : ClusterEvent) :
    Decidable (world.TimelyDrop event) := by
  rcases event <;> dsimp only [TimelyDrop] <;> infer_instance

/-- What every run with timely drops keeps, for a key without a mark. -/
structure Wired (key : JsString) (world : Cluster partitionCount) : Prop where
  counted : ∀ name, (world.engine name).store.partitionCount = partitionCount
  newest_mem : world.newest ∈ world.history
  older : ∀ epoch ∈ world.history, epoch.version < world.newest.version ∨ epoch = world.newest
  installed : ∀ name table ring, (world.nodes name).installed = some (table, ring) →
    ∃ epoch ∈ world.history, epoch.table = table ∧ epoch.ring = ring
  queued : ∀ queued ∈ world.queued, world.Aimed queued.1 queued.2
  moving : ∀ move ∈ world.moves, world.Aimed move.source move.drain
  filed : ∀ move ∈ world.moves, ∀ entry ∈ move.push.sorted,
    partitionId entry.key partitionCount = move.drain.partition
  received : ∀ move ∈ world.moves, world.current move = true → world.Received key move

theorem wired_create (key : JsString) (ring : PartitionRing) (replicaCount : ℕ)
    (mode : ReplicationMode) (writeQuorum : ℕ) :
    (create ring replicaCount mode writeQuorum).Wired key where
  counted := fun _ => rfl
  newest_mem := mem_singleton_self _
  older := fun _ h => Or.inr (mem_singleton.mp h)
  installed := nofun
  queued := nofun
  moving := nofun
  filed := nofun
  received := nofun

section

variable (h : world.Wired key)
include h

theorem Wired.partitionFor (name key : JsString) :
    (world.engine name).partitionFor key = partitionId key partitionCount :=
  congrArg (partitionId key) (h.counted name)

/-- An epoch as new as the newest is the newest. -/
theorem Wired.eq_newest (hepoch : epoch ∈ world.history)
    (hversion : ¬ epoch.version < world.newest.version) :
    epoch = world.newest := (h.older epoch hepoch).resolve_left hversion

theorem Wired.version_le (hepoch : epoch ∈ world.history) :
    epoch.version ≤ world.newest.version := by
  rcases h.older epoch hepoch with hlt | rfl
  · exact hlt.le
  · exact le_rfl

/-- A current drain is one of the newest table. -/
theorem Wired.current_drain (hmove : move ∈ world.moves) (hcurrent : world.current move = true) :
    move.drain.partition ∈ drainPartitions move.source world.newest.table ∧
      move.drain.target = world.newest.table.primary move.drain.partition := by
  obtain ⟨⟨epoch, hepoch, htable, -⟩, hpartition⟩ := h.moving move hmove
  have hversion : move.drain.table.version = world.newest.version := of_decide_eq_true hcurrent
  rw [← htable] at hversion
  obtain rfl := h.eq_newest hepoch (Nat.not_lt.mpr hversion.ge)
  rw [Drain.target, htable]
  exact ⟨hpartition, rfl⟩

/-- A timely drop is never at the primary. -/
theorem Wired.primary_keeps (htimely : world.TimelyDrop event) (partition : ℕ) :
    ¬ world.DropsAt event (world.newest.table.primary partition) partition := by
  rintro ⟨index, move, rfl, hmove, hdrops, hsource, rfl⟩
  obtain ⟨hpartition, -⟩ := h.current_drain (mem_of_getElem? hmove) (htimely move hmove hdrops)
  exact (mem_drainPartitions.mp hpartition).2.1 hsource.symm

end

theorem Taken.history_mono (h : Taken world event world') (hepoch : epoch ∈ world.history) :
    epoch ∈ world'.history := by
  cases h with
  | author => exact mem_cons_of_mem _ hepoch
  | _ => exact hepoch

theorem Aimed.mono {source : JsString} {drain : Drain} (h : world.Aimed source drain)
    (hmono : ∀ epoch ∈ world.history, epoch ∈ world'.history) : world'.Aimed source drain := by
  obtain ⟨⟨epoch, hepoch, hsame⟩, haimed⟩ := h
  exact ⟨⟨epoch, hmono epoch hepoch, hsame⟩, haimed⟩

section

variable (h : world.Wired key)
include h

/-- The bookkeeping of a drain that stems from wired ones. -/
theorem Wired.stems (hstems : Stems world world' move) :
    world.Aimed move.source move.drain ∧
      ∀ entry ∈ move.push.sorted, partitionId entry.key partitionCount = move.drain.partition := by
  cases hstems with
  | same hmove => exact ⟨h.moving _ hmove, h.filed _ hmove⟩
  | @delivered move hmove => exact ⟨h.moving move hmove, h.filed move hmove⟩
  | acknowledged hmove =>
    simp only [FragmentPush.acknowledge_sorted]
    exact ⟨h.moving _ hmove, h.filed _ hmove⟩
  | @started queued hqueued =>
    refine ⟨h.queued _ hqueued, fun entry he => ?_⟩
    rw [← h.partitionFor queued.1]
    exact (mem_sortedFragment.mp he).1

/-- The target of a current drain keeps the key. -/
theorem Wired.received_step (htaken : Taken world event world') (htimely : world.TimelyDrop event)
    (hmove : move ∈ world.moves) (hcurrent : world.current move = true) :
    world'.Received key move := by
  have hreceived := h.received move hmove hcurrent
  have hmono : ∀ entry ∈ move.push.sorted, entry.key = key →
      (world.engine move.drain.target).Has key → (world'.engine move.drain.target).Has key := by
    intro entry he hkey hheld
    refine htaken.has hheld ?_
    rw [h.partitionFor, ← hkey, h.filed move hmove entry he, (h.current_drain hmove hcurrent).2]
    exact h.primary_keeps htimely _
  constructor
  · intro entry he
    exact (hreceived.reached entry he).imp_left fun hpassed hkey =>
      hmono entry he hkey (hpassed hkey)
  · intro hdelivered entry he hkey
    exact hmono entry (mem_page he) hkey (hreceived.page hdelivered entry he hkey)

/-- A drain that stems from a step is received as far as it has come. -/
theorem Wired.received_stems (htaken : Taken world event world') (htimely : world.TimelyDrop event)
    (hunmarked : arriving key = key) (hstems : Stems world world' move)
    (hcurrent : world.current move = true) : world'.Received key move := by
  cases hstems with
  | same hmove => exact h.received_step htaken htimely hmove hcurrent
  | delivered hmove hpage =>
    refine ⟨(h.received_step htaken htimely hmove hcurrent).reached, fun _ entry he hkey => ?_⟩
    have harrived := hpage entry he
    rwa [hkey, hunmarked] at harrived
  | acknowledged hmove hdelivered =>
    have hreceived := h.received_step htaken htimely hmove hcurrent
    exact ⟨hreceived.reached.acknowledge (hreceived.page hdelivered), fun hfresh => by cases hfresh⟩
  | started hqueued => exact ⟨FragmentPush.reached_start _ _ _, fun hfresh => by cases hfresh⟩

/-- No drain is of a table that is yet to come. -/
theorem Wired.not_current_next (hversion : epoch.version = world.newest.version + 1)
    (haimed : world.Aimed move.source move.drain) : (world.author epoch).current move = false := by
  obtain ⟨⟨old, hold, htable, -⟩, -⟩ := haimed
  have hle := h.version_le hold
  refine decide_eq_false fun hsame => ?_
  have hsame : old.version = epoch.version := by
    rw [Epoch.version, htable]
    exact hsame
  omega

/-- Every step with timely drops keeps the bookkeeping. -/
theorem Wired.step (hunmarked : arriving key = key) (htaken : Taken world event world')
    (htimely : world.TimelyDrop event) : world'.Wired key where
  counted := fun name => (htaken.partitionCount_engine name).trans (h.counted name)
  newest_mem := by
    cases htaken with
    | author => exact mem_cons_self ..
    | _ => exact h.newest_mem
  older := by
    cases htaken with
    | author hnext =>
      intro epoch hepoch
      rcases mem_cons.mp hepoch with rfl | hold
      · exact Or.inr rfl
      · refine Or.inl ((h.version_le hold).trans_lt ?_)
        rw [author, Epoch.version_next hnext]
        omega
    | _ => exact h.older
  installed := by
    intro name table ring hinstalled
    rcases htaken.installed name with hsame | ⟨epoch, hepoch, hnew⟩
    · obtain ⟨epoch, hepoch, hpair⟩ := h.installed name table ring (hsame ▸ hinstalled)
      exact ⟨epoch, htaken.history_mono hepoch, hpair⟩
    · obtain ⟨rfl, rfl⟩ := Prod.mk.inj (Option.some.inj (hnew.symm.trans hinstalled))
      exact ⟨epoch, htaken.history_mono hepoch, rfl, rfl⟩
  queued := by
    intro queued hqueued
    rcases htaken.queued hqueued with hold | ⟨hinstalled, haimed⟩
    · exact (h.queued queued hold).mono fun _ => htaken.history_mono
    · obtain ⟨epoch, hepoch, hpair⟩ := h.installed _ _ _ hinstalled
      exact ⟨⟨epoch, htaken.history_mono hepoch, hpair⟩, haimed⟩
  moving := fun move hmove => (h.stems (htaken.moves hmove)).1.mono fun _ => htaken.history_mono
  filed := fun move hmove => (h.stems (htaken.moves hmove)).2
  received := by
    intro move hmove hcurrent
    have hstems := htaken.moves hmove
    by_cases hauthor : ∃ members live, event = .author members live
    · obtain ⟨members, live, rfl⟩ := hauthor
      cases htaken with
      | author hnext =>
        rw [h.not_current_next (Epoch.version_next hnext) (h.moving move hmove)] at hcurrent
        cases hcurrent
      | refuse | accept => exact { h.received move hmove hcurrent with }
    · push Not at hauthor
      have hsame : world'.current move = world.current move := by
        unfold current
        rw [htaken.newest hauthor]
      exact h.received_stems htaken htimely hunmarked hstems (hsame ▸ hcurrent)

/-! ### Custody -/

/-- An owner of the newest table has the key, and a current drain of its fragment carries it
    along. -/
def Kept (world : Cluster partitionCount) (key : JsString) : Prop :=
  ∃ name ∈ world.newest.table.owners (partitionId key partitionCount),
    (world.engine name).Has key ∧
    ∀ move ∈ world.moves, move.source = name →
      move.drain.partition = partitionId key partitionCount → world.current move = true →
      ∃ entry ∈ move.push.sorted, entry.key = key

/-- The new table keeps every owner that still holds the partition. -/
def KeepsHolders (world : Cluster partitionCount) (partition : ℕ)
    (members live : List JsString) : Prop :=
  ∀ name ∈ world.newest.table.owners partition,
    partition ∈ (world.engine name).heldPartitions →
    name ∈ live ∧ ¬ Omits world.reports name partition ∨
      ∀ ring ∈ (PartitionRing.new members partitionCount).toOption, ring.primary partition = name

instance (world : Cluster partitionCount) (partition : ℕ) (members live : List JsString) :
    Decidable (world.KeepsHolders partition members live) :=
  inferInstanceAs (Decidable (∀ name ∈ world.newest.table.owners partition, _))

theorem Wired.partitionId_lt (key : JsString) :
    partitionId key partitionCount < partitionCount := by
  have hlt := (world.engine []).store.partitionFor_lt key
  rwa [Store.partitionFor, h.counted] at hlt

theorem Wired.partitionId_lt_table (key : JsString) :
    partitionId key partitionCount < world.newest.table.partitionCount := by
  rw [world.newest.counted]
  exact h.partitionId_lt key

/-- The primary's custody is safe: no current drain takes the partition away from it. -/
theorem Wired.kept_of_primary (hheld : (world.engine
      (world.newest.table.primary (partitionId key partitionCount))).Has key) :
    world.Kept key := by
  have hmem := world.newest.table.primary_mem_owners (h.partitionId_lt_table key)
  refine ⟨_, hmem, hheld, fun move hmove hsource hpartition hcurrent => ?_⟩
  obtain ⟨hdrain, -⟩ := h.current_drain hmove hcurrent
  rw [hpartition] at hdrain
  exact absurd hsource.symm (mem_drainPartitions.mp hdrain).2.1

end

/-- A step that does not author keeps the custody of the same owner, or hands it to the primary
    when a drain ends. -/
theorem Kept.step (h : world.Kept key) (hwired : world.Wired key) (hunmarked : arriving key = key)
    (htaken : Taken world event world') (htimely : world.TimelyDrop event)
    (hauthor : ∀ members live, event ≠ .author members live) : world'.Kept key := by
  have hnewest := htaken.newest hauthor
  have hcurrent' : ∀ move, world'.current move = world.current move := by
    intro move
    unfold current
    rw [hnewest]
  obtain ⟨name, hname, hheld, hmoves⟩ := h
  by_cases hdrops : world.DropsAt event name (partitionId key partitionCount)
  · -- the drain has pushed the key to the primary, which keeps it
    obtain ⟨index, move, rfl, hmove, hdrop, hsource, hpartition⟩ := id hdrops
    have hcurrent := htimely move hmove hdrop
    have hmem := mem_of_getElem? hmove
    obtain ⟨entry, hentry, hkey⟩ := hmoves move hmem hsource hpartition hcurrent
    cases htaken with
    | refuse | accept => exact ⟨name, hname, hheld, hmoves⟩
    | @finish _ done hdone hpushed =>
      cases (hmove.symm.trans hdone)
      have hreceived :=
        (hwired.received move hmem hcurrent).reached.complete hpushed entry hentry hkey
      rw [(hwired.current_drain hmem hcurrent).2, hpartition] at hreceived
      have htaken : Taken world (.finish index) (world.finish index move) := .finish hdone hpushed
      refine (hwired.step hunmarked htaken htimely).kept_of_primary (htaken.has hreceived ?_)
      rw [hwired.partitionFor]
      exact hwired.primary_keeps htimely _
  · refine ⟨name, hnewest.symm ▸ hname, ?_, ?_⟩
    · exact htaken.has hheld (hwired.partitionFor name key ▸ hdrops)
    · intro move hmove hsource hpartition hcurrent
      rw [hcurrent'] at hcurrent
      cases htaken.moves hmove with
      | same hold => exact hmoves move hold hsource hpartition hcurrent
      | @delivered sent hold => exact hmoves sent hold hsource hpartition hcurrent
      | acknowledged hold =>
        rw [FragmentPush.acknowledge_sorted]
        exact hmoves _ hold hsource hpartition hcurrent
      | @started queued hqueued =>
        -- a drain that starts now sorts what its source holds now
        obtain ⟨t, entry, hpeek, -⟩ := hheld
        obtain rfl := peek_key hpeek
        obtain rfl : queued.1 = name := hsource
        refine ⟨entry, mem_sortedFragment.mpr ⟨?_, hpeek⟩, rfl⟩
        exact (hwired.partitionFor ..).trans hpartition.symm

/-- A table that keeps the holders keeps the custody, free of drains. -/
theorem Kept.author {key : JsString} (h : world.Kept key) (hwired : world.Wired key)
    {members live : List JsString} {epoch : Epoch partitionCount}
    (hnext : world.newest.next members live world.reports = some epoch)
    (hkeeps : world.KeepsHolders (partitionId key partitionCount) members live) :
    (world.author epoch).Kept key := by
  obtain ⟨name, hname, hheld, -⟩ := h
  have hpartition : partitionId key partitionCount ∈ (world.engine name).heldPartitions := by
    obtain ⟨t, entry, hpeek, -⟩ := hheld
    rw [← hwired.partitionFor name key]
    exact Store.mem_heldPartitions_of_peek hpeek
  refine ⟨name, (Epoch.mem_owners_next hnext (hwired.partitionId_lt key)).mpr ?_, hheld, ?_⟩
  · rcases hkeeps name hname hpartition with hretained | hprimary
    · exact Or.inr ⟨hname, hretained⟩
    · refine Or.inl (hprimary epoch.ring ?_).symm
      rw [(Epoch.next_eq_some hnext).1]
      rfl
  · intro move hmove _ _ hcurrent
    rw [hwired.not_current_next (Epoch.version_next hnext) (hwired.moving move hmove)] at hcurrent
    cases hcurrent

end Cluster

end Nodeakt.Kv
