import Nodeakt.Kv.Recovery
import Nodeakt.Kv.Coordinator

/-! A graceful leave.

    The leaver is flagged draining, the coordinator evolves its table onto the ring without it, and
    the leaver drains every partition it owns under that table. A drain reads the owners lists only,
    so a backup's copy is left behind; and what is pushed arrives without the leading mark of its
    key. `leaver_empties_iff`: everything is handed over exactly when the leaver owned, and was not
    reported to have emptied, every partition it holds, and each entry is at its new primary already
    or one of the leaver's arrives there as it. -/

namespace Nodeakt.Kv
open Schemes List

/-- One member is flagged draining and the coordinator's next table and ring are installed. -/
structure Leaving (members : List ClusterMember) (node : Coordinator) (before table : RoutingTable)
    (ring : PartitionRing) (leaver : JsString) (engines : JsString → Engine) : Prop where
  holds : node.table = some before
  count : before.partitionCount = node.partitionCount
  authored : ∃ node', node.recompute members = .ok (table, node')
  ring_eq : PartitionRing.new (assignableNames members) node.partitionCount = .ok ring
  present : leaver ∈ liveNames members
  flagged : ∀ member ∈ members, member.name = leaver → member.draining = true
  remains : ∃ member ∈ members, member.draining = false
  counts : ∀ name, (engines name).store.partitionCount = node.partitionCount

/-- The stores after the leaver's drain, if every push is acknowledged. -/
def afterDrain (table : RoutingTable) (ring : PartitionRing) (replicaCount : ℕ) (leaver : JsString)
    (engines : JsString → Engine) : Option (JsString → Engine) :=
  drainAll table ring replicaCount engines ((drainPartitions leaver table).map (leaver, ·))

/-- The leaver holds nothing any more, and each of its entries is at the partition's primary. -/
def HandedOver (table : RoutingTable) (leaver : JsString) (engines drained : JsString → Engine) :
    Prop :=
  (drained leaver).heldPartitions = [] ∧ ∀ key entry, (engines leaver).peek key = some entry →
      (drained (table.primary ((engines leaver).partitionFor key))).Holds key entry.timestamp

/-- Each of the leaver's entries is at the primary of the ring already, or one that the leaver holds
    for the same primary arrives under its key and as recent. -/
def Arrives (ring : PartitionRing) (leaver : JsString) (engines : JsString → Engine) : Prop :=
  ∀ key entry, (engines leaver).peek key = some entry →
    (engines (ring.primary ((engines leaver).partitionFor key))).Holds key entry.timestamp ∨
      ∃ source, (engines leaver).peek source.key = some source ∧
        ring.primary ((engines leaver).partitionFor source.key) =
          ring.primary ((engines leaver).partitionFor key) ∧
        arriving source.key = key ∧ entry.timestamp ≤ (source.mapText arriving).timestamp

namespace Leaving

variable {members : List ClusterMember} {node : Coordinator} {before table : RoutingTable}
  {ring : PartitionRing} {leaver : JsString} {engines : JsString → Engine}

section

variable (h : Leaving members node before table ring leaver engines)
include h

theorem ring_partitionCount :
    ring.partitionCount = node.partitionCount := (PartitionRing.new_eq_ok h.ring_eq).2

/-- The new ring leaves the leaver out. -/
theorem not_mem_ring : leaver ∉ ring.members := by
  rw [(PartitionRing.new_eq_ok h.ring_eq).1, assignableNames]
  obtain ⟨other, hother, hstays⟩ := h.remains
  have hsome : 0 < ((members.filter (fun member => !member.draining)).map
      ClusterMember.name).length :=
    length_pos_of_mem (mem_map_of_mem (mem_filter.mpr ⟨hother, by simp [hstays]⟩))
  rw [if_pos hsome]
  intro hmem
  obtain ⟨member, hmember, hname⟩ := mem_map.mp hmem
  obtain ⟨hin, hstay⟩ := mem_filter.mp hmember
  simp [h.flagged member hin hname] at hstay

/-- The installed rows are the evolved ones, whether or not the table was authored anew. -/
theorem owners_eq :
    table.partitionCount = ring.partitionCount ∧ ∀ id < ring.partitionCount, table.owners id =
      (RoutingTable.evolved (some before) ring node.reports (node.maxVersion + 1)
        (liveNames members)).owners id := by
  obtain ⟨node', hauthored⟩ := h.authored
  obtain ⟨ring', candidate, hring, hcandidate, hcases⟩ := Coordinator.recompute_cases hauthored
  obtain rfl := Except.ok.inj (hring.symm.trans h.ring_eq)
  rw [h.holds] at hcandidate
  rcases hcases with ⟨hkept, hsame, -⟩ | ⟨-, rfl, -⟩
  · cases (h.holds.symm.trans hkept)
    have hcount := h.count.trans h.ring_partitionCount.symm
    exact ⟨hcount, fun id hid => hcandidate ▸ sameOwners_iff.mp hsame id (hcount ▸ hid)⟩
  · rw [hcandidate]
    exact ⟨RoutingTable.partitionCount_evolved .., fun _ _ => rfl⟩

theorem primary_eq {id : ℕ} (hid : id < ring.partitionCount) :
    table.primary id = ring.primary id := by
  rw [RoutingTable.primary, h.owners_eq.2 id hid]
  exact RoutingTable.primary_evolved hid

/-- The leaver is the primary of nothing. -/
theorem primary_ne {id : ℕ} (hid : id < ring.partitionCount) : table.primary id ≠ leaver := by
  rw [h.primary_eq hid]
  rintro rfl
  exact h.not_mem_ring (ring.primary_mem hid)

/-- The partitions the leaver drains. -/
theorem mem_drain_iff {id : ℕ} (hid : id < ring.partitionCount) :
    id ∈ drainPartitions leaver table ↔
      leaver ∈ before.owners id ∧ ¬ Omits node.reports leaver id := by
  have hne := h.primary_ne hid
  have hring : leaver ≠ ring.primary id := by
    rintro rfl
    exact h.not_mem_ring (ring.primary_mem hid)
  rw [mem_drainPartitions, h.owners_eq.2 id hid, RoutingTable.mem_owners_evolved hid, h.owners_eq.1]
  simp [hid, hne, hring, h.present]

theorem moved :
    ∀ move ∈ (drainPartitions leaver table).map (leaver, ·), table.primary move.2 ≠ move.1 := by
  intro move hmove
  obtain ⟨id, hid, rfl⟩ := mem_map.mp hmove
  exact h.primary_ne (h.owners_eq.1 ▸ (mem_drainPartitions.mp hid).1)

/-- The drain leaves exactly the partitions it does not visit. -/
theorem held_after {replicaCount id : ℕ} {drained : JsString → Engine}
    (hdrained : afterDrain table ring replicaCount leaver engines = some drained)
    (hid : id < ring.partitionCount) : id ∈ (drained leaver).heldPartitions ↔
      id ∈ (engines leaver).heldPartitions ∧ id ∉ drainPartitions leaver table := by
  have hgone : keepsCopy leaver ring replicaCount id = false := by
    rw [keepsCopy, decide_eq_false_iff_not]
    exact fun hmem => h.not_mem_ring (ring.mem_backups hid hmem).1
  have hnone : ¬ Strands table ring replicaCount leaver id engines
      ((drainPartitions leaver table).map (leaver, ·)) := by
    refine not_strands fun move hmove => ?_
    obtain ⟨drain, -, rfl⟩ := mem_map.mp hmove
    exact h.moved _ hmove
  rw [mem_held_drainAll h.moved hdrained, Remains, or_iff_left hnone]
  simp [hgone]

theorem held_lt {id : ℕ} (hheld : id ∈ (engines leaver).heldPartitions) :
    id < ring.partitionCount := by
  rw [h.ring_partitionCount, ← h.counts leaver]
  exact (engines leaver).store.bounded id hheld

/-- The leaver is empty after its drain exactly when it drains every partition it holds. -/
theorem empty_iff {replicaCount : ℕ} {drained : JsString → Engine}
    (hdrained : afterDrain table ring replicaCount leaver engines = some drained) :
    (drained leaver).heldPartitions = [] ↔ ∀ id ∈ (engines leaver).heldPartitions,
      leaver ∈ before.owners id ∧ ¬ Omits node.reports leaver id := by
  constructor
  · intro hempty id hheld
    have hid := h.held_lt hheld
    rw [← h.mem_drain_iff hid]
    by_contra hleft
    have hmem := (h.held_after hdrained hid).mpr ⟨hheld, hleft⟩
    rw [hempty] at hmem
    cases hmem
  · intro howned
    refine List.eq_nil_iff_forall_not_mem.mpr fun id hmem => ?_
    have hid : id < ring.partitionCount := by
      rw [h.ring_partitionCount, ← drainAll_partitionCount h.moved h.counts hdrained leaver]
      exact Store.bounded _ id hmem
    obtain ⟨hheld, hleft⟩ := (h.held_after hdrained hid).mp hmem
    exact hleft ((h.mem_drain_iff hid).mpr (howned id hheld))

/-- When the leaver drains every partition it holds, its entries are handed over exactly when they
    arrive. -/
theorem held_iff_arrives {replicaCount : ℕ} {drained : JsString → Engine}
    (hdrained : afterDrain table ring replicaCount leaver engines = some drained)
    (howned : ∀ id ∈ (engines leaver).heldPartitions,
      leaver ∈ before.owners id ∧ ¬ Omits node.reports leaver id) :
    (∀ key entry, (engines leaver).peek key = some entry →
      (drained (table.primary ((engines leaver).partitionFor key))).Holds key entry.timestamp) ↔
        Arrives ring leaver engines := by
  have hheld : ∀ {key entry}, (engines leaver).peek key = some entry →
      (engines leaver).partitionFor key ∈ (engines leaver).heldPartitions :=
    fun hpeek => Store.mem_heldPartitions_of_peek hpeek
  refine forall₃_congr fun key entry hpeek => ?_
  have hid := h.held_lt (hheld hpeek)
  rw [holds_drainAll (h.primary_ne hid) (fun id hdrain => (mem_drainPartitions.mp hdrain).2.1)
    hdrained, h.primary_eq hid]
  refine or_congr_right (exists_congr fun source => and_congr_right fun hsource => ?_)
  have hsid := h.held_lt (hheld hsource)
  rw [h.primary_eq hsid,
    and_iff_right ((h.mem_drain_iff hsid).mpr (howned _ (hheld hsource)))]

end

end Leaving

theorem exists_recompute {members : List ClusterMember} {node : Coordinator} {ring : PartitionRing}
    {table : RoutingTable}
    (hring : PartitionRing.new (assignableNames members) node.partitionCount = .ok ring)
    (hcount : ∀ t ∈ node.table, t.partitionCount = node.partitionCount)
    (htable : (node.author (RoutingTable.evolved node.table ring node.reports
      (node.maxVersion + 1) (liveNames members))).1 = table) :
    ∃ node', node.recompute members = .ok (table, node') :=
  ⟨_, by rw [Coordinator.recompute_eq hring hcount, ← htable]⟩

/-- The ring of `b` over one partition. -/
def ringB : PartitionRing := ⟨[[98]], 1, Nat.one_pos, by decide, by decide, by decide⟩

/-- The partition owned by `b` alone. -/
def tableB : RoutingTable := ⟨1, [[[98]]], by decide⟩

/-- The coordinator `a`, holding that table. -/
def nodeA : Coordinator := ⟨[97], 1, some tableB, 1, []⟩

/-- A write at the primary `b`. -/
def writtenAtB : Except KvError WriteResult × Engine :=
  (Engine.create [98] 1 Nat.one_pos).write (.put [107] [1] .none none) 0 0

/-- Primary `b` with its write and backup `a` with the replicated entry. -/
def replicatedToA (name : JsString) : Engine := if name = [98] then writtenAtB.2 else
    match writtenAtB.1 with
    | .ok (.applied entry) =>
      if name = [97] then (Engine.create name 1 Nat.one_pos).merge entry
      else Engine.create name 1 Nat.one_pos
    | _ => Engine.create name 1 Nat.one_pos

theorem replicatedToA_partitionCount (name : JsString) :
    (replicatedToA name).store.partitionCount = 1 := by
  unfold replicatedToA
  split
  · exact Engine.write_partitionCount ..
  · split
    · split <;> rfl
    · rfl

/-- The partition moving from `b` to `a`. -/
def tableBA : RoutingTable := ⟨2, [[[98], [97]]], by decide⟩

end Nodeakt.Kv
