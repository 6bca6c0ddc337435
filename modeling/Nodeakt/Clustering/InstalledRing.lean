import Nodeakt.Clustering.Node

/-! The ring a node routes by (`clustering.ts`).

    The ring is rebuilt only when a table newer than the installed one is applied, from the view of
    that moment. A table that arrives before the view shows the change it reflects, and a change of
    the view that leaves the owners and so the table as they are, leave the router with the ring of
    other members. `ring_current_iff`: the ring is the one of the current view exactly if the view
    has the ring members it had when the installed table was applied. -/

namespace Nodeakt.Clustering
open Schemes Nodeakt.Kv

namespace Cluster

/-- The installed ring assigns what the ring of the current view would. -/
def RingCurrent (c : Cluster) : Prop :=
  ∃ table ring current, c.replicator.installed = some (table, ring) ∧
    PartitionRing.new c.ringMembers c.partitionCount = .ok current ∧ ring.Agrees current

/-- Nothing is pending, and the table the node holds is installed. -/
def Settled (c : Cluster) : Prop :=
  c.pushing = none ∧ c.waiting = [] ∧ c.table.isSome = true ∧ c.coordinator.table = c.table

instance (c : Cluster) : Decidable c.Settled := inferInstanceAs (Decidable (_ ∧ _ ∧ _ ∧ _))

variable {c before fresh next : Cluster} {e : NodeEvent}

/-- What an event leaves installed: what was, or a newer table with the ring of the view. -/
structure Installs (c next : Cluster) : Prop where
  partitionCount : next.partitionCount = c.partitionCount
  installed : next.table = c.table ∧ next.replicator.installed = c.replicator.installed ∨
    ∃ table ring, next.table = some table ∧ c.isInstalled table = false ∧
      next.replicator.installed = some (table, ring) ∧
      PartitionRing.new next.ringMembers next.partitionCount = .ok ring

theorem Progress.installs (h : c.Progress next) : c.Installs next := by
  cases h with
  | idle => exact ⟨rfl, .inl ⟨rfl, rfl⟩⟩
  | install _ _ _ _ _ _ hnewer hring => exact ⟨rfl, .inr ⟨_, _, rfl, hnewer, rfl, hring⟩⟩

theorem installs_of_step (h : c.step e = some next) : c.Installs next := by
  cases taken_of_step h with
  | view members nowMs =>
    have hqueued := (progress_rebalance ((({ c with view := members } : Cluster).applyResolver
      nowMs).emitMembershipEvents) true).installs
    exact ⟨hqueued.partitionCount, hqueued.installed⟩
  | quiet | backstop | recovered hclaimed => exact ⟨rfl, .inl ⟨rfl, rfl⟩⟩
  | progress hp => exact hp.installs
  | store hs =>
    obtain ⟨_, _, _, _, _, rfl⟩ := hs
    exact ⟨rfl, .inl ⟨rfl, rfl⟩⟩

/-- The node still has what `fresh` installed, or a newer table. -/
structure Since (fresh c : Cluster) : Prop where
  partitionCount : c.partitionCount = fresh.partitionCount
  installed : c.table = fresh.table ∧ c.replicator.installed = fresh.replicator.installed ∨
    ∃ first table, fresh.table = some first ∧ c.table = some table ∧ first.version < table.version

theorem Since.step (htable : fresh.table.isSome = true) (h : fresh.Since c)
    (hstep : c.step e = some next) : fresh.Since next := by
  obtain ⟨hcount, hinstalls⟩ := installs_of_step hstep
  refine ⟨hcount.trans h.partitionCount, ?_⟩
  rcases hinstalls with ⟨hsame, hring⟩ | ⟨table, ring, hnew, hnewer, -, -⟩
  · rw [hsame, hring]
    exact h.installed
  · right
    obtain ⟨first, hfirst⟩ := Option.isSome_iff_exists.mp htable
    refine ⟨first, table, hfirst, hnew, ?_⟩
    rcases h.installed with ⟨hkept, -⟩ | ⟨first', current, hfirst', hcurrent, hlt⟩
    · rw [isInstalled, hkept, hfirst] at hnewer
      simpa using hnewer
    · rw [isInstalled, hcurrent] at hnewer
      cases (hfirst.symm.trans hfirst')
      simp only [Option.any_some, decide_eq_false_iff_not, not_le] at hnewer
      omega

/-- The ring is the one of the view exactly if it has the view's ring members. -/
theorem ringCurrent_iff {table : RoutingTable} {ring : PartitionRing}
    (hinstalled : c.replicator.installed = some (table, ring))
    (hcount : ring.partitionCount = c.partitionCount) :
    c.RingCurrent ↔ c.ringMembers.Perm ring.members := by
  constructor
  · rintro ⟨table', ring', current, hinstalled', hnew, hagrees⟩
    obtain ⟨-, rfl⟩ := Prod.mk.inj (Option.some.inj (hinstalled.symm.trans hinstalled'))
    rw [← (PartitionRing.new_eq_ok hnew).1]
    exact (PartitionRing.agrees_iff.mp hagrees).2.symm
  · intro hperm
    -- the same names in another order are as valid
    let current : PartitionRing :=
      { members := c.ringMembers
        partitionCount := c.partitionCount
        positive := hcount ▸ ring.positive
        nonempty := fun hnil => ring.nonempty (List.perm_nil.mp (hnil ▸ hperm.symm))
        named := fun member hmember => ring.named member (hperm.mem_iff.mp hmember)
        unique := hperm.nodup_iff.mpr ring.unique }
    exact ⟨table, ring, current, hinstalled, current.new_self,
      PartitionRing.agrees_iff.mpr ⟨hcount, hperm.symm⟩⟩

/-- After an event that installed a table, in every run that keeps it, the router's ring is the one
    of the current view exactly if the view has the ring members it had at the installation. -/
theorem ring_current_iff {es : List NodeEvent} (hinstall : before.step e = some fresh)
    (hnew : fresh.table ≠ before.table) (hafter : c ∈ run Cluster.step fresh es)
    (hkept : c.table = fresh.table) :
    c.RingCurrent ↔ c.ringMembers.Perm fresh.ringMembers := by
  obtain ⟨-, ⟨hsame, -⟩ | ⟨table, ring, htable, -, hrouter, hring⟩⟩ := installs_of_step hinstall
  · exact absurd hsame hnew
  · have hsince : fresh.Since c := run_invariant
      (fun _ _ _ h hs => h.step (by simp [htable]) hs) ⟨rfl, .inl ⟨rfl, rfl⟩⟩ hafter
    have hinstalled : c.replicator.installed = some (table, ring) := by
      rcases hsince.installed with ⟨-, hsame⟩ | ⟨first, newer, hfirst, hnewer, hlt⟩
      · rw [hsame, hrouter]
      · rw [hkept, hfirst] at hnewer
        cases hnewer
        exact absurd hlt (lt_irrefl _)
    obtain ⟨hmembers, hcount⟩ := PartitionRing.new_eq_ok hring
    rw [ringCurrent_iff hinstalled (hcount.trans hsince.partitionCount.symm), hmembers]

/-- A member that is not draining. -/
def active (unit : CodeUnit) : Kv.ClusterMember := ⟨[unit], false⟩

/-- A node of a cluster of two, before its first view. -/
def follower : Cluster := create [66] 1 Nat.one_pos 2 1 ⟨1, Nat.one_pos⟩

/-- A member joins, and the table that reflects it arrives after the view shows it; the order of the
    view changes later. -/
theorem ring_follows_late_table :
    ∃ before ∈ run Cluster.step follower [.view [active 65, active 66] 0, .rebalance,
        .table [65] ⟨1, [[[65]]], by decide⟩, .view [active 65, active 66, active 67] 0, .rebalance],
      ∃ fresh ∈ before.step (.table [65] ⟨2, [[[67]]], by decide⟩),
        ∃ c ∈ run Cluster.step fresh [.view [active 65, active 67, active 66] 0, .rebalance],
          c.Settled ∧ c.RingCurrent := by
  refine ends_imp (P := fun before : Cluster => ∃ fresh ∈ before.step (.table [65] ⟨2, [[[67]]],
      by decide⟩), fresh.table ≠ before.table ∧ ∃ c ∈ run Cluster.step fresh [.view [active 65,
      active 67, active 66] 0, .rebalance], c.table = fresh.table ∧ c.Settled ∧
      c.ringMembers.Perm fresh.ringMembers) (by decide +kernel) ?_
  rintro before hbefore ⟨fresh, hinstall, hnew, c, hafter, hkept, hsettled, hperm⟩
  exact ⟨fresh, hinstall, c, hafter, hsettled,
    (ring_current_iff hinstall hnew hafter hkept).mpr hperm⟩

/-- The table that reflects a join arrives before the view shows it: the ring stays without the new
    member. -/
theorem ring_misses_early_table :
    ∃ c ∈ run Cluster.step follower [.view [active 65, active 66] 0, .rebalance,
        .table [65] ⟨1, [[[65]]], by decide⟩, .table [65] ⟨2, [[[67]]], by decide⟩,
        .view [active 65, active 66, active 67] 0, .rebalance],
      c.Settled ∧ ¬c.RingCurrent := by
  refine ends_imp (P := fun c => c.Settled ∧ ∃ installed ∈ c.replicator.installed,
      installed.2.partitionCount = c.partitionCount ∧ ¬c.ringMembers.Perm installed.2.members)
    (by decide +kernel) ?_
  rintro c hrun ⟨hsettled, ⟨table, ring⟩, hinstalled, hcount, hmembers⟩
  exact ⟨hsettled, fun h => hmembers ((ringCurrent_iff hinstalled hcount).mp h)⟩

end Cluster

end Nodeakt.Clustering
