import Nodeakt.Schemes.Run
import Nodeakt.Kv.Recovery

/-! The recovering marks of one node (`kv/recovery.ts`).

    `onTable` marks every partition the table promotes the node to after a crash and starts a
    reconcile of it, one pull for each backup. A reconcile whose pulls have all ended clears the
    mark, and so does one of whose pulls has rejected, with the others still under way. Marks are a
    plain set, so two reconciles of one partition share one mark: whichever ends first clears it. -/

namespace Nodeakt.Kv
open Schemes List

/-- A reconcile with the backups it still pulls from, whether a pull has rejected, and whether its
    `finally` has run before the last pull ended. -/
structure Reconcile where
  partition : ℕ
  pulls : List JsString
  rejected : Bool
  ended : Bool
  deriving DecidableEq

/-- What a node's recovery remembers: the table it last reacted to, the marks and the reconciles. -/
structure Recovery where
  self : JsString
  replicaCount : ℕ
  installed : Option (RoutingTable × PartitionRing)
  recovering : List ℕ
  runs : List Reconcile

/-- What happens to a recovery: a table with the live members at that moment, the end of a pull
    (complete or cut short by a failed page), a pull that rejects (its next request cannot be encoded,
    or an answer is no chunk), and a reconcile running its `finally`. -/
inductive RecoveryEvent where
  | table (live : List JsString) (table : RoutingTable) (ring : PartitionRing)
  | pulled (run pull : ℕ)
  | rejected (run pull : ℕ)
  | settled (run : ℕ)

namespace Recovery

/-- A recovery before its first table. -/
def create (self : JsString) (replicaCount : ℕ) : Recovery := ⟨self, replicaCount, none, [], []⟩

section

variable (recovery : Recovery)

/-- Whether a promoted partition is still being reconciled. -/
def isRecovering (partition : ℕ) : Bool := partition ∈ recovery.recovering

/-- The partitions a table promotes this node to after a crash. -/
def promotions (live : List JsString) (table : RoutingTable) (ring : PartitionRing) : List ℕ :=
  (List.range table.partitionCount).filter (fun partition =>
    isCrashPromotion recovery.self live (recovery.installed.map Prod.fst) partition
      (table.placement partition ring recovery.replicaCount))

/-- Marks every promoted partition and starts its reconcile. -/
def onTable (live : List JsString) (table : RoutingTable) (ring : PartitionRing) : Recovery :=
  let promoted := recovery.promotions live table ring
  { recovery with
    installed := some (table, ring)
    recovering := recovery.recovering ∪ promoted
    runs := recovery.runs ++ promoted.map (fun partition =>
      ⟨partition, (table.placement partition ring recovery.replicaCount).backups, false, false⟩) }

/-- One pull of a reconcile ends, or rejects. -/
def endPull (index pull : ℕ) (rejects : Bool) (run : Reconcile) : Recovery :=
  { recovery with runs := recovery.runs.set index { run with
      pulls := run.pulls.eraseIdx pull, rejected := run.rejected || rejects } }

/-- A reconcile ends and clears the mark of its partition; the pulls it has left go on. -/
def settle (index : ℕ) (run : Reconcile) : Recovery :=
  { recovery with
    recovering := recovery.recovering.filter (· ≠ run.partition)
    runs := if run.pulls = [] then recovery.runs.eraseIdx index
      else recovery.runs.set index { run with ended := true } }

/-- One event; a pull ends once, and a reconcile after its pulls or after one that rejects. -/
def step : RecoveryEvent → Option Recovery
  | .table live table ring => some (recovery.onTable live table ring)
  | .pulled index pull =>
    (recovery.runs[index]?).bind (fun run =>
      if pull < run.pulls.length then some (recovery.endPull index pull false run) else none)
  | .rejected index pull =>
    (recovery.runs[index]?).bind (fun run =>
      if pull < run.pulls.length then some (recovery.endPull index pull true run) else none)
  | .settled index =>
    (recovery.runs[index]?).bind (fun run =>
      if (run.pulls = [] ∨ run.rejected = true) ∧ run.ended = false then
        some (recovery.settle index run) else none)

/-- Whether the installed table still names this node the primary of a partition. -/
def primaries (partition : ℕ) : Bool :=
  recovery.installed.any (fun installed => installed.1.primary partition = recovery.self)

/-- Every partition with a pull outstanding, for a promotion that is still current, is marked. -/
def Covered : Prop :=
  ∀ run ∈ recovery.runs, run.pulls ≠ [] → recovery.primaries run.partition = true →
    recovery.isRecovering run.partition = true

/-- No table promotes the node to a partition whose earlier reconcile has not ended, and no pull
    rejects while another one of its reconcile is under way. -/
def Apart : RecoveryEvent → Prop
  | .table live table ring => ∀ run ∈ recovery.runs, run.ended = false →
      run.partition ∉ recovery.promotions live table ring
  | .pulled .. => True
  | .rejected index _ => ∀ run ∈ recovery.runs[index]?, run.pulls.length ≤ 1
  | .settled _ => True

instance (e) : Decidable (recovery.Apart e) := by
  rcases e <;> dsimp only [Apart] <;> infer_instance

end

/-- Each partition has one reconcile at most, its mark is up as long, and it ends after its pulls. -/
structure Marked (recovery : Recovery) : Prop where
  once : (recovery.runs.map Reconcile.partition).Nodup
  up : ∀ run ∈ recovery.runs, run.partition ∈ recovery.recovering
  pulling : ∀ run ∈ recovery.runs, run.ended = false ∧ (run.rejected = true → run.pulls = [])

variable {recovery next : Recovery}

theorem Marked.covered (h : recovery.Marked) : recovery.Covered := fun run hrun _ _ =>
  decide_eq_true (h.up run hrun)

theorem partitions_onTable (recovery : Recovery) (live : List JsString) (table : RoutingTable)
    (ring : PartitionRing) :
    (recovery.onTable live table ring).runs.map Reconcile.partition =
      recovery.runs.map Reconcile.partition ++ recovery.promotions live table ring := by
  simp [onTable, Function.comp_def]

theorem Marked.onTable (h : recovery.Marked) {live : List JsString} {table : RoutingTable}
    {ring : PartitionRing} (hapart : recovery.Apart (.table live table ring)) :
    (recovery.onTable live table ring).Marked := by
  constructor
  · rw [partitions_onTable]
    refine nodup_append.mpr ⟨h.once, nodup_range.filter _, ?_⟩
    rintro partition hold _ hnew rfl
    obtain ⟨run, hrun, rfl⟩ := mem_map.mp hold
    exact hapart run hrun (h.pulling run hrun).1 hnew
  · intro run hrun
    have hpartition : run.partition ∈
        (recovery.onTable live table ring).runs.map Reconcile.partition := mem_map_of_mem hrun
    rw [partitions_onTable, mem_append] at hpartition
    rcases hpartition with hold | hnew
    · obtain ⟨earlier, hearlier, heq⟩ := mem_map.mp hold
      exact mem_union_left (heq ▸ h.up earlier hearlier) _
    · exact mem_union_right _ hnew
  · intro run hrun
    rcases mem_append.mp hrun with hold | hnew
    · exact h.pulling run hold
    · obtain ⟨partition, -, rfl⟩ := mem_map.mp hnew
      exact ⟨rfl, by simp⟩

theorem Marked.endPull (h : recovery.Marked) {index : ℕ} {run : Reconcile}
    (hrun : recovery.runs[index]? = some run) {pull : ℕ} {rejects : Bool}
    (hpull : pull < run.pulls.length) (hlast : rejects = true → run.pulls.length ≤ 1) :
    (recovery.endPull index pull rejects run).Marked := by
  have hmem : run ∈ recovery.runs := mem_of_getElem? hrun
  constructor
  · have hsame : (recovery.endPull index pull rejects run).runs.map Reconcile.partition =
        recovery.runs.map Reconcile.partition := by
      obtain ⟨hlt, rfl⟩ := List.getElem?_eq_some_iff.mp hrun
      have hlt' : index < (recovery.runs.map Reconcile.partition).length := by simpa using hlt
      rw [Recovery.endPull, map_set, ← getElem_map Reconcile.partition (h := hlt')]
      exact set_getElem_self hlt'
    rw [hsame]
    exact h.once
  · intro other hother
    rcases mem_or_eq_of_mem_set hother with hold | rfl
    · exact h.up other hold
    · exact h.up run hmem
  · intro other hother
    rcases mem_or_eq_of_mem_set hother with hold | rfl
    · exact h.pulling other hold
    · refine ⟨(h.pulling run hmem).1, fun hrejected => ?_⟩
      -- the pull that rejects was the last one, and a reconcile with a pull left has none rejected
      have hnone : run.rejected = true → run.pulls = [] := (h.pulling run hmem).2
      rcases Bool.or_eq_true _ _ ▸ hrejected with hearlier | hnow
      · simp [hnone hearlier]
      · have hone := hlast hnow
        exact length_eq_zero_iff.mp (by rw [length_eraseIdx_of_lt hpull]; omega)

/-- The reconcile that ends takes down its own mark only. -/
theorem Marked.settle (h : recovery.Marked) {index : ℕ} {run : Reconcile}
    (hrun : recovery.runs[index]? = some run) (hend : run.pulls = [] ∨ run.rejected = true) :
    (recovery.settle index run).Marked := by
  have hpulls : run.pulls = [] := hend.elim id (h.pulling run (mem_of_getElem? hrun)).2
  have hruns : (recovery.settle index run).runs = recovery.runs.eraseIdx index := if_pos hpulls
  constructor
  · rw [hruns]
    exact h.once.sublist ((eraseIdx_sublist ..).map _)
  · intro other hother
    rw [hruns] at hother
    refine mem_filter.mpr ⟨h.up other (mem_of_mem_eraseIdx hother), decide_eq_true ?_⟩
    obtain ⟨place, hne, hplace⟩ := mem_eraseIdx_iff_getElem?.mp hother
    intro heq
    have hsame : (recovery.runs.map Reconcile.partition)[place]? =
        (recovery.runs.map Reconcile.partition)[index]? := by
      rw [getElem?_map, getElem?_map, hplace, hrun, Option.map_some, Option.map_some, heq]
    have hlt : place < (recovery.runs.map Reconcile.partition).length := by
      rw [length_map]
      exact (List.getElem?_eq_some_iff.mp hplace).1
    exact hne (getElem?_inj hlt h.once |>.mp hsame)
  · intro other hother
    rw [hruns] at hother
    exact h.pulling other (mem_of_mem_eraseIdx hother)

theorem Marked.step (h : recovery.Marked) {e : RecoveryEvent} (hapart : recovery.Apart e)
    (hstep : recovery.step e = some next) : next.Marked := by
  cases e with
  | table live table ring =>
    cases hstep
    exact h.onTable hapart
  | pulled index pull =>
    obtain ⟨run, hrun, hstep⟩ := Option.bind_eq_some_iff.mp hstep
    obtain ⟨hpull, rfl⟩ := of_guarded hstep
    exact h.endPull hrun hpull (by simp)
  | rejected index pull =>
    obtain ⟨run, hrun, hstep⟩ := Option.bind_eq_some_iff.mp hstep
    obtain ⟨hpull, rfl⟩ := of_guarded hstep
    exact h.endPull hrun hpull fun _ => hapart run hrun
  | settled index =>
    obtain ⟨run, hrun, hstep⟩ := Option.bind_eq_some_iff.mp hstep
    obtain ⟨hend, rfl⟩ := of_guarded hstep
    exact h.settle hrun hend.1

/-- As long as no partition is promoted again before its earlier reconcile has ended, and no pull
    rejects beside another one, every outstanding pull is covered by a mark. -/
theorem marks_cover_reconciles (self : JsString) (replicaCount : ℕ) {es : List RecoveryEvent}
    (hapart : Meets step Apart (create self replicaCount) es)
    (hrun : recovery ∈ run step (create self replicaCount) es) : recovery.Covered := by
  have hstart : (create self replicaCount).Marked := ⟨List.nodup_nil, by simp [create], by simp [create]⟩
  exact (run_preserves (fun _ _ _ h hc hs => h.step hc hs) hstart hapart hrun).covered

/-- The ring of two nodes over one partition. -/
def pairRing : PartitionRing := ⟨[[65], [66]], 1, Nat.one_pos, by decide, by decide, by decide⟩

/-- A node is promoted after a crash, loses the partition when its reconcile has ended and is
    promoted again. -/
theorem second_promotion_covered :
    ∃ recovery ∈ run step (create [65] 2)
        [.table [[65], [66], [67]] (soleOwner 1 [67]) pairRing,
          .table [[65], [66]] (soleOwner 2 [65]) pairRing, .pulled 0 0, .settled 0,
          .table [[65], [66]] (soleOwner 3 [66]) pairRing, .table [[65]] (soleOwner 4 [65]) pairRing],
      (∃ run ∈ recovery.runs, run.pulls ≠ [] ∧ recovery.primaries run.partition = true) ∧
        recovery.Covered := by
  refine ends_imp (P := fun recovery => ∃ run ∈ recovery.runs, run.pulls ≠ [] ∧
      recovery.primaries run.partition = true) (by decide +kernel) ?_
  intro recovery hrun hpull
  exact ⟨hpull, marks_cover_reconciles [65] 2 (by decide +kernel) hrun⟩

/-- The first reconcile is still pulling when the node loses the partition and is promoted to it
    again; it ends, and the second one pulls without a mark. -/
theorem first_reconcile_clears_mark :
    ∃ recovery ∈ run step (create [65] 2)
        [.table [[65], [66], [67]] (soleOwner 1 [67]) pairRing,
          .table [[65], [66]] (soleOwner 2 [65]) pairRing,
          .table [[65], [66]] (soleOwner 3 [66]) pairRing,
          .table [[65]] (soleOwner 4 [65]) pairRing, .pulled 0 0, .settled 0],
      ¬recovery.Covered := by
  refine ends_imp (P := fun recovery => ∃ run ∈ recovery.runs, run.pulls ≠ [] ∧
      recovery.primaries run.partition = true ∧ recovery.isRecovering run.partition = false)
    (by decide +kernel) ?_
  rintro recovery hrun ⟨run, hmem, hpulls, hcurrent, hmark⟩
  exact fun h => by simp [h run hmem hpulls hcurrent] at hmark

/-! ### The sources of a reconcile -/

/-- When members leave, the primary of a partition among them, every backup that stays is its new
    primary or a backup still, so that the new primary's reconcile pulls from it. -/
theorem survivors_stay_replicas (ring : PartitionRing) (departed : List JsString)
    (partition : ℕ) (hpartition : partition < ring.partitionCount)
    (hprimary : ring.primary partition ∈ departed) (replicaCount : ℕ) (name : JsString)
    (hbackup : name ∈ ring.backups partition replicaCount) (hstays : name ∉ departed) :
    ∃ after, PartitionRing.new (ring.members.filter (· ∉ departed)) ring.partitionCount = .ok after ∧
      (name = after.primary partition ∨ name ∈ after.backups partition replicaCount) ∧
      ∀ (recovery : Recovery) (live : List JsString) (table : RoutingTable),
        recovery.self = after.primary partition → recovery.replicaCount = replicaCount →
        partition ∈ recovery.promotions live table after →
        ∃ run ∈ (recovery.onTable live table after).runs, run.partition = partition ∧
          (name = recovery.self ∨ name ∈ run.pulls) := by
  have hmember : name ∈ ring.members.filter (· ∉ departed) :=
    List.mem_filter.mpr ⟨(ring.mem_backups hpartition hbackup).1, decide_eq_true hstays⟩
  let after : PartitionRing :=
    { members := ring.members.filter (· ∉ departed)
      partitionCount := ring.partitionCount
      positive := ring.positive
      nonempty := List.ne_nil_of_mem hmember
      named := fun member hm => ring.named member (List.mem_of_mem_filter hm)
      unique := ring.unique.filter _ }
  have hkept : name = after.primary partition ∨ name ∈ after.backups partition replicaCount :=
    @PartitionRing.backups_survive ring after (fun member => decide (member ∉ departed)) partition
      (.refl _) hpartition hpartition (decide_eq_false (by simpa)) replicaCount name hbackup
      (decide_eq_true hstays)
  refine ⟨after, after.new_self, hkept, ?_⟩
  rintro recovery live table hself rfl hpromoted
  exact ⟨_, List.mem_append_right _ (List.mem_map.mpr ⟨partition, hpromoted, rfl⟩), rfl, by rwa [hself]⟩

/-- Three nodes, the primary of the only partition leaves, the one backup takes over. -/
theorem backup_promoted_of_three :
    ∃ after, PartitionRing.new [[65], [67]] 1 = .ok after ∧
      ([67] = after.primary 0 ∨ [67] ∈ after.backups 0 2) := by
  have hthree := survivors_stay_replicas
    ⟨[[65], [66], [67]], 1, by decide, by decide, by decide, by decide⟩ [[66]] 0
    (by decide) (by decide +kernel) 2 [67] (by decide +kernel) (by decide)
  obtain ⟨after, hnew, hkept, -⟩ := hthree
  exact ⟨after, hnew, hkept⟩

end Recovery

end Nodeakt.Kv
