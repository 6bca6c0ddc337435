import Nodeakt.Schemes.Run
import Nodeakt.Kv.Delivery
import Nodeakt.Kv.RoutingTable

/-! Departure and recovery of one node (`kv/recovery.ts`).

    A demoted owner drains each partition it lost to the new primary and drops its copy unless it is
    a backup still. `drainOne` is a drain whose pages are all acknowledged, on the engines of the
    cluster. The receiver decodes the pages, so an entry may arrive under another key and in another
    partition; `mem_held_drainAll` says what the nodes hold after any sequence of drains. -/

namespace Nodeakt.Kv
open Schemes List

variable {key name self : JsString} {partition id : ℕ} {engines drained : JsString → Engine}
  {moves : List (JsString × ℕ)}

/-- The partitions a node still owns but no longer primaries. -/
def drainPartitions (self : JsString) (table : RoutingTable) : List ℕ :=
  (List.range table.partitionCount).filter
    (fun partition => table.primary partition ≠ self ∧ self ∈ table.owners partition)

/-- Whether a drained node keeps its copy, as one of the partition's backups. -/
def keepsCopy (self : JsString) (ring : PartitionRing) (replicaCount partition : ℕ) : Bool :=
  self ∈ ring.backups partition replicaCount

/-- Whether the table names this node the sole owner because the previous primary died. -/
def isCrashPromotion (self : JsString) (live : List JsString) (previous : Option RoutingTable)
    (partition : ℕ) (placement : PartitionPlacement) : Bool :=
  if placement.primary ≠ self ∨ 1 < placement.owners.length then false
  else
    match previous with
    | none => false
    | some previous =>
      if previous.primary partition = self then false else previous.primary partition ∉ live

/-- Pushes one demoted fragment to its new primary and drops it, if every page is acknowledged. -/
def drainOne (engines : JsString → Engine) (self : JsString) (table : RoutingTable)
    (ring : PartitionRing) (replicaCount partition : ℕ) : Option (JsString → Engine) :=
  let target := table.primary partition
  let sorted := sortedFragment (engines self) partition
  let pushed := pushOver (pushPages partition sorted (sorted.length + 1) none) (engines target)
  if pushed.2 then
    let engines := Function.update engines target pushed.1
    some (if keepsCopy self ring replicaCount partition then engines
      else Function.update engines self ((engines self).drop partition))
  else none

/-- Several drains one after the other, each of one node's fragment of one partition. -/
def drainAll (table : RoutingTable) (ring : PartitionRing) (replicaCount : ℕ)
    (engines : JsString → Engine) (moves : List (JsString × ℕ)) : Option (JsString → Engine) :=
  run (fun engines move => drainOne engines move.1 table ring replicaCount move.2) engines moves

theorem mem_drainPartitions {table : RoutingTable} :
    partition ∈ drainPartitions self table ↔ partition < table.partitionCount ∧
      table.primary partition ≠ self ∧ self ∈ table.owners partition := by
  simp [drainPartitions]

section Drain

variable {table : RoutingTable} {ring : PartitionRing} {replicaCount partitionCount : ℕ}

/-- An acknowledged push of a fragment has merged its entries as they arrive. -/
theorem pushOver_sorted {sorted : List Entry} (hsorted : KeySorted sorted) {peer : Engine}
    (h : (pushOver (pushPages partition sorted (sorted.length + 1) none) peer).2 = true) :
    (pushOver (pushPages partition sorted (sorted.length + 1) none) peer).1 =
      (sorted.map (Entry.mapText arriving)).foldl Engine.merge peer := by
  have hentries : ((pushPages partition sorted (sorted.length + 1) none).map
      (FragmentChunk.mapText arriving)).flatMap FragmentChunk.entries =
      sorted.map (Entry.mapText arriving) := by
    conv_rhs => rw [← push_entries hsorted partition, map_flatMap]
    rw [flatMap_map]
    rfl
  rw [pushOver_answered h, foldl_applyChunk, hentries]

/-- What a drain leaves at a node: the receiver has merged the fragment as it arrives, the drained
    node has dropped it unless it is a backup, and nobody else changed. -/
theorem drainOne_eq_some (hmoved : table.primary partition ≠ self)
    (h : drainOne engines self table ring replicaCount partition = some drained)
    (name : JsString) :
    drained name = if name = table.primary partition then
        ((sortedFragment (engines self) partition).map (Entry.mapText arriving)).foldl Engine.merge
          (engines name)
      else if name = self ∧ keepsCopy self ring replicaCount partition = false then
        (engines name).drop partition
      else engines name := by
  obtain ⟨hpushed, rfl⟩ := of_guarded h
  rw [pushOver_sorted (keySorted_sortedFragment ..) hpushed]
  by_cases htarget : name = table.primary partition
  · subst htarget
    cases hkeep : keepsCopy self ring replicaCount partition <;> simp [hmoved]
  · by_cases hself : name = self
    · subst hself
      cases hkeep : keepsCopy name ring replicaCount partition <;> simp [htarget]
    · cases hkeep : keepsCopy self ring replicaCount partition <;> simp [htarget, hself]

theorem drainOne_partitionCount
    (hcount : ∀ name, (engines name).store.partitionCount = partitionCount)
    (hmoved : table.primary partition ≠ self)
    (h : drainOne engines self table ring replicaCount partition = some drained) (name : JsString) :
    (drained name).store.partitionCount = partitionCount := by
  rw [drainOne_eq_some hmoved h]
  split
  · rw [Engine.merges_partitionCount, hcount]
  · split <;> exact hcount name

/-- A drain brings an entry to a node, into one of its partitions. -/
def Lands (table : RoutingTable) (engines : JsString → Engine) (move : JsString × ℕ)
    (name : JsString) (id : ℕ) : Prop :=
  table.primary move.2 = name ∧ ∃ entry ∈ sortedFragment (engines move.1) move.2,
    (engines name).partitionFor (arriving entry.key) = id

/-- Some drain of a sequence leaves a node with an entry of a partition it drains no more: it is a
    backup of it, or has drained it before. -/
def Strands (table : RoutingTable) (ring : PartitionRing) (replicaCount : ℕ) (name : JsString)
    (id : ℕ) : (JsString → Engine) → List (JsString × ℕ) → Prop
  | _, [] => False
  | engines, move :: rest => Lands table engines move name id ∧
      (keepsCopy name ring replicaCount id = true ∨ (name, id) ∉ rest) ∨
    ∃ drained ∈ drainOne engines move.1 table ring replicaCount move.2,
      Strands table ring replicaCount name id drained rest

instance (table : RoutingTable) (engines : JsString → Engine) (move : JsString × ℕ)
    (name : JsString) (id : ℕ) : Decidable (Lands table engines move name id) :=
  inferInstanceAs (Decidable (_ ∧ ∃ entry ∈ _, _))

instance decidableStrands (table : RoutingTable) (ring : PartitionRing) (replicaCount : ℕ)
    (name : JsString) (id : ℕ) : ∀ (engines : JsString → Engine) (moves : List (JsString × ℕ)),
      Decidable (Strands table ring replicaCount name id engines moves)
  | _, [] => inferInstanceAs (Decidable False)
  | _, _ :: rest =>
    have : ∀ drained, Decidable (Strands table ring replicaCount name id drained rest) :=
      fun drained => decidableStrands table ring replicaCount name id drained rest
    inferInstanceAs (Decidable (_ ∨ ∃ drained ∈ _, _))

/-- A node holds entries of a partition after the drains: it held some and is a backup or does not
    drain it, or one is stranded. -/
def Remains (table : RoutingTable) (ring : PartitionRing) (replicaCount : ℕ)
    (engines : JsString → Engine) (moves : List (JsString × ℕ)) (name : JsString) (id : ℕ) : Prop :=
  id ∈ (engines name).heldPartitions ∧
      (keepsCopy name ring replicaCount id = true ∨ (name, id) ∉ moves) ∨
    Strands table ring replicaCount name id engines moves

instance (table : RoutingTable) (ring : PartitionRing) (replicaCount : ℕ)
    (engines : JsString → Engine) (moves : List (JsString × ℕ)) (name : JsString) (id : ℕ) :
    Decidable (Remains table ring replicaCount engines moves name id) :=
  inferInstanceAs (Decidable (_ ∨ _))

/-- What a drain does to the partitions a node holds. -/
theorem mem_held_drainOne {move : JsString × ℕ} (hmoved : table.primary move.2 ≠ move.1)
    (h : drainOne engines move.1 table ring replicaCount move.2 = some drained) :
    id ∈ (drained name).heldPartitions ↔ id ∈ (engines name).heldPartitions ∧
        ((name, id) = move → keepsCopy name ring replicaCount id = true) ∨
      Lands table engines move name id := by
  rw [drainOne_eq_some hmoved h]
  by_cases htarget : name = table.primary move.2
  · have hne : (name, id) ≠ move := by
      rintro rfl
      exact hmoved htarget.symm
    rw [if_pos htarget, Engine.mem_heldPartitions_merges, Lands, and_iff_right htarget.symm,
      and_iff_left fun heq => absurd heq hne]
    simp [Entry.mapText]
  · have hlands : ¬ Lands table engines move name id := fun hlands => htarget hlands.1.symm
    rw [if_neg htarget, or_iff_left hlands]
    split_ifs with hself
    · rw [Engine.mem_heldPartitions_drop, and_comm]
      refine and_congr_right fun _ => ⟨?_, ?_⟩
      · rintro hne rfl
        exact absurd rfl hne
      · rintro hkeep rfl
        rw [hself.1] at hkeep
        exact absurd (hkeep rfl) (by simp [hself.2])
    · refine (and_iff_left ?_).symm
      rintro rfl
      simpa using hself

theorem drainAll_cons {move : JsString × ℕ} :
    drainAll table ring replicaCount engines (move :: moves) = some drained ↔
      ∃ next, drainOne engines move.1 table ring replicaCount move.2 = some next ∧
        drainAll table ring replicaCount next moves = some drained :=
  run_cons_eq_some _

/-- What a node holds after any sequence of drains. -/
theorem mem_held_drainAll : ∀ {moves : List (JsString × ℕ)} {engines : JsString → Engine},
    (∀ move ∈ moves, table.primary move.2 ≠ move.1) →
    drainAll table ring replicaCount engines moves = some drained →
    (id ∈ (drained name).heldPartitions ↔ Remains table ring replicaCount engines moves name id)
  | [], engines, _, h => by
      cases h
      simp [Remains, Strands]
  | move :: moves, engines, hmoved, h => by
      obtain ⟨next, hnext, hrest⟩ := drainAll_cons.mp h
      rw [mem_held_drainAll (fun m hm => hmoved m (mem_cons_of_mem _ hm)) hrest, Remains, Remains,
        Strands, mem_held_drainOne (hmoved move (mem_cons_self ..)) hnext, hnext]
      simp only [Option.mem_def, Option.some.injEq, exists_eq_left', mem_cons, not_or]
      tauto

theorem drainAll_partitionCount (hmoved : ∀ move ∈ moves, table.primary move.2 ≠ move.1) :
    ∀ {engines : JsString → Engine}, (∀ name, (engines name).store.partitionCount = partitionCount) →
      drainAll table ring replicaCount engines moves = some drained →
      ∀ name, (drained name).store.partitionCount = partitionCount := by
  induction moves with
  | nil =>
    rintro engines hcount h name
    cases h
    exact hcount name
  | cons move moves ih =>
    intro engines hcount h
    obtain ⟨next, hnext, hrest⟩ := drainAll_cons.mp h
    exact ih (fun m hm => hmoved m (mem_cons_of_mem _ hm))
      (drainOne_partitionCount hcount (hmoved move (mem_cons_self ..)) hnext) hrest

/-- Nothing is stranded at a node that is no drain's target. -/
theorem not_strands : ∀ {moves : List (JsString × ℕ)} {engines : JsString → Engine},
    (∀ move ∈ moves, table.primary move.2 ≠ name) →
    ¬ Strands table ring replicaCount name id engines moves
  | [], _, _ => not_false
  | move :: moves, _, h => by
      rintro (⟨hlands, -⟩ | ⟨next, -, hrest⟩)
      · exact h move (mem_cons_self ..) hlands.1
      · exact not_strands (fun m hm => h m (mem_cons_of_mem _ hm)) hrest

/-- What the drains of one node's partitions bring to another: the entries of those it primaries,
    as they arrive. -/
theorem holds_drainAll {t : HybridTime} (hname : name ≠ self) :
    ∀ {partitions : List ℕ} {engines : JsString → Engine},
      (∀ partition ∈ partitions, table.primary partition ≠ self) →
      drainAll table ring replicaCount engines (partitions.map (self, ·)) = some drained →
      ((drained name).Holds key t ↔ (engines name).Holds key t ∨ ∃ entry,
        (engines self).peek entry.key = some entry ∧
          (engines self).partitionFor entry.key ∈ partitions ∧
          table.primary ((engines self).partitionFor entry.key) = name ∧
          arriving entry.key = key ∧ t ≤ (entry.mapText arriving).timestamp)
  | [], engines, _, h => by
      cases h
      simp
  | partition :: rest, engines, hmoved, h => by
      obtain ⟨next, hnext, hrest⟩ := drainAll_cons.mp h
      have hmoved₀ := hmoved partition (mem_cons_self ..)
      have happly := drainOne_eq_some hmoved₀ hnext
      have hself : next self = engines self ∨ next self = (engines self).drop partition := by
        rw [happly, if_neg hmoved₀.symm]
        split
        · exact Or.inr rfl
        · exact Or.inl rfl
      have hfor : ∀ key, (next self).partitionFor key = (engines self).partitionFor key := by
        rcases hself with h | h <;> exact fun _ => h ▸ rfl
      have hpeek : ∀ key, (engines self).partitionFor key ≠ partition →
          (next self).peek key = (engines self).peek key := by
        intro key hkey
        rcases hself with h | h <;> rw [h]
        exact (Engine.peek_drop ..).trans (if_neg hkey)
      have hless : ∀ {entry : Entry}, (next self).peek entry.key = some entry →
          (engines self).peek entry.key = some entry := by
        intro entry hstored
        rcases hself with h | h
        · rwa [h] at hstored
        · rw [h, Engine.peek_drop] at hstored
          split at hstored
          · cases hstored
          · exact hstored
      have hfirst : (next name).Holds key t ↔ (engines name).Holds key t ∨ ∃ entry,
          (engines self).peek entry.key = some entry ∧
            (engines self).partitionFor entry.key = partition ∧ table.primary partition = name ∧
            arriving entry.key = key ∧ t ≤ (entry.mapText arriving).timestamp := by
        rw [happly]
        split_ifs with htarget hdropped
        · rw [Engine.holds_merges_iff]
          simp only [mem_map, exists_exists_and_eq_and, mem_sortedFragment, htarget, true_and]
          refine or_congr_right (exists_congr fun entry => ?_)
          rw [and_assoc, and_left_comm]
          rfl
        · exact absurd hdropped.1 hname
        · simp [Ne.symm htarget]
      rw [holds_drainAll hname (fun p hp => hmoved p (mem_cons_of_mem _ hp)) hrest, hfirst,
        or_assoc, ← exists_or]
      refine or_congr_right (exists_congr fun entry => ?_)
      rw [hfor, mem_cons]
      by_cases hp : (engines self).partitionFor entry.key = partition
      · constructor
        · rintro (⟨hstored, -, hprimary, harrived⟩ | ⟨hstored, -, hprimary, harrived⟩)
          · exact ⟨hstored, Or.inl hp, hp ▸ hprimary, harrived⟩
          · exact ⟨hless hstored, Or.inl hp, hprimary, harrived⟩
        · rintro ⟨hstored, -, hprimary, harrived⟩
          exact Or.inl ⟨hstored, hp, hp ▸ hprimary, harrived⟩
      · rw [hpeek _ hp]
        simp [hp]

end Drain

end Nodeakt.Kv
