import Nodeakt.Kv.Partition

/-! The node-local store (`kv/store.ts`): the fragments a node holds, by partition id. A fragment
    materializes on its first write and disappears only when it is dropped. -/

namespace Nodeakt.Kv
open Schemes OrderedMap Nodeakt.Kv.Partition

variable {store : Store} {entry : Entry} {id : ℕ}

/-- The fragments of one node; a fragment has a valid id and only stores keys of its partition. -/
structure Store where
  partitionCount : ℕ
  partitions : OrderedMap ℕ Partition
  sweepCursor : ℕ
  positive : 0 < partitionCount
  bounded : ∀ id ∈ partitions.keys, id < partitionCount
  routed : ∀ id part, partitions.get id = some part →
    ∀ k e, part.peek k = some e → partitionId k partitionCount = id

namespace Store

/-- The store of a node that holds nothing. -/
def create (partitionCount : ℕ) (positive : 0 < partitionCount) : Store :=
  ⟨partitionCount, OrderedMap.empty, 0, positive, by simp, by simp⟩

/-- The ids of the fragments this node holds. -/
def heldPartitions (store : Store) : List ℕ := store.partitions.keys

/-- Partition id a key maps onto. -/
def partitionFor (store : Store) (key : JsString) : ℕ := partitionId key store.partitionCount

section

variable (store)

theorem partitionFor_lt (key : JsString) :
    store.partitionFor key < store.partitionCount := partitionId_lt key store.positive

/-- The live, unexpired value for `key`. -/
def get (key : JsString) (nowMs : Millis) : Option Entry :=
  (store.partitions.get (store.partitionFor key)).bind (fun part => part.get key nowMs)

/-- The raw stored entry for `key`. -/
def peek (key : JsString) : Option Entry :=
  (store.partitions.get (store.partitionFor key)).bind (fun part => part.peek key)

/-- Every stored entry of fragment `id`, tombstones included. -/
def snapshot (id : ℕ) : List Entry := match store.partitions.get id with
  | some part => part.entries.values
  | none => []

/-- The fragment for `id`, an empty one when the node holds none. -/
def ensure (id : ℕ) : Partition := (store.partitions.get id).getD Partition.empty

theorem ensure_routed (id : ℕ) {k : JsString} {e : Entry} (h : (store.ensure id).peek k = some e)
    : partitionId k store.partitionCount = id := by
  unfold ensure at h
  cases hget : store.partitions.get id with
  | none => simp [hget] at h
  | some part => exact store.routed id part hget k e (by simpa [hget] using h)

/-- Replaces fragment `id` by one that stores only keys of `id`. -/
def put (id : ℕ) (part : Partition) (hid : id < store.partitionCount)
    (h : ∀ k e, part.peek k = some e → partitionId k store.partitionCount = id) : Store :=
  { store with
    partitions := store.partitions.set id part
    bounded := by
      intro id' hkey
      rcases OrderedMap.mem_keys_set.mp hkey with rfl | hkey
      · exact hid
      · exact store.bounded id' hkey
    routed := by
      intro id' part' hget k e hk
      rw [OrderedMap.get_set] at hget
      split_ifs at hget with heq
      · cases hget
        rw [heq]; exact h k e hk
      · exact store.routed id' part' hget k e hk }

theorem apply_routed (entry : Entry) (k : JsString) (e : Entry)
    (hk : ((store.ensure (store.partitionFor entry.key)).apply entry).2.peek k = some e) :
    partitionId k store.partitionCount = store.partitionFor entry.key := by
  rw [peek_apply] at hk
  split at hk
  · rename_i hkey; rw [hkey]; rfl
  · exact store.ensure_routed _ hk

/-- Merges `entry` into its fragment under last write wins. -/
def apply (entry : Entry) : Store := store.put (store.partitionFor entry.key)
    ((store.ensure (store.partitionFor entry.key)).apply entry).2
    (store.partitionFor_lt entry.key) (store.apply_routed entry)

/-- Discards fragment `id`, if held. -/
def drop (id : ℕ) : Store := { store with
    partitions := store.partitions.delete id
    bounded := fun id' hkey => store.bounded id' (OrderedMap.mem_keys_delete.mp hkey).2
    routed := by
      intro id' part hget
      rw [OrderedMap.get_delete] at hget
      split at hget
      · cases hget
      · exact store.routed id' part hget }

theorem reap_routed (nowMs : Millis) (id : ℕ) (k : JsString) (e : Entry)
    (hk : ((store.ensure id).reap nowMs).2.peek k = some e) :
    partitionId k store.partitionCount = id := by
  rw [peek_reap, Option.filter_eq_some_iff] at hk
  exact store.ensure_routed id hk.1

/-- Reaps fragment `id` in place, if held. -/
def reapOne (nowMs : Millis) (store : Store) (id : ℕ) : Store :=
  if hheld : id ∈ store.heldPartitions then
    store.put id ((store.ensure id).reap nowMs).2 (store.bounded id hheld)
      (store.reap_routed nowMs id)
  else store

/-- The fragments one sweep visits: a round-robin sample from the cursor. -/
def sweepIds : List ℕ := let held := store.heldPartitions
  (List.range (min held.length JANITOR_PARTITIONS_PER_SWEEP)).map
    (fun step => held.getD ((store.sweepCursor + step) % held.length) 0)

/-- Reaps the sample and advances the cursor. -/
def sweep (nowMs : Millis) : Store := let held := store.heldPartitions
  if held.length = 0 then store
  else
    { store.sweepIds.foldl (reapOne nowMs) store with
      sweepCursor :=
        (store.sweepCursor + min held.length JANITOR_PARTITIONS_PER_SWEEP) % held.length }

/-- The digest of fragment `id`, if held. -/
def digest (id : ℕ) : Option DigestLanes :=
  (store.partitions.get id).map Partition.digest

/-- The per-bucket digests of fragment `id`, all zero when it is not held. -/
def bucketDigests (id bucketCount : ℕ) : List DigestLanes :=
  match store.partitions.get id with
  | some part => part.bucketDigests bucketCount
  | none => List.replicate bucketCount ⟨0, 0⟩

/-- Key versions of fragment `id` in the given buckets. -/
def keyVersions (id : ℕ) (buckets : List ℕ) (bucketCount : ℕ) : List KeyVersion :=
  match store.partitions.get id with
  | some part => part.keyVersions buckets bucketCount
  | none => []

/-- The stored entries for `keys` in fragment `id`. -/
def entriesFor (id : ℕ) (keys : List JsString) : List Entry :=
  match store.partitions.get id with
  | some part => part.entriesFor keys
  | none => []

@[simp] theorem drop_partitionCount (id : ℕ) :
    (store.drop id).partitionCount = store.partitionCount := rfl

theorem peek_ensure (key : JsString) :
    (store.ensure (store.partitionFor key)).peek key = store.peek key := by
  unfold ensure peek
  cases store.partitions.get (store.partitionFor key) <;> rfl

theorem peek_put (id : ℕ) (part : Partition) (hid : id < store.partitionCount)
    (h : ∀ k e, part.peek k = some e → partitionId k store.partitionCount = id) (key : JsString) :
    (store.put id part hid h).peek key =
      if store.partitionFor key = id then part.peek key else store.peek key := by
  have hlookup : (store.put id part hid h).peek key =
      ((store.partitions.set id part).get (store.partitionFor key)).bind
        (fun part => part.peek key) := rfl
  rw [hlookup, get_set]
  by_cases hp : store.partitionFor key = id <;> simp [hp, peek]

/-- A merge leaves the later entry under its key and touches no other key. -/
theorem peek_apply (entry : Entry) (key : JsString) : (store.apply entry).peek key =
      if key = entry.key then some (newest (store.peek key) entry) else store.peek key := by
  rw [apply, peek_put]
  by_cases hp : store.partitionFor key = store.partitionFor entry.key
  · rw [if_pos hp, Partition.peek_apply, ← hp, peek_ensure]
  · have hk : key ≠ entry.key := fun h => hp (by rw [h])
    rw [if_neg hp, if_neg hk]

/-- A drop hides every key of the dropped partition and no other. -/
theorem peek_drop (id : ℕ) (key : JsString) :
    (store.drop id).peek key = if store.partitionFor key = id then none else store.peek key := by
  have hlookup : (store.drop id).peek key =
      ((store.partitions.delete id).get (store.partitionFor key)).bind
        (fun part => part.peek key) := rfl
  rw [hlookup, get_delete]
  by_cases hp : store.partitionFor key = id <;> simp [hp, peek]

theorem reapOne_partitionCount (nowMs : Millis) (id : ℕ) :
    (reapOne nowMs store id).partitionCount = store.partitionCount := by
  unfold reapOne
  split <;> rfl

theorem heldPartitions_reapOne (nowMs : Millis) (id : ℕ) :
    (reapOne nowMs store id).heldPartitions = store.heldPartitions := by
  unfold reapOne
  split
  · exact (keys_set ..).trans (if_pos ‹_›)
  · rfl

/-- Reaping one fragment keeps or removes each entry; it never changes one. -/
theorem peek_reapOne (nowMs : Millis) (id : ℕ) (key : JsString) :
    (reapOne nowMs store id).peek key = if store.partitionFor key = id then
        (store.peek key).filter (fun entry => !Partition.doomed nowMs entry)
      else store.peek key := by
  unfold reapOne
  split
  · rw [peek_put]
    by_cases hp : store.partitionFor key = id
    · rw [if_pos hp, if_pos hp, peek_reap, ← hp, peek_ensure]
    · rw [if_neg hp, if_neg hp]
  · rename_i hheld
    by_cases hp : store.partitionFor key = id
    · have hnone : store.peek key = none := by
        cases hget : store.partitions.get id with
        | none => simp [peek, hp, hget]
        | some part => exact absurd (mem_keys_iff.mpr ⟨part, hget⟩) hheld
      simp [hnone]
    · rw [if_neg hp]

end

/-- Reaping fragments in turn removes their doomed entries, and changes nothing else. -/
theorem foldl_reapOne (nowMs : Millis) (key : JsString) : ∀ (ids : List ℕ) (store : Store),
    (ids.foldl (reapOne nowMs) store).partitionCount = store.partitionCount ∧
    (ids.foldl (reapOne nowMs) store).heldPartitions = store.heldPartitions ∧
    (ids.foldl (reapOne nowMs) store).peek key = if store.partitionFor key ∈ ids then
        (store.peek key).filter (fun entry => !Partition.doomed nowMs entry)
      else store.peek key
  | [], _ => ⟨rfl, rfl, rfl⟩
  | id :: ids, store => by
      obtain ⟨hcount, hheld, hpeek⟩ := foldl_reapOne nowMs key ids (reapOne nowMs store id)
      rw [reapOne_partitionCount] at hcount
      rw [heldPartitions_reapOne] at hheld
      have hfor : (reapOne nowMs store id).partitionFor key = store.partitionFor key := by
        rw [partitionFor, reapOne_partitionCount, partitionFor]
      refine ⟨hcount, hheld, hpeek.trans ?_⟩
      rw [hfor, peek_reapOne]
      by_cases hid : store.partitionFor key = id
      · simp [hid, Option.filter_filter]
      · simp [hid]

/-- A sweep removes the doomed entries of the fragments it visits, and changes nothing else. -/
theorem sweep_spec (store : Store) (nowMs : Millis) (key : JsString) :
    (store.sweep nowMs).partitionCount = store.partitionCount ∧
    (store.sweep nowMs).heldPartitions = store.heldPartitions ∧
    (store.sweep nowMs).peek key = if store.partitionFor key ∈ store.sweepIds then
        (store.peek key).filter (fun entry => !Partition.doomed nowMs entry)
      else store.peek key := by
  unfold sweep
  dsimp only
  split
  · rename_i hnone
    simp [sweepIds, hnone]
  · exact foldl_reapOne nowMs key store.sweepIds store

theorem sweep_partitionCount (store : Store) (nowMs : Millis) :
    (store.sweep nowMs).partitionCount = store.partitionCount := (sweep_spec store nowMs []).1

/-- A sweep keeps each entry or removes it, if it is doomed; it never changes one. -/
theorem peek_sweep (store : Store) (nowMs : Millis) (key : JsString) :
    (store.sweep nowMs).peek key = store.peek key ∨ (store.sweep nowMs).peek key = none ∧
        ∀ entry, store.peek key = some entry → Partition.doomed nowMs entry = true := by
  rw [(sweep_spec store nowMs key).2.2]
  split
  · cases store.peek key with
    | none => exact Or.inl rfl
    | some entry => cases hd : doomed nowMs entry <;> simp [Option.filter, hd]
  · exact Or.inl rfl

theorem peek_key {key : JsString} (h : store.peek key = some entry) : entry.key = key := by
  obtain ⟨part, _, hpart⟩ := Option.bind_eq_some_iff.mp h
  exact Partition.peek_key hpart

/-- A snapshot lists exactly the stored entries of its partition. -/
theorem mem_snapshot : entry ∈ store.snapshot id ↔
      store.partitionFor entry.key = id ∧ store.peek entry.key = some entry := by
  unfold snapshot
  cases hget : store.partitions.get id with
  | none =>
    simp only [List.not_mem_nil, false_iff, not_and]
    rintro rfl
    simp [peek, hget]
  | some part =>
    simp only [mem_values_iff]
    constructor
    · intro h
      have hid : store.partitionFor entry.key = id := store.routed id part hget _ _ h
      exact ⟨hid, by simpa [peek, hid, hget] using h⟩
    · rintro ⟨hid, h⟩; simpa [peek, hid, hget] using h

theorem snapshot_keys_nodup (store : Store) (id : ℕ) :
    ((store.snapshot id).map Entry.key).Nodup := by
  unfold snapshot
  split
  · exact values_keys_nodup _
  · exact List.nodup_nil

/-- A node that stores an entry of a partition holds the partition. -/
theorem mem_heldPartitions_of_peek {key : JsString} (h : store.peek key = some entry) :
    store.partitionFor key ∈ store.heldPartitions := by
  obtain ⟨part, hget, _⟩ := Option.bind_eq_some_iff.mp h
  exact mem_keys_iff.mpr ⟨part, hget⟩

theorem mem_heldPartitions_apply : id ∈ (store.apply entry).heldPartitions ↔
      id = store.partitionFor entry.key ∨ id ∈ store.heldPartitions :=
  mem_keys_set

theorem mem_heldPartitions_drop {id' : ℕ} :
    id' ∈ (store.drop id).heldPartitions ↔ id' ≠ id ∧ id' ∈ store.heldPartitions :=
  mem_keys_delete

end Store

end Nodeakt.Kv
