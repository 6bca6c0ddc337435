import Nodeakt.Schemes.Run
import Nodeakt.Kv.AntiEntropy

/-! Rolling digests.

    A fragment keeps its digest in step with every entry stored, replaced and removed. `Rolling` says
    that it is the XOR of the contributions of the entries; the operations of a store keep it
    (`Store.Rolling.run`). The digests of the repair buckets are the same sum bucket by bucket, so
    fragments whose bucket digests agree have the same digest. -/

namespace Nodeakt.Kv
open Schemes DigestLanes List OrderedMap Engine

namespace DigestLanes

@[simp] theorem zero_xor (a : DigestLanes) : xor ⟨0, 0⟩ a = a := by simp [xor]

@[simp] theorem xor_zero (a : DigestLanes) : a.xor ⟨0, 0⟩ = a := by simp [xor]

@[simp] theorem xor_self (a : DigestLanes) : a.xor a = ⟨0, 0⟩ := by simp [xor]

theorem xor_comm (a b : DigestLanes) : a.xor b = b.xor a := by
  simp [xor, UInt32.xor_comm]

theorem xor_assoc (a b c : DigestLanes) : (a.xor b).xor c = a.xor (b.xor c) := by
  simp [xor, UInt32.xor_assoc]

theorem xor_right_comm (a b c : DigestLanes) : (a.xor b).xor c = (a.xor c).xor b := by
  rw [xor_assoc, xor_comm b, ← xor_assoc]

@[simp] theorem xor_xor_cancel (a b : DigestLanes) : (a.xor b).xor b = a := by
  rw [xor_assoc, xor_self, xor_zero]

theorem xor_cancel (a b c : DigestLanes) : (a.xor c).xor (b.xor c) = a.xor b := by
  rw [xor_assoc, xor_comm c, xor_xor_cancel]

end DigestLanes

/-- The XOR of the contributions of some entries. -/
def lanesOf (entries : List Entry) : DigestLanes :=
  entries.foldl (fun lanes entry => lanes.xor (entryContribution entry)) ⟨0, 0⟩

theorem foldl_xor (entries : List Entry) (lanes : DigestLanes) :
    entries.foldl (fun lanes entry => lanes.xor (entryContribution entry)) lanes =
      lanes.xor (lanesOf entries) := by
  induction entries generalizing lanes with
  | nil => simp [lanesOf]
  | cons entry rest ih =>
    rw [lanesOf, foldl_cons, foldl_cons, ih, ih, zero_xor, xor_assoc]

@[simp] theorem lanesOf_nil : lanesOf [] = ⟨0, 0⟩ := rfl

theorem lanesOf_cons (entry : Entry) (entries : List Entry) :
    lanesOf (entry :: entries) = (lanesOf entries).xor (entryContribution entry) := by
  rw [lanesOf, foldl_cons, foldl_xor, DigestLanes.zero_xor, DigestLanes.xor_comm]

theorem lanesOf_perm {entries entries' : List Entry} (h : entries.Perm entries') :
    lanesOf entries = lanesOf entries' := by
  induction h with
  | nil => rfl
  | cons entry _ ih => rw [lanesOf_cons, lanesOf_cons, ih]
  | swap a b rest =>
    rw [lanesOf_cons, lanesOf_cons, lanesOf_cons, lanesOf_cons, xor_right_comm]
  | trans _ _ ih ih' => exact ih.trans ih'

/-- Entries split by a test. -/
theorem lanesOf_filter_xor (f : Entry → Bool) (entries : List Entry) :
    (lanesOf (entries.filter f)).xor (lanesOf (entries.filter (fun entry => !f entry))) =
      lanesOf entries := by
  induction entries with
  | nil => simp
  | cons entry rest ih =>
    rw [lanesOf_cons, ← ih]
    cases hf : f entry with
    | true => simp [hf, lanesOf_cons, xor_right_comm]
    | false => simp [hf, lanesOf_cons, xor_assoc]

/-- The XOR of some digests. -/
def xorAll (digests : List DigestLanes) : DigestLanes := digests.foldr DigestLanes.xor ⟨0, 0⟩

/-- A contribution that goes into one digest goes into the XOR of all. -/
theorem xorAll_modify (lanes : DigestLanes) {digests : List DigestLanes} {i : ℕ}
    (h : i < digests.length) : xorAll (digests.modify i (·.xor lanes)) = (xorAll digests).xor lanes := by
  induction digests generalizing i with
  | nil => simp at h
  | cons digest rest ih =>
    cases i with
    | zero => simp [xorAll, xor_right_comm]
    | succ i =>
      have hrest := ih (Nat.lt_of_succ_lt_succ h)
      simp only [xorAll, modify_succ_cons, foldr_cons] at hrest ⊢
      rw [hrest, xor_assoc]

namespace Partition

variable {part : Partition}

theorem getD_foldl_addToBucket (bucketCount : ℕ) {bucket : ℕ} : ∀ (entries : List Entry)
    (digests : List DigestLanes), bucket < digests.length →
    (entries.foldl (addToBucket bucketCount) digests).getD bucket ⟨0, 0⟩ =
      (digests.getD bucket ⟨0, 0⟩).xor
        (lanesOf (entries.filter (fun entry => repairBucket entry.key bucketCount = bucket)))
  | [], _, _ => by simp
  | entry :: rest, digests, h => by
      rw [foldl_cons, getD_foldl_addToBucket bucketCount rest _
        (by rwa [addToBucket, length_modify])]
      by_cases hbucket : repairBucket entry.key bucketCount = bucket
      · simp [addToBucket, hbucket, h, lanesOf_cons, xor_assoc, xor_comm (entryContribution entry)]
      · simp [addToBucket, hbucket]

/-- A bucket's digest is that of the stored entries of the bucket. -/
theorem bucketDigests_getD (part : Partition) {bucketCount bucket : ℕ} (h : bucket < bucketCount) :
    (part.bucketDigests bucketCount).getD bucket ⟨0, 0⟩ = lanesOf (part.entries.values.filter
      (fun entry => repairBucket entry.key bucketCount = bucket)) := by
  rw [bucketDigests, getD_foldl_addToBucket bucketCount _ _ (by simpa using h)]
  simp [h]

theorem xorAll_foldl_addToBucket {bucketCount : ℕ} (h : 0 < bucketCount) :
    ∀ (entries : List Entry) {digests : List DigestLanes}, digests.length = bucketCount →
    xorAll (entries.foldl (addToBucket bucketCount) digests) =
      (xorAll digests).xor (lanesOf entries)
  | [], _, _ => by simp
  | entry :: rest, digests, hlength => by
      have hbucket : repairBucket entry.key bucketCount < digests.length := by
        rw [hlength]
        exact Nat.mod_lt _ h
      rw [foldl_cons, xorAll_foldl_addToBucket h rest (by rwa [addToBucket, length_modify]),
        addToBucket, xorAll_modify _ hbucket, lanesOf_cons, xor_assoc,
        xor_comm (entryContribution entry)]

/-- The bucket digests together are the digest of the stored entries. -/
theorem xorAll_bucketDigests (part : Partition) {bucketCount : ℕ} (h : 0 < bucketCount) :
    xorAll (part.bucketDigests bucketCount) = lanesOf part.entries.values := by
  have hzero : xorAll (replicate bucketCount ⟨0, 0⟩) = ⟨0, 0⟩ := by
    clear h
    induction bucketCount with
    | zero => rfl
    | succ n ih => rw [replicate_succ, xorAll, foldr_cons, ← xorAll, ih, xor_zero]
  rw [bucketDigests, xorAll_foldl_addToBucket h _ length_replicate, hzero, zero_xor]

/-- Bucket digests are a list of their count. -/
theorem bucketDigests_ext {other : Partition} {bucketCount : ℕ} (h : ∀ bucket < bucketCount,
    (part.bucketDigests bucketCount).getD bucket ⟨0, 0⟩ =
      (other.bucketDigests bucketCount).getD bucket ⟨0, 0⟩) :
    part.bucketDigests bucketCount = other.bucketDigests bucketCount := by
  refine ext_getElem (by simp) fun bucket hbucket hbucket' => ?_
  rw [← getD_eq_getElem _ ⟨0, 0⟩ hbucket, ← getD_eq_getElem _ ⟨0, 0⟩ hbucket']
  exact h bucket (by simpa using hbucket)

/-- The digest is that of the stored entries. -/
def Rolling (part : Partition) : Prop := part.digest = lanesOf part.entries.values

theorem rolling_empty : empty.Rolling := rfl

/-- Binding a key changes the sum by the old entry and the new one. -/
theorem lanesOf_put (key : JsString) (entry : Entry) : ∀ bindings : List (JsString × Entry),
    lanesOf ((OrderedMap.put key entry bindings).map Prod.snd) =
      ((lanesOf (bindings.map Prod.snd)).xor
        (((OrderedMap.assoc key bindings).map entryContribution).getD ⟨0, 0⟩)).xor
        (entryContribution entry)
  | [] => by simp [put, assoc, lanesOf_cons]
  | (key', old) :: rest => by
      rw [put, assoc]
      split
      · simp [lanesOf_cons]
      · rw [map_cons, lanesOf_cons, lanesOf_put key entry rest, map_cons, lanesOf_cons,
          xor_right_comm, xor_right_comm _ _ (entryContribution old)]

theorem lanesOf_set (part : Partition) (entry : Entry) :
    lanesOf (part.entries.set entry.key entry).values = ((lanesOf part.entries.values).xor
        (((part.peek entry.key).map entryContribution).getD ⟨0, 0⟩)).xor
        (entryContribution entry) := lanesOf_put ..

/-- A merge changes the digest as it changes the sum over the stored entries. -/
theorem drift_apply (part : Partition) (entry : Entry) :
    (part.apply entry).2.digest.xor (lanesOf (part.apply entry).2.entries.values) =
      part.digest.xor (lanesOf part.entries.values) := by
  have hvalues := lanesOf_set part entry
  unfold Partition.apply
  split
  · rename_i existing hpeek
    split
    · have hdigest : ((part.toggle existing).store entry).digest =
          (part.digest.xor (entryContribution existing)).xor (entryContribution entry) := rfl
      rw [hpeek, Option.map_some, Option.getD_some] at hvalues
      exact (congrArg₂ DigestLanes.xor hdigest hvalues).trans (by simp only [DigestLanes.xor_cancel])
    · rfl
  · rename_i hpeek
    have hdigest : (part.store entry).digest = part.digest.xor (entryContribution entry) := rfl
    rw [hpeek, Option.map_none, Option.getD_none, DigestLanes.xor_zero] at hvalues
    exact (congrArg₂ DigestLanes.xor hdigest hvalues).trans (DigestLanes.xor_cancel ..)

theorem rolling_iff : part.Rolling ↔ part.digest.xor (lanesOf part.entries.values) = ⟨0, 0⟩ := by
  refine ⟨fun h => by rw [h, DigestLanes.xor_self], fun h => ?_⟩
  rw [Rolling, ← DigestLanes.xor_xor_cancel part.digest (lanesOf part.entries.values), h,
    DigestLanes.zero_xor]

theorem Rolling.apply (h : part.Rolling) (entry : Entry) : (part.apply entry).2.Rolling := by
  rw [rolling_iff, drift_apply, ← rolling_iff]
  exact h

theorem foldl_toggle (gone : List Entry) (part : Partition) :
    (gone.foldl toggle part).digest = part.digest.xor (lanesOf gone) ∧
      (gone.foldl toggle part).entries = part.entries := by
  induction gone generalizing part with
  | nil => simp
  | cons entry rest ih =>
    obtain ⟨hdigest, hentries⟩ := ih (part.toggle entry)
    refine ⟨?_, hentries⟩
    rw [foldl_cons, hdigest, lanesOf_cons, xor_comm (lanesOf rest), ← xor_assoc]
    rfl

theorem values_filter (entries : OrderedMap JsString Entry) (f : Entry → Bool) :
    (entries.filter (fun _ entry => f entry)).values = entries.values.filter f :=
  filter_map.symm

theorem Rolling.reap (h : part.Rolling) (nowMs : Millis) : (part.reap nowMs).2.Rolling := by
  unfold Partition.reap
  dsimp only
  rw [Rolling, (foldl_toggle _ _).1, (foldl_toggle _ _).2, values_filter]
  have hkept : part.digest = lanesOf part.entries.values := h
  have hsplit := lanesOf_filter_xor (doomed nowMs) part.entries.values
  change part.digest.xor _ = _
  rw [hkept, ← hsplit, DigestLanes.xor_comm, ← DigestLanes.xor_assoc, DigestLanes.xor_self,
    DigestLanes.zero_xor]

/-- What can happen to a fragment. -/
inductive PartitionEvent where
  | apply (entry : Entry)
  | reap (nowMs : Millis)

/-- One event. -/
def step (part : Partition) : PartitionEvent → Option Partition
  | .apply entry => some (part.apply entry).2
  | .reap nowMs => some (part.reap nowMs).2

theorem Rolling.run {part' : Partition} {events : List PartitionEvent} (h : part.Rolling)
    (hrun : run step part events = some part') : part'.Rolling := by
  refine run_invariant (fun s event s' hs hstep => ?_) h hrun
  cases event with
  | apply entry =>
    cases hstep
    exact hs.apply entry
  | reap nowMs =>
    cases hstep
    exact hs.reap nowMs

/-- After any merges and reaps the digest is the XOR over the stored entries, each bucket digest the
    XOR over the entries of its bucket, and the bucket digests together are the digest, so fragments
    with different digests differ in a bucket. -/
theorem digests_count_entries {part other : Partition} {events events' : List PartitionEvent}
    (hrun : run step empty events = some part) (hother : run step empty events' = some other)
    {bucketCount : ℕ} (hpositive : 0 < bucketCount) :
    part.digest = lanesOf part.entries.values ∧
      (∀ bucket < bucketCount, (part.bucketDigests bucketCount).getD bucket ⟨0, 0⟩ =
        lanesOf (part.entries.values.filter
          (fun entry => repairBucket entry.key bucketCount = bucket))) ∧
      xorAll (part.bucketDigests bucketCount) = part.digest ∧
      (part.digest ≠ other.digest → ∃ bucket < bucketCount,
        (part.bucketDigests bucketCount).getD bucket ⟨0, 0⟩ ≠
          (other.bucketDigests bucketCount).getD bucket ⟨0, 0⟩) := by
  have hrolling : part.digest = lanesOf part.entries.values := rolling_empty.run hrun
  have hrolling' : other.digest = lanesOf other.entries.values := rolling_empty.run hother
  refine ⟨hrolling, fun bucket hbucket => part.bucketDigests_getD hbucket, ?_, fun hne => ?_⟩
  · rw [xorAll_bucketDigests part hpositive, hrolling]
  · by_contra! hsame
    rw [hrolling, hrolling', ← xorAll_bucketDigests part hpositive,
      ← xorAll_bucketDigests other hpositive] at hne
    exact hne (congrArg xorAll (bucketDigests_ext hsame))

/-- Two replicas of a fragment, one of which took an overwrite and lost a tombstone. -/
theorem overwritten_and_reaped_digests :
    ∃ part other, run step empty [.apply ⟨[97], some [1], ⟨1, 0, [110]⟩, 1, none, false⟩,
        .apply ⟨[97], some [2], ⟨2, 0, [110]⟩, 2, none, false⟩,
        .apply ⟨[98], none, ⟨3, 0, [110]⟩, 3, none, true⟩, .reap 1000000000] = some part ∧
      run step empty [.apply ⟨[97], some [1], ⟨1, 0, [110]⟩, 1, none, false⟩] = some other ∧
      part.entries.values.length = 1 ∧ ∃ bucket < 4, (part.bucketDigests 4).getD bucket ⟨0, 0⟩ ≠
        (other.bucketDigests 4).getD bucket ⟨0, 0⟩ := by
  obtain ⟨part, hrun, other, hother, hone, hne⟩ : ∃ part ∈ run step empty
      [.apply ⟨[97], some [1], ⟨1, 0, [110]⟩, 1, none, false⟩,
        .apply ⟨[97], some [2], ⟨2, 0, [110]⟩, 2, none, false⟩,
        .apply ⟨[98], none, ⟨3, 0, [110]⟩, 3, none, true⟩, .reap 1000000000],
      ∃ other ∈ run step empty [.apply ⟨[97], some [1], ⟨1, 0, [110]⟩, 1, none, false⟩],
        part.entries.values.length = 1 ∧ part.digest ≠ other.digest := by decide +kernel
  exact ⟨part, other, hrun, hother, hone, (digests_count_entries hrun hother (by decide)).2.2.2 hne⟩

end Partition

/-- What can happen to a store: a merge (also of a committed write), a janitor pass, a drop. -/
inductive StoreEvent where
  | apply (entry : Entry)
  | sweep (nowMs : Millis)
  | drop (id : ℕ)

namespace Store

/-- One event. -/
def step (store : Store) : StoreEvent → Option Store
  | .apply entry => some (store.apply entry)
  | .sweep nowMs => some (store.sweep nowMs)
  | .drop id => some (store.drop id)

/-- Every fragment's digest is that of its entries. -/
def Rolling (store : Store) : Prop := ∀ id part, store.partitions.get id = some part → part.Rolling

variable {store : Store}

theorem rolling_create (partitionCount : ℕ) (positive : 0 < partitionCount) :
    (create partitionCount positive).Rolling := by
  intro id part h
  cases h

section

variable (h : store.Rolling)
include h

theorem Rolling.ensure (id : ℕ) : (store.ensure id).Rolling := by
  unfold Store.ensure
  cases hget : store.partitions.get id with
  | none => exact Partition.rolling_empty
  | some part => exact h id part hget

theorem Rolling.put {id : ℕ} {part : Partition} {hid : id < store.partitionCount}
    {hrouted : ∀ k e, part.peek k = some e → partitionId k store.partitionCount = id}
    (hpart : part.Rolling) : (store.put id part hid hrouted).Rolling := by
  intro id' part' hget
  have hget' : (store.partitions.set id part).get id' = some part' := hget
  rw [get_set] at hget'
  split at hget'
  · exact Option.some.inj hget' ▸ hpart
  · exact h id' part' hget'

theorem Rolling.apply (entry : Entry) : (store.apply entry).Rolling :=
  h.put ((h.ensure _).apply entry)

theorem Rolling.drop (id : ℕ) : (store.drop id).Rolling := by
  intro id' part hget
  have hget' : (store.partitions.delete id).get id' = some part := hget
  rw [get_delete] at hget'
  split at hget'
  · cases hget'
  · exact h id' part hget'

theorem Rolling.reapOne (nowMs : Millis) (id : ℕ) : (reapOne nowMs store id).Rolling := by
  unfold Store.reapOne
  split
  · exact h.put ((h.ensure id).reap nowMs)
  · exact h

end

theorem Rolling.foldl_reapOne {nowMs : Millis} : ∀ {ids : List ℕ} {store : Store}, store.Rolling →
    (ids.foldl (Store.reapOne nowMs) store).Rolling
  | [], _, h => h
  | id :: _, _, h => (h.reapOne nowMs id).foldl_reapOne

theorem Rolling.sweep (h : store.Rolling) (nowMs : Millis) : (store.sweep nowMs).Rolling := by
  unfold Store.sweep
  dsimp only
  split
  · exact h
  · exact fun id part hget => h.foldl_reapOne id part hget

theorem Rolling.run {store' : Store} {events : List StoreEvent} (h : store.Rolling)
    (hrun : store' ∈ run step store events) : store'.Rolling := by
  refine run_invariant (fun s event s' hs hstep => ?_) h hrun
  cases event with
  | apply entry =>
    cases hstep
    exact hs.apply entry
  | sweep nowMs =>
    cases hstep
    exact hs.sweep nowMs
  | drop id =>
    cases hstep
    exact hs.drop id

end Store

namespace Engine

variable {engine engine' : Engine}

theorem partitionDigest_eq (h : engine.store.Rolling) (partition : ℕ) :
    engine.partitionDigest partition = lanesOf (engine.snapshot partition) := by
  unfold partitionDigest Store.digest snapshot Store.snapshot
  cases hget : engine.store.partitions.get partition with
  | none => rfl
  | some part => exact h partition part hget

theorem bucketDigests_getD (engine : Engine) (partition : ℕ) {bucket : ℕ}
    (h : bucket < REPAIR_BUCKETS) :
    (engine.bucketDigests partition).getD bucket ⟨0, 0⟩ =
      lanesOf ((engine.snapshot partition).filter
        (fun entry => repairBucket entry.key REPAIR_BUCKETS = bucket)) := by
  unfold bucketDigests Store.bucketDigests snapshot Store.snapshot
  cases engine.store.partitions.get partition with
  | none => simp [h]
  | some part => exact part.bucketDigests_getD h

/-- Fragments that agree on every bucket digest have the same digest. -/
theorem partitionDigest_eq_of_buckets {partition : ℕ} (h : engine.store.Rolling)
    (h' : engine'.store.Rolling) (hbuckets : ∀ bucket < REPAIR_BUCKETS,
      (engine.bucketDigests partition).getD bucket ⟨0, 0⟩ =
        (engine'.bucketDigests partition).getD bucket ⟨0, 0⟩) :
    engine.partitionDigest partition = engine'.partitionDigest partition := by
  have hlist : engine.bucketDigests partition = engine'.bucketDigests partition := by
    refine ext_getElem (by simp [bucketDigests_length]) fun bucket hbucket hbucket' => ?_
    rw [← getD_eq_getElem _ ⟨0, 0⟩ hbucket, ← getD_eq_getElem _ ⟨0, 0⟩ hbucket']
    exact hbuckets bucket (bucketDigests_length engine partition ▸ hbucket)
  have hdigest : ∀ node : Engine, xorAll (node.bucketDigests partition) =
      lanesOf (node.snapshot partition) := by
    intro node
    unfold bucketDigests Store.bucketDigests snapshot Store.snapshot
    cases node.store.partitions.get partition with
    | none => decide
    | some part => exact part.xorAll_bucketDigests (by decide)
  rw [partitionDigest_eq h, partitionDigest_eq h', ← hdigest, ← hdigest, hlist]

theorem snapshot_nodup (engine : Engine) (partition : ℕ) : (engine.snapshot partition).Nodup :=
  (Store.snapshot_keys_nodup engine.store partition).of_map

/-- Fragments with the same entries in a bucket have the same digest of it. -/
theorem bucketDigests_congr {partition bucket : ℕ} (hbucket : bucket < REPAIR_BUCKETS)
    (hsame : ∀ key, engine'.partitionFor key = engine.partitionFor key)
    (hpeek : ∀ key, engine.partitionFor key = partition →
      repairBucket key REPAIR_BUCKETS = bucket → engine.peek key = engine'.peek key) :
    (engine.bucketDigests partition).getD bucket ⟨0, 0⟩ =
      (engine'.bucketDigests partition).getD bucket ⟨0, 0⟩ := by
  rw [bucketDigests_getD engine partition hbucket, bucketDigests_getD engine' partition hbucket]
  refine lanesOf_perm ((perm_ext_iff_of_nodup ((snapshot_nodup engine partition).filter _)
    ((snapshot_nodup engine' partition).filter _)).mpr fun entry => ?_)
  simp only [mem_filter, mem_snapshot, decide_eq_true_eq, hsame]
  constructor
  · rintro ⟨⟨hpartition, hentry⟩, hin⟩
    exact ⟨⟨hpartition, (hpeek entry.key hpartition hin).symm.trans hentry⟩, hin⟩
  · rintro ⟨⟨hpartition, hentry⟩, hin⟩
    exact ⟨⟨hpartition, (hpeek entry.key hpartition hin).trans hentry⟩, hin⟩

theorem rolling_merges : ∀ {entries : List Entry} {engine : Engine}, engine.store.Rolling →
    (entries.foldl Engine.merge engine).store.Rolling
  | [], _, h => h
  | entry :: _, engine, h =>
      @rolling_merges _ (engine.merge entry) (h.apply entry)

end Engine

end Nodeakt.Kv
