import Nodeakt.Kv.Store

/-! The single-node engine (`kv/engine.ts`): the operation set over the local store.

    The engine reads the physical clock once to judge expiry and the hybrid clock reads it again to
    stamp a commit, so a write takes both readings. `merge` is the backup intake path: it keeps the
    peer's timestamp and leaves the hybrid clock alone, exactly as the source does. -/

namespace Nodeakt.Kv
open Schemes Store

variable {engine engine' : Engine} {key : JsString} {entry incoming : Entry} {id partition : ℕ}
  {nowMs physical : Millis} {op : WriteOp} {t : HybridTime} {value : Option Bytes}
  {expiresAt : Option Millis} {current : Option Entry}

/-- Signed big-endian value of eight bytes. -/
def signedBigEndian (value : Bytes) : ℤ :=
  (BitVec.ofNat 64 (value.foldl (fun acc byte => acc * 256 + byte.toNat) 0)).toInt

/-- Reads a stored counter, requiring the eight-byte encoding. -/
def readCounter (value : Bytes) : Except KvError ℤ :=
  if value.length ≠ 8 then .error (.typeError "increment target is not an eight-byte counter")
  else .ok (signedBigEndian value)

/-- Encodes a counter, wrapped to 64 bits, as eight big-endian bytes. -/
def encodeCounter (value : ℤ) : Bytes :=
  let bits := (BitVec.ofInt 64 value).toNat
  [56, 48, 40, 32, 24, 16, 8, 0].map (fun shift => (bits >>> shift).toUInt8)

/-- The operation server of one node; `pipelines` holds each partition's last sequence number. -/
structure Engine where
  store : Store
  clock : HybridClock
  pipelines : OrderedMap ℕ ℕ

namespace Engine

/-- The engine of a fresh node. -/
def create (node : JsString) (partitionCount : ℕ) (positive : 0 < partitionCount) : Engine :=
  ⟨Store.create partitionCount positive, HybridClock.create node, OrderedMap.empty⟩

section

variable (engine)

/-- This node's identity, stamped onto every write. -/
def node : JsString := engine.clock.node

/-- The live, unexpired value for `key`. -/
def read (key : JsString) (nowMs : Millis) : Option Entry :=
  engine.store.get key nowMs

/-- Partition id `key` maps onto. -/
def partitionFor (key : JsString) : ℕ := engine.store.partitionFor key

/-- The ids of the partitions this node holds, for its ownership report. -/
def heldPartitions : List ℕ := engine.store.heldPartitions

/-- The raw stored entry for `key`. -/
def peek (key : JsString) : Option Entry := engine.store.peek key

/-- Every stored entry of `partition`. -/
def snapshot (partition : ℕ) : List Entry := engine.store.snapshot partition

/-- Reaps a sample of the held partitions. -/
def sweep (nowMs : Millis) : Engine :=
  { engine with store := engine.store.sweep nowMs }

/-- Merges a peer's already-stamped entry under last write wins. -/
def merge (entry : Entry) : Engine :=
  { engine with store := engine.store.apply entry }

/-- Discards this node's fragment of `partition`. -/
def drop (partition : ℕ) : Engine :=
  { engine with store := engine.store.drop partition }

/-- The rolling digest of `partition`, zero when it is not held. -/
def partitionDigest (partition : ℕ) : DigestLanes :=
  (engine.store.digest partition).getD ⟨0, 0⟩

/-- The per-repair-bucket digests of `partition`. -/
def bucketDigests (partition : ℕ) : List DigestLanes :=
  engine.store.bucketDigests partition REPAIR_BUCKETS

/-- Key versions of `partition` in the given repair buckets. -/
def keyVersions (partition : ℕ) (buckets : List ℕ) : List KeyVersion :=
  engine.store.keyVersions partition buckets REPAIR_BUCKETS

/-- The stored entries for `keys` in `partition`. -/
def entriesFor (partition : ℕ) (keys : List JsString) : List Entry :=
  engine.store.entriesFor partition keys

/-- The live, unexpired value entry for `key`. -/
def liveValue (key : JsString) (nowMs : Millis) : Option Entry :=
  match engine.peek key with
  | some existing => if isLiveValue existing nowMs then some existing else none
  | none => none

/-- The next sequence number of `partition`'s pipeline, starting at one. -/
def nextSequence (partition : ℕ) : ℕ :=
  (engine.pipelines.get partition).getD 0 + 1

/-- The entry a commit writes: freshly stamped and sequenced, a tombstone when `value` is absent. -/
def commitEntry (key : JsString) (value : Option Bytes)
    (expiresAt : Option Millis) (physical : Millis) : Entry where
  key := key
  value := value
  timestamp := (engine.clock.now physical).1
  sequence := engine.nextSequence (engine.partitionFor key)
  expiresAt := expiresAt
  deleted := value.isNone

/-- Stamps a fresh timestamp and sequence, merges the entry and reports it. -/
def commit (key : JsString) (value : Option Bytes) (expiresAt : Option Millis)
    (physical : Millis) : Entry × Engine :=
  let entry := engine.commitEntry key value expiresAt physical
  (entry,
    { store := engine.store.apply entry
      clock := (engine.clock.now physical).2
      pipelines := engine.pipelines.set (engine.partitionFor key) entry.sequence })

/-- What an operation asks the engine to do once its condition is judged against the live value
    `current`: commit a payload and expiry, decline, or raise. The expiry is the exact sum, where the
    source rounds it to a double: a caller may pass a time to live that is not a whole number. -/
def decideOp (op : WriteOp) (current : Option Entry) (nowMs : Millis) :
    Except KvError (Option Bytes × Option Millis ⊕ RejectionReason) :=
  match op with
  | .put _ value condition ttlMs =>
    if condition = .ifAbsent ∧ current.isSome then .ok (.inr .ifAbsent)
    else if condition = .ifPresent ∧ current.isNone then .ok (.inr .ifPresent)
    else .ok (.inl (some value, ttlMs.map (nowMs + ·)))
  | .delete _ => .ok (.inl (none, none))
  | .increment _ delta =>
    match current with
    | none => .ok (.inl (some (encodeCounter delta), none))
    | some entry =>
      match readCounter (entry.value.getD []) with
      | .error e => .error e
      | .ok base => .ok (.inl (some (encodeCounter (base + delta)), entry.expiresAt))
  | .compareAndSet _ expected value =>
    match current with
    | none => .ok (.inr .compareAndSet)
    | some entry =>
      if entry.value.getD [] = expected then .ok (.inl (some value, entry.expiresAt))
      else .ok (.inr .compareAndSet)

/-- Runs one operation in its partition's pipeline. -/
def write (op : WriteOp) (nowMs physical : Millis) : Except KvError WriteResult × Engine :=
  match decideOp op (engine.liveValue op.key nowMs) nowMs with
  | .error e => (.error e, engine)
  | .ok (.inr reason) => (.ok (.rejected reason), engine)
  | .ok (.inl (value, expiresAt)) =>
    let committed := engine.commit op.key value expiresAt physical
    (.ok (.applied committed.1), committed.2)

end

@[simp] theorem merge_partitionFor (engine : Engine) (entry : Entry) (key : JsString) :
    (engine.merge entry).partitionFor key = engine.partitionFor key := rfl

@[simp] theorem drop_partitionFor (engine : Engine) (partition : ℕ) (key : JsString) :
    (engine.drop partition).partitionFor key = engine.partitionFor key := rfl

@[simp] theorem sweep_partitionFor (engine : Engine) (nowMs : Millis) (key : JsString) :
    (engine.sweep nowMs).partitionFor key = engine.partitionFor key := by
  rw [partitionFor, partitionFor, Store.partitionFor, Store.partitionFor]
  exact congrArg _ (sweep_partitionCount ..)

@[simp] theorem peek_create (node : JsString) (partitionCount : ℕ)
    (positive : 0 < partitionCount) (key : JsString) :
    (create node partitionCount positive).peek key = none := rfl

@[simp] theorem write_partitionFor (engine : Engine) (op : WriteOp) (nowMs physical : Millis)
    (key : JsString) :
    (engine.write op nowMs physical).2.partitionFor key = engine.partitionFor key := by
  unfold write
  split <;> rfl

/-- A merge leaves the later entry under its key and touches no other key. -/
theorem peek_merge (engine : Engine) (entry : Entry) (key : JsString) :
    (engine.merge entry).peek key =
      if key = entry.key then some (newest (engine.peek key) entry) else engine.peek key :=
  peek_apply ..

theorem peek_merge_cases (h : (engine.merge incoming).peek key = some entry) :
    engine.peek key = some entry ∨ entry = incoming :=
  stored_or_incoming ((peek_merge ..).symm.trans h)

/-- A drop hides every key of the dropped partition and no other. -/
theorem peek_drop (engine : Engine) (partition : ℕ) (key : JsString) :
    (engine.drop partition).peek key =
      if engine.partitionFor key = partition then none else engine.peek key :=
  Store.peek_drop ..

theorem peek_of_drop (h : (engine.drop partition).peek key = some entry) :
    engine.peek key = some entry := by
  rw [peek_drop] at h
  split at h
  · cases h
  · exact h

/-- A sweep keeps each entry or removes it, if it is doomed. -/
theorem peek_sweep (engine : Engine) (nowMs : Millis) (key : JsString) :
    (engine.sweep nowMs).peek key = engine.peek key ∨
      (engine.sweep nowMs).peek key = none ∧
        ∀ entry, engine.peek key = some entry → Partition.doomed nowMs entry = true :=
  Store.peek_sweep ..

theorem peek_of_sweep (h : (engine.sweep nowMs).peek key = some entry) :
    engine.peek key = some entry := by
  rcases peek_sweep engine nowMs key with hsame | ⟨hnone, -⟩
  · exact hsame.symm.trans h
  · cases hnone.symm.trans h

theorem peek_commit (engine : Engine) (key : JsString) (value : Option Bytes)
    (expiresAt : Option Millis) (physical : Millis) (k : JsString) :
    (engine.commit key value expiresAt physical).2.peek k =
      if k = key then some (newest (engine.peek k) (engine.commit key value expiresAt physical).1)
      else engine.peek k :=
  peek_apply ..

theorem peek_commit_cases {k : JsString}
    (h : (engine.commit key value expiresAt physical).2.peek k = some entry) :
    engine.peek k = some entry ∨ entry = engine.commitEntry key value expiresAt physical :=
  stored_or_incoming ((peek_commit ..).symm.trans h)

theorem peek_key (h : engine.peek key = some entry) : entry.key = key := Store.peek_key h

theorem mem_snapshot :
    entry ∈ engine.snapshot partition ↔
      engine.partitionFor entry.key = partition ∧ engine.peek entry.key = some entry :=
  Store.mem_snapshot

/-- A read is the stored entry, when it is live. -/
theorem read_eq_some :
    engine.read key nowMs = some entry ↔
      engine.peek key = some entry ∧ isLiveValue entry nowMs = true := by
  simp only [read, peek, Store.get, Store.peek, Option.bind_eq_some_iff, Partition.get]
  constructor
  · rintro ⟨part, hpart, h⟩
    split at h
    · rename_i e he
      split at h
      · rename_i hl; obtain rfl := Option.some.inj h; exact ⟨⟨part, hpart, he⟩, hl⟩
      · cases h
    · cases h
  · rintro ⟨⟨part, hpart, he⟩, hl⟩
    exact ⟨part, hpart, by simp [he, hl]⟩

theorem liveValue_eq_some : engine.liveValue key nowMs = some entry ↔
      engine.peek key = some entry ∧ isLiveValue entry nowMs = true := by
  unfold liveValue
  cases engine.peek key with
  | none => simp
  | some stored =>
    simp only [Option.ite_none_right_eq_some, Option.some.injEq]
    constructor
    · rintro ⟨hlive, rfl⟩
      exact ⟨rfl, hlive⟩
    · rintro ⟨rfl, hlive⟩
      exact ⟨hlive, rfl⟩

/-- What an operation commits: a put its value and expiry, a delete neither, and an operation on the
    current value keeps its expiry. -/
inductive Commits (current : Option Entry) (nowMs : Millis) :
    WriteOp → Option Bytes → Option Millis → Prop
  | put {key : JsString} {payload : Bytes} {condition : PutCondition} {ttlMs : Option Millis} :
    Commits current nowMs (.put key payload condition ttlMs) (some payload) (ttlMs.map (nowMs + ·))
  | delete {key : JsString} : Commits current nowMs (.delete key) none none
  | increment {key : JsString} {delta : ℤ} (sum : ℤ) :
    Commits current nowMs (.increment key delta) (some (encodeCounter sum))
      (current.bind Entry.expiresAt)
  | compareAndSet {key : JsString} {expected payload : Bytes} :
    Commits current nowMs (.compareAndSet key expected payload) (some payload)
      (current.bind Entry.expiresAt)

theorem commits_of_decideOp (h : decideOp op current nowMs = .ok (.inl (value, expiresAt))) :
    Commits current nowMs op value expiresAt := by
  unfold decideOp at h
  split at h <;> (try split at h) <;> (try split at h) <;> cases h
  · exact .put
  · exact .delete
  · exact .increment _
  · exact .increment _
  · exact .compareAndSet

/-- Everything an applied write can do: commit one payload under the operation's key. -/
theorem write_applied (h : engine.write op nowMs physical = (.ok (.applied entry), engine')) :
    ∃ value expiresAt,
      decideOp op (engine.liveValue op.key nowMs) nowMs = .ok (.inl (value, expiresAt)) ∧
      entry = engine.commitEntry op.key value expiresAt physical ∧
      engine' = (engine.commit op.key value expiresAt physical).2 := by
  unfold write at h
  split at h
  · cases h
  · cases h
  · rename_i value expiresAt hd
    simp only [Prod.mk.injEq, Except.ok.injEq, WriteResult.applied.injEq] at h
    exact ⟨value, expiresAt, hd, h.1.symm, h.2.symm⟩

/-- A write that does not apply leaves the engine as it was. -/
theorem write_unapplied {result : Except KvError WriteResult}
    (h : engine.write op nowMs physical = (result, engine'))
    (hr : ∀ entry, result ≠ .ok (.applied entry)) : engine' = engine := by
  unfold write at h
  split at h
  · exact (congrArg Prod.snd h).symm
  · exact (congrArg Prod.snd h).symm
  · exact absurd (congrArg Prod.fst h).symm (hr _)

/-- A write touches no key but its own. -/
theorem peek_write_of_ne (engine : Engine) (op : WriteOp) (nowMs physical : Millis)
    (h : key ≠ op.key) :
    (engine.write op nowMs physical).2.peek key = engine.peek key := by
  unfold write
  split
  · rfl
  · rfl
  · rw [peek_commit, if_neg h]

/-- A write keeps the partition count. -/
@[simp] theorem write_partitionCount (engine : Engine) (op : WriteOp) (nowMs physical : Millis) :
    (engine.write op nowMs physical).2.store.partitionCount = engine.store.partitionCount := by
  unfold write
  split <;> rfl

theorem mem_heldPartitions_merge :
    id ∈ (engine.merge entry).heldPartitions ↔
      id = engine.partitionFor entry.key ∨ id ∈ engine.heldPartitions :=
  mem_heldPartitions_apply

@[simp] theorem merges_partitionCount : ∀ (entries : List Entry) (engine : Engine),
    (entries.foldl merge engine).store.partitionCount = engine.store.partitionCount
  | [], _ => rfl
  | _ :: rest, engine => merges_partitionCount rest (engine.merge _)

@[simp] theorem merges_clock : ∀ (entries : List Entry) (engine : Engine),
    (entries.foldl merge engine).clock = engine.clock
  | [], _ => rfl
  | _ :: rest, engine => merges_clock rest (engine.merge _)

@[simp] theorem merges_partitionFor (entries : List Entry) (engine : Engine) (key : JsString) :
    (entries.foldl merge engine).partitionFor key = engine.partitionFor key := by
  rw [partitionFor, partitionFor, Store.partitionFor, Store.partitionFor, merges_partitionCount]

/-- Merges hold the partitions of the merged keys on top of what was held. -/
theorem mem_heldPartitions_merges : ∀ {entries : List Entry} {engine : Engine},
    id ∈ (entries.foldl merge engine).heldPartitions ↔ id ∈ engine.heldPartitions ∨
      ∃ entry ∈ entries, engine.partitionFor entry.key = id
  | [], _ => by simp
  | entry :: rest, engine => by
      have hrest : id ∈ (rest.foldl merge (engine.merge entry)).heldPartitions ↔
          id ∈ (engine.merge entry).heldPartitions ∨
            ∃ entry ∈ rest, engine.partitionFor entry.key = id := mem_heldPartitions_merges
      rw [List.foldl_cons, hrest, mem_heldPartitions_merge, List.exists_mem_cons_iff, ← or_assoc,
        or_comm (a := id = _), eq_comm (a := id)]

theorem mem_heldPartitions_drop :
    id ∈ (engine.drop partition).heldPartitions ↔ id ≠ partition ∧ id ∈ engine.heldPartitions :=
  Store.mem_heldPartitions_drop

/-! ### Holding a version -/

/-- The node stores an entry for `key` at least as recent as `t`. -/
def Holds (engine : Engine) (key : JsString) (t : HybridTime) : Prop :=
  ∃ entry, engine.peek key = some entry ∧ t ≤ entry.timestamp

theorem Holds.mono {t' : HybridTime} (h : engine.Holds key t) (ht : t' ≤ t) :
    engine.Holds key t' := by
  obtain ⟨entry, hpeek, hle⟩ := h
  exact ⟨entry, hpeek, ht.trans hle⟩

/-- A node holds what it merges. -/
theorem holds_merge (engine : Engine) (entry : Entry) :
    (engine.merge entry).Holds entry.key entry.timestamp :=
  ⟨newest (engine.peek entry.key) entry, by rw [peek_merge, if_pos rfl], le_newest ..⟩

/-- A merge loses no version. -/
theorem Holds.merge (h : engine.Holds key t) (entry : Entry) :
    (engine.merge entry).Holds key t := by
  obtain ⟨stored, hpeek, hle⟩ := h
  by_cases hk : key = entry.key
  · subst hk
    exact ⟨_, by rw [peek_merge, if_pos rfl], hle.trans (stored_le_newest hpeek entry)⟩
  · exact ⟨stored, by rw [peek_merge, if_neg hk, hpeek], hle⟩

theorem Holds.merges : ∀ (entries : List Entry) {engine : Engine},
    engine.Holds key t → (entries.foldl Engine.merge engine).Holds key t
  | [], _, h => h
  | entry :: rest, _, h => Holds.merges rest (h.merge entry)

/-- A node holds every entry of a list it merges. -/
theorem holds_merges : ∀ {entries : List Entry} (engine : Engine),
    entry ∈ entries → (entries.foldl Engine.merge engine).Holds entry.key entry.timestamp
  | e :: rest, engine, h => by
      rcases List.mem_cons.mp h with rfl | h
      · exact Holds.merges rest (holds_merge engine entry)
      · exact holds_merges (engine.merge e) h

/-- What a list of merges stores is one of the entries or was stored before. -/
theorem peek_merges_cases : ∀ (entries : List Entry)
    (engine : Engine), (entries.foldl merge engine).peek key = some entry →
      engine.peek key = some entry ∨ entry ∈ entries
  | [], _, h => Or.inl h
  | incoming :: rest, engine, h => by
      rcases peek_merges_cases rest (engine.merge incoming) h with hstored | hmem
      · rcases peek_merge_cases hstored with hold | rfl
        · exact Or.inl hold
        · exact Or.inr (List.mem_cons_self ..)
      · exact Or.inr (List.mem_cons_of_mem _ hmem)

/-- What a node holds after merges: what it held, and what they bring. -/
theorem holds_merges_iff {entries : List Entry} : (entries.foldl merge engine).Holds key t ↔
    engine.Holds key t ∨ ∃ entry ∈ entries, entry.key = key ∧ t ≤ entry.timestamp := by
  constructor
  · rintro ⟨stored, hpeek, hle⟩
    rcases peek_merges_cases entries engine hpeek with hold | hmem
    · exact Or.inl ⟨stored, hold, hle⟩
    · exact Or.inr ⟨stored, hmem, peek_key hpeek, hle⟩
  · rintro (hold | ⟨entry, hmem, rfl, hle⟩)
    · exact hold.merges entries
    · exact (holds_merges engine hmem).mono hle

theorem Holds.drop (h : engine.Holds key t) (hp : engine.partitionFor key ≠ partition) :
    (engine.drop partition).Holds key t := by
  obtain ⟨entry, hpeek, hle⟩ := h
  exact ⟨entry, by rw [peek_drop, if_neg hp, hpeek], hle⟩

/-- A write loses no version. -/
theorem Holds.write {engine : Engine} {key : JsString} {t : HybridTime} (h : engine.Holds key t)
    (op : WriteOp) (nowMs physical : Millis) : (engine.write op nowMs physical).2.Holds key t := by
  unfold Engine.write
  split
  · exact h
  · exact h
  · obtain ⟨stored, hpeek, hle⟩ := h
    by_cases hk : key = op.key
    · subst hk
      exact ⟨_, by rw [peek_commit, if_pos rfl], hle.trans (stored_le_newest hpeek _)⟩
    · exact ⟨stored, by rw [peek_commit, if_neg hk, hpeek], hle⟩

/-- The writing node holds at least the version it reports. -/
theorem holds_write (h : engine.write op nowMs physical = (.ok (.applied entry), engine')) :
    engine'.Holds op.key entry.timestamp := by
  obtain ⟨value, expiresAt, -, rfl, rfl⟩ := write_applied h
  refine ⟨_, peek_commit engine op.key value expiresAt physical op.key ▸ if_pos rfl, ?_⟩
  exact le_newest ..

end Engine

end Nodeakt.Kv
