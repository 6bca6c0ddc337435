import Nodeakt.Kv.Fragment

/-! Digest anti-entropy between two replicas (`kv/anti.entropy.ts`).

    A pass compares partition digests, then bucket digests, then key versions of the buckets that
    differ, and moves exactly the entries that differ. `divergentBuckets_spec` says which keys it
    looks at, `peek_pulled` and `peek_pushed` what its plan leaves at both ends: in a divergent
    bucket the later entry of each key, and nothing changed elsewhere. -/

namespace Nodeakt.Kv
open Schemes Engine List

variable {key : JsString} {entry : Entry} {keys : List JsString}

/-- The entries to send and the keys to fetch. -/
structure SyncPlan where
  push : List Entry
  pull : List JsString

/-- A responder's answer to a digest: no buckets when the digests match. -/
def serveDigest (engine : Engine) (partition : ℕ) (theirDigest : DigestLanes) : List DigestLanes :=
  if engine.partitionDigest partition = theirDigest then [] else engine.bucketDigests partition

/-- The buckets that differ, none of them when the peer sent no digests. -/
def divergentBuckets (engine : Engine) (partition : ℕ) (peerBuckets : List DigestLanes) :
    Option (List ℕ) :=
  if peerBuckets.length = 0 then some []
  else
    let localBuckets := engine.bucketDigests partition
    if peerBuckets.length ≠ localBuckets.length then none
    else
      some ((List.range localBuckets.length).filter (fun bucket =>
        localBuckets.getD bucket ⟨0, 0⟩ ≠ peerBuckets.getD bucket ⟨0, 0⟩))

/-- The peer's versions by key. -/
def peerVersions (versions : List KeyVersion) : OrderedMap JsString HybridTime :=
  versions.foldl (fun index version => index.set version.key version.timestamp) OrderedMap.empty

/-- Diffs this node's versions against the peer's. -/
def plan (engine : Engine) (partition : ℕ) (buckets : List ℕ)
    (peer : OrderedMap JsString HybridTime) : SyncPlan :=
  let versions := engine.keyVersions partition buckets
  let newer := versions.filter (fun own =>
    match peer.get own.key with
    | none => true
    | some timestamp => 0 < compareHybrid own.timestamp timestamp)
  let older := versions.filter (fun own =>
    match peer.get own.key with
    | none => false
    | some timestamp => compareHybrid own.timestamp timestamp < 0)
  { push := engine.entriesFor partition (newer.map KeyVersion.key)
    pull := older.map KeyVersion.key ++
      peer.keys.filter (fun key => key ∉ versions.map KeyVersion.key) }

/-- The pages of some entries in key order. -/
def pagesOf (partition : ℕ) (entries : List Entry) : List FragmentChunk :=
  let sorted := entries.insertionSort (fun left right => left.key ≤ right.key)
  pushPages partition sorted (sorted.length + 1) none

/-- The later of two stored entries, the first one when neither supersedes. -/
def later : Option Entry → Option Entry → Option Entry
  | some own, some other => if supersedes other own then some other else some own
  | own, none => own
  | none, other => other

@[simp] theorem later_self (stored : Option Entry) : later stored stored = stored := by
  cases stored with
  | none => rfl
  | some entry => simp [later]

@[simp] theorem later_none (stored : Option Entry) : later stored none = stored := by
  cases stored <;> rfl

@[simp] theorem later_none_left (stored : Option Entry) : later none stored = stored := by
  cases stored <;> rfl

/-- What a merge leaves is the later of the two. -/
theorem later_some (stored : Option Entry) (entry : Entry) :
    later stored (some entry) = some (newest stored entry) := by
  cases stored with
  | none => rfl
  | some existing =>
    simp only [later, newest]
    split <;> rfl

/-! ### Merging several entries -/

/-- Merging entries of other keys leaves a key alone. -/
theorem peek_merges_of_ne : ∀ {entries : List Entry} {engine : Engine},
    (∀ entry ∈ entries, entry.key ≠ key) →
      (entries.foldl Engine.merge engine).peek key = engine.peek key
  | [], _, _ => rfl
  | entry :: rest, engine, h => by
      have hne : key ≠ entry.key := (h entry (mem_cons_self ..)).symm
      rw [foldl_cons, peek_merges_of_ne fun e he => h e (mem_cons_of_mem _ he),
        peek_merge, if_neg hne]

/-- Merging entries of which a single one has the key merges that one. -/
theorem peek_merges : ∀ {entries : List Entry} {engine : Engine},
    (∀ e ∈ entries, e.key = entry.key → e = entry) → entry ∈ entries →
      (entries.foldl Engine.merge engine).peek entry.key =
        some (newest (engine.peek entry.key) entry)
  | e :: rest, engine, hone, hmem => by
      have hrest : ∀ x ∈ rest, x.key = entry.key → x = entry :=
        fun x hx => hone x (mem_cons_of_mem _ hx)
      rw [foldl_cons]
      by_cases hlater : entry ∈ rest
      · rw [peek_merges hrest hlater, peek_merge]
        by_cases hkey : entry.key = e.key
        · obtain rfl := hone e (mem_cons_self ..) hkey.symm
          rw [if_pos rfl, newest, supersedes_eq_false.mpr (le_newest _ _)]
          rfl
        · rw [if_neg hkey]
      · obtain rfl : entry = e := (mem_cons.mp hmem).resolve_right hlater
        have hothers : ∀ x ∈ rest, x.key ≠ entry.key := by
          intro x hx hkey
          exact hlater (hrest x hx hkey ▸ hx)
        rw [peek_merges_of_ne hothers, peek_merge, if_pos rfl]

/-! ### Versions and entries exchanged -/

theorem keyVersions_eq (engine : Engine) (partition : ℕ) (buckets : List ℕ) :
    engine.keyVersions partition buckets = ((engine.snapshot partition).filter
        (fun entry => repairBucket entry.key REPAIR_BUCKETS ∈ buckets)).map
        (fun entry => ⟨entry.key, entry.timestamp⟩) := by
  unfold keyVersions Store.keyVersions snapshot Store.snapshot
  split <;> rfl

/-- The versions sent are those of the stored entries of the buckets. -/
theorem mem_keyVersions {engine : Engine} {partition : ℕ} {buckets : List ℕ}
    {timestamp : HybridTime} :
    ⟨key, timestamp⟩ ∈ engine.keyVersions partition buckets ↔
      engine.partitionFor key = partition ∧ repairBucket key REPAIR_BUCKETS ∈ buckets ∧
        ∃ entry, engine.peek key = some entry ∧ entry.timestamp = timestamp := by
  rw [keyVersions_eq, mem_map]
  constructor
  · rintro ⟨entry, hentry, heq⟩
    obtain ⟨rfl, rfl⟩ := KeyVersion.mk.inj heq
    obtain ⟨hsnapshot, hbucket⟩ := mem_filter.mp hentry
    obtain ⟨hpartition, hpeek⟩ := mem_snapshot.mp hsnapshot
    exact ⟨hpartition, by simpa using hbucket, entry, hpeek, rfl⟩
  · rintro ⟨hpartition, hbucket, entry, hpeek, rfl⟩
    have hkey := peek_key hpeek
    subst hkey
    exact ⟨entry, mem_filter.mpr
      ⟨mem_snapshot.mpr ⟨hpartition, hpeek⟩, by simpa using hbucket⟩, rfl⟩

theorem mem_entriesFor {engine : Engine} {partition : ℕ} :
    entry ∈ engine.entriesFor partition keys ↔
      entry.key ∈ keys ∧ engine.partitionFor entry.key = partition ∧
        engine.peek entry.key = some entry := by
  rw [← mem_snapshot]
  unfold entriesFor Store.entriesFor snapshot Store.snapshot
  split
  · rw [Partition.entriesFor, mem_filterMap, Partition.mem_values_iff]
    constructor
    · rintro ⟨key, hkey, hpeek⟩
      rw [Partition.peek_key hpeek]
      exact ⟨hkey, hpeek⟩
    · rintro ⟨hkey, hpeek⟩
      exact ⟨entry.key, hkey, hpeek⟩
  · simp

/-- The index of versions of distinct keys looks each of them up. -/
theorem get_peerVersions {versions : List KeyVersion}
    (hunique : ∀ v ∈ versions, ∀ w ∈ versions, v.key = w.key → v = w) (key : JsString)
    (timestamp : HybridTime) :
    (peerVersions versions).get key = some timestamp ↔ ⟨key, timestamp⟩ ∈ versions := by
  induction versions using reverseRecOn with
  | nil => simp [peerVersions]
  | append_singleton versions version ih =>
    have hold : ∀ v ∈ versions, ∀ w ∈ versions, v.key = w.key → v = w :=
      fun v hv w hw => hunique v (mem_append_left _ hv) w (mem_append_left _ hw)
    rw [peerVersions, foldl_append, foldl_cons, foldl_nil, ← peerVersions,
      OrderedMap.get_set, mem_append, mem_singleton]
    by_cases hkey : key = version.key
    · subst hkey
      rw [if_pos rfl]
      constructor
      · intro h
        exact Or.inr (by rw [← Option.some.inj h])
      · rintro (h | h)
        · rw [← hunique _ (mem_append_left _ h) version (by simp) rfl]
        · rw [← h]
    · rw [if_neg hkey, ih hold]
      constructor
      · exact Or.inl
      · rintro (h | h)
        · exact h
        · exact absurd (congrArg KeyVersion.key h) hkey

/-- The peer's index finds the order of each entry it stores in the buckets. -/
theorem get_peer_keyVersions {peer : Engine} {partition : ℕ} {buckets : List ℕ}
    {timestamp : HybridTime} :
    (peerVersions (peer.keyVersions partition buckets)).get key = some timestamp ↔
      peer.partitionFor key = partition ∧ repairBucket key REPAIR_BUCKETS ∈ buckets ∧
        ∃ entry, peer.peek key = some entry ∧ entry.timestamp = timestamp := by
  rw [get_peerVersions, mem_keyVersions]
  rintro ⟨key, t⟩ hv ⟨key', t'⟩ hw heq
  obtain rfl : key = key' := heq
  obtain ⟨-, -, entry, hpeek, rfl⟩ := mem_keyVersions.mp hv
  obtain ⟨-, -, entry', hpeek', rfl⟩ := mem_keyVersions.mp hw
  rw [Option.some.inj (hpeek.symm.trans hpeek')]

/-! ### The plan -/

section Plan

variable {engine peer : Engine} {partition : ℕ} {buckets : List ℕ}

/-- A key both sides would compare. -/
def InScope (engine : Engine) (partition : ℕ) (buckets : List ℕ) (key : JsString) : Prop :=
  engine.partitionFor key = partition ∧ repairBucket key REPAIR_BUCKETS ∈ buckets

/-- What is pushed: the entries the peer lacks or holds older. -/
theorem mem_plan_push (hsame : ∀ key, peer.partitionFor key = engine.partitionFor key) :
    entry ∈ (plan engine partition buckets
        (peerVersions (peer.keyVersions partition buckets))).push ↔
      InScope engine partition buckets entry.key ∧ engine.peek entry.key = some entry ∧
        ∀ other, peer.peek entry.key = some other → other.timestamp < entry.timestamp := by
  simp only [plan, mem_entriesFor, mem_map, mem_filter]
  constructor
  · rintro ⟨⟨⟨key, timestamp⟩, ⟨hversion, hnewer⟩, rfl⟩, hpartition, hpeek⟩
    obtain ⟨-, hbucket, stored, hstored, rfl⟩ := mem_keyVersions.mp hversion
    cases (hstored.symm.trans hpeek)
    refine ⟨⟨hpartition, hbucket⟩, hpeek, fun other hother => ?_⟩
    rw [get_peer_keyVersions.mpr
      ⟨(hsame _).trans hpartition, hbucket, other, hother, rfl⟩] at hnewer
    simpa [compareHybrid_pos] using hnewer
  · rintro ⟨hscope, hpeek, hnewer⟩
    refine ⟨⟨⟨entry.key, entry.timestamp⟩, ⟨?_, ?_⟩, rfl⟩, hscope.1, hpeek⟩
    · exact mem_keyVersions.mpr ⟨hscope.1, hscope.2, entry, hpeek, rfl⟩
    · cases hget : (peerVersions (peer.keyVersions partition buckets)).get entry.key with
      | none => rfl
      | some timestamp =>
        obtain ⟨-, -, other, hother, rfl⟩ := get_peer_keyVersions.mp hget
        simpa [compareHybrid_pos] using hnewer other hother

/-- What is pulled: the keys this node lacks or holds older. -/
theorem mem_plan_pull (hsame : ∀ key, peer.partitionFor key = engine.partitionFor key) :
    key ∈ (plan engine partition buckets (peerVersions (peer.keyVersions partition buckets))).pull ↔
      InScope engine partition buckets key ∧ ∃ other, peer.peek key = some other ∧
        ∀ entry, engine.peek key = some entry → entry.timestamp < other.timestamp := by
  simp only [plan, mem_append, mem_map, mem_filter, decide_eq_true_eq]
  constructor
  · rintro (⟨⟨_, timestamp⟩, ⟨hversion, holder⟩, rfl⟩ | ⟨hkey, hunseen⟩)
    · obtain ⟨hpartition, hbucket, stored, hstored, rfl⟩ := mem_keyVersions.mp hversion
      split at holder
      · cases holder
      · rename_i timestamp hget
        obtain ⟨-, -, other, hother, rfl⟩ := get_peer_keyVersions.mp hget
        refine ⟨⟨hpartition, hbucket⟩, other, hother, fun entry hentry => ?_⟩
        cases (hstored.symm.trans hentry)
        simpa [compareHybrid_neg] using holder
    · obtain ⟨timestamp, hget⟩ := OrderedMap.mem_keys_iff.mp hkey
      obtain ⟨hpartition, hbucket, other, hother, -⟩ := get_peer_keyVersions.mp hget
      have hscope : InScope engine partition buckets key :=
        ⟨(hsame key).symm.trans hpartition, hbucket⟩
      refine ⟨hscope, other, hother, fun entry hentry => ?_⟩
      exact absurd ⟨⟨key, entry.timestamp⟩,
        mem_keyVersions.mpr ⟨hscope.1, hbucket, entry, hentry, rfl⟩, rfl⟩ hunseen
  · rintro ⟨hscope, other, hother, holder⟩
    have hget := get_peer_keyVersions.mpr ⟨(hsame key).trans hscope.1, hscope.2, other, hother, rfl⟩
    cases hpeek : engine.peek key with
    | some entry =>
      refine Or.inl ⟨⟨key, entry.timestamp⟩, ⟨?_, ?_⟩, rfl⟩
      · exact mem_keyVersions.mpr ⟨hscope.1, hscope.2, entry, hpeek, rfl⟩
      · rw [hget]
        simpa [compareHybrid_neg] using holder entry hpeek
    | none =>
      refine Or.inr ⟨OrderedMap.mem_keys_iff.mpr ⟨_, hget⟩, ?_⟩
      rintro ⟨⟨key', timestamp⟩, hversion, rfl⟩
      obtain ⟨-, -, entry, hentry, -⟩ := mem_keyVersions.mp hversion
      rw [hpeek] at hentry
      cases hentry

theorem filterMap_keys_sublist (part : Partition) : ∀ keys : List JsString,
    ((keys.filterMap part.peek).map Entry.key).Sublist keys
  | [] => List.Sublist.slnil
  | key :: rest => by
      cases hpeek : part.peek key with
      | none => simpa [hpeek] using (filterMap_keys_sublist part rest).cons key
      | some entry =>
        have hkey := Partition.peek_key hpeek
        simpa [hpeek, hkey] using (filterMap_keys_sublist part rest).cons_cons key

theorem entriesFor_keys_nodup (h : keys.Nodup) (engine : Engine) (partition : ℕ) :
    ((engine.entriesFor partition keys).map Entry.key).Nodup := by
  unfold entriesFor Store.entriesFor
  split
  · exact h.sublist (filterMap_keys_sublist _ keys)
  · exact nodup_nil

theorem keyVersions_keys_nodup (engine : Engine) (partition : ℕ) (buckets : List ℕ) :
    ((engine.keyVersions partition buckets).map KeyVersion.key).Nodup := by
  rw [keyVersions_eq, map_map]
  exact (Store.snapshot_keys_nodup engine.store partition).sublist (filter_sublist.map _)

/-- Merging exactly the entries in scope that the target lacks or holds older leaves the later
    entry of every key in scope. -/
theorem peek_merge_newer {source target : Engine} {entries : List Entry} {scope : JsString → Prop}
    [DecidablePred scope]
    (hmem : ∀ entry, entry ∈ entries ↔ scope entry.key ∧ source.peek entry.key = some entry ∧
      ∀ own, target.peek entry.key = some own → own.timestamp < entry.timestamp)
    (key : JsString) :
    (entries.foldl Engine.merge target).peek key =
      if scope key then later (target.peek key) (source.peek key) else target.peek key := by
  by_cases hmoved : ∃ entry ∈ entries, entry.key = key
  · obtain ⟨entry, he, rfl⟩ := hmoved
    obtain ⟨hscope, hpeek, -⟩ := (hmem entry).mp he
    rw [if_pos hscope, hpeek, later_some]
    refine peek_merges (fun other hother hkey => ?_) he
    have hpeek' := ((hmem other).mp hother).2.1
    rw [hkey, hpeek] at hpeek'
    exact (Option.some.inj hpeek').symm
  · have hne : ∀ entry ∈ entries, entry.key ≠ key := fun entry he hkey => hmoved ⟨entry, he, hkey⟩
    rw [peek_merges_of_ne hne]
    split_ifs with hscope
    · cases hsource : source.peek key with
      | none => rw [later_none]
      | some entry =>
        -- the entry did not move, so the target holds one at least as recent
        obtain rfl := peek_key hsource
        have hstays : ¬ ∀ own, target.peek entry.key = some own → own.timestamp < entry.timestamp :=
          fun holder => hne entry ((hmem entry).mpr ⟨hscope, hsource, holder⟩) rfl
        push Not at hstays
        obtain ⟨own, hown, hle⟩ := hstays
        rw [hown, later_some, newest, supersedes_eq_false.mpr hle]
        rfl
    · rfl

instance (key : JsString) : Decidable (InScope engine partition buckets key) :=
  inferInstanceAs (Decidable (_ ∧ _))

/-- Pulling the planned keys, in whatever order they are asked for. -/
theorem peek_pulled (hsame : ∀ key, peer.partitionFor key = engine.partitionFor key)
    (hkeys : ∀ key, key ∈ keys ↔ key ∈ (plan engine partition buckets
      (peerVersions (peer.keyVersions partition buckets))).pull) (key : JsString) :
    (applyChunk engine ⟨partition, true, peer.entriesFor partition keys⟩).peek key =
      if InScope engine partition buckets key then later (engine.peek key) (peer.peek key)
      else engine.peek key := by
  refine peek_merge_newer (fun entry => ?_) key
  rw [mem_entriesFor, hkeys, mem_plan_pull hsame]
  constructor
  · rintro ⟨⟨hscope, other, hother, holder⟩, -, hpeek⟩
    cases (hother.symm.trans hpeek)
    exact ⟨hscope, hpeek, holder⟩
  · rintro ⟨hscope, hpeek, holder⟩
    exact ⟨⟨hscope, entry, hpeek, holder⟩, (hsame _).trans hscope.1, hpeek⟩

theorem peek_pushed (hsame : ∀ key, peer.partitionFor key = engine.partitionFor key)
    (key : JsString) :
    ((pagesOf partition (plan engine partition buckets (peerVersions (peer.keyVersions partition
        buckets))).push).foldl applyChunk peer).peek key =
      if InScope engine partition buckets key then later (peer.peek key) (engine.peek key)
      else peer.peek key := by
  have hnodup : ((plan engine partition buckets (peerVersions (peer.keyVersions partition
      buckets))).push.map Entry.key).Nodup :=
    entriesFor_keys_nodup ((keyVersions_keys_nodup engine partition buckets).sublist
      (filter_sublist.map _)) engine partition
  rw [foldl_applyChunk, pagesOf, push_entries (keySorted_insertionSort hnodup)]
  refine peek_merge_newer (fun entry => ?_) key
  rw [mem_insertionSort, mem_plan_push hsame]

end Plan

/-! ### A pass -/

/-- A pass looks at the key: the partition digests differ, and the digests of its bucket. -/
def Diverges (partition : ℕ) (engine peer : Engine) (key : JsString) : Prop :=
  engine.partitionFor key = partition ∧
    engine.partitionDigest partition ≠ peer.partitionDigest partition ∧
    (engine.bucketDigests partition).getD (repairBucket key REPAIR_BUCKETS) ⟨0, 0⟩ ≠
      (peer.bucketDigests partition).getD (repairBucket key REPAIR_BUCKETS) ⟨0, 0⟩

instance (partition : ℕ) (engine peer : Engine) (key : JsString) :
    Decidable (Diverges partition engine peer key) := inferInstanceAs (Decidable (_ ∧ _ ∧ _))

theorem bucketDigests_length (engine : Engine) (partition : ℕ) :
    (engine.bucketDigests partition).length = REPAIR_BUCKETS := by
  unfold bucketDigests Store.bucketDigests
  split
  · simp
  · exact length_replicate

/-- The exchange of digests always succeeds, and finds the buckets of the divergent keys. -/
theorem divergentBuckets_spec (engine peer : Engine) (partition : ℕ) :
    ∃ buckets, divergentBuckets engine partition
        (serveDigest peer partition (engine.partitionDigest partition)) = some buckets ∧
      ∀ key, InScope engine partition buckets key ↔ Diverges partition engine peer key := by
  unfold serveDigest divergentBuckets
  by_cases hsame : peer.partitionDigest partition = engine.partitionDigest partition
  · refine ⟨[], by simp [hsame], fun key => ?_⟩
    simp [InScope, Diverges, hsame]
  · have hlen : (peer.bucketDigests partition).length ≠ 0 := by
      rw [bucketDigests_length]
      decide
    refine ⟨_, by rw [if_neg hsame, if_neg hlen, if_neg (by simp [bucketDigests_length])],
      fun key => ?_⟩
    have hbucket : repairBucket key REPAIR_BUCKETS < REPAIR_BUCKETS := Nat.mod_lt _ (by decide)
    simp [InScope, Diverges, Ne.symm hsame, bucketDigests_length, hbucket]

end Nodeakt.Kv
