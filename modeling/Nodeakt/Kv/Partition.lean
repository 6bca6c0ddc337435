import Nodeakt.Schemes.OrderedMap
import Nodeakt.Kv.Entry

/-! One partition's local fragment (`kv/partition.ts`): the key-to-entry map and the rolling digest
    kept in step with it. Merges are last write wins; only `reap` removes an entry. -/

namespace Nodeakt.Kv
open Schemes List OrderedMap

/-- A fragment; every entry is stored under its own key. -/
structure Partition where
  entries : OrderedMap JsString Entry
  hi : UInt32
  lo : UInt32
  keyed : ∀ k e, entries.get k = some e → e.key = k

namespace Partition

variable (part : Partition)

/-- The fragment with nothing stored. -/
def empty : Partition := ⟨OrderedMap.empty, 0, 0, by simp⟩

/-- Snapshot of the digest. -/
def digest : DigestLanes := ⟨part.hi, part.lo⟩

/-- The raw stored entry for `key`, tombstone or expired included. -/
def peek (key : JsString) : Option Entry := part.entries.get key

/-- The live, unexpired value for `key`. -/
def get (key : JsString) (nowMs : Millis) : Option Entry :=
  match part.peek key with
  | some entry => if isLiveValue entry nowMs then some entry else none
  | none => none

/-- XORs the entry's contribution into the digest; a second call undoes it. -/
def toggle (entry : Entry) : Partition := { part with
    hi := part.hi ^^^ (entryContribution entry).hi
    lo := part.lo ^^^ (entryContribution entry).lo }

/-- Stores `entry` under its key and folds it into the digest. -/
def store (entry : Entry) : Partition := toggle { part with
      entries := part.entries.set entry.key entry
      keyed := by
        intro k e h
        rw [OrderedMap.get_set] at h
        split at h
        · simp_all
        · exact part.keyed k e h }
    entry

/-- Merges `entry` under last write wins; `true` when the fragment changed. -/
def apply (entry : Entry) : Bool × Partition := match part.peek entry.key with
  | some existing =>
    if supersedes entry existing then (true, (part.toggle existing).store entry) else (false, part)
  | none => (true, part.store entry)

/-- What the janitor removes at `nowMs`. -/
def doomed (nowMs : Millis) (entry : Entry) : Bool :=
  isReapableTombstone entry nowMs || isExpired entry nowMs

/-- Removes reapable tombstones and expired entries and returns how many went. -/
def reap (nowMs : Millis) : ℕ × Partition :=
  let gone := part.entries.values.filter (doomed nowMs)
  let kept : Partition := { part with
      entries := part.entries.filter (fun _ entry => !doomed nowMs entry)
      keyed := fun k e h => part.keyed k e (OrderedMap.get_filter_eq_some_iff.mp h).1 }
  (gone.length, gone.foldl toggle kept)

/-- XORs an entry's contribution into its key's bucket. -/
def addToBucket (bucketCount : ℕ) (digests : List DigestLanes) (entry : Entry) : List DigestLanes :=
  digests.modify (repairBucket entry.key bucketCount) (·.xor (entryContribution entry))

/-- The digest split across the repair buckets, in one pass over the entries. -/
def bucketDigests (bucketCount : ℕ) : List DigestLanes :=
  part.entries.values.foldl (addToBucket bucketCount) (List.replicate bucketCount ⟨0, 0⟩)

/-- Key and order of every entry whose repair bucket is in `buckets`. -/
def keyVersions (buckets : List ℕ) (bucketCount : ℕ) : List KeyVersion :=
  (part.entries.values.filter (fun entry => repairBucket entry.key bucketCount ∈ buckets)).map
    (fun entry => ⟨entry.key, entry.timestamp⟩)

/-- The stored entries for `keys`, tombstones included. -/
def entriesFor (keys : List JsString) : List Entry := keys.filterMap part.peek

@[simp] theorem peek_empty (key : JsString) : empty.peek key = none := rfl

@[simp] theorem peek_toggle (entry : Entry) (key : JsString) :
    (part.toggle entry).peek key = part.peek key := rfl

theorem peek_store (entry : Entry) (key : JsString) :
    (part.store entry).peek key = if key = entry.key then some entry else part.peek key :=
  get_set ..

/-- A merge leaves the later entry under its key and touches no other key. -/
theorem peek_apply (entry : Entry) (key : JsString) :
    (part.apply entry).2.peek key =
      if key = entry.key then some (newest (part.peek key) entry) else part.peek key := by
  unfold apply
  split
  · rename_i existing hex
    by_cases hs : supersedes entry existing = true
    · rw [if_pos hs]
      by_cases hk : key = entry.key
      · subst hk; simp [peek_store, newest, hex, hs]
      · simp [peek_store, hk]
    · rw [if_neg hs]
      by_cases hk : key = entry.key
      · subst hk; simp [newest, hex, hs]
      · simp [hk]
  · rename_i hex
    by_cases hk : key = entry.key
    · subst hk; simp [peek_store, newest, hex]
    · simp [peek_store, hk]

theorem length_foldl_addToBucket (bucketCount : ℕ) : ∀ (entries : List Entry)
    (digests : List DigestLanes),
    (entries.foldl (addToBucket bucketCount) digests).length = digests.length
  | [], _ => rfl
  | entry :: rest, digests => by
      rw [foldl_cons, length_foldl_addToBucket bucketCount rest, addToBucket, length_modify]

@[simp] theorem length_bucketDigests (bucketCount : ℕ) :
    (part.bucketDigests bucketCount).length = bucketCount := by
  rw [bucketDigests, length_foldl_addToBucket, length_replicate]

theorem peek_foldl_toggle (key : JsString) : ∀ (gone : List Entry) (part : Partition),
    (gone.foldl toggle part).peek key = part.peek key
  | [], _ => rfl
  | entry :: rest, part => by
      rw [foldl_cons, peek_foldl_toggle key rest]; rfl

/-- A reap keeps exactly the entries that are not doomed. -/
theorem peek_reap (nowMs : Millis) (key : JsString) :
    (part.reap nowMs).2.peek key = (part.peek key).filter (fun entry => !doomed nowMs entry) := by
  rw [reap, peek_foldl_toggle]
  refine Option.ext fun e => ?_
  rw [Option.filter_eq_some_iff]
  exact get_filter_eq_some_iff

theorem peek_key {part : Partition} {key : JsString} {entry : Entry}
    (h : part.peek key = some entry) : entry.key = key := part.keyed key entry h

/-- Iterating a fragment yields exactly what `peek` finds. -/
theorem mem_values_iff {part : Partition} {entry : Entry} :
    entry ∈ part.entries.values ↔ part.peek entry.key = some entry := by
  rw [OrderedMap.mem_values_iff]
  constructor
  · rintro ⟨k, hk⟩; rw [part.keyed k entry hk]; exact hk
  · intro h; exact ⟨_, h⟩

theorem values_keys_nodup : (part.entries.values.map Entry.key).Nodup := by
  have hkeys : part.entries.values.map Entry.key = part.entries.toList.map Prod.fst := by
    rw [values, map_map]
    refine map_congr_left fun p hp => ?_
    exact part.keyed p.1 p.2 (get_eq_some_iff.mpr hp)
  rw [hkeys]
  exact part.entries.nodup

end Partition

end Nodeakt.Kv
