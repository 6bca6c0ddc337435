import Nodeakt.Kv.Hash
import Nodeakt.Kv.Hlc

/-! Predicates on one stored entry and its digest contribution (`kv/entry.ts`). -/

namespace Nodeakt.Kv

/-- A 64-bit digest as two unsigned 32-bit lanes. -/
structure DigestLanes where
  hi : UInt32
  lo : UInt32
  deriving DecidableEq

/-- XOR of two digests, lane by lane. -/
def DigestLanes.xor (a b : DigestLanes) : DigestLanes := ⟨a.hi ^^^ b.hi, a.lo ^^^ b.lo⟩

/-- Whether `candidate` wins last write wins against `incumbent`; equal timestamps do not. -/
def supersedes (candidate incumbent : Entry) : Bool :=
  0 < compareHybrid candidate.timestamp incumbent.timestamp

theorem supersedes_iff {candidate incumbent : Entry} :
    supersedes candidate incumbent = true ↔ incumbent.timestamp < candidate.timestamp := by
  rw [supersedes, decide_eq_true_iff, compareHybrid_pos]

theorem supersedes_eq_false {candidate incumbent : Entry} :
    supersedes candidate incumbent = false ↔ candidate.timestamp ≤ incumbent.timestamp := by
  rw [← Bool.not_eq_true, supersedes_iff, not_lt]

/-- Whether the entry carries an expiry that `nowMs` has reached. -/
def isExpired (entry : Entry) (nowMs : Millis) : Bool := match entry.expiresAt with
  | some expiresAt => expiresAt ≤ nowMs
  | none => false

/-- Not a tombstone and not expired. -/
def isLiveValue (entry : Entry) (nowMs : Millis) : Bool := !entry.deleted && !isExpired entry nowMs

/-- Whether a tombstone has outlived `TOMBSTONE_TTL_MS`, measured from the delete's wall time. -/
def isReapableTombstone (entry : Entry) (nowMs : Millis) : Bool :=
  entry.deleted && decide (TOMBSTONE_TTL_MS ≤ nowMs - entry.timestamp.wallMs)

/-- Decorrelates the repair bucket from the partition hash. -/
def BUCKET_SEED : UInt32 := 0x2545f491

/-- The repair sub-bucket of a key, in `[0, bucketCount)`. -/
def repairBucket (key : JsString) (bucketCount : ℕ) : ℕ :=
  (mix32 (hash32 key ^^^ BUCKET_SEED)).toNat % bucketCount

/-- Decorrelates the high lane from the low lane. -/
def HI_SEED : UInt32 := 0x9e3779b9

/-- Separates a tombstone from a value of the same timestamp. -/
def DELETED_SALT : UInt32 := 0x27d4eb2f

/-- `x >>> 0` of a number: truncation toward zero, modulo `2^32`. -/
def toUint32 (x : Millis) : UInt32 :=
  UInt32.ofNat ((if 0 ≤ x then x.floor else x.ceil) % 2 ^ 32).toNat

/-- The entry's contribution to its partition's rolling digest. -/
def entryContribution (entry : Entry) : DigestLanes := let keyHash := hash32 entry.key
  let wallLow := toUint32 entry.timestamp.wallMs
  let wallHigh := toUint32 (entry.timestamp.wallMs / 0x100000000).floor
  let logical := UInt32.ofNat entry.timestamp.logical
  let nodeHash := hash32 entry.timestamp.node
  let salt := if entry.deleted then DELETED_SALT else 0
  let lo := mix32 (mix32 (mix32 (keyHash ^^^ wallLow ^^^ salt) ^^^ logical) ^^^ nodeHash)
  let hi := mix32 (mix32 (mix32 (keyHash ^^^ HI_SEED) ^^^ wallHigh) ^^^ (nodeHash ^^^ logical))
  ⟨hi, lo⟩

/-- What a merge leaves under a key: the later of the stored entry and the incoming one. -/
def newest (stored : Option Entry) (entry : Entry) : Entry := match stored with
  | some existing => if supersedes entry existing then entry else existing
  | none => entry

theorem newest_eq (stored : Option Entry) (entry : Entry) :
    newest stored entry = entry ∨ stored = some (newest stored entry) := by
  cases stored with
  | none => exact Or.inl rfl
  | some existing =>
    simp only [newest]
    split
    · exact Or.inl rfl
    · exact Or.inr rfl

/-- What a merge leaves under a key was stored before or is the incoming entry. -/
theorem stored_or_incoming {c : Prop} [Decidable c] {stored : Option Entry} {incoming entry : Entry}
    (h : (if c then some (newest stored incoming) else stored) = some entry) :
    stored = some entry ∨ entry = incoming := by
  split at h
  · rcases newest_eq stored incoming with hnew | hold
    · exact Or.inr ((Option.some.inj h).symm.trans hnew)
    · exact Or.inl (hold.trans h)
  · exact Or.inl h

theorem newest_some_eq_iff {existing entry : Entry} : newest (some existing) entry = entry ↔
      existing.timestamp < entry.timestamp ∨ existing = entry := by
  simp only [newest, ← supersedes_iff]
  split
  · rename_i h; simp [h]
  · rename_i h; simp [h]

theorem le_newest (stored : Option Entry) (entry : Entry) :
    entry.timestamp ≤ (newest stored entry).timestamp := by
  cases stored with
  | none => exact le_rfl
  | some existing =>
    simp only [newest]
    split_ifs with h
    · exact le_rfl
    · exact supersedes_eq_false.mp (Bool.not_eq_true _ ▸ h)

theorem stored_le_newest {stored : Option Entry} {existing : Entry} (h : stored = some existing)
    (entry : Entry) : existing.timestamp ≤ (newest stored entry).timestamp := by
  subst h
  simp only [newest]
  split
  · rename_i h; exact (supersedes_iff.mp h).le
  · exact le_rfl

end Nodeakt.Kv
