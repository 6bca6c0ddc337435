import Nodeakt.Js.Text

/-! The store's shared value types (`kv/ports.ts`, `kv/discriminants.ts`), its typed errors
    (`kv/errors.ts`) and the constants the modelled code reads (`kv/constants.ts`).

    Times are the finite numbers a clock can return, so a reading may be fractional or negative. -/

namespace Nodeakt.Kv

/-- A finite number of epoch milliseconds. -/
abbrev Millis := ℚ

/-- Hybrid logical clock reading, the last-write-wins order. -/
structure HybridTime where
  wallMs : Millis
  logical : ℕ
  node : JsString
  deriving DecidableEq

/-- One stored record; a tombstone has `deleted` set and no value. -/
structure Entry where
  key : JsString
  value : Option Bytes
  timestamp : HybridTime
  sequence : ℕ
  expiresAt : Option Millis
  deleted : Bool
  deriving DecidableEq

/-- Presence condition of a put: `nx` is `ifAbsent`, `xx` is `ifPresent`. -/
inductive PutCondition where | none | ifAbsent | ifPresent
  deriving DecidableEq

/-- A mutation. -/
inductive WriteOp where
  | put (key : JsString) (value : Bytes) (condition : PutCondition) (ttlMs : Option Millis)
  | delete (key : JsString)
  | increment (key : JsString) (delta : ℤ)
  | compareAndSet (key : JsString) (expected value : Bytes)
  deriving DecidableEq

/-- The key a mutation is about. -/
def WriteOp.key : WriteOp → JsString
  | .put key _ _ _ => key
  | .delete key => key
  | .increment key _ => key
  | .compareAndSet key _ _ => key

/-- Why a conditional write declined to mutate. -/
inductive RejectionReason where | ifAbsent | ifPresent | compareAndSet
  deriving DecidableEq

/-- Outcome of a write the engine evaluated. -/
inductive WriteResult where
  | applied (entry : Entry)
  | rejected (reason : RejectionReason)
  deriving DecidableEq

/-- A key with the order of its stored entry, exchanged by anti-entropy. -/
structure KeyVersion where
  key : JsString
  timestamp : HybridTime
  deriving DecidableEq

/-- One live member as the store sees it, in the view's order. -/
structure ClusterMember where
  name : JsString
  draining : Bool
  deriving DecidableEq

/-- The errors the modelled code raises. -/
inductive KvError where
  | rangeError (message : String)
  | typeError (message : String)
  | protocol (message : String)
  | partitionRebalancing (partitionId : ℕ)
  | clusterUnavailable
  | quorum (got need : ℕ)
  deriving DecidableEq

/-- The diagnostic text of an error. -/
def KvError.message : KvError → String
  | .rangeError message => message
  | .typeError message => message
  | .protocol message => message
  | .partitionRebalancing partitionId => "partition " ++ toString partitionId ++ " is rebalancing"
  | .clusterUnavailable => "cluster is unavailable"
  | .quorum got need =>
    "write quorum " ++ toString need ++ " not met (got " ++ toString got ++ ")"

/-- Virtual ring positions of one member. -/
def RING_POINTS_PER_MEMBER : ℕ := 20

/-- Bounded-load multiplier of the average load. -/
def LOAD_FACTOR : ℚ := 5 / 4

/-- Tombstone retention and the stale-rejoin cutoff. -/
def TOMBSTONE_TTL_MS : Millis := 600000

/-- Sub-digests of a partition when anti-entropy escalates. -/
def REPAIR_BUCKETS : ℕ := 64

/-- Maximum bytes in one fragment chunk. -/
def FRAGMENT_CHUNK_BYTES : ℕ := 262144

/-- Partitions reaped by one janitor sweep. -/
def JANITOR_PARTITIONS_PER_SWEEP : ℕ := 64

end Nodeakt.Kv
