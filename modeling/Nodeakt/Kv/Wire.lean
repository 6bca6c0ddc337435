import Nodeakt.Js.Utf8
import Nodeakt.Schemes.Codec
import Nodeakt.Kv.Fragment
import Nodeakt.Kv.RoutingTable

/-! The codec of the store's messages (`kv/wire.ts`).

    Big-endian, length-prefixed, behind an envelope of protocol version and message type. A writer
    returns the bytes it appends or throws, a reader takes them off the frame. Readers carry the text
    decoder they use; the code's own leaves `ignoreBOM` at its default. -/

namespace Nodeakt.Kv
open Schemes JsString

/-! ### Limits -/

/-- Largest encoded key. -/
def MAX_KEY_BYTES : ℕ := 1024

/-- Largest value. -/
def MAX_VALUE_BYTES : ℕ := 1048576

/-- The only wire format. -/
def PROTOCOL_VERSION : ℕ := 1

/-- Largest encoded member identity. -/
def MAX_NAME_BYTES : ℕ := 255

/-- Most owners of one partition. -/
def MAX_OWNERS_PER_PARTITION : ℕ := 16

/-- Most partitions of a table or a report. -/
def MAX_WIRE_PARTITIONS : ℕ := 1048576

/-- Most entries, keys or versions in one message. -/
def MAX_CHUNK_ENTRIES : ℕ := 1048576

/-- Largest integer a number holds exactly. -/
def MAX_SAFE_INTEGER : ℕ := 2 ^ 53 - 1

/-! ### Message types -/

abbrev MSG_READ_REQUEST : ℕ := 0x01
abbrev MSG_READ_RESPONSE : ℕ := 0x02
abbrev MSG_WRITE_REQUEST : ℕ := 0x03
abbrev MSG_WRITE_RESPONSE : ℕ := 0x04
abbrev MSG_REPLICATE : ℕ := 0x05
abbrev MSG_REPLICATE_ACK : ℕ := 0x06
abbrev MSG_PEEK_REQUEST : ℕ := 0x07
abbrev MSG_REBALANCING : ℕ := 0x08
abbrev MSG_FRAGMENT_REQUEST : ℕ := 0x09
abbrev MSG_FRAGMENT_PUSH : ℕ := 0x0a
abbrev MSG_FRAGMENT_ACK : ℕ := 0x0b
abbrev MSG_SYNC_DIGEST : ℕ := 0x0c
abbrev MSG_BUCKET_DIGESTS : ℕ := 0x0d
abbrev MSG_KEY_VERSIONS_REQUEST : ℕ := 0x0e
abbrev MSG_KEY_VERSIONS : ℕ := 0x0f
abbrev MSG_TABLE : ℕ := 0x10
abbrev MSG_FRAGMENT_CHUNK : ℕ := 0x11
abbrev MSG_OWNERSHIP_REPORT : ℕ := 0x12
abbrev MSG_ENTRIES_REQUEST : ℕ := 0x13

/-- Opcodes of the write kinds. -/
abbrev OP_PUT : ℕ := 1
abbrev OP_DELETE : ℕ := 2
abbrev OP_INCR : ℕ := 3
abbrev OP_CAS : ℕ := 4

/-- Markers of a write result. -/
abbrev RESULT_APPLIED : ℕ := 1
abbrev RESULT_REJECTED : ℕ := 0

/-- Bits of an entry's flag byte. -/
abbrev ENTRY_FLAG_DELETED : ℕ := 1
abbrev ENTRY_FLAG_EXPIRES : ℕ := 2

/-! ### Messages -/

/-- A routing table on the wire: its version and each partition's owners. -/
structure RoutingTableWire where
  version : ℕ
  partitions : List (List JsString)
  deriving DecidableEq

/-- Every top-level message. -/
inductive KvMessage where
  | readRequest (key : JsString)
  | readResponse (entry : Option Entry)
  | writeRequest (op : WriteOp)
  | writeResponse (result : WriteResult)
  | table (table : RoutingTableWire)
  | fragmentChunk (chunk : FragmentChunk)
  | ownershipReport (report : OwnershipReport)
  | replicate (entry : Entry)
  | replicateAck
  | peekRequest (key : JsString)
  | rebalancing (partitionId : ℕ)
  | fragmentRequest (partitionId : ℕ) (afterKey : Option JsString)
  | fragmentPush (chunk : FragmentChunk)
  | fragmentAck
  | syncDigest (partitionId : ℕ) (digest : DigestLanes)
  | bucketDigests (partitionId : ℕ) (digests : List DigestLanes)
  | keyVersionsRequest (partitionId : ℕ) (buckets : List ℕ)
  | keyVersions (partitionId : ℕ) (versions : List KeyVersion)
  | entriesRequest (partitionId : ℕ) (keys : List JsString)
  deriving DecidableEq

/-- A protocol error. -/
def fail (message : String) : KvError := .protocol message

/-- Whether a number is an integer it holds exactly. -/
def isSafeInteger (value : Millis) : Bool := value.den = 1 ∧ |value| ≤ (MAX_SAFE_INTEGER : Millis)

/-- `BigInt` of a non-negative integer. -/
def bigInt (value : Millis) : ℕ := value.num.toNat

/-! ### Writing -/

def assertUnsignedInteger (value : Millis) (field : String) : Except KvError Unit :=
  refuse (isSafeInteger value = false ∨ value < 0) (fail (field ++ " is out of range"))

def assertU32 (value : ℕ) (field : String) : Except KvError Unit :=
  refuse (isSafeInteger value = false ∨ 0xffffffff < value) (fail (field ++ " is out of range"))

def assertU64 (value : ℕ) (field : String) : Except KvError Unit :=
  refuse (0xffffffffffffffff < value) (fail (field ++ " is out of range"))

/-- A non-empty text of at most `max` bytes behind its length of `width` bytes. -/
def writeText (width max : ℕ) (text : JsString) (field : String) : Except KvError Bytes := do
  refuse (0 ∈ text) (fail (field ++ " contains NUL"))
  let bytes := encodeUtf8 text
  refuse (bytes.length = 0 ∨ max < bytes.length) (fail (field ++ " length is out of range"))
  refuse (isWellFormed text = false) (fail (field ++ " is not valid Unicode"))
  pure (bigEndian width bytes.length ++ bytes)

def writeName (name : JsString) (field : String) : Except KvError Bytes :=
  writeText 1 MAX_NAME_BYTES name field

def writeKey (key : JsString) : Except KvError Bytes := writeText 2 MAX_KEY_BYTES key "key"

def writeBlob (max : ℕ) (field : String) (bytes : Bytes) : Except KvError Bytes := do
  refuse (max < bytes.length) (fail (field ++ " length is out of range"))
  pure (bigEndian 4 bytes.length ++ bytes)

/-- A checked 32-bit field. -/
def writeU32 (field : String) (value : ℕ) : Except KvError Bytes := do
  assertU32 value field
  pure (bigEndian 4 value)

/-- A checked number as a 64-bit field. -/
def writeSafeU64 (field : String) (value : Millis) : Except KvError Bytes := do
  assertUnsignedInteger value field
  pure (bigEndian 8 (bigInt value))

def writeHybridTime (time : HybridTime) : Except KvError Bytes := do
  assertUnsignedInteger time.wallMs "wall time"
  assertU32 time.logical "logical counter"
  let node ← writeName time.node "node"
  pure (bigEndian 8 (bigInt time.wallMs) ++ bigEndian 4 time.logical ++ node)

/-- The flag byte of an entry. -/
def entryFlags (entry : Entry) : ℕ := (if entry.deleted then ENTRY_FLAG_DELETED else 0) +
    (if entry.expiresAt.isSome then ENTRY_FLAG_EXPIRES else 0)

def writeEntry (entry : Entry) : Except KvError Bytes := do
  refuse (entry.deleted ≠ entry.value.isNone)
    (fail "entry deleted flag is inconsistent with its value")
  assertU64 entry.sequence "sequence"
  let expiry ← writeOptional (writeSafeU64 "expiry") entry.expiresAt
  let key ← writeKey entry.key
  let time ← writeHybridTime entry.timestamp
  let value ← writeOptional (writeBlob MAX_VALUE_BYTES "value") entry.value
  pure (bigEndian 1 (entryFlags entry) ++ key ++ time ++ bigEndian 8 entry.sequence ++ expiry ++
    value)

/-- `CONDITION_TO_BYTE`. -/
def conditionToByte : PutCondition → ℕ
  | .none => 0
  | .ifAbsent => 1
  | .ifPresent => 2

/-- `REASON_TO_BYTE`. -/
def reasonToByte : RejectionReason → ℕ
  | .ifAbsent => 0
  | .ifPresent => 1
  | .compareAndSet => 2

/-- The opcode byte of a mutation. -/
def opcodeOf : WriteOp → ℕ
  | .put _ _ _ _ => OP_PUT
  | .delete _ => OP_DELETE
  | .increment _ _ => OP_INCR
  | .compareAndSet _ _ _ => OP_CAS

/-- A put after its opcode. -/
def writePut (key : JsString) (value : Bytes) (condition : PutCondition) (ttlMs : Option Millis) :
    Except KvError Bytes := do
  let keyBytes ← writeKey key
  let blob ← writeBlob MAX_VALUE_BYTES "value" value
  let ttl ← writeOptional (writeSafeU64 "ttl") ttlMs
  pure (bigEndian 1 (conditionToByte condition) ++ bigEndian 1 (if ttlMs.isSome then 1 else 0) ++
    keyBytes ++ blob ++ ttl)

/-- A signed number in two's complement. -/
def writeI64 (value : ℤ) : Bytes := bigEndian 8 (value % 2 ^ 64).toNat

/-- An increment after its opcode. -/
def writeIncrement (key : JsString) (delta : ℤ) : Except KvError Bytes := do
  refuse (delta < -(2 ^ 63) ∨ 2 ^ 63 - 1 < delta) (fail "increment delta is out of range")
  let keyBytes ← writeKey key
  pure (keyBytes ++ writeI64 delta)

/-- A compare-and-set after its opcode. -/
def writeCompareAndSet (key : JsString) (expected value : Bytes) : Except KvError Bytes := do
  let keyBytes ← writeKey key
  let expectedBytes ← writeBlob MAX_VALUE_BYTES "expected" expected
  let valueBytes ← writeBlob MAX_VALUE_BYTES "value" value
  pure (keyBytes ++ expectedBytes ++ valueBytes)

/-- A mutation after its opcode. -/
def writeOpBody : WriteOp → Except KvError Bytes
  | .put key value condition ttlMs => writePut key value condition ttlMs
  | .delete key => writeKey key
  | .increment key delta => writeIncrement key delta
  | .compareAndSet key expected value => writeCompareAndSet key expected value

def writeWriteOp : WriteOp → Except KvError Bytes := writeTagged opcodeOf 1 writeOpBody

/-- The marker byte of a write result. -/
def markerOf : WriteResult → ℕ
  | .applied _ => RESULT_APPLIED
  | .rejected _ => RESULT_REJECTED

/-- A write result after its marker. -/
def writeResultBody : WriteResult → Except KvError Bytes
  | .applied entry => writeEntry entry
  | .rejected reason => pure (bigEndian 1 (reasonToByte reason))

def writeWriteResult : WriteResult → Except KvError Bytes := writeTagged markerOf 1 writeResultBody

def writePartitionField (partitionId : ℕ) : Except KvError Bytes := writeU32 "partition id" partitionId

def writeDigest (digest : DigestLanes) : Except KvError Bytes := do
  let hi ← writeU32 "digest hi" digest.hi.toNat
  let lo ← writeU32 "digest lo" digest.lo.toNat
  pure (hi ++ lo)

def writeKeyVersion (version : KeyVersion) : Except KvError Bytes := do
  let key ← writeKey version.key
  let time ← writeHybridTime version.timestamp
  pure (key ++ time)

/-- A list of at most `max` values behind its length. -/
def writeList {α : Type} (max : ℕ) (error : String) (write : α → Except KvError Bytes)
    (values : List α) : Except KvError Bytes := do
  refuse (max < values.length) (fail error)
  let bytes ← writeAll write values
  pure (bigEndian 4 values.length ++ bytes)

def writeDigests : List DigestLanes → Except KvError Bytes :=
  writeList REPAIR_BUCKETS "bucket digest count is out of range" writeDigest

def writeBuckets : List ℕ → Except KvError Bytes :=
  writeList REPAIR_BUCKETS "bucket count is out of range" (writeU32 "bucket index")

def writeKeyVersions : List KeyVersion → Except KvError Bytes :=
  writeList MAX_CHUNK_ENTRIES "key version count is out of range" writeKeyVersion

def writeKeys : List JsString → Except KvError Bytes :=
  writeList MAX_CHUNK_ENTRIES "key count is out of range" writeKey

/-- A presence byte and the value it guards. -/
def writeFlagged {α : Type} (write : α → Except KvError Bytes) (value : Option α) :
    Except KvError Bytes := do
  let bytes ← writeOptional write value
  pure (bigEndian 1 (if value.isSome then 1 else 0) ++ bytes)

def writeOptionalKey : Option JsString → Except KvError Bytes := writeFlagged writeKey

def writeOptionalEntry : Option Entry → Except KvError Bytes := writeFlagged writeEntry

/-- The owners of one partition. -/
def writeOwners (owners : List JsString) : Except KvError Bytes := do
  refuse (owners.length = 0 ∨ MAX_OWNERS_PER_PARTITION < owners.length)
    (fail "partition owner count is out of range")
  let bytes ← writeAll (fun owner => writeName owner "owner") owners
  pure (bigEndian 1 owners.length ++ bytes)

def writeTable (table : RoutingTableWire) : Except KvError Bytes := do
  assertU64 table.version "table version"
  let partitions ← writeList MAX_WIRE_PARTITIONS "table partition count is out of range" writeOwners
    table.partitions
  pure (bigEndian 8 table.version ++ partitions)

def writeChunk (chunk : FragmentChunk) : Except KvError Bytes := do
  let partition ← writePartitionField chunk.partitionId
  let entries ← writeList MAX_CHUNK_ENTRIES "chunk entry count is out of range" writeEntry
    chunk.entries
  pure (partition ++ bigEndian 1 (if chunk.final then 1 else 0) ++ entries)

def writeOwnershipReport (report : OwnershipReport) : Except KvError Bytes := do
  refuse (MAX_WIRE_PARTITIONS < report.partitions.length)
    (fail "ownership report partition count is out of range")
  let node ← writeName report.node "report node"
  let partitions ← writeAll (writeU32 "report partition id") report.partitions
  pure (node ++ bigEndian 4 report.partitions.length ++ partitions)

/-- A body that opens with a partition id. -/
def writeWithPartition (partitionId : ℕ) (body : Except KvError Bytes) : Except KvError Bytes := do
  let partition ← writePartitionField partitionId
  let bytes ← body
  pure (partition ++ bytes)

/-- The type byte of a message. -/
def typeOf : KvMessage → ℕ
  | .readRequest _ => MSG_READ_REQUEST
  | .readResponse _ => MSG_READ_RESPONSE
  | .writeRequest _ => MSG_WRITE_REQUEST
  | .writeResponse _ => MSG_WRITE_RESPONSE
  | .replicate _ => MSG_REPLICATE
  | .replicateAck => MSG_REPLICATE_ACK
  | .peekRequest _ => MSG_PEEK_REQUEST
  | .rebalancing _ => MSG_REBALANCING
  | .fragmentRequest _ _ => MSG_FRAGMENT_REQUEST
  | .fragmentPush _ => MSG_FRAGMENT_PUSH
  | .fragmentAck => MSG_FRAGMENT_ACK
  | .syncDigest _ _ => MSG_SYNC_DIGEST
  | .bucketDigests _ _ => MSG_BUCKET_DIGESTS
  | .keyVersionsRequest _ _ => MSG_KEY_VERSIONS_REQUEST
  | .keyVersions _ _ => MSG_KEY_VERSIONS
  | .table _ => MSG_TABLE
  | .fragmentChunk _ => MSG_FRAGMENT_CHUNK
  | .ownershipReport _ => MSG_OWNERSHIP_REPORT
  | .entriesRequest _ _ => MSG_ENTRIES_REQUEST

/-- The body of a message, after its envelope. -/
def encodeBody : KvMessage → Except KvError Bytes
  | .readRequest key => writeKey key
  | .readResponse entry => writeOptionalEntry entry
  | .writeRequest op => writeWriteOp op
  | .writeResponse result => writeWriteResult result
  | .table table => writeTable table
  | .fragmentChunk chunk => writeChunk chunk
  | .ownershipReport report => writeOwnershipReport report
  | .replicate entry => writeEntry entry
  | .replicateAck => pure []
  | .peekRequest key => writeKey key
  | .rebalancing partitionId => writePartitionField partitionId
  | .fragmentRequest partitionId afterKey =>
    writeWithPartition partitionId (writeOptionalKey afterKey)
  | .fragmentPush chunk => writeChunk chunk
  | .fragmentAck => pure []
  | .syncDigest partitionId digest => writeWithPartition partitionId (writeDigest digest)
  | .bucketDigests partitionId digests => writeWithPartition partitionId (writeDigests digests)
  | .keyVersionsRequest partitionId buckets =>
    writeWithPartition partitionId (writeBuckets buckets)
  | .keyVersions partitionId versions =>
    writeWithPartition partitionId (writeKeyVersions versions)
  | .entriesRequest partitionId keys => writeWithPartition partitionId (writeKeys keys)

/-- Encodes one message, envelope included. -/
def encodeMessage (message : KvMessage) : Except KvError Bytes := do
  let body ← writeTagged typeOf 1 encodeBody message
  pure (bigEndian 1 PROTOCOL_VERSION ++ body)

/-! ### Reading -/

/-- A fixed-width number of the frame. -/
def readNumber (width : ℕ) : Reader KvError ℕ := .number (fail "unexpected end of input") width

def readI64 : Reader KvError ℤ :=
  (fun n : ℕ => if n < 2 ^ 63 then (n : ℤ) else (n : ℤ) - 2 ^ 64) <$> readNumber 8

/-- Copies `count` bytes of the frame. -/
def takeBytes (count : ℕ) : Reader KvError Bytes := .take (fail "unexpected end of input") count

/-- The code's decoder: fatal, `ignoreBOM` left at its default. -/
def decoder : TextDecoder := ⟨false⟩

section Readers

variable (decoder : TextDecoder)

def decodeUtf8 (bytes : Bytes) (field : String) : Except KvError JsString :=
  decoder.decodeText (fail (field ++ " is not valid UTF-8")) (fail (field ++ " contains NUL")) bytes

/-- A name's length byte cannot exceed `MAX_NAME_BYTES`, so only emptiness is refused. -/
def readName (field : String) : Reader KvError JsString := do
  let length ← readNumber 1
  Reader.refuse (length = 0) (fail (field ++ " length is out of range"))
  let bytes ← takeBytes length
  Reader.ofExcept (decodeUtf8 decoder bytes field)

def readKey : Reader KvError JsString := do
  let length ← readNumber 2
  Reader.refuse (length = 0 ∨ MAX_KEY_BYTES < length) (fail "key length is out of range")
  let bytes ← takeBytes length
  Reader.ofExcept (decodeUtf8 decoder bytes "key")

def readBlob (max : ℕ) (field : String) : Reader KvError Bytes := do
  let length ← readNumber 4
  Reader.refuse (max < length) (fail (field ++ " length is out of range"))
  takeBytes length

def readSafeU64 (field : String) : Reader KvError Millis := do
  let value ← readNumber 8
  Reader.refuse (MAX_SAFE_INTEGER < value) (fail (field ++ " is out of range"))
  pure (value : Millis)

def readHybridTime : Reader KvError HybridTime := do
  let wallMs ← readSafeU64 "wall time"
  let logical ← readNumber 4
  let node ← readName decoder "node"
  pure ⟨wallMs, logical, node⟩

/-- Whether a bit of the flag byte is set. -/
def flagSet (flags flag : ℕ) : Bool := flags &&& flag ≠ 0

def readEntry : Reader KvError Entry := do
  let flags ← readNumber 1
  Reader.refuse (ENTRY_FLAG_DELETED + ENTRY_FLAG_EXPIRES < flags) (fail "entry flags are invalid")
  let deleted := flagSet flags ENTRY_FLAG_DELETED
  let key ← readKey decoder
  let timestamp ← readHybridTime decoder
  let sequence ← readNumber 8
  let expiresAt ← Reader.optional (flagSet flags ENTRY_FLAG_EXPIRES) (readSafeU64 "expiry")
  let value ← Reader.optional (!deleted) (readBlob MAX_VALUE_BYTES "value")
  pure ⟨key, value, timestamp, sequence, expiresAt, deleted⟩

/-- `BYTE_TO_CONDITION`. -/
def byteToCondition : ℕ → Option PutCondition
  | 0 => some .none
  | 1 => some .ifAbsent
  | 2 => some .ifPresent
  | _ => none

/-- `BYTE_TO_REASON`. -/
def byteToReason : ℕ → Option RejectionReason
  | 0 => some .ifAbsent
  | 1 => some .ifPresent
  | 2 => some .compareAndSet
  | _ => none

/-- A byte that selects a value, or an error. -/
def selected {α : Type} (value : Option α) (error : String) : Except KvError α := match value with
  | some a => .ok a
  | none => .error (fail error)

def readPut : Reader KvError WriteOp := do
  let conditionByte ← readNumber 1
  let condition ← Reader.ofExcept (selected (byteToCondition conditionByte) "unknown put condition")
  let ttlByte ← readNumber 1
  Reader.refuse (1 < ttlByte) (fail "put ttl flag is invalid")
  let key ← readKey decoder
  let value ← readBlob MAX_VALUE_BYTES "value"
  let ttlMs ← Reader.optional (decide (ttlByte ≠ 0)) (readSafeU64 "ttl")
  pure (.put key value condition ttlMs)

def readIncrement : Reader KvError WriteOp := do
  let key ← readKey decoder
  let delta ← readI64
  pure (.increment key delta)

def readCompareAndSet : Reader KvError WriteOp := do
  let key ← readKey decoder
  let expected ← readBlob MAX_VALUE_BYTES "expected"
  let value ← readBlob MAX_VALUE_BYTES "value"
  pure (.compareAndSet key expected value)

/-- The body an opcode announces. -/
def readOpBody (opcode : ℕ) : Reader KvError WriteOp := if opcode = OP_PUT then readPut decoder
  else if opcode = OP_DELETE then WriteOp.delete <$> readKey decoder
  else if opcode = OP_INCR then readIncrement decoder
  else if opcode = OP_CAS then readCompareAndSet decoder
  else Reader.fail (fail "unknown write opcode")

def readWriteOp : Reader KvError WriteOp := do
  let opcode ← readNumber 1
  readOpBody decoder opcode

def readRejection : Reader KvError WriteResult := do
  let byte ← readNumber 1
  let reason ← Reader.ofExcept (selected (byteToReason byte) "unknown write rejection reason")
  pure (.rejected reason)

/-- The result a marker announces. -/
def readResultBody (marker : ℕ) : Reader KvError WriteResult :=
  if marker = RESULT_APPLIED then WriteResult.applied <$> readEntry decoder
  else if marker = RESULT_REJECTED then readRejection
  else Reader.fail (fail "write result marker is invalid")

def readWriteResult : Reader KvError WriteResult := do
  let marker ← readNumber 1
  readResultBody decoder marker

def readDigest : Reader KvError DigestLanes := do
  let hi ← readNumber 4
  let lo ← readNumber 4
  pure ⟨UInt32.ofNat hi, UInt32.ofNat lo⟩

def readKeyVersion : Reader KvError KeyVersion := do
  let key ← readKey decoder
  let timestamp ← readHybridTime decoder
  pure ⟨key, timestamp⟩

/-- A counted list, bounded before it is read. -/
def readList {α : Type} (max : ℕ) (error : String) (read : Reader KvError α) :
    Reader KvError (List α) := do
  let count ← readNumber 4
  Reader.refuse (max < count) (fail error)
  read.times count

def readDigests : Reader KvError (List DigestLanes) :=
  readList REPAIR_BUCKETS "bucket digest count is out of range" readDigest

def readBuckets : Reader KvError (List ℕ) :=
  readList REPAIR_BUCKETS "bucket count is out of range" (readNumber 4)

def readKeyVersions : Reader KvError (List KeyVersion) :=
  readList MAX_CHUNK_ENTRIES "key version count is out of range" (readKeyVersion decoder)

def readKeys : Reader KvError (List JsString) :=
  readList MAX_CHUNK_ENTRIES "key count is out of range" (readKey decoder)

/-- A presence byte and the value it guards. -/
def readFlagged {α : Type} (error : String) (read : Reader KvError α) :
    Reader KvError (Option α) := do
  let present ← readNumber 1
  Reader.refuse (1 < present) (fail error)
  Reader.optional (decide (present = 1)) read

def readOptionalKey : Reader KvError (Option JsString) :=
  readFlagged "fragment cursor flag is invalid" (readKey decoder)

def readOptionalEntry : Reader KvError (Option Entry) :=
  readFlagged "entry presence flag is invalid" (readEntry decoder)

/-- The owners of one partition. -/
def readOwners : Reader KvError (List JsString) := do
  let count ← readNumber 1
  Reader.refuse (count = 0 ∨ MAX_OWNERS_PER_PARTITION < count)
    (fail "partition owner count is out of range")
  (readName decoder "owner").times count

def readTable : Reader KvError RoutingTableWire := do
  let version ← readNumber 8
  let partitions ← readList MAX_WIRE_PARTITIONS "table partition count is out of range"
    (readOwners decoder)
  pure ⟨version, partitions⟩

def readChunk : Reader KvError FragmentChunk := do
  let partitionId ← readNumber 4
  let finalByte ← readNumber 1
  Reader.refuse (1 < finalByte) (fail "chunk final flag is invalid")
  let entries ← readList MAX_CHUNK_ENTRIES "chunk entry count is out of range" (readEntry decoder)
  pure ⟨partitionId, decide (finalByte = 1), entries⟩

def readOwnershipReport : Reader KvError OwnershipReport := do
  let node ← readName decoder "report node"
  let partitions ← readList MAX_WIRE_PARTITIONS "ownership report partition count is out of range"
    (readNumber 4)
  pure ⟨node, partitions⟩

/-- A body that opens with a partition id. -/
def readWithPartition {α : Type} (make : ℕ → α → KvMessage) (read : Reader KvError α) :
    Reader KvError KvMessage := do
  let partitionId ← readNumber 4
  make partitionId <$> read

def decodeBody (type : ℕ) : Reader KvError KvMessage :=
  if type = MSG_READ_REQUEST then KvMessage.readRequest <$> readKey decoder
  else if type = MSG_READ_RESPONSE then KvMessage.readResponse <$> readOptionalEntry decoder
  else if type = MSG_WRITE_REQUEST then KvMessage.writeRequest <$> readWriteOp decoder
  else if type = MSG_WRITE_RESPONSE then KvMessage.writeResponse <$> readWriteResult decoder
  else if type = MSG_TABLE then KvMessage.table <$> readTable decoder
  else if type = MSG_FRAGMENT_CHUNK then KvMessage.fragmentChunk <$> readChunk decoder
  else if type = MSG_OWNERSHIP_REPORT then KvMessage.ownershipReport <$> readOwnershipReport decoder
  else if type = MSG_REPLICATE then KvMessage.replicate <$> readEntry decoder
  else if type = MSG_REPLICATE_ACK then pure .replicateAck
  else if type = MSG_PEEK_REQUEST then KvMessage.peekRequest <$> readKey decoder
  else if type = MSG_REBALANCING then KvMessage.rebalancing <$> readNumber 4
  else if type = MSG_FRAGMENT_REQUEST then readWithPartition .fragmentRequest (readOptionalKey decoder)
  else if type = MSG_FRAGMENT_PUSH then KvMessage.fragmentPush <$> readChunk decoder
  else if type = MSG_FRAGMENT_ACK then pure .fragmentAck
  else if type = MSG_SYNC_DIGEST then readWithPartition .syncDigest readDigest
  else if type = MSG_BUCKET_DIGESTS then readWithPartition .bucketDigests readDigests
  else if type = MSG_KEY_VERSIONS_REQUEST then readWithPartition .keyVersionsRequest readBuckets
  else if type = MSG_KEY_VERSIONS then readWithPartition .keyVersions (readKeyVersions decoder)
  else if type = MSG_ENTRIES_REQUEST then readWithPartition .entriesRequest (readKeys decoder)
  else Reader.fail (fail "unknown message type")

/-- The envelope and the body it announces. -/
def readMessage : Reader KvError KvMessage := do
  let version ← readNumber 1
  Reader.refuse (version ≠ PROTOCOL_VERSION) (fail "unsupported protocol version")
  let type ← readNumber 1
  decodeBody decoder type

/-- Decodes one message with the given text decoder, refusing trailing bytes. -/
def decodeMessageWith (bytes : Bytes) : Except KvError KvMessage :=
  (readMessage decoder).whole (fail "trailing bytes after message") bytes

end Readers

/-- Decodes one message. -/
def decodeMessage (bytes : Bytes) : Except KvError KvMessage := decodeMessageWith decoder bytes

end Nodeakt.Kv
