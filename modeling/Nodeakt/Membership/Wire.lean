import Nodeakt.Js.Utf8
import Nodeakt.Schemes.Codec

/-! The codec of the membership protocol (`membership/wire.ts`).

    A message is an envelope of version, type and body length around one of seven bodies, which share
    length-prefixed names and length-prefixed membership records. The encoder prepares every name and
    record first, so that sizes are known, and then writes; the decoder checks the same rules on its
    side. The decoder carries the text decoder it uses. -/

namespace Nodeakt.Membership
open Schemes JsString

/-! ### Limits -/

def PROTOCOL_VERSION : ℕ := 1

abbrev MESSAGE_PING : ℕ := 0x01
abbrev MESSAGE_PING_REQ : ℕ := 0x02
abbrev MESSAGE_ACK : ℕ := 0x03
abbrev MESSAGE_NACK : ℕ := 0x04
abbrev MESSAGE_GOSSIP : ℕ := 0x05
abbrev MESSAGE_SYNC_REQUEST : ℕ := 0x10
abbrev MESSAGE_SYNC_RESPONSE : ℕ := 0x11

/-- Bytes of the envelope. -/
def MESSAGE_HEADER_BYTES : ℕ := 4

/-- Bytes of a record before its names and metadata. -/
def UPDATE_HEADER_BYTES : ℕ := 20

/-- Bytes of a sync body before its records. -/
def SYNC_HEADER_BYTES : ℕ := 14

/-- Largest packet, envelope included. -/
def MAX_PACKET_BYTES : ℕ := 1400

/-- Largest sync message. -/
def MAX_SYNC_MESSAGE_BYTES : ℕ := 65539

/-- Most members of a sync chunk. -/
def MAX_MEMBERS : ℕ := 1024

/-- Largest encoded name. -/
def MAX_NAME_BYTES : ℕ := 255

/-- Most records of a packet. -/
def UPDATE_LIST_MAX_RECORDS : ℕ := 255

/-- Largest metadata of a record. -/
def MAX_METADATA_BYTES : ℕ := 512

/-! ### Messages -/

/-- A member's state; the order is the precedence at equal incarnation. -/
inductive MemberState where | alive | suspect | dead | left
  deriving DecidableEq

/-- The byte of a state. -/
def MemberState.toByte : MemberState → ℕ
  | .alive => 0
  | .suspect => 1
  | .dead => 2
  | .left => 3

/-- The state of a byte. -/
def MemberState.ofByte : ℕ → Option MemberState
  | 0 => some .alive
  | 1 => some .suspect
  | 2 => some .dead
  | 3 => some .left
  | _ => none

/-- One membership truth record. -/
structure MembershipUpdate where
  state : MemberState
  selfOriginated : Bool
  incarnation : ℕ
  stateChangeTime : ℕ
  member : JsString
  reporter : JsString
  metadata : Bytes
  deriving DecidableEq

/-- The two directions of a synchronization. -/
inductive SyncMessageType where | request | response
  deriving DecidableEq

/-- Any membership message. -/
inductive MembershipMessage where
  | ping (sequence : ℕ) (owner relay : JsString) (updates : List MembershipUpdate)
  | pingReq (sequence : ℕ) (owner target : JsString) (updates : List MembershipUpdate)
  | ack (sequence : ℕ) (owner target : JsString) (updates : List MembershipUpdate)
  | nack (sequence : ℕ) (owner target helper : JsString) (updates : List MembershipUpdate)
  | gossip (updates : List MembershipUpdate)
  | sync (type : SyncMessageType) (exchangeId chunkIndex chunkCount : ℕ)
      (updates : List MembershipUpdate)
  deriving DecidableEq

/-- Malformed, oversized or noncanonical protocol data: a message and the name it ends with. -/
structure ProtocolError where
  message : String
  name : JsString
  deriving DecidableEq

def fail (message : String) : ProtocolError := ⟨message, []⟩

/-- Adds one member to the names of a chunk, refusing a duplicate. -/
def addDistinctMember (names : List JsString) (member : JsString) :
    Except ProtocolError (List JsString) := do
  refuse (member ∈ names) ⟨"duplicate sync member ", member⟩
  pure (member :: names)

/-! ### Encoding -/

def assertUint (value maximum : ℕ) (field : String) : Except ProtocolError Unit :=
  refuse (maximum < value) (fail (field ++ " is out of range"))

def assertU64 (value : ℕ) (field : String) (nonzero : Bool) : Except ProtocolError Unit :=
  refuse (0xffffffffffffffff < value ∨ nonzero = true ∧ value = 0) (fail (field ++ " is out of range"))

/-- Encodes and validates a name. -/
def encodeName (name : JsString) (field : String) (allowEmpty : Bool) :
    Except ProtocolError Bytes := do
  refuse (0 ∈ name) (fail (field ++ " contains NUL"))
  let bytes := encodeUtf8 name
  refuse (allowEmpty = false ∧ bytes.length = 0 ∨ MAX_NAME_BYTES < bytes.length)
    (fail (field ++ " length is out of range"))
  refuse (isWellFormed name = false) (fail (field ++ " is not valid Unicode"))
  pure bytes

/-- A validated record with its encoded names and its size. -/
structure PreparedUpdate where
  update : MembershipUpdate
  member : Bytes
  reporter : Bytes
  length : ℕ

/-- Whether a state is announced by the member itself. -/
def MemberState.selfRequired (state : MemberState) : Bool := state = .alive ∨ state = .left

/-- Checks the rules of a record's state and encodes its names. -/
def prepareUpdate (update : MembershipUpdate) : Except ProtocolError PreparedUpdate := do
  assertUint update.incarnation 0xffffffff "incarnation"
  assertU64 update.stateChangeTime "state-change time" false
  let member ← encodeName update.member "member" false
  let reporter ← encodeName update.reporter "reporter" true
  refuse (MAX_METADATA_BYTES < update.metadata.length) (fail "metadata length is out of range")
  refuse (if update.state = .suspect then reporter.length = 0 else reporter.length ≠ 0)
    (fail "reporter is inconsistent with state")
  refuse (update.state ≠ .alive ∧ update.metadata.length ≠ 0)
    (fail "metadata is only legal on alive updates")
  refuse (update.selfOriginated ≠ update.state.selfRequired)
    (fail "self-originated flag is inconsistent with state")
  pure ⟨update, member, reporter,
    UPDATE_HEADER_BYTES + member.length + reporter.length + update.metadata.length⟩

/-- Encoded size of one record. -/
def membershipUpdateSize (update : MembershipUpdate) : Except ProtocolError ℕ :=
  (prepareUpdate update).map PreparedUpdate.length

/-- The fixed fields a record starts with. -/
@[ext]
structure RecordHeader where
  recordLength : ℕ
  state : ℕ
  flags : ℕ
  incarnation : ℕ
  stateChangeTime : ℕ
  memberLength : ℕ
  reporterLength : ℕ
  metadataLength : ℕ

/-- The fields at their offsets. -/
def RecordHeader.toBytes (header : RecordHeader) : Bytes :=
  bigEndian 2 header.recordLength ++ bigEndian 1 header.state ++ bigEndian 1 header.flags ++
    bigEndian 4 header.incarnation ++ bigEndian 8 header.stateChangeTime ++
    bigEndian 1 header.memberLength ++ bigEndian 1 header.reporterLength ++
    bigEndian 2 header.metadataLength

/-- The header of a prepared record. -/
def PreparedUpdate.header (prepared : PreparedUpdate) : RecordHeader where
  recordLength := prepared.length - 2
  state := prepared.update.state.toByte
  flags := if prepared.update.selfOriginated then 1 else 0
  incarnation := prepared.update.incarnation
  stateChangeTime := prepared.update.stateChangeTime
  memberLength := prepared.member.length
  reporterLength := prepared.reporter.length
  metadataLength := prepared.update.metadata.length

def writePreparedUpdate (prepared : PreparedUpdate) : Bytes :=
  prepared.header.toBytes ++ prepared.member ++ prepared.reporter ++ prepared.update.metadata

/-- Prepares a list of records. -/
def prepareUpdates : List MembershipUpdate → Except ProtocolError (List PreparedUpdate)
  | [] => pure []
  | update :: rest => do
    let prepared ← prepareUpdate update
    let others ← prepareUpdates rest
    pure (prepared :: others)

/-- The encoded names of a packet in write order. -/
def preparePacketNames : MembershipMessage → Except ProtocolError (List Bytes)
  | .ping _ owner relay _ => do
    let owner ← encodeName owner "probe owner" false
    let relay ← encodeName relay "relay" true
    pure [owner, relay]
  | .pingReq _ owner target _ | .ack _ owner target _ => do
    let owner ← encodeName owner "probe owner" false
    let target ← encodeName target "target" false
    pure [owner, target]
  | .nack _ owner target helper _ => do
    let owner ← encodeName owner "probe owner" false
    let target ← encodeName target "target" false
    let helper ← encodeName helper "helper" false
    pure [owner, target, helper]
  | .gossip _ | .sync _ _ _ _ _ => pure []

/-- The records of a message. -/
def MembershipMessage.updates : MembershipMessage → List MembershipUpdate
  | .ping _ _ _ updates => updates
  | .pingReq _ _ _ updates => updates
  | .ack _ _ _ updates => updates
  | .nack _ _ _ _ updates => updates
  | .gossip updates => updates
  | .sync _ _ _ _ updates => updates

/-- The type byte of a message. -/
def MembershipMessage.type : MembershipMessage → ℕ
  | .ping _ _ _ _ => MESSAGE_PING
  | .pingReq _ _ _ _ => MESSAGE_PING_REQ
  | .ack _ _ _ _ => MESSAGE_ACK
  | .nack _ _ _ _ _ => MESSAGE_NACK
  | .gossip _ => MESSAGE_GOSSIP
  | .sync .request _ _ _ _ => MESSAGE_SYNC_REQUEST
  | .sync .response _ _ _ _ => MESSAGE_SYNC_RESPONSE

/-- The probe sequence of a message, if it has one. -/
def MembershipMessage.sequence : MembershipMessage → Option ℕ
  | .ping sequence _ _ _ => some sequence
  | .pingReq sequence _ _ _ => some sequence
  | .ack sequence _ _ _ => some sequence
  | .nack sequence _ _ _ _ => some sequence
  | .gossip _ => none
  | .sync _ _ _ _ _ => none

/-- Size of a packet body without its records. -/
def baseLength (message : MembershipMessage) (names : List Bytes) : ℕ :=
  (if message.sequence.isNone then 1 else 5) + (names.map (fun name => 1 + name.length)).sum

/-- The envelope of a body, within the limits of its kind. -/
def allocateMessage (type bodyLength : ℕ) (packet : Bool) : Except ProtocolError Bytes := do
  refuse (0xffff < bodyLength) (fail "message body exceeds the envelope limit")
  refuse (packet = true ∧ MAX_PACKET_BYTES < MESSAGE_HEADER_BYTES + bodyLength)
    (fail "packet message exceeds 1400 bytes")
  pure (bigEndian 1 PROTOCOL_VERSION ++ bigEndian 1 type ++ bigEndian 2 bodyLength)

/-- A packet body. -/
def writePacketBody (message : MembershipMessage) (names : List Bytes)
    (updates : List PreparedUpdate) : Except ProtocolError Bytes := do
  let sequence ← writeOptional (fun sequence => do
      assertUint sequence 0xffffffff "probe sequence"
      pure (bigEndian 4 sequence)) message.sequence
  pure (sequence ++ (names.map (fun name => bigEndian 1 name.length ++ name)).flatten ++
    bigEndian 1 updates.length ++ (updates.map writePreparedUpdate).flatten)

def encodePacket (message : MembershipMessage) : Except ProtocolError Bytes := do
  let names ← preparePacketNames message
  refuse (UPDATE_LIST_MAX_RECORDS < message.updates.length) (fail "packet update count exceeds 255")
  let updates ← prepareUpdates message.updates
  let envelope ← allocateMessage message.type
    (baseLength message names + (updates.map PreparedUpdate.length).sum) true
  let body ← writePacketBody message names updates
  pure (envelope ++ body)

/-- Prepares the records of a sync chunk, whose members must be distinct. -/
def prepareDistinct : List JsString → List MembershipUpdate →
    Except ProtocolError (List PreparedUpdate)
  | _, [] => pure []
  | names, update :: rest => do
    let names ← addDistinctMember names update.member
    let prepared ← prepareUpdate update
    let others ← prepareDistinct names rest
    pure (prepared :: others)

def encodeSync (type exchangeId chunkIndex chunkCount : ℕ) (updates : List MembershipUpdate) :
    Except ProtocolError Bytes := do
  assertU64 exchangeId "exchange ID" true
  assertUint chunkIndex 0xffff "chunk index"
  assertUint chunkCount 0xffff "chunk count"
  refuse (chunkCount = 0 ∨ chunkCount ≤ chunkIndex) (fail "sync chunk position is invalid")
  refuse (MAX_MEMBERS < updates.length) (fail "sync member count exceeds 1024")
  let prepared ← prepareDistinct [] updates
  let envelope ← allocateMessage type
    (SYNC_HEADER_BYTES + (prepared.map PreparedUpdate.length).sum) false
  pure (envelope ++ bigEndian 8 exchangeId ++ bigEndian 2 chunkIndex ++ bigEndian 2 chunkCount ++
    bigEndian 2 prepared.length ++ (prepared.map writePreparedUpdate).flatten)

/-- Encodes one packet or sync chunk with its envelope. -/
def encodeMessage (message : MembershipMessage) : Except ProtocolError Bytes := match message with
  | .sync _ exchangeId chunkIndex chunkCount updates =>
    encodeSync message.type exchangeId chunkIndex chunkCount updates
  | _ => encodePacket message

/-! ### Decoding -/

/-- The code's decoder: fatal, `ignoreBOM` left at its default. -/
def decoder : TextDecoder := ⟨false⟩

section Decoding

variable (decoder : TextDecoder)

/-- Decodes a name of known bytes. -/
def decodeName (bytes : Bytes) (field : String) (allowEmpty : Bool) :
    Except ProtocolError JsString :=
  if allowEmpty = false ∧ bytes.length = 0 ∨ MAX_NAME_BYTES < bytes.length then
    .error (fail (field ++ " length is out of range"))
  else
    decoder.decodeText (fail (field ++ " is invalid UTF-8")) (fail (field ++ " contains NUL")) bytes

/-- The state of a record's state byte. -/
def decodeState (byte : ℕ) : Except ProtocolError MemberState := match MemberState.ofByte byte with
  | some state => .ok state
  | none => .error (fail "unknown membership state")

/-- A header field; the header's presence is checked before. -/
def readField (short : String) (width : ℕ) : Reader ProtocolError ℕ := .number (fail short) width

/-- Reads the fixed fields of a record. -/
def readHeader (short : String) : Reader ProtocolError RecordHeader := do
  let recordLength ← readField short 2
  let state ← readField short 1
  let flags ← readField short 1
  let incarnation ← readField short 4
  let stateChangeTime ← readField short 8
  let memberLength ← readField short 1
  let reporterLength ← readField short 1
  let metadataLength ← readField short 2
  pure ⟨recordLength, state, flags, incarnation, stateChangeTime, memberLength, reporterLength,
    metadataLength⟩

/-- Checks the fixed fields of a record with `limit` bytes before it ends. -/
def checkHeader (header : RecordHeader) (limit : ℕ) : Except ProtocolError MemberState := do
  let totalLength := header.recordLength + 2
  refuse (totalLength < UPDATE_HEADER_BYTES ∨ limit < totalLength)
    (fail "membership record length is inconsistent")
  let state ← decodeState header.state
  refuse (header.flags &&& 0xfe ≠ 0) (fail "reserved membership flags are set")
  refuse (header.memberLength = 0) (fail "member name is empty")
  refuse (MAX_METADATA_BYTES < header.metadataLength) (fail "metadata length is out of range")
  refuse (totalLength ≠ UPDATE_HEADER_BYTES + header.memberLength + header.reporterLength +
    header.metadataLength) (fail "membership record fields do not match its length")
  refuse (decide (header.flags = 1) ≠ state.selfRequired)
    (fail "self-originated flag is inconsistent with state")
  refuse (if state = .suspect then header.reporterLength = 0 else header.reporterLength ≠ 0)
    (fail "reporter is inconsistent with state")
  refuse (state ≠ .alive ∧ header.metadataLength ≠ 0)
    (fail "metadata is only legal on alive updates")
  pure state

/-- Reads one record between the current offset and the end of the message. -/
def decodeMembershipUpdateAt : Reader ProtocolError MembershipUpdate := do
  let limit ← Reader.remaining
  Reader.refuse (limit < UPDATE_HEADER_BYTES) (fail "membership update is truncated")
  let header ← readHeader "membership update is truncated"
  let state ← Reader.ofExcept (checkHeader header limit)
  let memberBytes ← Reader.take (fail "membership update is truncated") header.memberLength
  let reporterBytes ← Reader.take (fail "membership update is truncated") header.reporterLength
  let member ← Reader.ofExcept (decodeName decoder memberBytes "member" false)
  let reporter ← Reader.ofExcept (decodeName decoder reporterBytes "reporter" true)
  let metadata ← Reader.take (fail "membership update is truncated") header.metadataLength
  pure ⟨state, decide (header.flags = 1), header.incarnation, header.stateChangeTime, member,
    reporter, metadata⟩

/-- Reads a length-prefixed name. -/
def readName (field : String) (allowEmpty : Bool) : Reader ProtocolError JsString := do
  let length ← readField (field ++ " length is truncated") 1
  let bytes ← Reader.take (fail (field ++ " is truncated")) length
  Reader.ofExcept (decodeName decoder bytes field allowEmpty)

/-- Reads `count` records, which must fill the message. -/
def decodeUpdateList (count : ℕ) : Reader ProtocolError (List MembershipUpdate) := do
  let updates ← (decodeMembershipUpdateAt decoder).times count
  let limit ← Reader.remaining
  Reader.refuse (limit ≠ 0) (fail "trailing bytes after update list")
  pure updates

def decodeCountedPacketUpdates : Reader ProtocolError (List MembershipUpdate) := do
  let count ← readField "packet update count is truncated" 1
  decodeUpdateList decoder count

/-- The sequence and the owner of a probe. -/
def decodeProbeHeader : Reader ProtocolError (ℕ × JsString) := do
  let sequence ← readField "probe sequence is truncated" 4
  let owner ← readName decoder "probe owner" false
  pure (sequence, owner)

def decodeGossipMessage : Reader ProtocolError MembershipMessage := do
  let updates ← decodeCountedPacketUpdates decoder
  pure (.gossip updates)

def decodePingMessage : Reader ProtocolError MembershipMessage := do
  let probe ← decodeProbeHeader decoder
  let relay ← readName decoder "relay" true
  let updates ← decodeCountedPacketUpdates decoder
  pure (.ping probe.1 probe.2 relay updates)

/-- The layout shared by ping requests and acks. -/
def decodeTargetMessage
    (make : ℕ → JsString → JsString → List MembershipUpdate → MembershipMessage) :
    Reader ProtocolError MembershipMessage := do
  let probe ← decodeProbeHeader decoder
  let target ← readName decoder "target" false
  let updates ← decodeCountedPacketUpdates decoder
  pure (make probe.1 probe.2 target updates)

def decodeNackMessage : Reader ProtocolError MembershipMessage := do
  let probe ← decodeProbeHeader decoder
  let target ← readName decoder "target" false
  let helper ← readName decoder "helper" false
  let updates ← decodeCountedPacketUpdates decoder
  pure (.nack probe.1 probe.2 target helper updates)

def decodePacketBody (type : ℕ) : Reader ProtocolError MembershipMessage :=
  if type = MESSAGE_PING then decodePingMessage decoder
  else if type = MESSAGE_PING_REQ then decodeTargetMessage decoder .pingReq
  else if type = MESSAGE_ACK then decodeTargetMessage decoder .ack
  else if type = MESSAGE_NACK then decodeNackMessage decoder
  else decodeGossipMessage decoder

/-- Adds members one after the other. -/
def addDistinctMembers (members : List JsString) : Except ProtocolError (List JsString) :=
  members.foldlM addDistinctMember []

/-- One sync chunk, with a valid position and distinct members. -/
def decodeSyncBody (type : SyncMessageType) : Reader ProtocolError MembershipMessage := do
  let truncated := "sync header is truncated"
  let limit ← Reader.remaining
  Reader.refuse (limit < SYNC_HEADER_BYTES) (fail truncated)
  let exchangeId ← readField truncated 8
  let chunkIndex ← readField truncated 2
  let chunkCount ← readField truncated 2
  let memberCount ← readField truncated 2
  Reader.refuse (exchangeId = 0) (fail "exchange ID is zero")
  Reader.refuse (chunkCount = 0 ∨ chunkCount ≤ chunkIndex) (fail "sync chunk position is invalid")
  Reader.refuse (MAX_MEMBERS < memberCount) (fail "sync member count exceeds 1024")
  let updates ← decodeUpdateList decoder memberCount
  let _ ← Reader.ofExcept (addDistinctMembers (updates.map MembershipUpdate.member))
  pure (.sync type exchangeId chunkIndex chunkCount updates)

/-- Decodes one complete message with the given text decoder. -/
def decodeMessageWith (bytes : Bytes) : Except ProtocolError MembershipMessage :=
  Reader.whole (fail "trailing bytes after update list") (do
      Reader.refuse (bytes.length < MESSAGE_HEADER_BYTES) (fail "message envelope is truncated")
      let version ← readField "message envelope is truncated" 1
      Reader.refuse (version ≠ PROTOCOL_VERSION)
        (fail ("unsupported protocol version " ++ toString version))
      let type ← readField "message envelope is truncated" 1
      let bodyLength ← readField "message envelope is truncated" 2
      Reader.refuse (bodyLength + MESSAGE_HEADER_BYTES ≠ bytes.length)
        (fail "message body length is inconsistent")
      if MESSAGE_PING ≤ type ∧ type ≤ MESSAGE_GOSSIP then do
        Reader.refuse (MAX_PACKET_BYTES < bytes.length) (fail "packet message exceeds 1400 bytes")
        decodePacketBody decoder type
      else if type = MESSAGE_SYNC_REQUEST then decodeSyncBody decoder .request
      else if type = MESSAGE_SYNC_RESPONSE then decodeSyncBody decoder .response
      else
        Reader.fail
          (fail ("unknown message type 0x" ++ String.ofList (Nat.toDigits 16 type)))) bytes

end Decoding

/-- Decodes one complete message. -/
def decodeMessage (bytes : Bytes) : Except ProtocolError MembershipMessage :=
  decodeMessageWith decoder bytes

end Nodeakt.Membership
