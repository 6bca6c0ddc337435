import Nodeakt.Net.Tables

/-! The frame body codecs (`net/envelope.ts`): data and reply envelopes and the handshake
    parameters. -/

namespace Nodeakt.Net
open Schemes JsString

def kindTell : ℕ := 0
def kindWatch : ℕ := 2
def kindUnwatch : ℕ := 3

def serializerBinary : ℕ := 0
def serializerCustom : ℕ := 255

structure DataEnvelope where
  kind : ℕ
  target : JsString
  uid : JsString
  sender : JsString
  senderUid : JsString
  timeout : ℕ
  serializerId : ℕ
  typeRef : JsString
  payload : Bytes
  deriving DecidableEq

structure ReplyEnvelope where
  serializerId : ℕ
  typeRef : JsString
  payload : Bytes
  deriving DecidableEq

structure Hello where
  revision : ℕ
  systemName : JsString
  host : JsString
  port : ℕ
  lane : ℕ
  compression : ℕ
  maxFrameSize : ℕ
  maxMessageSize : ℕ
  initialCredits : ℕ
  maxLargeTransfers : ℕ
  deriving DecidableEq

def knownSerializer (id : ℕ) : Bool := id = serializerBinary || id = serializerCustom

/-- A watch or an unwatch carries no message. -/
def validateWatchShape (envelope : DataEnvelope) : Bool :=
  if envelope.kind ≠ kindWatch ∧ envelope.kind ≠ kindUnwatch then true
  else envelope.typeRef = [] && envelope.payload.length = 0

/-! ### References -/

/-- The bare id when interned, zero and the literal otherwise. -/
def writeRef (literal : JsString) (id : ℕ) : Except EncodeError Bytes :=
  if id ≠ 0 then writeUvarint id
  else do
    let zero ← writeUvarint 0
    let text ← writeString literal
    pure (zero ++ text)

/-- Interns the literal and writes the reference. -/
def internRef (kind : TableKind) (literal : JsString) : Action Interner EncodeError Bytes := do
  let id ← Interner.intern kind literal
  Action.lift (writeRef literal id)

/-- A reference to the tables; a connection without tables has none. -/
def resolveRef (refs : Option InboundTables) (id : ℕ)
    (resolve : InboundTables → ℕ → Except ProtocolError JsString) : Reader NetError JsString :=
  match refs with
  | none => Reader.fail (.protocol (.noTable id))
  | some tables => Reader.ofExcept ((resolve tables id).mapError .protocol)

/-- An inline literal, or one that `resolve` finds. -/
def readRef (refs : Option InboundTables)
    (resolve : InboundTables → ℕ → Except ProtocolError JsString) : Reader NetError JsString := do
  let id ← readUvarint
  if id = 0 then readString else resolveRef refs id resolve

def readPathRef (refs : Option InboundTables) : Reader NetError JsString :=
  readRef refs InboundTables.path

def readTypeRef (refs : Option InboundTables) : Reader NetError JsString :=
  readRef refs InboundTables.type

/-- What is left of the body. -/
def readPayload : Reader NetError Bytes := do
  let remaining ← Reader.remaining
  readBytes remaining

/-! ### Data and reply bodies -/

def encodeDataEnvelope (envelope : DataEnvelope) : Action Interner EncodeError Bytes := do
  Action.refuse (kindUnwatch < envelope.kind) (.envelopeKind envelope.kind)
  Action.refuse (¬knownSerializer envelope.serializerId) (.serializer envelope.serializerId)
  Action.refuse (¬validateWatchShape envelope) .watchShape
  let target ← internRef .path envelope.target
  let uid ← Action.lift (writeString envelope.uid)
  let sender ← internRef .path envelope.sender
  let senderUid ← Action.lift (writeString envelope.senderUid)
  let timeout ← Action.lift (writeUvarint envelope.timeout)
  let typeRef ← internRef .type envelope.typeRef
  pure ([byte envelope.kind] ++ (target ++ (uid ++ (sender ++ (senderUid ++ (timeout ++
    ([byte envelope.serializerId] ++ (typeRef ++ envelope.payload))))))))

def decodeDataEnvelope (refs : Option InboundTables) : Reader NetError DataEnvelope := do
  let kind ← readU8
  Reader.refuse (kindUnwatch < kind) (.value (.envelopeKind kind))
  let target ← readPathRef refs
  let uid ← readString
  let sender ← readPathRef refs
  let senderUid ← readString
  let timeout ← readUvarint
  let serializerId ← readU8
  Reader.refuse (¬knownSerializer serializerId) (.value (.serializer serializerId))
  let typeRef ← readTypeRef refs
  let payload ← readPayload
  let envelope : DataEnvelope :=
    ⟨kind, target, uid, sender, senderUid, timeout, serializerId, typeRef, payload⟩
  Reader.refuse (¬validateWatchShape envelope) (.value .watchShape)
  pure envelope

def encodeReplyEnvelope (envelope : ReplyEnvelope) : Action Interner EncodeError Bytes := do
  Action.refuse (¬knownSerializer envelope.serializerId) (.serializer envelope.serializerId)
  let typeRef ← internRef .type envelope.typeRef
  pure ([byte envelope.serializerId] ++ (typeRef ++ envelope.payload))

def decodeReplyEnvelope (refs : Option InboundTables) : Reader NetError ReplyEnvelope := do
  let serializerId ← readU8
  Reader.refuse (¬knownSerializer serializerId) (.value (.serializer serializerId))
  let typeRef ← readTypeRef refs
  let payload ← readPayload
  pure ⟨serializerId, typeRef, payload⟩

/-! ### The handshake -/

/-- The parameters in wire field order; the lane and the codec take one byte each. -/
def encodeHello (hello : Hello) : Except EncodeError Bytes := do
  let revision ← writeUvarint hello.revision
  let systemName ← writeString hello.systemName
  let host ← writeString hello.host
  let port ← writeUvarint hello.port
  let maxFrameSize ← writeUvarint hello.maxFrameSize
  let maxMessageSize ← writeUvarint hello.maxMessageSize
  let initialCredits ← writeUvarint hello.initialCredits
  let maxLargeTransfers ← writeUvarint hello.maxLargeTransfers
  pure (revision ++ (systemName ++ (host ++ (port ++ ([byte hello.lane] ++ ([byte hello.compression] ++
    (maxFrameSize ++ (maxMessageSize ++ (initialCredits ++ maxLargeTransfers)))))))))

/-- Trailing bytes are ignored: a newer peer may append fields. -/
def decodeHello : Reader NetError Hello := do
  let revision ← readUvarint
  let systemName ← readString
  let host ← readString
  let port ← readUvarint
  let lane ← readU8
  let compression ← readU8
  let maxFrameSize ← readUvarint
  let maxMessageSize ← readUvarint
  let initialCredits ← readUvarint
  let maxLargeTransfers ← readUvarint
  pure ⟨revision, systemName, host, port, lane, compression, maxFrameSize, maxMessageSize,
    initialCredits, maxLargeTransfers⟩

namespace Hello

/-- The parameters that arrive. -/
def received (hello : Hello) : Hello := { hello with
    systemName := Net.received hello.systemName
    host := Net.received hello.host
    lane := hello.lane % 0x100
    compression := hello.compression % 0x100 }

/-- The identity of an end can be written. -/
structure Named (hello : Hello) : Prop where
  systemName : utf8Length hello.systemName ≤ maxSafeInteger
  host : utf8Length hello.host ≤ maxSafeInteger
  port : hello.port ≤ maxSafeInteger

/-- The numbers of an advertisement can be written. -/
structure Bounded (hello : Hello) : Prop where
  revision : hello.revision ≤ maxSafeInteger
  maxFrameSize : hello.maxFrameSize ≤ maxSafeInteger
  maxMessageSize : hello.maxMessageSize ≤ maxSafeInteger
  initialCredits : hello.initialCredits ≤ maxSafeInteger
  maxLargeTransfers : hello.maxLargeTransfers ≤ maxSafeInteger

end Hello

theorem exists_writeUvarint {n : ℕ} (h : n ≤ maxSafeInteger) : ∃ bytes, writeUvarint n = .ok bytes :=
  ⟨_, writeUvarint_eq_ok.mpr ⟨h, rfl⟩⟩

theorem exists_writeString {s : JsString} (h : utf8Length s ≤ maxSafeInteger) :
    ∃ bytes, writeString s = .ok bytes := by
  obtain ⟨length, hlength⟩ := exists_writeUvarint h
  exact ⟨_, except_bind_eq_ok.mpr ⟨length, hlength, rfl⟩⟩

/-- A written advertisement is read back as the one that arrives. -/
theorem decodeHello_encodeHello {hello : Hello} (hnamed : hello.Named) (h : hello.Bounded) :
    ∃ bytes, encodeHello hello = .ok bytes ∧ decodeHello.Yields bytes hello.received := by
  obtain ⟨revision, hrevision⟩ := exists_writeUvarint h.revision
  obtain ⟨systemName, hsystemName⟩ := exists_writeString hnamed.systemName
  obtain ⟨host, hhost⟩ := exists_writeString hnamed.host
  obtain ⟨port, hport⟩ := exists_writeUvarint hnamed.port
  obtain ⟨maxFrameSize, hmaxFrameSize⟩ := exists_writeUvarint h.maxFrameSize
  obtain ⟨maxMessageSize, hmaxMessageSize⟩ := exists_writeUvarint h.maxMessageSize
  obtain ⟨initialCredits, hinitialCredits⟩ := exists_writeUvarint h.initialCredits
  obtain ⟨maxLargeTransfers, hmaxLargeTransfers⟩ := exists_writeUvarint h.maxLargeTransfers
  refine ⟨_, by simp only [encodeHello, hrevision, hsystemName, hhost, hport, hmaxFrameSize,
    hmaxMessageSize, hinitialCredits, hmaxLargeTransfers]; rfl, ?_⟩
  exact (yields_readUvarint hrevision).bind <| (yields_received hsystemName).bind <|
    (yields_received hhost).bind <| (yields_readUvarint hport).bind <|
    (yields_readU8_mod hello.lane).bind <| (yields_readU8_mod hello.compression).bind <|
    (yields_readUvarint hmaxFrameSize).bind <| (yields_readUvarint hmaxMessageSize).bind <|
    (yields_readUvarint hinitialCredits).bind <| (yields_readUvarint hmaxLargeTransfers).bind_nil <|
    Reader.yields_pure _

end Nodeakt.Net
