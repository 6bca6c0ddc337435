import Nodeakt.Net.Envelope

/-! What the decoders make of encoded bodies: the same envelope, each text as it arrives, provided the
    announced ids are installed. -/

namespace Nodeakt.Net
open Schemes JsString Reader

variable {announced more : List Announced} {literal : JsString} {bytes : Bytes}
  {refs : Option InboundTables} {envelope : DataEnvelope}

/-! ### References -/

/-- Inline, or announced for the literal. -/
def Refers (announced : List Announced) (kind : TableKind) (literal : JsString) (id : ℕ) : Prop :=
  id = 0 ∨ ∃ a ∈ announced, a.toTableAnnouncement = ⟨kind, id, literal⟩

/-- Every announced id resolves to what arrives of its literal. -/
def Installed (announced : List Announced) (refs : Option InboundTables) : Prop :=
  ∀ a ∈ announced, ∃ tables, refs = some tables ∧
    tables.entry a.kind a.id = some (received a.literal)

/-- The bytes of a reference to a literal. -/
def RefWritten (announced : List Announced) (kind : TableKind) (literal : JsString)
    (bytes : Bytes) : Prop :=
  ∃ id, writeRef literal id = .ok bytes ∧ Refers announced kind literal id

theorem RefWritten.mono {kind : TableKind} (hmore : announced ⊆ more)
    (h : RefWritten announced kind literal bytes) :
    RefWritten more kind literal bytes := by
  obtain ⟨id, hwrite, hzero | ⟨a, ha, heq⟩⟩ := h
  · exact ⟨id, hwrite, .inl hzero⟩
  · exact ⟨id, hwrite, .inr ⟨a, hmore ha, heq⟩⟩

theorem yields_readRef {kind : TableKind} (unknown : ℕ → ProtocolError)
    (hinstalled : Installed announced refs) (h : RefWritten announced kind literal bytes) :
    (readRef refs (InboundTables.resolve kind unknown)).Yields bytes (received literal) := by
  obtain ⟨id, hwrite, hrefers⟩ := h
  unfold writeRef at hwrite
  by_cases hid : id = 0
  · subst hid
    rw [if_neg (by simp)] at hwrite
    obtain ⟨zero, hzero, hrest⟩ := except_bind_eq_ok.mp hwrite
    obtain ⟨text, htext, hbytes⟩ := except_bind_eq_ok.mp hrest
    obtain rfl := except_pure_eq_ok.mp hbytes
    exact (yields_readUvarint hzero).bind (yields_received htext)
  · rw [if_pos hid] at hwrite
    obtain ⟨a, ha, heq⟩ := hrefers.resolve_left hid
    obtain ⟨tables, rfl, hentry⟩ := hinstalled a ha
    rw [heq] at hentry
    refine (yields_readUvarint hwrite).bind_nil ?_
    intro rest
    simp only [if_neg hid, resolveRef, InboundTables.resolve, hentry]
    rfl

theorem yields_readPathRef (hinstalled : Installed announced refs)
    (h : RefWritten announced .path literal bytes) :
    (readPathRef refs).Yields bytes (received literal) := yields_readRef .unknownPath hinstalled h

theorem yields_readTypeRef (hinstalled : Installed announced refs)
    (h : RefWritten announced .type literal bytes) :
    (readTypeRef refs).Yields bytes (received literal) := yields_readRef .unknownType hinstalled h

/-! ### Envelopes -/

/-- The envelope that arrives. -/
def DataEnvelope.received (envelope : DataEnvelope) : DataEnvelope := { envelope with
    target := Net.received envelope.target
    uid := Net.received envelope.uid
    sender := Net.received envelope.sender
    senderUid := Net.received envelope.senderUid
    typeRef := Net.received envelope.typeRef }

def ReplyEnvelope.received (envelope : ReplyEnvelope) : ReplyEnvelope :=
  { envelope with typeRef := Net.received envelope.typeRef }

/-- The bytes of a data envelope. -/
structure EncodesData (announced : List Announced) (envelope : DataEnvelope) (bytes : Bytes) :
    Prop where
  kind : envelope.kind ≤ kindUnwatch
  serializer : knownSerializer envelope.serializerId = true
  shape : validateWatchShape envelope = true
  layout : ∃ target uid sender senderUid timeout typeRef,
    RefWritten announced .path envelope.target target ∧ writeString envelope.uid = .ok uid ∧
    RefWritten announced .path envelope.sender sender ∧
    writeString envelope.senderUid = .ok senderUid ∧ writeUvarint envelope.timeout = .ok timeout ∧
    RefWritten announced .type envelope.typeRef typeRef ∧
    bytes = [byte envelope.kind] ++ (target ++ (uid ++ (sender ++ (senderUid ++ (timeout ++
      ([byte envelope.serializerId] ++ (typeRef ++ envelope.payload)))))))

/-- The bytes of a reply envelope. -/
structure EncodesReply (announced : List Announced) (envelope : ReplyEnvelope) (bytes : Bytes) :
    Prop where
  serializer : knownSerializer envelope.serializerId = true
  layout : ∃ typeRef, RefWritten announced .type envelope.typeRef typeRef ∧
    bytes = [byte envelope.serializerId] ++ (typeRef ++ envelope.payload)

theorem EncodesData.mono (hmore : announced ⊆ more) (h : EncodesData announced envelope bytes) :
    EncodesData more envelope bytes := by
  obtain ⟨hkind, hserializer, hshape, target, uid, sender, senderUid, timeout, typeRef, htarget, huid,
    hsender, hsenderUid, htimeout, htype, hbytes⟩ := h
  exact ⟨hkind, hserializer, hshape, target, uid, sender, senderUid, timeout, typeRef,
    htarget.mono hmore, huid, hsender.mono hmore, hsenderUid, htimeout, htype.mono hmore, hbytes⟩

theorem EncodesReply.mono {envelope : ReplyEnvelope} (hmore : announced ⊆ more)
    (h : EncodesReply announced envelope bytes) :
    EncodesReply more envelope bytes := by
  obtain ⟨hserializer, typeRef, htype, hbytes⟩ := h
  exact ⟨hserializer, typeRef, htype.mono hmore, hbytes⟩

theorem readPayload_eq (payload : Bytes) : readPayload payload = .ok (payload, []) := by
  have hall : readBytes payload.length payload = .ok (payload, []) := by
    simpa using yields_readBytes payload []
  exact hall

theorem knownSerializer_lt {id : ℕ} (h : knownSerializer id = true) : id < 0x100 := by
  rcases Bool.or_eq_true _ _ ▸ h with h | h
  · exact of_decide_eq_true h ▸ by decide
  · exact of_decide_eq_true h ▸ by decide

/-- A watch that arrives still carries no message. -/
theorem validateWatchShape_received (h : validateWatchShape envelope = true) :
    validateWatchShape envelope.received = true := by
  unfold validateWatchShape at h ⊢
  change (if envelope.kind ≠ kindWatch ∧ envelope.kind ≠ kindUnwatch then true
    else received envelope.typeRef = [] && envelope.payload.length = 0) = true
  split_ifs at h with hkind
  · rw [if_pos hkind]
  · rw [if_neg hkind]
    simp only [Bool.and_eq_true, decide_eq_true_eq] at h ⊢
    rw [h.1]
    exact ⟨rfl, h.2⟩

/-- An encoded data envelope is decoded to the one that arrives. -/
theorem decodeDataEnvelope_eq (hinstalled : Installed announced refs)
    (h : EncodesData announced envelope bytes) :
    decodeDataEnvelope refs bytes = .ok (envelope.received, []) := by
  obtain ⟨hkind, hserializer, hshape, target, uid, sender, senderUid, timeout, typeRef, htarget, huid,
    hsender, hsenderUid, htimeout, htype, rfl⟩ := h
  have hkind' : ¬kindUnwatch < envelope.kind := Nat.not_lt.mpr hkind
  have hknown : ¬¬knownSerializer envelope.serializerId = true := not_not.mpr hserializer
  have hbyte : envelope.kind < 0x100 := Nat.lt_of_le_of_lt hkind (by decide)
  have hwatch : ¬¬validateWatchShape envelope.received = true :=
    not_not.mpr (validateWatchShape_received hshape)
  unfold decodeDataEnvelope
  rw [bind_apply_ok (yields_readU8 hbyte _), refuse_bind_apply hkind',
    bind_apply_ok (yields_readPathRef hinstalled htarget _),
    bind_apply_ok (yields_received huid _),
    bind_apply_ok (yields_readPathRef hinstalled hsender _),
    bind_apply_ok (yields_received hsenderUid _),
    bind_apply_ok (yields_readUvarint htimeout _),
    bind_apply_ok (yields_readU8 (knownSerializer_lt hserializer) _),
    refuse_bind_apply hknown,
    bind_apply_ok (yields_readTypeRef hinstalled htype _),
    bind_apply_ok (readPayload_eq _)]
  exact refuse_bind_apply hwatch

theorem decodeReplyEnvelope_eq {envelope : ReplyEnvelope} (hinstalled : Installed announced refs)
    (h : EncodesReply announced envelope bytes) :
    decodeReplyEnvelope refs bytes = .ok (envelope.received, []) := by
  obtain ⟨hserializer, typeRef, htype, rfl⟩ := h
  have hknown : ¬¬knownSerializer envelope.serializerId = true := not_not.mpr hserializer
  unfold decodeReplyEnvelope
  rw [bind_apply_ok (yields_readU8 (knownSerializer_lt hserializer) _), refuse_bind_apply hknown,
    bind_apply_ok (yields_readTypeRef hinstalled htype _),
    bind_apply_ok (readPayload_eq _)]
  rfl

/-! ### Announcements -/

theorem decodeTableBody_eq (a : Announced) :
    decodeTableBody a.body = .ok (⟨a.kind, a.id, received a.literal⟩, []) := by
  have hencoded := a.encoded
  obtain ⟨id, hid, hrest⟩ := except_bind_eq_ok.mp hencoded
  obtain ⟨literal, hliteral, hbody⟩ := except_bind_eq_ok.mp hrest
  rw [← except_pure_eq_ok.mp hbody]
  have hkind : readTableKind.Yields [byte a.kind.code] a.kind := by
    refine (yields_readU8 ?_).bind_nil ?_
    · cases a.kind <;> decide
    · cases a.kind <;> exact yields_pure _
  have hremaining : (remaining : Reader NetError ℕ) [] = .ok (0, []) := rfl
  have hsplit : byte a.kind.code :: id ++ literal = [byte a.kind.code] ++ (id ++ (literal ++ [])) := by
    simp
  rw [hsplit]
  unfold decodeTableBody
  rw [bind_apply_ok (hkind _), bind_apply_ok (yields_readUvarint hid _),
    bind_apply_ok (yields_received hliteral _), bind_apply_ok hremaining,
    refuse_bind_apply (by simp)]
  rfl

end Nodeakt.Net
