import Nodeakt.Membership.Wire

/-! What the membership codec reads of what it wrote.

    Names and records are exact up to what the text decoder makes of a name, and every body is: the
    encoder's sizes are the lengths of what it writes, so the envelopes agree. A decoder that keeps
    byte order marks inverts the encoder, and the code's own drops a leading mark from each name
    (`membership_codec_round_trips`). -/

namespace Nodeakt.Membership
open Schemes JsString MembershipMessage List
open Reader (bind_eq_ok ofExcept_eq_ok pure_eq_ok remaining_eq_ok ite_cases)

variable {field : String} {allowEmpty : Bool} {bytes rest : Bytes} {state : MemberState}
  {update : MembershipUpdate} {limit type : ℕ} {updates : List MembershipUpdate}
  {message : MembershipMessage} {f : JsString → JsString}

/-! ### Names -/

/-- A name the encoder accepts. -/
def Nameable (allowEmpty : Bool) (name : JsString) : Prop :=
  0 ∉ name ∧ (allowEmpty = true ∨ encodeUtf8 name ≠ []) ∧
    (encodeUtf8 name).length ≤ MAX_NAME_BYTES ∧ isWellFormed name = true

instance (allowEmpty : Bool) (name : JsString) : Decidable (Nameable allowEmpty name) :=
  inferInstanceAs (Decidable (_ ∧ _ ∧ _ ∧ _))

theorem assertUint_eq_ok {value maximum : ℕ} {u : Unit} :
    assertUint value maximum field = .ok u ↔ value ≤ maximum := by
  rw [assertUint, refuse_eq_ok, not_lt]

theorem assertU64_eq_ok {value : ℕ} {nonzero : Bool} {u : Unit} :
    assertU64 value field nonzero = .ok u ↔ value < 256 ^ 8 ∧ (nonzero = true → value ≠ 0) := by
  rw [assertU64, refuse_eq_ok, not_or, not_and]
  exact and_congr_left fun _ => by omega

theorem encodeName_eq_ok {name : JsString} : encodeName name field allowEmpty = .ok bytes ↔
      Nameable allowEmpty name ∧ bytes = encodeUtf8 name := by
  simp only [encodeName, except_bind_eq_ok, except_pure_eq_ok, refuse_eq_ok, Nameable, not_or,
    not_and, length_eq_zero_iff, not_lt, Bool.not_eq_false, exists_const]
  constructor
  · rintro ⟨hzero, ⟨hempty, hlength⟩, hformed, rfl⟩
    refine ⟨⟨hzero, ?_, hlength, hformed⟩, rfl⟩
    cases allowEmpty with
    | true => exact Or.inl rfl
    | false => exact Or.inr (hempty rfl)
  · rintro ⟨⟨hzero, hempty, hlength, hformed⟩, rfl⟩
    refine ⟨hzero, ⟨?_, hlength⟩, hformed, rfl⟩
    rintro rfl
    exact hempty.resolve_left Bool.false_ne_true

variable {decoder : TextDecoder}

/-- A decoded name is what the decoder makes of a name that encodes so. -/
theorem decodeName_eq_ok {s : JsString} : decodeName decoder bytes field allowEmpty = .ok s ↔
      ∃ name, Nameable allowEmpty name ∧ encodeUtf8 name = bytes ∧ decoder.emit name = s := by
  have hbad : ¬ (allowEmpty = false ∧ bytes.length = 0 ∨ MAX_NAME_BYTES < bytes.length) ↔
      (allowEmpty = true ∨ bytes ≠ []) ∧ bytes.length ≤ MAX_NAME_BYTES := by
    rw [not_or, not_lt, length_eq_zero_iff, not_and_or, Bool.not_eq_false]
  unfold decodeName
  constructor
  · intro h
    split at h
    · cases h
    · rename_i hgood
      obtain ⟨name, hformed, rfl, hzero, rfl⟩ := TextDecoder.decodeText_eq_ok.mp h
      obtain ⟨hempty, hlength⟩ := hbad.mp hgood
      exact ⟨name, ⟨hzero, hempty, hlength, hformed⟩, rfl, rfl⟩
  · rintro ⟨name, ⟨hzero, hempty, hlength, hformed⟩, rfl, rfl⟩
    rw [if_neg (hbad.mpr ⟨hempty, hlength⟩)]
    exact TextDecoder.decodeText_eq_ok.mpr ⟨name, hformed, rfl, hzero, rfl⟩

/-- A name behind its length byte. -/
def writeName (field : String) (allowEmpty : Bool) (name : JsString) :
    Except ProtocolError Bytes := do
  let bytes ← encodeName name field allowEmpty
  pure (bigEndian 1 bytes.length ++ bytes)

theorem readField_eq_ok {short : String} {width n : ℕ} :
    readField short width bytes = .ok (n, rest) ↔
      n < 256 ^ width ∧ bytes = bigEndian width n ++ rest := Reader.number_eq_ok

theorem name_exact (field : String) (allowEmpty : Bool) :
    Exact (writeName field allowEmpty) (readName decoder field allowEmpty) decoder.emit := by
  intro bytes s rest
  simp only [readName, bind_eq_ok, readField_eq_ok, Reader.take_eq_ok, ofExcept_eq_ok,
    decodeName_eq_ok, writeName, except_bind_eq_ok, except_pure_eq_ok, encodeName_eq_ok]
  constructor
  · rintro ⟨_, _, ⟨-, rfl⟩, _, _, ⟨rfl, rfl⟩, ⟨name, hname, rfl, rfl⟩, rfl⟩
    exact ⟨name, _, ⟨_, ⟨hname, rfl⟩, rfl⟩, (append_assoc ..).symm, rfl⟩
  · rintro ⟨name, _, ⟨_, ⟨hname, rfl⟩, rfl⟩, rfl, rfl⟩
    have hlength := hname.2.2.1
    simp only [MAX_NAME_BYTES] at hlength
    exact ⟨_, _, ⟨by omega, append_assoc ..⟩, _, rest, ⟨rfl, rfl⟩, ⟨name, hname, rfl, rfl⟩, rfl⟩

/-! ### Records -/

/-- A record that can be encoded. -/
@[mk_iff]
structure MembershipUpdate.Valid (update : MembershipUpdate) : Prop where
  incarnation : update.incarnation ≤ 0xffffffff
  stateChangeTime : update.stateChangeTime < 256 ^ 8
  member : Nameable false update.member
  reporter : Nameable true update.reporter
  metadata : update.metadata.length ≤ MAX_METADATA_BYTES
  accused : update.state = .suspect ↔ encodeUtf8 update.reporter ≠ []
  carried : update.metadata ≠ [] → update.state = .alive
  provenance : update.selfOriginated = update.state.selfRequired

instance (update : MembershipUpdate) : Decidable update.Valid :=
  decidable_of_iff' _ (MembershipUpdate.valid_iff update)

/-- A valid record with its encoded names. -/
def prepared (update : MembershipUpdate) : PreparedUpdate :=
  ⟨update, encodeUtf8 update.member, encodeUtf8 update.reporter,
    UPDATE_HEADER_BYTES + (encodeUtf8 update.member).length +
      (encodeUtf8 update.reporter).length + update.metadata.length⟩

/-- The state's rule on an empty reporter. -/
theorem reporter_rule {empty : Prop} : ¬ (if state = .suspect then empty else ¬ empty) ↔
    (state = .suspect ↔ ¬ empty) := by
  split_ifs with h
  · simp [h]
  · simp [h]

theorem prepareUpdate_eq_ok {result : PreparedUpdate} :
    prepareUpdate update = .ok result ↔ update.Valid ∧ result = prepared update := by
  simp only [prepareUpdate, except_bind_eq_ok, except_pure_eq_ok, refuse_eq_ok, assertUint_eq_ok,
    assertU64_eq_ok, encodeName_eq_ok, exists_const, not_lt, reporter_rule, ne_eq, not_not,
    length_eq_zero_iff]
  constructor
  · rintro ⟨hinc, htime, _, ⟨hmember, rfl⟩, _, ⟨hreporter, rfl⟩, hmeta, haccused, hcarried,
      hself, rfl⟩
    refine ⟨⟨hinc, htime.1, hmember, hreporter, hmeta, haccused, ?_, hself⟩, rfl⟩
    intro hne
    by_contra hstate
    exact hcarried ⟨hstate, hne⟩
  · rintro ⟨h, rfl⟩
    exact ⟨h.incarnation, ⟨h.stateChangeTime, by simp⟩, _, ⟨h.member, rfl⟩, _,
      ⟨h.reporter, rfl⟩, h.metadata, h.accused, fun hmeta => hmeta.1 (h.carried hmeta.2),
      h.provenance, rfl⟩

theorem length_writePreparedUpdate (update : MembershipUpdate) :
    (writePreparedUpdate (prepared update)).length = (prepared update).length := by
  simp only [writePreparedUpdate, RecordHeader.toBytes, prepared, length_append,
    length_bigEndian, UPDATE_HEADER_BYTES]

/-- A record as the encoder writes it. -/
def writeUpdate (update : MembershipUpdate) : Except ProtocolError Bytes := do
  let result ← prepareUpdate update
  pure (writePreparedUpdate result)

theorem writeUpdate_eq_ok {block : Bytes} : writeUpdate update = .ok block ↔
      update.Valid ∧ block = writePreparedUpdate (prepared update) := by
  simp only [writeUpdate, except_bind_eq_ok, except_pure_eq_ok, prepareUpdate_eq_ok]
  constructor
  · rintro ⟨_, ⟨hvalid, rfl⟩, rfl⟩
    exact ⟨hvalid, rfl⟩
  · rintro ⟨hvalid, rfl⟩
    exact ⟨_, ⟨hvalid, rfl⟩, rfl⟩

/-- Applies `f` to the names of a record. -/
def MembershipUpdate.mapText (f : JsString → JsString) (update : MembershipUpdate) :
    MembershipUpdate :=
  { update with member := f update.member, reporter := f update.reporter }

theorem ofByte_eq_some {byte : ℕ} : MemberState.ofByte byte = some state ↔ state.toByte = byte := by
  cases state <;> unfold MemberState.ofByte <;> split <;> simp_all [MemberState.toByte, eq_comm]

theorem decodeState_eq_ok {byte : ℕ} : decodeState byte = .ok state ↔ state.toByte = byte := by
  rw [← ofByte_eq_some, decodeState]
  split
  · rename_i found hfound
    simp [hfound]
  · rename_i hnone
    simp [hnone]

/-- The only flags without reserved bits. -/
theorem flags_cases : ∀ flags < 256, flags &&& 0xfe = 0 → flags = 0 ∨ flags = 1 := by
  decide +kernel

/-- The fixed fields fit their widths. -/
structure RecordHeader.Fits (header : RecordHeader) : Prop where
  recordLength : header.recordLength < 256 ^ 2
  state : header.state < 256 ^ 1
  flags : header.flags < 256 ^ 1
  incarnation : header.incarnation < 256 ^ 4
  stateChangeTime : header.stateChangeTime < 256 ^ 8
  memberLength : header.memberLength < 256 ^ 1
  reporterLength : header.reporterLength < 256 ^ 1
  metadataLength : header.metadataLength < 256 ^ 2

theorem readHeader_eq_ok {short : String} {header : RecordHeader} :
    readHeader short bytes = .ok (header, rest) ↔ header.Fits ∧ bytes = header.toBytes ++ rest := by
  simp only [readHeader, bind_eq_ok, readField_eq_ok, pure_eq_ok, RecordHeader.toBytes]
  constructor
  · rintro ⟨_, _, ⟨h1, rfl⟩, _, _, ⟨h2, rfl⟩, _, _, ⟨h3, rfl⟩, _, _, ⟨h4, rfl⟩, _, _, ⟨h5, rfl⟩, _, _,
      ⟨h6, rfl⟩, _, _, ⟨h7, rfl⟩, _, _, ⟨h8, rfl⟩, rfl, rfl⟩
    exact ⟨⟨h1, h2, h3, h4, h5, h6, h7, h8⟩, by simp only [append_assoc]⟩
  · rintro ⟨⟨h1, h2, h3, h4, h5, h6, h7, h8⟩, rfl⟩
    simp only [append_assoc]
    exact ⟨_, _, ⟨h1, rfl⟩, _, _, ⟨h2, rfl⟩, _, _, ⟨h3, rfl⟩, _, _, ⟨h4, rfl⟩, _, _, ⟨h5, rfl⟩, _, _,
      ⟨h6, rfl⟩, _, _, ⟨h7, rfl⟩, _, _, ⟨h8, rfl⟩, rfl, rfl⟩

/-- What a checked header says. -/
structure RecordHeader.Checked (header : RecordHeader) (limit : ℕ) (state : MemberState) : Prop where
  present : header.recordLength + 2 ≤ limit
  known : state.toByte = header.state
  reserved : header.flags &&& 0xfe = 0
  named : header.memberLength ≠ 0
  metadata : header.metadataLength ≤ MAX_METADATA_BYTES
  total : header.recordLength + 2 =
    UPDATE_HEADER_BYTES + header.memberLength + header.reporterLength + header.metadataLength
  provenance : decide (header.flags = 1) = state.selfRequired
  accused : state = .suspect ↔ header.reporterLength ≠ 0
  carried : header.metadataLength ≠ 0 → state = .alive

theorem checkHeader_eq_ok {header : RecordHeader} :
    checkHeader header limit = .ok state ↔ header.Checked limit state := by
  simp only [checkHeader, except_bind_eq_ok, except_pure_eq_ok, refuse_eq_ok, decodeState_eq_ok,
    exists_const, not_or, not_lt, ne_eq, not_not, not_and]
  constructor
  · rintro ⟨⟨-, hlimit⟩, _, hstate, hreserved, hnamed, hmeta, htotal, hself, haccused, hcarried,
      rfl⟩
    refine ⟨hlimit, hstate, hreserved, hnamed, hmeta, htotal, hself, reporter_rule.mp haccused, ?_⟩
    intro hne
    by_contra hstate
    exact hne (hcarried hstate)
  · intro h
    have htotal := h.total
    refine ⟨⟨by omega, h.present⟩, state, h.known, h.reserved, h.named, h.metadata, h.total,
      h.provenance, reporter_rule.mpr h.accused, ?_, rfl⟩
    intro hstate
    by_contra hne
    exact hstate (h.carried hne)

/-- A checked header is the header of the record it opens. -/
theorem RecordHeader.Checked.eq_header {header : RecordHeader} (h : header.Checked limit state)
    (hfits : header.Fits) {member reporter : JsString} {metadata : Bytes}
    (hmember : (encodeUtf8 member).length = header.memberLength)
    (hreporter : (encodeUtf8 reporter).length = header.reporterLength)
    (hmetadata : metadata.length = header.metadataLength) :
    header = (prepared ⟨state, decide (header.flags = 1), header.incarnation,
      header.stateChangeTime, member, reporter, metadata⟩).header := by
  have htotal := h.total
  ext
  · simp only [prepared, PreparedUpdate.header]
    omega
  · exact h.known.symm
  · rcases flags_cases header.flags hfits.flags h.reserved with hflags | hflags <;>
      simp [PreparedUpdate.header, prepared, hflags]
  · rfl
  · rfl
  · exact hmember.symm
  · exact hreporter.symm
  · exact hmetadata.symm

theorem flag_of_bool : ∀ b : Bool, (if b then 1 else 0) < 256 ^ 1 ∧
    (if b then 1 else 0) &&& 0xfe = 0 ∧ decide ((if b then 1 else 0) = 1) = b := by decide

/-- The header of a valid record fits its widths and passes the decoder's checks. -/
theorem MembershipUpdate.Valid.header (h : update.Valid) (hlimit : (prepared update).length ≤ limit) :
    (prepared update).header.Fits ∧ (prepared update).header.Checked limit update.state := by
  obtain ⟨hflag, hreserved, hself⟩ := flag_of_bool update.selfOriginated
  have hinc : update.incarnation < 256 ^ 4 := h.incarnation.trans_lt (by norm_num)
  have hmember : (encodeUtf8 update.member).length < 256 ^ 1 := Nat.lt_succ_of_le h.member.2.2.1
  have hnamed := h.member.2.1.resolve_left Bool.false_ne_true
  have hreporter : (encodeUtf8 update.reporter).length < 256 ^ 1 :=
    Nat.lt_succ_of_le h.reporter.2.2.1
  have hmetadata : update.metadata.length ≤ 512 := h.metadata
  have hlength : (prepared update).header.recordLength + 2 = (prepared update).length ∧
      (prepared update).length < 256 ^ 2 := by
    simp only [prepared, PreparedUpdate.header, UPDATE_HEADER_BYTES]
    omega
  constructor
  · exact ⟨by omega, by cases hstate : update.state <;> simp [prepared, PreparedUpdate.header,
      hstate, MemberState.toByte], hflag, hinc, h.stateChangeTime, hmember, hreporter,
      hmetadata.trans_lt (by norm_num)⟩
  · refine ⟨hlength.1.trans_le hlimit, rfl, hreserved, mt length_eq_zero_iff.mp hnamed,
      hmetadata, hlength.1, hself.trans h.provenance, ?_, ?_⟩
    · rw [h.accused]
      exact not_congr length_eq_zero_iff.symm
    · intro hne
      exact h.carried (mt length_eq_zero_iff.mpr hne)

theorem update_exact :
    Exact writeUpdate (decodeMembershipUpdateAt decoder) (MembershipUpdate.mapText decoder.emit) := by
  intro bytes update rest
  simp only [decodeMembershipUpdateAt, bind_eq_ok, remaining_eq_ok,
    Reader.refuse_eq_ok, readHeader_eq_ok, checkHeader_eq_ok, Reader.take_eq_ok,
    ofExcept_eq_ok, decodeName_eq_ok, pure_eq_ok, writeUpdate_eq_ok]
  constructor
  · rintro ⟨_, _, ⟨rfl, rfl⟩, -, _, ⟨-, rfl⟩, header, _, ⟨hfits, hbytes⟩, state, _, ⟨hchecked, rfl⟩,
      _, _, ⟨hmemberLength, rfl⟩, _, _, ⟨hreporterLength, rfl⟩, _, _,
      ⟨⟨member, hmember, rfl, rfl⟩, rfl⟩, _, _, ⟨⟨reporter, hreporter, rfl, rfl⟩, rfl⟩, metadata, _,
      ⟨hmetadataLength, rfl⟩, rfl, rfl⟩
    have hheader := hchecked.eq_header hfits hmemberLength hreporterLength hmetadataLength
    have hinc := hfits.incarnation
    refine ⟨⟨state, decide (header.flags = 1), header.incarnation, header.stateChangeTime, member,
      reporter, metadata⟩, _, ⟨⟨?_, hfits.stateChangeTime, hmember, hreporter, ?_, ?_, ?_,
      hchecked.provenance⟩, rfl⟩, ?_, rfl⟩
    · simp only
      omega
    · exact hmetadataLength.trans_le hchecked.metadata
    · rw [hchecked.accused, ← hreporterLength]
      exact not_congr length_eq_zero_iff
    · intro hne
      exact hchecked.carried (hmetadataLength ▸ mt length_eq_zero_iff.mp hne)
    · rw [hbytes, writePreparedUpdate, ← hheader]
      simp only [prepared, append_assoc]
  · rintro ⟨source, _, ⟨hvalid, rfl⟩, rfl, rfl⟩
    have hlength : ((writePreparedUpdate (prepared source)) ++ rest).length =
        (prepared source).length + rest.length := by
      rw [length_append, length_writePreparedUpdate]
    obtain ⟨hfits, hchecked⟩ := hvalid.header (Nat.le_add_right _ rest.length)
    rw [← hlength] at hchecked
    refine ⟨_, _, ⟨rfl, rfl⟩, (), _, ⟨?_, rfl⟩, (prepared source).header, _, ⟨hfits, ?_⟩,
      source.state, _, ⟨hchecked, rfl⟩, _, _, ⟨rfl, rfl⟩, _, _, ⟨rfl, rfl⟩, _, _,
      ⟨⟨source.member, hvalid.member, rfl, rfl⟩, rfl⟩, _, _,
      ⟨⟨source.reporter, hvalid.reporter, rfl, rfl⟩, rfl⟩, source.metadata, rest, ⟨rfl, rfl⟩, ?_, rfl⟩
    · rw [hlength, prepared]
      simp only
      omega
    · rw [writePreparedUpdate]
      simp only [append_assoc]
      rfl
    · have hself : decide ((prepared source).header.flags = 1) = source.selfOriginated := by
        rw [hchecked.provenance, hvalid.provenance]
      rw [hself]
      rfl

/-! ### Lists of records -/

/-- The records of a list, one after the other. -/
def records (updates : List MembershipUpdate) : Bytes :=
  (updates.map (fun update => writePreparedUpdate (prepared update))).flatten

theorem length_records : ∀ updates : List MembershipUpdate,
    (records updates).length = ((updates.map prepared).map PreparedUpdate.length).sum
  | [] => rfl
  | update :: rest => by
      have ih := length_records rest
      simp only [records, map_cons, flatten_cons, length_append, sum_cons,
        length_writePreparedUpdate] at ih ⊢
      rw [ih]

theorem flatten_prepared (updates : List MembershipUpdate) :
    ((updates.map prepared).map writePreparedUpdate).flatten = records updates := by
  rw [records, map_map]
  rfl

theorem writeAll_updates_eq_ok : ∀ {updates : List MembershipUpdate} {block : Bytes},
    writeAll writeUpdate updates = .ok block ↔
      (∀ update ∈ updates, update.Valid) ∧ block = records updates
  | [], block => by
      rw [writeAll, except_pure_eq_ok]
      simp [records, eq_comm]
  | update :: rest, block => by
      have ih := @writeAll_updates_eq_ok rest
      simp only [writeAll_cons_eq_ok, writeUpdate_eq_ok, ih, forall_mem_cons]
      constructor
      · rintro ⟨_, _, ⟨hvalid, rfl⟩, ⟨hrest, rfl⟩, rfl⟩
        exact ⟨⟨hvalid, hrest⟩, rfl⟩
      · rintro ⟨⟨hvalid, hrest⟩, rfl⟩
        exact ⟨_, _, ⟨hvalid, rfl⟩, ⟨hrest, rfl⟩, rfl⟩

theorem prepareUpdates_eq_ok : ∀ {updates : List MembershipUpdate} {result : List PreparedUpdate},
    prepareUpdates updates = .ok result ↔
      (∀ update ∈ updates, update.Valid) ∧ result = updates.map prepared
  | [], result => by
      rw [prepareUpdates, except_pure_eq_ok]
      simp [eq_comm]
  | update :: rest, result => by
      simp only [prepareUpdates, except_bind_eq_ok, except_pure_eq_ok, prepareUpdate_eq_ok,
        prepareUpdates_eq_ok, forall_mem_cons]
      constructor
      · rintro ⟨_, ⟨hvalid, rfl⟩, _, ⟨hrest, rfl⟩, rfl⟩
        exact ⟨⟨hvalid, hrest⟩, rfl⟩
      · rintro ⟨⟨hvalid, hrest⟩, rfl⟩
        exact ⟨_, ⟨hvalid, rfl⟩, _, ⟨hrest, rfl⟩, rfl⟩

theorem addDistinctMember_eq_ok {names result : List JsString} {member : JsString} :
    addDistinctMember names member = .ok result ↔ member ∉ names ∧ result = member :: names := by
  simp only [addDistinctMember, except_bind_eq_ok, except_pure_eq_ok, refuse_eq_ok, exists_const]
  rw [eq_comm]

theorem prepareDistinct_eq_ok : ∀ {names : List JsString} {updates : List MembershipUpdate}
    {result : List PreparedUpdate}, prepareDistinct names updates = .ok result ↔
      (∀ update ∈ updates, update.Valid) ∧ (updates.map MembershipUpdate.member).Nodup ∧
        (updates.map MembershipUpdate.member).Disjoint names ∧ result = updates.map prepared
  | names, [], result => by
      rw [prepareDistinct, except_pure_eq_ok]
      simp [eq_comm]
  | names, update :: rest, result => by
      simp only [prepareDistinct, except_bind_eq_ok, except_pure_eq_ok, addDistinctMember_eq_ok,
        prepareUpdate_eq_ok, prepareDistinct_eq_ok, forall_mem_cons, map_cons,
        nodup_cons, disjoint_cons_left]
      constructor
      · rintro ⟨_, ⟨hnew, rfl⟩, _, ⟨hvalid, rfl⟩, _, ⟨hrest, hnodup, hdisjoint, rfl⟩, rfl⟩
        obtain ⟨hfresh, hdisjoint⟩ := disjoint_cons_right.mp hdisjoint
        exact ⟨⟨hvalid, hrest⟩, ⟨hfresh, hnodup⟩, ⟨hnew, hdisjoint⟩, rfl⟩
      · rintro ⟨⟨hvalid, hrest⟩, ⟨hfresh, hnodup⟩, ⟨hnew, hdisjoint⟩, rfl⟩
        exact ⟨_, ⟨hnew, rfl⟩, _, ⟨hvalid, rfl⟩, _,
          ⟨hrest, hnodup, disjoint_cons_right.mpr ⟨hfresh, hdisjoint⟩, rfl⟩, rfl⟩

theorem foldlM_addDistinctMember_eq_ok : ∀ {members names : List JsString},
    (∃ result, members.foldlM addDistinctMember names = .ok result) ↔
      members.Nodup ∧ members.Disjoint names
  | [], names => by simp [pure, Except.pure]
  | member :: rest, names => by
      have ih := @foldlM_addDistinctMember_eq_ok rest (member :: names)
      simp only [foldlM_cons, except_bind_eq_ok, addDistinctMember_eq_ok, nodup_cons,
        disjoint_cons_left]
      rw [disjoint_cons_right] at ih
      constructor
      · rintro ⟨result, _, ⟨hnew, rfl⟩, hrest⟩
        obtain ⟨hnodup, hfresh, hdisjoint⟩ := ih.mp ⟨result, hrest⟩
        exact ⟨⟨hfresh, hnodup⟩, hnew, hdisjoint⟩
      · rintro ⟨⟨hfresh, hnodup⟩, hnew, hdisjoint⟩
        obtain ⟨result, hresult⟩ := ih.mpr ⟨hnodup, hfresh, hdisjoint⟩
        exact ⟨result, _, ⟨hnew, rfl⟩, hresult⟩

/-- The decoder's check of distinct members. -/
theorem addDistinctMembers_eq_ok {members : List JsString} :
    (∃ result, addDistinctMembers members = .ok result) ↔ members.Nodup := by
  rw [addDistinctMembers, foldlM_addDistinctMember_eq_ok]
  simp

/-- A list of records must fill the rest of the message. -/
theorem decodeUpdateList_eq_ok {count : ℕ} :
    decodeUpdateList decoder count bytes = .ok (updates, rest) ↔ rest = [] ∧ ∃ sources,
      sources.length = count ∧ (∀ update ∈ sources, update.Valid) ∧ bytes = records sources ∧
        sources.map (MembershipUpdate.mapText decoder.emit) = updates := by
  simp only [decodeUpdateList, bind_eq_ok, update_exact.times, writeAll_updates_eq_ok,
    remaining_eq_ok, Reader.refuse_eq_ok, pure_eq_ok]
  constructor
  · rintro ⟨_, _, ⟨sources, _, hcount, ⟨hvalid, rfl⟩, rfl, rfl⟩, _, _, ⟨rfl, rfl⟩, -, _,
      ⟨hempty, rfl⟩, rfl, rfl⟩
    obtain rfl := length_eq_zero_iff.mp (not_ne_iff.mp hempty)
    exact ⟨rfl, sources, hcount, hvalid, append_nil _, rfl⟩
  · rintro ⟨rfl, sources, hcount, hvalid, rfl, rfl⟩
    exact ⟨_, [], ⟨sources, _, hcount, ⟨hvalid, rfl⟩, (append_nil _).symm, rfl⟩, _, [],
      ⟨rfl, rfl⟩, (), [], ⟨by simp, rfl⟩, rfl, rfl⟩

theorem decodeCountedPacketUpdates_eq_ok :
    decodeCountedPacketUpdates decoder bytes = .ok (updates, rest) ↔ rest = [] ∧ ∃ sources,
      sources.length ≤ UPDATE_LIST_MAX_RECORDS ∧ (∀ update ∈ sources, update.Valid) ∧
        bytes = bigEndian 1 sources.length ++ records sources ∧
        sources.map (MembershipUpdate.mapText decoder.emit) = updates := by
  simp only [decodeCountedPacketUpdates, bind_eq_ok, readField_eq_ok, decodeUpdateList_eq_ok,
    UPDATE_LIST_MAX_RECORDS]
  constructor
  · rintro ⟨_, _, ⟨hlt, rfl⟩, rfl, sources, rfl, hvalid, rfl, rfl⟩
    exact ⟨rfl, sources, by omega, hvalid, rfl, rfl⟩
  · rintro ⟨rfl, sources, hle, hvalid, rfl, rfl⟩
    exact ⟨_, _, ⟨by omega, rfl⟩, rfl, sources, rfl, hvalid, rfl, rfl⟩

/-! ### Packets -/

/-- The names of a packet in write order, each with whether it may be empty. -/
def MembershipMessage.names : MembershipMessage → List (JsString × Bool)
  | .ping _ owner relay _ => [(owner, false), (relay, true)]
  | .pingReq _ owner target _ => [(owner, false), (target, false)]
  | .ack _ owner target _ => [(owner, false), (target, false)]
  | .nack _ owner target helper _ => [(owner, false), (target, false), (helper, false)]
  | .gossip _ => []
  | .sync _ _ _ _ _ => []

/-- A name behind the length of its bytes. -/
def nameBytes (name : JsString) : Bytes := bigEndian 1 (encodeUtf8 name).length ++ encodeUtf8 name

theorem writeName_eq_ok {name : JsString} {block : Bytes} :
    writeName field allowEmpty name = .ok block ↔
      Nameable allowEmpty name ∧ block = nameBytes name := by
  simp only [writeName, except_bind_eq_ok, except_pure_eq_ok, encodeName_eq_ok]
  constructor
  · rintro ⟨_, ⟨hname, rfl⟩, rfl⟩
    exact ⟨hname, rfl⟩
  · rintro ⟨hname, rfl⟩
    exact ⟨_, ⟨hname, rfl⟩, rfl⟩

theorem preparePacketNames_eq_ok {names : List Bytes} :
    preparePacketNames message = .ok names ↔ (∀ name ∈ message.names, Nameable name.2 name.1) ∧
      names = message.names.map (fun name => encodeUtf8 name.1) := by
  cases message <;>
    simp only [preparePacketNames, MembershipMessage.names, except_bind_eq_ok, except_pure_eq_ok,
      encodeName_eq_ok, forall_mem_cons, map_cons, map_nil, not_mem_nil,
      false_implies, implies_true, and_true, true_and] <;>
    grind

/-- A packet whose fields the encoder accepts. -/
structure PacketValid (message : MembershipMessage) : Prop where
  sequence : ∀ sequence ∈ message.sequence, sequence ≤ 0xffffffff
  names : ∀ name ∈ message.names, Nameable name.2 name.1
  count : message.updates.length ≤ UPDATE_LIST_MAX_RECORDS
  updates : ∀ update ∈ message.updates, update.Valid

/-- The body of a packet. -/
def packetBody (message : MembershipMessage) : Bytes := message.sequence.elim [] (bigEndian 4) ++
    (message.names.map (fun name => nameBytes name.1)).flatten ++
    bigEndian 1 message.updates.length ++ records message.updates

/-- The envelope of a body. -/
def envelope (type bodyLength : ℕ) : Bytes :=
  bigEndian 1 PROTOCOL_VERSION ++ bigEndian 1 type ++ bigEndian 2 bodyLength

theorem length_packetBody (message : MembershipMessage) : (packetBody message).length =
      baseLength message (message.names.map (fun name => encodeUtf8 name.1)) +
        ((message.updates.map prepared).map PreparedUpdate.length).sum := by
  have hnames : ∀ names : List (JsString × Bool),
      ((names.map (fun name => nameBytes name.1)).flatten).length =
        ((names.map (fun name => encodeUtf8 name.1)).map (fun name => 1 + name.length)).sum := by
    intro names
    rw [length_flatten, map_map, map_map]
    congr 1
    refine map_congr_left fun name _ => ?_
    simp only [Function.comp_apply, nameBytes, length_append, length_bigEndian]
  simp only [packetBody, length_append, length_records, hnames, baseLength, length_bigEndian]
  cases message.sequence with
  | none =>
    simp only [Option.elim_none, length_nil, Option.isNone_none, if_true]
    omega
  | some sequence =>
    simp only [Option.elim_some, length_bigEndian, Option.isNone_some, Bool.false_eq_true, if_false]
    omega

theorem writePacketBody_eq_ok {body : Bytes} :
    writePacketBody message (message.names.map (fun name => encodeUtf8 name.1))
        (message.updates.map prepared) = .ok body ↔
      (∀ sequence ∈ message.sequence, sequence ≤ 0xffffffff) ∧ body = packetBody message := by
  have hnames : ((message.names.map (fun name => encodeUtf8 name.1)).map
      (fun name => bigEndian 1 name.length ++ name)) =
        message.names.map (fun name => nameBytes name.1) := by
    rw [map_map]
    rfl
  rw [writePacketBody, hnames, flatten_prepared, packetBody, length_map]
  cases message.sequence with
  | none =>
    simp only [writeOptional, except_bind_eq_ok, except_pure_eq_ok, Option.elim_none]
    constructor
    · rintro ⟨_, rfl, rfl⟩
      exact ⟨by simp, rfl⟩
    · rintro ⟨-, rfl⟩
      exact ⟨_, rfl, rfl⟩
  | some sequence =>
    simp only [writeOptional, except_bind_eq_ok, except_pure_eq_ok, assertUint_eq_ok, exists_const,
      Option.elim_some, Option.mem_some_iff, forall_eq']
    constructor
    · rintro ⟨_, ⟨hle, rfl⟩, rfl⟩
      exact ⟨hle, rfl⟩
    · rintro ⟨hle, rfl⟩
      exact ⟨_, ⟨hle, rfl⟩, rfl⟩

theorem allocateMessage_eq_ok {bodyLength : ℕ} {packet : Bool} :
    allocateMessage type bodyLength packet = .ok bytes ↔ bodyLength ≤ 0xffff ∧
      (packet = true → MESSAGE_HEADER_BYTES + bodyLength ≤ MAX_PACKET_BYTES) ∧
        bytes = envelope type bodyLength := by
  simp only [allocateMessage, except_bind_eq_ok, except_pure_eq_ok, refuse_eq_ok, exists_const,
    not_lt, not_and, envelope, @eq_comm _ bytes]

theorem encodePacket_eq_ok : encodePacket message = .ok bytes ↔ PacketValid message ∧
      MESSAGE_HEADER_BYTES + (packetBody message).length ≤ MAX_PACKET_BYTES ∧
        bytes = envelope message.type (packetBody message).length ++ packetBody message := by
  simp only [encodePacket, except_bind_eq_ok, except_pure_eq_ok, refuse_eq_ok, exists_const,
    preparePacketNames_eq_ok, prepareUpdates_eq_ok, allocateMessage_eq_ok, not_lt]
  constructor
  · rintro ⟨_, ⟨hnames, rfl⟩, hcount, _, ⟨hvalid, rfl⟩, _, ⟨-, hsize, rfl⟩, _, hbody, rfl⟩
    obtain ⟨hsequence, rfl⟩ := writePacketBody_eq_ok.mp hbody
    rw [← length_packetBody] at hsize ⊢
    exact ⟨⟨hsequence, hnames, hcount, hvalid⟩, hsize trivial, rfl⟩
  · rintro ⟨⟨hsequence, hnames, hcount, hvalid⟩, hsize, rfl⟩
    refine ⟨_, ⟨hnames, rfl⟩, hcount, _, ⟨hvalid, rfl⟩, _, ⟨?_, fun _ => ?_, rfl⟩, _,
      writePacketBody_eq_ok.mpr ⟨hsequence, rfl⟩, ?_⟩
    · rw [← length_packetBody]
      simp only [MESSAGE_HEADER_BYTES, MAX_PACKET_BYTES] at hsize
      omega
    · rw [← length_packetBody]
      exact hsize
    · rw [← length_packetBody]

/-- Applies `f` to the names of a message. -/
def MembershipMessage.mapText (f : JsString → JsString) : MembershipMessage → MembershipMessage
  | .ping sequence owner relay updates =>
    .ping sequence (f owner) (f relay) (updates.map (MembershipUpdate.mapText f))
  | .pingReq sequence owner target updates =>
    .pingReq sequence (f owner) (f target) (updates.map (MembershipUpdate.mapText f))
  | .ack sequence owner target updates =>
    .ack sequence (f owner) (f target) (updates.map (MembershipUpdate.mapText f))
  | .nack sequence owner target helper updates =>
    .nack sequence (f owner) (f target) (f helper) (updates.map (MembershipUpdate.mapText f))
  | .gossip updates => .gossip (updates.map (MembershipUpdate.mapText f))
  | .sync type exchangeId chunkIndex chunkCount updates =>
    .sync type exchangeId chunkIndex chunkCount (updates.map (MembershipUpdate.mapText f))

theorem decodeGossipMessage_eq_ok :
    decodeGossipMessage decoder bytes = .ok (message, rest) ↔ rest = [] ∧ ∃ updates,
      PacketValid (.gossip updates) ∧ bytes = packetBody (.gossip updates) ∧
        (MembershipMessage.gossip updates).mapText decoder.emit = message := by
  simp only [decodeGossipMessage, bind_eq_ok, decodeCountedPacketUpdates_eq_ok, pure_eq_ok]
  constructor
  · rintro ⟨_, _, ⟨rfl, updates, hcount, hvalid, rfl, rfl⟩, rfl, rfl⟩
    exact ⟨rfl, updates, ⟨nofun, nofun, hcount, hvalid⟩, rfl, rfl⟩
  · rintro ⟨rfl, updates, hpacket, rfl, rfl⟩
    exact ⟨_, _, ⟨rfl, updates, hpacket.count, hpacket.updates, rfl, rfl⟩, rfl, rfl⟩

/-- The sequence and the names that open a probe packet. -/
theorem decodeProbeHeader_eq_ok {probe : ℕ × JsString} :
    decodeProbeHeader decoder bytes = .ok (probe, rest) ↔ ∃ owner, probe.1 ≤ 0xffffffff ∧
      Nameable false owner ∧ bytes = bigEndian 4 probe.1 ++ nameBytes owner ++ rest ∧
        decoder.emit owner = probe.2 := by
  obtain ⟨sequence, name⟩ := probe
  simp only [decodeProbeHeader, bind_eq_ok, readField_eq_ok, name_exact _ _ _ _ _,
    writeName_eq_ok, pure_eq_ok, Prod.mk.injEq]
  constructor
  · rintro ⟨_, _, ⟨hlt, rfl⟩, _, _, ⟨owner, _, ⟨hname, rfl⟩, rfl, rfl⟩, ⟨rfl, rfl⟩, rfl⟩
    exact ⟨owner, by omega, hname, (append_assoc ..).symm, rfl⟩
  · rintro ⟨owner, hle, hname, rfl, rfl⟩
    exact ⟨_, _, ⟨by omega, append_assoc ..⟩, _, _, ⟨owner, _, ⟨hname, rfl⟩, rfl, rfl⟩,
      ⟨rfl, rfl⟩, rfl⟩

/-- A packet of a sequence, an owner and one more name, which may be empty or not. -/
structure TwoNames (allowEmpty : Bool)
    (make : ℕ → JsString → JsString → List MembershipUpdate → MembershipMessage) : Prop where
  sequence : ∀ n owner name updates, (make n owner name updates).sequence = some n
  names : ∀ n owner name updates,
    (make n owner name updates).names = [(owner, false), (name, allowEmpty)]
  updates : ∀ n owner name updates, (make n owner name updates).updates = updates
  mapText : ∀ n owner name updates f, (make n owner name updates).mapText f =
    make n (f owner) (f name) (updates.map (MembershipUpdate.mapText f))

/-- What the reader of such packets reads. -/
theorem TwoNames.read_eq_ok
    {make : ℕ → JsString → JsString → List MembershipUpdate → MembershipMessage}
    (h : TwoNames allowEmpty make) :
    (do
      let probe ← decodeProbeHeader decoder
      let name ← readName decoder field allowEmpty
      let updates ← decodeCountedPacketUpdates decoder
      pure (make probe.1 probe.2 name updates) : Reader ProtocolError MembershipMessage) bytes =
        .ok (message, rest) ↔ rest = [] ∧
      ∃ sequence owner name updates, PacketValid (make sequence owner name updates) ∧
        bytes = packetBody (make sequence owner name updates) ∧
        (make sequence owner name updates).mapText decoder.emit = message := by
  have hbody : ∀ n owner name updates, packetBody (make n owner name updates) =
      bigEndian 4 n ++ nameBytes owner ++ (nameBytes name ++
        (bigEndian 1 updates.length ++ records updates)) := by
    intro n owner name updates
    simp [packetBody, h.sequence, h.names, h.updates]
  simp only [bind_eq_ok, decodeProbeHeader_eq_ok, name_exact _ _ _ _ _, writeName_eq_ok,
    decodeCountedPacketUpdates_eq_ok, pure_eq_ok, hbody, h.mapText]
  constructor
  · rintro ⟨⟨n, _⟩, _, ⟨owner, hle, howner, rfl, rfl⟩, _, _,
      ⟨name, _, ⟨hname, rfl⟩, rfl, rfl⟩, _, _, ⟨rfl, updates, hcount, hvalid, rfl, rfl⟩, rfl, rfl⟩
    refine ⟨rfl, n, owner, name, updates, ⟨?_, ?_, ?_, ?_⟩, rfl, rfl⟩
    · simpa [h.sequence] using hle
    · simpa [h.names] using ⟨howner, hname⟩
    · rwa [h.updates]
    · rwa [h.updates]
  · rintro ⟨rfl, n, owner, name, updates, hpacket, rfl, rfl⟩
    have hcount := hpacket.count
    have hvalid := hpacket.updates
    rw [h.updates] at hcount hvalid
    exact ⟨(n, decoder.emit owner), _, ⟨owner, hpacket.sequence _ (h.sequence ..),
      hpacket.names (owner, false) (by simp [h.names]), rfl, rfl⟩, _, _,
      ⟨name, _, ⟨hpacket.names (name, allowEmpty) (by simp [h.names]), rfl⟩, rfl, rfl⟩,
      _, _, ⟨rfl, updates, hcount, hvalid, rfl, rfl⟩, rfl, rfl⟩

theorem twoNames_ping : TwoNames true .ping :=
  ⟨fun _ _ _ _ => rfl, fun _ _ _ _ => rfl, fun _ _ _ _ => rfl, fun _ _ _ _ _ => rfl⟩

theorem twoNames_pingReq : TwoNames false .pingReq :=
  ⟨fun _ _ _ _ => rfl, fun _ _ _ _ => rfl, fun _ _ _ _ => rfl, fun _ _ _ _ _ => rfl⟩

theorem twoNames_ack : TwoNames false .ack :=
  ⟨fun _ _ _ _ => rfl, fun _ _ _ _ => rfl, fun _ _ _ _ => rfl, fun _ _ _ _ _ => rfl⟩

theorem decodeNackMessage_eq_ok :
    decodeNackMessage decoder bytes = .ok (message, rest) ↔ rest = [] ∧
      ∃ sequence owner target helper updates,
        PacketValid (.nack sequence owner target helper updates) ∧
        bytes = packetBody (.nack sequence owner target helper updates) ∧
        (MembershipMessage.nack sequence owner target helper updates).mapText decoder.emit =
          message := by
  simp only [decodeNackMessage, bind_eq_ok, decodeProbeHeader_eq_ok, name_exact _ _ _ _ _,
    writeName_eq_ok, decodeCountedPacketUpdates_eq_ok, pure_eq_ok]
  constructor
  · rintro ⟨⟨sequence, _⟩, _, ⟨owner, hsequence, howner, rfl, rfl⟩, _, _,
      ⟨target, _, ⟨htarget, rfl⟩, rfl, rfl⟩, _, _, ⟨helper, _, ⟨hhelper, rfl⟩, rfl, rfl⟩, _, _,
      ⟨rfl, updates, hcount, hvalid, rfl, rfl⟩, rfl, rfl⟩
    refine ⟨rfl, sequence, owner, target, helper, updates, ⟨?_, ?_, hcount, hvalid⟩, ?_, rfl⟩
    · simpa [MembershipMessage.sequence] using hsequence
    · simpa [MembershipMessage.names] using ⟨howner, htarget, hhelper⟩
    · simp [packetBody, MembershipMessage.sequence, MembershipMessage.names,
        MembershipMessage.updates]
  · rintro ⟨rfl, sequence, owner, target, helper, updates, hpacket, rfl, rfl⟩
    refine ⟨(sequence, decoder.emit owner), _, ⟨owner, hpacket.sequence _ rfl,
      hpacket.names (owner, false) (by simp [MembershipMessage.names]), ?_, rfl⟩, _, _,
      ⟨target, _, ⟨hpacket.names (target, false) (by simp [MembershipMessage.names]), rfl⟩, rfl,
        rfl⟩, _, _,
      ⟨helper, _, ⟨hpacket.names (helper, false) (by simp [MembershipMessage.names]), rfl⟩, rfl,
        rfl⟩,
      _, _, ⟨rfl, updates, hpacket.count, hpacket.updates, rfl, rfl⟩, rfl, rfl⟩
    simp [packetBody, MembershipMessage.sequence, MembershipMessage.names,
      MembershipMessage.updates]

theorem gossip_lt_sync (type : SyncMessageType) (exchangeId chunkIndex chunkCount : ℕ)
    (updates : List MembershipUpdate) :
    ¬ (MembershipMessage.sync type exchangeId chunkIndex chunkCount updates).type ≤
      MESSAGE_GOSSIP := by
  cases type <;> exact Nat.not_le_of_gt (Nat.le_of_ble_eq_true rfl)

theorem decodePacketBody_eq_ok (htype : MESSAGE_PING ≤ type ∧ type ≤ MESSAGE_GOSSIP) :
    decodePacketBody decoder type bytes = .ok (message, rest) ↔ rest = [] ∧ ∃ source,
      source.type = type ∧ PacketValid source ∧ bytes = packetBody source ∧
        source.mapText decoder.emit = message := by
  constructor
  · intro h
    obtain ⟨rfl, h⟩ | ⟨hping, h⟩ := ite_cases h
    · obtain ⟨hrest, _, _, _, _, h⟩ := twoNames_ping.read_eq_ok.mp h
      exact ⟨hrest, _, rfl, h⟩
    obtain ⟨rfl, h⟩ | ⟨hreq, h⟩ := ite_cases h
    · obtain ⟨hrest, _, _, _, _, h⟩ := twoNames_pingReq.read_eq_ok.mp h
      exact ⟨hrest, _, rfl, h⟩
    obtain ⟨rfl, h⟩ | ⟨hack, h⟩ := ite_cases h
    · obtain ⟨hrest, _, _, _, _, h⟩ := twoNames_ack.read_eq_ok.mp h
      exact ⟨hrest, _, rfl, h⟩
    obtain ⟨rfl, h⟩ | ⟨hnack, h⟩ := ite_cases h
    · obtain ⟨hrest, _, _, _, _, _, h⟩ := decodeNackMessage_eq_ok.mp h
      exact ⟨hrest, _, rfl, h⟩
    obtain ⟨hrest, updates, h⟩ := decodeGossipMessage_eq_ok.mp h
    have hgossip : (MembershipMessage.gossip updates).type = type := by
      simp only [MembershipMessage.type, MESSAGE_PING, MESSAGE_PING_REQ, MESSAGE_ACK, MESSAGE_NACK,
        MESSAGE_GOSSIP] at *
      omega
    exact ⟨hrest, _, hgossip, h⟩
  · rintro ⟨rfl, source, rfl, h⟩
    cases source with
    | ping => exact twoNames_ping.read_eq_ok.mpr ⟨rfl, _, _, _, _, h⟩
    | pingReq => exact twoNames_pingReq.read_eq_ok.mpr ⟨rfl, _, _, _, _, h⟩
    | ack => exact twoNames_ack.read_eq_ok.mpr ⟨rfl, _, _, _, _, h⟩
    | nack => exact decodeNackMessage_eq_ok.mpr ⟨rfl, _, _, _, _, _, h⟩
    | gossip => exact decodeGossipMessage_eq_ok.mpr ⟨rfl, _, h⟩
    | sync => exact absurd htype.2 (gossip_lt_sync _ _ _ _ _)

/-! ### Sync chunks -/

/-- A sync chunk whose fields the encoder accepts, up to distinctness and size. -/
structure SyncValid (exchangeId chunkIndex chunkCount : ℕ) (updates : List MembershipUpdate) :
    Prop where
  exchange : exchangeId < 256 ^ 8 ∧ exchangeId ≠ 0
  position : chunkIndex < chunkCount
  chunks : chunkCount ≤ 0xffff
  count : updates.length ≤ MAX_MEMBERS
  updates : ∀ update ∈ updates, update.Valid

/-- The body of a sync chunk. -/
def syncBody (exchangeId chunkIndex chunkCount : ℕ) (updates : List MembershipUpdate) : Bytes :=
  bigEndian 8 exchangeId ++ bigEndian 2 chunkIndex ++ bigEndian 2 chunkCount ++
    bigEndian 2 updates.length ++ records updates

theorem length_syncBody (exchangeId chunkIndex chunkCount : ℕ) (updates : List MembershipUpdate) :
    (syncBody exchangeId chunkIndex chunkCount updates).length =
      SYNC_HEADER_BYTES + ((updates.map prepared).map PreparedUpdate.length).sum := by
  simp only [syncBody, length_append, length_bigEndian, length_records, SYNC_HEADER_BYTES]

theorem encodeSync_eq_ok {exchangeId chunkIndex chunkCount : ℕ} :
    encodeSync type exchangeId chunkIndex chunkCount updates = .ok bytes ↔
      SyncValid exchangeId chunkIndex chunkCount updates ∧
      (updates.map MembershipUpdate.member).Nodup ∧
      (syncBody exchangeId chunkIndex chunkCount updates).length ≤ 0xffff ∧
      bytes = envelope type (syncBody exchangeId chunkIndex chunkCount updates).length ++
        syncBody exchangeId chunkIndex chunkCount updates := by
  simp only [encodeSync, except_bind_eq_ok, except_pure_eq_ok, refuse_eq_ok, assertU64_eq_ok,
    assertUint_eq_ok, exists_const, prepareDistinct_eq_ok, allocateMessage_eq_ok, length_syncBody,
    not_or, not_le, not_lt]
  constructor
  · rintro ⟨hexchange, -, hchunks, ⟨-, hposition⟩, hcount, _, ⟨hvalid, hnodup, -, rfl⟩, _,
      ⟨hsize, -, rfl⟩, rfl⟩
    refine ⟨⟨⟨hexchange.1, hexchange.2 trivial⟩, hposition, hchunks, hcount, hvalid⟩, hnodup,
      hsize, ?_⟩
    simp only [flatten_prepared, length_map, syncBody, append_assoc]
  · rintro ⟨⟨hexchange, hposition, hchunks, hcount, hvalid⟩, hnodup, hsize, rfl⟩
    refine ⟨⟨hexchange.1, fun _ => hexchange.2⟩, by omega, hchunks, ⟨by omega, hposition⟩, hcount, _,
      ⟨hvalid, hnodup, disjoint_nil_right _, rfl⟩, _, ⟨hsize, nofun, rfl⟩, ?_⟩
    simp only [flatten_prepared, length_map, syncBody, append_assoc]

theorem decodeSyncBody_eq_ok {type : SyncMessageType} :
    decodeSyncBody decoder type bytes = .ok (message, rest) ↔ rest = [] ∧
      ∃ exchangeId chunkIndex chunkCount updates,
        SyncValid exchangeId chunkIndex chunkCount updates ∧
        bytes = syncBody exchangeId chunkIndex chunkCount updates ∧
        (MembershipMessage.sync type exchangeId chunkIndex chunkCount updates).mapText
          decoder.emit = message ∧
        (message.updates.map MembershipUpdate.member).Nodup := by
  simp only [decodeSyncBody, bind_eq_ok, remaining_eq_ok, Reader.refuse_eq_ok,
    readField_eq_ok, decodeUpdateList_eq_ok, ofExcept_eq_ok, pure_eq_ok]
  constructor
  · rintro ⟨_, _, ⟨rfl, rfl⟩, -, _, ⟨-, rfl⟩, exchangeId, _, ⟨hexchange, rfl⟩, chunkIndex, _,
      ⟨-, rfl⟩, chunkCount, _, ⟨hchunks, rfl⟩, _, _, ⟨-, rfl⟩, -, _, ⟨hzero, rfl⟩, -, _,
      ⟨hposition, rfl⟩, -, _, ⟨hcount, rfl⟩, _, _, ⟨rfl, updates, rfl, hvalid, rfl, rfl⟩, _, _,
      ⟨hdistinct, rfl⟩, rfl, rfl⟩
    rw [not_or, not_le] at hposition
    refine ⟨rfl, exchangeId, chunkIndex, chunkCount, updates, ⟨⟨hexchange, hzero⟩, hposition.2,
      by omega, not_lt.mp hcount, hvalid⟩, ?_, rfl, addDistinctMembers_eq_ok.mp ⟨_, hdistinct⟩⟩
    simp only [syncBody, append_assoc]
  · rintro ⟨rfl, exchangeId, chunkIndex, chunkCount, updates, h, rfl, rfl, hnodup⟩
    obtain ⟨members, hmembers⟩ := addDistinctMembers_eq_ok.mpr hnodup
    have hposition := h.position
    have hchunks := h.chunks
    have hcount := h.count
    have hlength := length_syncBody exchangeId chunkIndex chunkCount updates
    simp only [MAX_MEMBERS] at hcount
    refine ⟨_, _, ⟨rfl, rfl⟩, (), _, ⟨by omega, rfl⟩, exchangeId, _, ⟨h.exchange.1, ?_⟩, chunkIndex,
      _, ⟨by omega, rfl⟩, chunkCount, _, ⟨by omega, rfl⟩, updates.length, _, ⟨by omega, rfl⟩, (), _,
      ⟨h.exchange.2, rfl⟩, (), _, ⟨by omega, rfl⟩, (), _, ⟨not_lt.mpr h.count, rfl⟩, _, _,
      ⟨rfl, updates, rfl, h.updates, rfl, rfl⟩, members, _, ⟨hmembers, rfl⟩, rfl, rfl⟩
    simp only [syncBody, append_assoc]

/-! ### Messages -/

/-- The members of a sync chunk are distinct. -/
def MembershipMessage.Distinct : MembershipMessage → Prop
  | .sync _ _ _ _ updates => (updates.map MembershipUpdate.member).Nodup
  | _ => True

/-- A message that is no sync chunk is a packet. -/
theorem packet_or_sync (message : MembershipMessage) :
    (MESSAGE_PING ≤ message.type ∧ message.type ≤ MESSAGE_GOSSIP) ∧
        encodeMessage message = encodePacket message ∧ (∀ f, (message.mapText f).Distinct) ∨
      ∃ type exchangeId chunkIndex chunkCount updates,
        message = .sync type exchangeId chunkIndex chunkCount updates := by
  cases message with
  | sync => exact .inr ⟨_, _, _, _, _, rfl⟩
  | _ => exact .inl ⟨⟨Nat.le_of_ble_eq_true rfl, Nat.le_of_ble_eq_true rfl⟩, rfl, fun _ => trivial⟩

/-- An envelope decodes to its type and the rest of the bytes. -/
theorem decodeMessageWith_eq_body : decodeMessageWith decoder bytes = .ok message ↔ ∃ type body,
      type < 256 ∧ body.length ≤ 0xffff ∧ bytes = envelope type body.length ++ body ∧
      ((MESSAGE_PING ≤ type ∧ type ≤ MESSAGE_GOSSIP) ∧
          MESSAGE_HEADER_BYTES + body.length ≤ MAX_PACKET_BYTES ∧
          decodePacketBody decoder type body = .ok (message, []) ∨
        ∃ kind, type = (MembershipMessage.sync kind 0 0 0 []).type ∧
          decodeSyncBody decoder kind body = .ok (message, [])) := by
  simp only [decodeMessageWith, Reader.whole_eq_ok, bind_eq_ok, Reader.refuse_eq_ok,
    readField_eq_ok]
  constructor
  · rintro ⟨-, _, ⟨-, rfl⟩, _, _, ⟨-, rfl⟩, -, _, ⟨hsame, rfl⟩, type, _, ⟨hbyte, rfl⟩, bodyLength, body,
      ⟨hword, rfl⟩, -, _, ⟨hlength, rfl⟩, h⟩
    obtain rfl := not_ne_iff.mp hsame
    simp only [MESSAGE_HEADER_BYTES, length_append, length_bigEndian, ne_eq, not_not] at hlength
    obtain rfl : bodyLength = body.length := by omega
    refine ⟨type, body, by omega, by omega, by simp only [envelope, append_assoc], ?_⟩
    obtain ⟨hpacket, h⟩ | ⟨-, h⟩ := ite_cases h
    · obtain ⟨u, _, hpassed, h⟩ := bind_eq_ok.mp h
      obtain ⟨hfits, rfl⟩ := Reader.refuse_eq_ok.mp hpassed
      refine Or.inl ⟨hpacket, ?_, h⟩
      simp only [length_append, length_bigEndian, not_lt] at hfits
      simp only [MESSAGE_HEADER_BYTES]
      omega
    obtain ⟨hrequest, h⟩ | ⟨-, h⟩ := ite_cases h
    · exact Or.inr ⟨.request, hrequest, h⟩
    obtain ⟨hresponse, h⟩ | ⟨-, h⟩ := ite_cases h
    · exact Or.inr ⟨.response, hresponse, h⟩
    · exact absurd h Reader.fail_eq_ok
  · rintro ⟨type, body, hbyte, hword, rfl, h⟩
    have hlength : (envelope type body.length ++ body).length = 4 + body.length := by
      rw [length_append]
      rfl
    refine ⟨(), _, ⟨by simp only [hlength, MESSAGE_HEADER_BYTES]; omega, rfl⟩, PROTOCOL_VERSION,
      bigEndian 1 type ++ (bigEndian 2 body.length ++ body),
      ⟨by decide, by simp only [envelope, append_assoc]⟩, (), _, ⟨by decide, rfl⟩, type, _,
      ⟨by omega, rfl⟩, body.length, _, ⟨by omega, rfl⟩, (), _,
      ⟨by simp only [hlength, MESSAGE_HEADER_BYTES]; omega, rfl⟩, ?_⟩
    rcases h with ⟨hpacket, hfits, h⟩ | ⟨kind, rfl, h⟩
    · rw [if_pos hpacket]
      refine bind_eq_ok.mpr ⟨(), _, Reader.refuse_eq_ok.mpr ⟨?_, rfl⟩, h⟩
      rw [hlength]
      exact not_lt.mpr hfits
    · cases kind <;> exact h

/-- Bytes decode to what the decoder makes of the message they encode, if the names it makes are
    still distinct. -/
theorem decodeMessageWith_eq_ok : decodeMessageWith decoder bytes = .ok message ↔ ∃ source,
      encodeMessage source = .ok bytes ∧ source.mapText decoder.emit = message ∧
        message.Distinct := by
  rw [decodeMessageWith_eq_body]
  constructor
  · rintro ⟨type, body, -, hword, rfl, ⟨htype, hfits, h⟩ | ⟨kind, rfl, h⟩⟩
    · obtain ⟨-, source, rfl, hvalid, rfl, rfl⟩ := (decodePacketBody_eq_ok htype).mp h
      obtain ⟨-, hencode, hdistinct⟩ | ⟨_, _, _, _, _, rfl⟩ := packet_or_sync source
      · exact ⟨source, hencode.trans (encodePacket_eq_ok.mpr ⟨hvalid, hfits, rfl⟩), rfl, hdistinct _⟩
      · exact absurd htype.2 (gossip_lt_sync _ _ _ _ _)
    · obtain ⟨-, exchangeId, chunkIndex, chunkCount, updates, hvalid, rfl, rfl, hnodup⟩ :=
        decodeSyncBody_eq_ok.mp h
      -- names that are distinct after decoding were distinct before
      have hdistinct : (updates.map MembershipUpdate.member).Nodup := by
        change ((updates.map (MembershipUpdate.mapText decoder.emit)).map _).Nodup at hnodup
        exact Nodup.of_map decoder.emit (by rwa [map_map] at hnodup ⊢)
      exact ⟨.sync kind exchangeId chunkIndex chunkCount updates,
        encodeSync_eq_ok.mpr ⟨hvalid, hdistinct, hword, by cases kind <;> rfl⟩, rfl, hnodup⟩
  · rintro ⟨source, hencode, rfl, hdistinct⟩
    obtain ⟨htype, hpacket, -⟩ | ⟨type, exchangeId, chunkIndex, chunkCount, updates, rfl⟩ :=
      packet_or_sync source
    · obtain ⟨hvalid, hfits, rfl⟩ := encodePacket_eq_ok.mp (hpacket.symm.trans hencode)
      have hword : (packetBody source).length ≤ 0xffff := by
        simp only [MESSAGE_HEADER_BYTES, MAX_PACKET_BYTES] at hfits
        omega
      exact ⟨source.type, packetBody source, htype.2.trans_lt (by decide), hword, rfl,
        Or.inl ⟨htype, hfits,
          (decodePacketBody_eq_ok htype).mpr ⟨rfl, source, rfl, hvalid, rfl, rfl⟩⟩⟩
    · obtain ⟨hvalid, -, hword, rfl⟩ := encodeSync_eq_ok.mp hencode
      refine ⟨_, _, ?_, hword, rfl, Or.inr ⟨type, ?_, decodeSyncBody_eq_ok.mpr
        ⟨rfl, exchangeId, chunkIndex, chunkCount, updates, hvalid, rfl, rfl, hdistinct⟩⟩⟩
      · cases type <;> exact Nat.le_of_ble_eq_true rfl
      · cases type <;> rfl

/-! ### Round trips -/

/-- The names in a message. -/
def MembershipMessage.texts (message : MembershipMessage) : List JsString :=
  message.names.map Prod.fst ++
    message.updates.flatMap (fun update => [update.member, update.reporter])

/-- No name of a message starts with a byte order mark. -/
def MembershipMessage.Unmarked (message : MembershipMessage) : Prop :=
  ∀ text ∈ message.texts, text.head? ≠ some byteOrderMark

instance (message : MembershipMessage) : Decidable message.Unmarked :=
  inferInstanceAs (Decidable (∀ text ∈ message.texts, _))

theorem MembershipUpdate.mapText_eq_self_iff :
    update.mapText f = update ↔ f update.member = update.member ∧
      f update.reporter = update.reporter := by
  cases update
  simp [MembershipUpdate.mapText]

theorem map_mapText_eq_self_iff {f : JsString → JsString} : ∀ {updates : List MembershipUpdate},
    updates.map (MembershipUpdate.mapText f) = updates ↔
      ∀ text ∈ updates.flatMap (fun update => [update.member, update.reporter]), f text = text
  | [] => by simp
  | update :: rest => by
      have ih := @map_mapText_eq_self_iff f rest
      simp only [map_cons, cons.injEq, ih, MembershipUpdate.mapText_eq_self_iff,
        flatMap_cons, forall_mem_append, forall_mem_cons]
      simp

/-- A message is kept exactly if each of its names is. -/
theorem MembershipMessage.mapText_eq_self_iff :
    message.mapText f = message ↔ ∀ text ∈ message.texts, f text = text := by
  rw [texts, forall_mem_append]
  cases message <;> simp [mapText, names, updates, map_mapText_eq_self_iff, and_assoc]

theorem Distinct_of_encode (h : encodeMessage message = .ok bytes) : message.Distinct := by
  cases message with
  | sync => exact (encodeSync_eq_ok.mp h).2.1
  | _ => trivial

/-- A decoder that keeps byte order marks inverts the encoder. -/
theorem decodeMessageWith_keep_eq_ok :
    decodeMessageWith ⟨true⟩ bytes = .ok message ↔ encodeMessage message = .ok bytes := by
  have hkeep : ∀ source : MembershipMessage, source.mapText (TextDecoder.emit ⟨true⟩) = source :=
    fun source => mapText_eq_self_iff.mpr fun _ _ => rfl
  simp only [decodeMessageWith_eq_ok, hkeep]
  constructor
  · rintro ⟨source, hencode, rfl, -⟩
    exact hencode
  · intro hencode
    exact ⟨message, hencode, rfl, Distinct_of_encode hencode⟩

/-- The code's decoder keeps a message exactly if none of its names is marked. -/
theorem mapText_emit_eq_self_iff :
    message.mapText Membership.decoder.emit = message ↔ message.Unmarked := by
  rw [mapText_eq_self_iff]
  exact forall₂_congr fun text _ => stripBom_eq_self_iff

/-- No name in the bytes of a message starts with a byte order mark. -/
def UnmarkedFrame (bytes : Bytes) : Prop :=
  ∀ source, decodeMessageWith ⟨true⟩ bytes = .ok source → source.Unmarked

/-- Decoding returns the encoded message exactly if no name of it starts with a byte order mark,
    and encoding returns the decoded bytes exactly if no name in the bytes does. -/
theorem membership_codec_round_trips (message : MembershipMessage) (bytes : Bytes) :
    (encodeMessage message = .ok bytes → (decodeMessage bytes = .ok message ↔ message.Unmarked)) ∧
    (decodeMessage bytes = .ok message →
      (encodeMessage message = .ok bytes ↔ UnmarkedFrame bytes)) :=
  round_trips (fun _ _ => decodeMessageWith_keep_eq_ok) (fun _ _ => decodeMessageWith_eq_ok)
    (fun _ _ => Distinct_of_encode) (fun _ => mapText_emit_eq_self_iff) message bytes

/-- A ping of the owner U+FEFF `a` comes back as one of `a`, and the bytes of a ping whose owner is
    U+FEFF alone decode to a message that cannot be encoded. -/
theorem marked_name_lost : (∃ bytes, encodeMessage (.ping 1 [0xFEFF, 97] [] []) = .ok bytes ∧
      decodeMessage bytes ≠ .ok (.ping 1 [0xFEFF, 97] [] [])) ∧
    ∃ message, decodeMessage [1, 1, 0, 10, 0, 0, 0, 1, 3, 0xEF, 0xBB, 0xBF, 0, 0] = .ok message ∧
      ∀ bytes, encodeMessage message ≠ .ok bytes := by
  refine ⟨⟨[1, 1, 0, 11, 0, 0, 0, 1, 4, 0xEF, 0xBB, 0xBF, 97, 0, 0], by decide +kernel,
    by decide +kernel⟩, .ping 1 [] [] [], by decide +kernel, fun bytes hencode => ?_⟩
  have herror : (encodeMessage (.ping 1 [] [] [])).toOption = none := by decide +kernel
  rw [hencode] at herror
  cases herror

/-- A ping of the owner `a` comes back, and so do its bytes. -/
theorem plain_name_kept :
    decodeMessage [1, 1, 0, 8, 0, 0, 0, 1, 1, 97, 0, 0] = .ok (.ping 1 [97] [] []) ∧
    encodeMessage (.ping 1 [97] [] []) = .ok [1, 1, 0, 8, 0, 0, 0, 1, 1, 97, 0, 0] := by
  have hencode : encodeMessage (.ping 1 [97] [] []) =
      .ok [1, 1, 0, 8, 0, 0, 0, 1, 1, 97, 0, 0] := by decide +kernel
  have hdecode := ((membership_codec_round_trips (.ping 1 [97] [] []) _).1 hencode).mpr
    (by decide +kernel)
  refine ⟨hdecode, ((membership_codec_round_trips _ _).2 hdecode).mpr fun source hsource => ?_⟩
  cases (decodeMessageWith_keep_eq_ok.mpr hencode).symm.trans hsource
  decide

end Nodeakt.Membership
