import Nodeakt.Schemes.Run
import Nodeakt.Kv.Replication
import Nodeakt.Kv.WireRoundTrip

/-! What a node stores and what it can send.

    The engine stores any key, value and expiry, and the limits of the wire are checked only when an
    entry is encoded: a local write is applied before its replicate message is. An entry that cannot
    be encoded makes its own write reject after the fact and every later page of its partition
    throw. `refused_writes_leave_no_trace`: in every run of writes within the limits and merges of
    frames whose keys and names are more than a byte order mark, a write that rejects for anything
    but its quorum left the store as it was, and every page encodes. -/

namespace Nodeakt.Kv
open Schemes JsString List Engine

variable {message : KvMessage} {engine : Engine}

/-! ### Entries that can be encoded -/

/-- A non-negative integer that a number holds exactly. -/
def IsUnsigned (value : Millis) : Prop := isSafeInteger value = true ∧ 0 ≤ value

instance (value : Millis) : Decidable (IsUnsigned value) := inferInstanceAs (Decidable (_ ∧ _))

instance (max : ℕ) (text : JsString) : Decidable (Writable max text) :=
  inferInstanceAs (Decidable (_ ∧ _ ∧ _ ∧ _))

theorem assertUnsignedInteger_eq_ok_iff {value : Millis} {field : String} {u : Unit} :
    assertUnsignedInteger value field = .ok u ↔ IsUnsigned value := by
  simp only [assertUnsignedInteger, refuse_eq_ok, not_or, Bool.not_eq_false, not_lt, IsUnsigned]

theorem IsUnsigned.max {a b : Millis} (ha : IsUnsigned a) (hb : IsUnsigned b) :
    IsUnsigned (max a b) := by
  rcases max_choice a b with h | h
  · rwa [h]
  · rwa [h]

/-- An entry within the limits of the wire. -/
structure Entry.Encodable (entry : Entry) : Prop where
  consistent : entry.deleted = entry.value.isNone
  sequence : entry.sequence < 256 ^ 8
  expiresAt : ∀ time ∈ entry.expiresAt, IsUnsigned time
  key : Writable MAX_KEY_BYTES entry.key
  wallMs : IsUnsigned entry.timestamp.wallMs
  logical : entry.timestamp.logical < 256 ^ 4
  node : Writable MAX_NAME_BYTES entry.timestamp.node
  value : ∀ value ∈ entry.value, value.length ≤ MAX_VALUE_BYTES

/-- An optional field is written exactly if its value is. -/
theorem writeOptional_total {α : Type} {write : α → Except KvError Bytes} {P : α → Prop}
    (h : ∀ a, (∃ block, write a = .ok block) ↔ P a) {value : Option α} :
    (∃ block, writeOptional write value = .ok block) ↔ ∀ a ∈ value, P a := by
  cases value with
  | none => simp [writeOptional, pure, Except.pure]
  | some a => simpa [writeOptional] using h a

theorem writeText_total {width max : ℕ} {text : JsString} {field : String} :
    (∃ block, writeText width max text field = .ok block) ↔ Writable max text := by
  simp only [writeText_eq_ok, exists_and_left, exists_eq, and_true]

theorem writeSafeU64_total {field : String} (value : Millis) :
    (∃ block, writeSafeU64 field value = .ok block) ↔ IsUnsigned value := by
  simp only [writeSafeU64, except_bind_eq_ok, except_pure_eq_ok, assertUnsignedInteger_eq_ok_iff,
    exists_const, exists_and_left, exists_eq', and_true]

theorem writeBlob_total {max : ℕ} {field : String} (bytes : Bytes) :
    (∃ block, writeBlob max field bytes = .ok block) ↔ bytes.length ≤ max := by
  simp only [writeBlob, except_bind_eq_ok, except_pure_eq_ok, refuse_eq_ok, exists_const,
    exists_and_left, exists_eq', and_true, not_lt]

theorem writeHybridTime_total {time : HybridTime} :
    (∃ block, writeHybridTime time = .ok block) ↔ IsUnsigned time.wallMs ∧
      time.logical < 256 ^ 4 ∧ Writable MAX_NAME_BYTES time.node := by
  simp only [writeHybridTime, except_bind_eq_ok, except_pure_eq_ok, assertUnsignedInteger_eq_ok_iff,
    assertU32_eq_ok, exists_const]
  constructor
  · rintro ⟨_, hwall, hlogical, node, hnode, rfl⟩
    exact ⟨hwall, hlogical, writeText_total.mp ⟨node, hnode⟩⟩
  · rintro ⟨hwall, hlogical, hnode⟩
    obtain ⟨node, hnode⟩ := writeText_total.mpr hnode
    exact ⟨_, hwall, hlogical, node, hnode, rfl⟩

/-- The codec takes an entry exactly if it is within its limits. -/
theorem writeEntry_total {entry : Entry} :
    (∃ block, writeEntry entry = .ok block) ↔ entry.Encodable := by
  have hexpiry := @writeOptional_total _ _ _ (@writeSafeU64_total "expiry") entry.expiresAt
  have hvalue := @writeOptional_total _ _ _ (@writeBlob_total MAX_VALUE_BYTES "value") entry.value
  simp only [writeEntry, except_bind_eq_ok, except_pure_eq_ok, refuse_eq_ok, assertU64_eq_ok,
    exists_const, ne_eq, not_not]
  constructor
  · rintro ⟨_, hconsistent, hsequence, expiry, he, key, hk, time, ht, value, hv, rfl⟩
    obtain ⟨hwall, hlogical, hnode⟩ := writeHybridTime_total.mp ⟨time, ht⟩
    exact ⟨hconsistent, hsequence, hexpiry.mp ⟨expiry, he⟩, writeText_total.mp ⟨key, hk⟩, hwall,
      hlogical, hnode, hvalue.mp ⟨value, hv⟩⟩
  · intro h
    obtain ⟨expiry, he⟩ := hexpiry.mpr h.expiresAt
    obtain ⟨key, hk⟩ := writeText_total.mpr h.key
    obtain ⟨time, ht⟩ := writeHybridTime_total.mpr ⟨h.wallMs, h.logical, h.node⟩
    obtain ⟨value, hv⟩ := hvalue.mpr h.value
    exact ⟨_, h.consistent, h.sequence, expiry, he, key, hk, time, ht, value, hv, rfl⟩

theorem encodeMessage_total :
    (∃ bytes, encodeMessage message = .ok bytes) ↔ ∃ block, encodeBody message = .ok block := by
  simp only [encodeMessage, writeTagged, except_bind_eq_ok, except_pure_eq_ok]
  constructor
  · rintro ⟨_, _, ⟨block, h, rfl⟩, rfl⟩
    exact ⟨block, h⟩
  · rintro ⟨block, h⟩
    exact ⟨_, _, ⟨block, h, rfl⟩, rfl⟩

/-- Several values are written exactly if each is. -/
theorem writeAll_total {α : Type} {write : α → Except KvError Bytes} {P : α → Prop}
    (h : ∀ a, (∃ block, write a = .ok block) ↔ P a) : ∀ {values : List α},
    (∃ block, writeAll write values = .ok block) ↔ ∀ value ∈ values, P value
  | [] => by simp [writeAll, pure, Except.pure]
  | value :: rest => by
      have ih := @writeAll_total _ write P h rest
      rw [forall_mem_cons, ← h, ← ih]
      simp only [writeAll_cons_eq_ok]
      constructor
      · rintro ⟨_, first, others, hfirst, hothers, rfl⟩
        exact ⟨⟨first, hfirst⟩, others, hothers⟩
      · rintro ⟨⟨first, hfirst⟩, others, hothers⟩
        exact ⟨_, first, others, hfirst, hothers, rfl⟩

theorem writeChunk_total {chunk : FragmentChunk} :
    (∃ block, writeChunk chunk = .ok block) ↔ chunk.partitionId < 256 ^ 4 ∧
      chunk.entries.length ≤ MAX_CHUNK_ENTRIES ∧ ∀ entry ∈ chunk.entries, entry.Encodable := by
  simp only [writeChunk, writePartitionField, writeU32, writeList, except_bind_eq_ok,
    except_pure_eq_ok, assertU32_eq_ok, refuse_eq_ok, exists_const, not_lt,
    ← writeAll_total (fun _ => writeEntry_total)]
  constructor
  · rintro ⟨_, _, ⟨hpartition, rfl⟩, _, ⟨hcount, block, hblock, rfl⟩, rfl⟩
    exact ⟨hpartition, hcount, block, hblock⟩
  · rintro ⟨hpartition, hcount, block, hblock⟩
    exact ⟨_, _, ⟨hpartition, rfl⟩, _, ⟨hcount, block, hblock, rfl⟩, rfl⟩

/-! ### Pages -/

/-- Every entry counts for its fixed overhead, so a page is bounded. -/
theorem length_fillPage_le : ∀ (entries : List Entry) (taken bytes : ℕ), 0 < taken →
    bytes + (fillPage taken bytes entries).length * ENTRY_OVERHEAD_BYTES ≤
      max bytes FRAGMENT_CHUNK_BYTES
  | [], _, _, _ => by simp [fillPage]
  | entry :: rest, taken, bytes, htaken => by
      have hsize : ENTRY_OVERHEAD_BYTES ≤ approximateEntrySize entry := by
        unfold approximateEntrySize
        omega
      rw [fillPage]
      split_ifs with hfits
      · simp
      · have ih := length_fillPage_le rest (taken + 1) (bytes + approximateEntrySize entry)
          (Nat.succ_pos taken)
        have hroom : bytes + approximateEntrySize entry ≤ FRAGMENT_CHUNK_BYTES := by
          by_contra hover
          exact hfits ⟨htaken, not_le.mp hover⟩
        rw [length_cons, Nat.succ_mul]
        omega

/-- A page never has more entries than the codec allows. -/
theorem length_page_le (sorted : List Entry) (partition : ℕ) (afterKey : Option JsString) :
    (pageAfter sorted partition afterKey).entries.length ≤ MAX_CHUNK_ENTRIES := by
  simp only [pageAfter]
  cases remaining sorted afterKey with
  | nil => simp [fillPage]
  | cons entry rest =>
    have h := length_fillPage_le rest 1 (0 + approximateEntrySize entry) Nat.one_pos
    rw [fillPage, if_neg (by simp), length_cons, zero_add 1]
    simp only [ENTRY_OVERHEAD_BYTES, FRAGMENT_CHUNK_BYTES, MAX_CHUNK_ENTRIES] at h ⊢
    omega

/-! ### Merged entries -/

/-- The entries of a message that its receiver merges. -/
def KvMessage.entries : KvMessage → List Entry
  | .replicate entry => [entry]
  | .readResponse entry => entry.toList
  | .fragmentPush chunk => chunk.entries
  | .fragmentChunk chunk => chunk.entries
  | _ => []

/-- What was encoded is within the limits. -/
theorem Encodable_of_encode {bytes : Bytes} (h : encodeMessage message = .ok bytes) :
    ∀ entry ∈ message.entries, entry.Encodable := by
  obtain ⟨block, hbody⟩ := encodeMessage_total.mp ⟨bytes, h⟩
  cases message with
  | replicate entry => simpa [KvMessage.entries] using writeEntry_total.mp ⟨block, hbody⟩
  | readResponse entry =>
    simp only [encodeBody, writeOptionalEntry, writeFlagged, except_bind_eq_ok] at hbody
    obtain ⟨inner, hinner, -⟩ := hbody
    have hall := (writeOptional_total fun entry => @writeEntry_total entry).mp ⟨inner, hinner⟩
    simpa [KvMessage.entries] using hall
  | fragmentPush chunk | fragmentChunk chunk => exact (writeChunk_total.mp ⟨block, hbody⟩).2.2
  | _ => exact fun _ hmem => absurd hmem not_mem_nil

/-- A text stays within the limits without its leading mark, unless nothing is left of it. -/
theorem Writable.stripBom {max : ℕ} {text : JsString} (h : Writable max text)
    (hmark : text ≠ [byteOrderMark]) : Writable max (stripBom text) := by
  obtain ⟨hzero, hne, hlength, hformed⟩ := h
  obtain ⟨hformed', hle⟩ := stripBom_formed hformed
  refine ⟨mt zero_mem_stripBom.mp hzero, fun hempty => ?_, hle.trans hlength, hformed'⟩
  rw [encodeUtf8_eq_nil hformed'] at hempty
  rw [ne_eq, encodeUtf8_eq_nil hformed] at hne
  cases text with
  | nil => exact hne rfl
  | cons u rest =>
    rw [JsString.stripBom] at hempty
    split_ifs at hempty with hu
    exact hmark (by rw [hu, hempty])

/-- The keys and names of the entries in a frame are more than a byte order mark. -/
def Named (bytes : Bytes) : Prop := match decodeMessageWith ⟨true⟩ bytes with
  | .ok source => ∀ entry ∈ source.entries,
      entry.key ≠ [byteOrderMark] ∧ entry.timestamp.node ≠ [byteOrderMark]
  | .error _ => True

instance (bytes : Bytes) : Decidable (Named bytes) := by
  unfold Named
  split <;> infer_instance

/-- What a node merges of a frame is within the limits. -/
theorem Encodable_of_decode {bytes : Bytes} (hnamed : Named bytes)
    (h : decodeMessage bytes = .ok message) : ∀ entry ∈ message.entries, entry.Encodable := by
  obtain ⟨source, hsource, rfl⟩ := decodeMessageWith_eq_ok.mp h
  rw [Named, decodeMessageWith_keep_eq_ok.mpr hsource] at hnamed
  have hentries : (source.mapText Kv.decoder.emit).entries =
      source.entries.map (Entry.mapText Kv.decoder.emit) := by
    cases source with
    | readResponse entry => cases entry <;> rfl
    | _ => rfl
  rw [hentries]
  intro entry hmem
  obtain ⟨original, horiginal, rfl⟩ := mem_map.mp hmem
  have henc := Encodable_of_encode hsource original horiginal
  obtain ⟨hkey, hnode⟩ := hnamed original horiginal
  exact ⟨henc.consistent, henc.sequence, henc.expiresAt, henc.key.stripBom hkey, henc.wallMs,
    henc.logical, henc.node.stripBom hnode, henc.value⟩

/-! ### The node -/

/-- A node that routes, stores and merges. -/
structure StoringNode where
  router : Replicator
  engine : Engine

/-- What reaches a node: writes of its own, writes forwarded to it, and frames whose entries it
    merges. -/
inductive IntakeEvent where
  | install (table : RoutingTable) (ring : PartitionRing)
  | write (op : WriteOp) (recovering : Bool) (nowMs physical : Millis)
  | serve (op : WriteOp) (recovering : Bool) (nowMs physical : Millis)
  | merge (bytes : Bytes)
  | sweep (nowMs : Millis)
  | drop (partition : ℕ)

namespace StoringNode

/-- A fresh node. -/
def create (router : Replicator) (partitionCount : ℕ) (positive : 0 < partitionCount) :
    StoringNode :=
  ⟨router, Engine.create router.self partitionCount positive⟩

/-- A proposal: the engine applies the operation, and only then its entry is encoded for the
    backups. The result is `none` while the quorum is awaited. -/
def propose (node : StoringNode) (op : WriteOp) (replicas : List JsString)
    (nowMs physical : Millis) (settled : List (JsString × Bool)) :
    Option (Except KvError WriteResult) × Engine :=
  match node.router.propose node.engine op replicas nowMs physical with
  | (.inl result, engine) => (some result, engine)
  | (.inr proposal, engine) =>
    ({ proposal with settled := settled }.outcome node.router.writeQuorum, engine)

/-- A write issued at this node; a forwarded one is settled elsewhere. -/
def write (node : StoringNode) (op : WriteOp) (recovering : Bool) (nowMs physical : Millis)
    (settled : List (JsString × Bool)) : Option (Except KvError WriteResult) × Engine :=
  match node.router.write op (node.engine.partitionFor op.key) recovering with
  | .error e => (some (.error e), node.engine)
  | .ok (.forward _) => (none, node.engine)
  | .ok (.propose replicas) => node.propose op replicas nowMs physical settled

/-- A write forwarded to this node. -/
def serve (node : StoringNode) (op : WriteOp) (recovering : Bool) (nowMs physical : Millis) :
    Engine :=
  match node.router.serveWrite op (node.engine.partitionFor op.key) recovering with
  | .ok (.propose replicas) => (node.propose op replicas nowMs physical []).2
  | _ => node.engine

/-- Merges the entries of a frame; a malformed one is ignored. -/
def merge (node : StoringNode) (bytes : Bytes) : Engine := match decodeMessage bytes with
  | .ok message => message.entries.foldl Engine.merge node.engine
  | .error _ => node.engine

/-- One event. -/
def step (node : StoringNode) : IntakeEvent → Option StoringNode
  | .install table ring => some { node with router := node.router.install table ring }
  | .write op recovering nowMs physical =>
    some { node with engine := (node.write op recovering nowMs physical []).2 }
  | .serve op recovering nowMs physical =>
    some { node with engine := node.serve op recovering nowMs physical }
  | .merge bytes => some { node with engine := node.merge bytes }
  | .sweep nowMs => some { node with engine := node.engine.sweep nowMs }
  | .drop partition => some { node with engine := node.engine.drop partition }

/-! ### Runs within the limits -/

/-- The operation's own fields are within the limits. -/
def Fits (nowMs : Millis) (op : WriteOp) : Prop := Writable MAX_KEY_BYTES op.key ∧ match op with
    | .put _ value _ ttlMs => value.length ≤ MAX_VALUE_BYTES ∧
        ∀ ttl ∈ ttlMs, IsUnsigned (nowMs + ttl)
    | .compareAndSet _ _ value => value.length ≤ MAX_VALUE_BYTES
    | _ => True

instance (nowMs : Millis) (op : WriteOp) : Decidable (Fits nowMs op) := by
  unfold Fits
  cases op <;> infer_instance

/-- The clock reading and both counters of the engine have room for one more stamp. -/
def HasRoom (engine : Engine) (key : JsString) (physical : Millis) : Prop :=
  IsUnsigned physical ∧ engine.clock.logical + 1 < 256 ^ 4 ∧
    engine.nextSequence (engine.partitionFor key) < 256 ^ 8

instance (engine : Engine) (key : JsString) (physical : Millis) :
    Decidable (HasRoom engine key physical) := inferInstanceAs (Decidable (_ ∧ _ ∧ _))

/-- Writes are within the limits, and merged frames name their entries. -/
def WithinLimits (node : StoringNode) : IntakeEvent → Prop
  | .write op _ nowMs physical => Fits nowMs op ∧ HasRoom node.engine op.key physical
  | .serve op _ nowMs physical => Fits nowMs op ∧ HasRoom node.engine op.key physical
  | .merge bytes => Named bytes
  | _ => True

instance (node : StoringNode) (event) : Decidable (node.WithinLimits event) := by
  rcases event <;> dsimp only [WithinLimits] <;> infer_instance

/-- Everything stored can be encoded, and so can what the clock stamps. -/
structure Transferable (engine : Engine) : Prop where
  stored : ∀ key entry, engine.peek key = some entry → entry.Encodable
  wallMs : IsUnsigned engine.clock.wallMs
  node : Writable MAX_NAME_BYTES engine.clock.node

theorem transferable_create {router : Replicator} {partitionCount : ℕ}
    {positive : 0 < partitionCount} (hname : Writable MAX_NAME_BYTES router.self) :
    Transferable (create router partitionCount positive).engine :=
  ⟨nofun, (by decide : IsUnsigned 0), hname⟩

theorem Transferable.merge (h : Transferable engine) {entry : Entry} (hentry : entry.Encodable) :
    Transferable (engine.merge entry) := by
  refine ⟨fun key found hfound => ?_, h.wallMs, h.node⟩
  rcases peek_merge_cases hfound with hold | rfl
  · exact h.stored key found hold
  · exact hentry

theorem Transferable.merges : ∀ {entries : List Entry} {engine : Engine}, Transferable engine →
    (∀ entry ∈ entries, entry.Encodable) → Transferable (entries.foldl Engine.merge engine)
  | [], _, h, _ => h
  | entry :: rest, engine, h, hall => by
      rw [foldl_cons]
      exact (h.merge (hall entry (mem_cons_self ..))).merges
        fun other hother => hall other (mem_cons_of_mem _ hother)

theorem Transferable.sweep (h : Transferable engine) (nowMs : Millis) :
    Transferable (engine.sweep nowMs) :=
  ⟨fun key entry hentry => h.stored key entry (peek_of_sweep hentry), h.wallMs, h.node⟩

theorem Transferable.drop (h : Transferable engine) (partition : ℕ) :
    Transferable (engine.drop partition) :=
  ⟨fun key entry hentry => h.stored key entry (peek_of_drop hentry), h.wallMs, h.node⟩

/-- What an operation within the limits commits is within the limits: a fresh payload is the
    operation's own or a counter, and a kept expiry was stored. -/
theorem decideOp_within {op : WriteOp} {current : Option Entry} {nowMs : Millis}
    {value : Option Bytes} {expiresAt : Option Millis} (hfits : Fits nowMs op)
    (hcurrent : ∀ entry, current = some entry → entry.Encodable)
    (h : Engine.decideOp op current nowMs = .ok (.inl (value, expiresAt))) :
    (∀ bytes ∈ value, bytes.length ≤ MAX_VALUE_BYTES) ∧ ∀ time ∈ expiresAt, IsUnsigned time := by
  have hcounter : ∀ n, (encodeCounter n).length ≤ MAX_VALUE_BYTES := fun n =>
    Nat.le_of_ble_eq_true rfl
  have hkept : ∀ time ∈ current.bind Entry.expiresAt, IsUnsigned time := by
    intro time htime
    obtain ⟨entry, hentry, hexpires⟩ := Option.bind_eq_some_iff.mp htime
    exact (hcurrent entry hentry).expiresAt time hexpires
  cases commits_of_decideOp h with
  | put =>
    obtain ⟨-, hpayload, httl⟩ := hfits
    refine ⟨by simpa using hpayload, fun time htime => ?_⟩
    obtain ⟨ttl, hmem, rfl⟩ := Option.map_eq_some_iff.mp htime
    exact httl ttl hmem
  | delete => exact ⟨nofun, nofun⟩
  | increment sum => exact ⟨by simpa using hcounter sum, hkept⟩
  | compareAndSet => exact ⟨by simpa using hfits.2, hkept⟩

/-- An applied write within the limits stamps an entry within the limits. -/
theorem Transferable.write {engine engine' : Engine} (h : Transferable engine) {op : WriteOp}
    {nowMs physical : Millis} (hfits : Fits nowMs op) (hroom : HasRoom engine op.key physical)
    {entry : Entry} (hwrite : engine.write op nowMs physical = (.ok (.applied entry), engine')) :
    entry.Encodable ∧ Transferable engine' := by
  obtain ⟨value, expiresAt, hdecide, rfl, rfl⟩ := write_applied hwrite
  have hcurrent : ∀ entry, engine.liveValue op.key nowMs = some entry → entry.Encodable :=
    fun entry hlive => h.stored op.key entry (liveValue_eq_some.mp hlive).1
  obtain ⟨hvalue, hexpiry⟩ := decideOp_within hfits hcurrent hdecide
  have hwall : IsUnsigned (max engine.clock.wallMs physical) := h.wallMs.max hroom.1
  have hlogical : (engine.clock.tick physical).logical < 256 ^ 4 := by
    simp only [HybridClock.tick]
    split
    · exact hroom.2.1
    · exact Nat.pow_pos (by decide)
  have hentry : (engine.commitEntry op.key value expiresAt physical).Encodable :=
    ⟨rfl, hroom.2.2, hexpiry, hfits.1, hwall, hlogical, h.node, hvalue⟩
  refine ⟨hentry, fun key found hfound => ?_, hwall, h.node⟩
  rcases peek_commit_cases hfound with hold | rfl
  · exact h.stored key found hold
  · exact hentry

/-- Once its entry is encoded, a proposal fails only for its quorum. -/
theorem outcome_error {proposal : Proposal} {writeQuorum : ℕ} {e : KvError}
    (h : proposal.outcome writeQuorum = some (.error e)) : ∃ got need, e = .quorum got need := by
  unfold Proposal.outcome at h
  split at h
  · cases h
  split at h
  · cases h
  split at h
  · cases h
    exact ⟨_, _, rfl⟩
  · cases h

variable {node : StoringNode} {op : WriteOp} {nowMs physical : Millis}

/-- A proposal within the limits keeps the store transferable, and what it refuses for anything but
    the quorum it has not applied. -/
theorem Transferable.propose (h : Transferable node.engine) (hfits : Fits nowMs op)
    (hroom : HasRoom node.engine op.key physical) (replicas : List JsString)
    (settled : List (JsString × Bool)) :
    Transferable (node.propose op replicas nowMs physical settled).2 ∧
      ∀ e, (node.propose op replicas nowMs physical settled).1 = some (.error e) →
        (∀ got need, e ≠ .quorum got need) →
          (node.propose op replicas nowMs physical settled).2 = node.engine := by
  unfold StoringNode.propose Replicator.propose
  rcases hwrite : node.engine.write op nowMs physical with ⟨result, engine'⟩
  rcases result with e | (entry | reason)
  · obtain rfl := write_unapplied hwrite nofun
    exact ⟨h, fun _ _ _ => rfl⟩
  · obtain ⟨hentry, hengine⟩ := h.write hfits hroom hwrite
    obtain ⟨bytes, hbytes⟩ : ∃ bytes, encodeMessage (.replicate entry) = .ok bytes :=
      encodeMessage_total.mpr (writeEntry_total.mpr hentry)
    simp only [replicate_eq_ok.mpr ⟨⟨bytes, hbytes⟩, rfl⟩]
    refine ⟨hengine, fun e he hquorum => ?_⟩
    obtain ⟨got, need, rfl⟩ := outcome_error he
    exact absurd rfl (hquorum got need)
  · obtain rfl := write_unapplied hwrite nofun
    exact ⟨h, fun _ _ _ => rfl⟩

theorem Transferable.write_node (h : Transferable node.engine) (hfits : Fits nowMs op)
    (hroom : HasRoom node.engine op.key physical) (recovering : Bool)
    (settled : List (JsString × Bool)) :
    Transferable (node.write op recovering nowMs physical settled).2 ∧
      ∀ e, (node.write op recovering nowMs physical settled).1 = some (.error e) →
        (∀ got need, e ≠ .quorum got need) →
          (node.write op recovering nowMs physical settled).2 = node.engine := by
  unfold StoringNode.write
  split
  · exact ⟨h, fun _ _ _ => rfl⟩
  · exact ⟨h, nofun⟩
  · exact h.propose hfits hroom _ settled

theorem Transferable.step {node' : StoringNode} {event : IntakeEvent}
    (h : Transferable node.engine) (hlimits : node.WithinLimits event)
    (hstep : node.step event = some node') : Transferable node'.engine := by
  cases event with
  | install table ring =>
    cases hstep
    exact h
  | write op recovering nowMs physical =>
    cases hstep
    exact (h.write_node hlimits.1 hlimits.2 recovering []).1
  | serve op recovering nowMs physical =>
    cases hstep
    simp only [serve]
    split
    · exact (h.propose hlimits.1 hlimits.2 _ []).1
    · exact h
  | merge bytes =>
    cases hstep
    simp only [StoringNode.merge]
    split
    · rename_i message hmessage
      exact h.merges (Encodable_of_decode hlimits hmessage)
    · exact h
  | sweep nowMs =>
    cases hstep
    exact h.sweep nowMs
  | drop partition =>
    cases hstep
    exact h.drop partition

/-- Every page of a transferable store encodes. -/
theorem Transferable.page (h : Transferable engine) {partition : ℕ}
    (hpartition : partition < 256 ^ 4) (afterKey : Option JsString) :
    ∃ bytes, encodeMessage (.fragmentChunk (servePage engine partition afterKey)) = .ok bytes := by
  refine encodeMessage_total.mpr (writeChunk_total.mpr ⟨hpartition, length_page_le .., ?_⟩)
  intro entry hentry
  exact h.stored entry.key entry (mem_sortedFragment.mp (mem_page hentry)).2

/-- In every run within the limits, a write within the limits that is refused for anything but its
    quorum leaves every partition as it was, every stored entry can be encoded, and so can every
    page. -/
theorem refused_writes_leave_no_trace {router : Replicator} {partitionCount : ℕ}
    {positive : 0 < partitionCount} (hname : Writable MAX_NAME_BYTES router.self)
    (hcount : partitionCount ≤ 256 ^ 4) {events : List IntakeEvent} {node : StoringNode}
    (hlimits : Meets StoringNode.step WithinLimits (create router partitionCount positive) events)
    (hrun : run StoringNode.step (create router partitionCount positive) events = some node) :
    (∀ op recovering nowMs physical settled e,
      node.WithinLimits (.write op recovering nowMs physical) →
      (node.write op recovering nowMs physical settled).1 = some (.error e) →
      (∀ got need, e ≠ .quorum got need) → ∀ partition,
        (node.write op recovering nowMs physical settled).2.snapshot partition =
          node.engine.snapshot partition) ∧
    (∀ partition, ∀ entry ∈ node.engine.snapshot partition,
      ∃ bytes, encodeMessage (.replicate entry) = .ok bytes) ∧
    ∀ partition < partitionCount, ∀ afterKey,
      ∃ bytes, encodeMessage (.fragmentChunk (servePage node.engine partition afterKey)) =
        .ok bytes := by
  have htransfer : Transferable node.engine :=
    run_preserves (P := fun node => Transferable node.engine)
      (fun _ _ _ h hcond hstep => h.step hcond hstep) (transferable_create hname) hlimits hrun
  refine ⟨?_, ?_, ?_⟩
  · intro op recovering nowMs physical settled e hwithin herror hquorum partition
    rw [(htransfer.write_node hwithin.1 hwithin.2 recovering settled).2 e herror hquorum]
  · intro partition entry hentry
    exact encodeMessage_total.mpr (writeEntry_total.mpr
      (htransfer.stored entry.key entry (Engine.mem_snapshot.mp hentry).2))
  · intro partition hpartition afterKey
    exact htransfer.page (hpartition.trans_le hcount) afterKey

/-- Node `a` routes alone, with one partition. -/
def soleRouter : Replicator := ⟨[97], 1, .sync, 1, some (soleOwner 1 [97], ringA)⟩

/-- A put of the empty key is refused because it cannot be encoded, but it is stored, and the
    partition's page throws from then on. -/
theorem refused_write_stored : let node := create soleRouter 1 Nat.one_pos
    let outcome := node.write (.put [] [1] .none none) false 5 5 []
    outcome.1 = some (.error (.protocol "key length is out of range")) ∧
      node.engine.snapshot 0 = [] ∧ outcome.2.snapshot 0 ≠ [] ∧
      encodeMessage (.fragmentChunk (servePage outcome.2 0 none)) =
        .error (.protocol "key length is out of range") := by
  decide +kernel

/-- The replicate frame of an entry of `l` that `b` stamped. -/
def frameOfB : Bytes :=
  [1, 5, 0, 0, 1, 108, 0, 0, 0, 0, 0, 0, 0, 7, 0, 0, 0, 0, 1, 98, 0, 0, 0, 0, 0, 0, 0, 1, 0, 0, 0, 1,
    9]

/-- Node `a` puts `k` with a TTL and merges what `b` replicates. -/
def intakeOfTwo : List IntakeEvent :=
  [.write (.put [107] [1] .none (some 1000)) false 5 5, .merge frameOfB]

/-- Both entries are stored, their page encodes, and a refused increment of `k` changes nothing. -/
theorem stored_page_encodes : ∃ node,
    run step (create soleRouter 1 Nat.one_pos) intakeOfTwo = some node ∧
      (node.engine.snapshot 0).length = 2 ∧
      (node.write (.increment [107] 1) false 6 6 []).2.snapshot 0 = node.engine.snapshot 0 ∧
      ∃ bytes, encodeMessage (.fragmentChunk (servePage node.engine 0 none)) = .ok bytes := by
  have hlimits : Meets step WithinLimits (create soleRouter 1 Nat.one_pos) intakeOfTwo := by
    decide +kernel
  refine ends_imp (P := fun node => (node.engine.snapshot 0).length = 2 ∧
      node.WithinLimits (.write (.increment [107] 1) false 6 6) ∧
      (node.write (.increment [107] 1) false 6 6 []).1 =
        some (.error (.typeError "increment target is not an eight-byte counter")))
    (by decide +kernel) ?_
  rintro node hrun ⟨htwo, hwithin, hrefused⟩
  obtain ⟨hkept, -, hpages⟩ :=
    refused_writes_leave_no_trace (by decide +kernel) (by decide) hlimits hrun
  exact ⟨htwo, hkept _ _ _ _ _ _ hwithin hrefused nofun 0, hpages 0 Nat.one_pos none⟩

end StoringNode

end Nodeakt.Kv
