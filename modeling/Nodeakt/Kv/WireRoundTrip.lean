import Nodeakt.Kv.Wire

/-! What the codec reads of what it wrote.

    Every reader is exact for its writer up to what the text decoder makes of the keys and names:
    the rules of `Schemes.Codec` are applied format by format. A decoder that keeps byte order marks
    is the inverse of the encoder on all accepted bytes, and the code's own drops a leading mark from
    each key and name (`codec_round_trips`). -/

namespace Nodeakt.Kv
open Schemes JsString KvMessage List
open Reader (bind_eq_ok pure_eq_ok ofExcept_eq_ok fail_eq_ok ite_cases)

variable {f : JsString → JsString} {α : Type} {message : KvMessage} {field : String} {u : Unit}
  {width : ℕ} {block bytes rest : Bytes} {op : WriteOp} {write : α → Except KvError Bytes}
  {read : Reader KvError α} {emit : α → α}

/-! ### Texts of a message -/

def HybridTime.mapText (f : JsString → JsString) (time : HybridTime) : HybridTime :=
  { time with node := f time.node }

def Entry.mapText (f : JsString → JsString) (entry : Entry) : Entry :=
  { entry with key := f entry.key, timestamp := entry.timestamp.mapText f }

def WriteOp.mapText (f : JsString → JsString) : WriteOp → WriteOp
  | .put key value condition ttlMs => .put (f key) value condition ttlMs
  | .delete key => .delete (f key)
  | .increment key delta => .increment (f key) delta
  | .compareAndSet key expected value => .compareAndSet (f key) expected value

def WriteResult.mapText (f : JsString → JsString) : WriteResult → WriteResult
  | .applied entry => .applied (entry.mapText f)
  | .rejected reason => .rejected reason

def KeyVersion.mapText (f : JsString → JsString) (version : KeyVersion) : KeyVersion :=
  ⟨f version.key, version.timestamp.mapText f⟩

def FragmentChunk.mapText (f : JsString → JsString) (chunk : FragmentChunk) : FragmentChunk :=
  { chunk with entries := chunk.entries.map (Entry.mapText f) }

def OwnershipReport.mapText (f : JsString → JsString) (report : OwnershipReport) :
    OwnershipReport :=
  { report with node := f report.node }

def RoutingTableWire.mapText (f : JsString → JsString) (table : RoutingTableWire) :
    RoutingTableWire :=
  { table with partitions := table.partitions.map (List.map f) }

/-- Applies `f` to every key and name of a message. -/
def KvMessage.mapText (f : JsString → JsString) : KvMessage → KvMessage
  | .readRequest key => .readRequest (f key)
  | .readResponse entry => .readResponse (entry.map (Entry.mapText f))
  | .writeRequest op => .writeRequest (op.mapText f)
  | .writeResponse result => .writeResponse (result.mapText f)
  | .table wire => .table (wire.mapText f)
  | .fragmentChunk chunk => .fragmentChunk (chunk.mapText f)
  | .ownershipReport report => .ownershipReport (report.mapText f)
  | .replicate entry => .replicate (entry.mapText f)
  | .replicateAck => .replicateAck
  | .peekRequest key => .peekRequest (f key)
  | .rebalancing partitionId => .rebalancing partitionId
  | .fragmentRequest partitionId afterKey => .fragmentRequest partitionId (afterKey.map f)
  | .fragmentPush chunk => .fragmentPush (chunk.mapText f)
  | .fragmentAck => .fragmentAck
  | .syncDigest partitionId digest => .syncDigest partitionId digest
  | .bucketDigests partitionId digests => .bucketDigests partitionId digests
  | .keyVersionsRequest partitionId buckets => .keyVersionsRequest partitionId buckets
  | .keyVersions partitionId versions =>
    .keyVersions partitionId (versions.map (KeyVersion.mapText f))
  | .entriesRequest partitionId keys => .entriesRequest partitionId (keys.map f)

def WriteResult.texts : WriteResult → List JsString
  | .applied entry => [entry.key, entry.timestamp.node]
  | .rejected _ => []

/-- The keys and names of a message. -/
def KvMessage.texts : KvMessage → List JsString
  | .readRequest key => [key]
  | .readResponse entry => entry.toList.flatMap (fun entry => [entry.key, entry.timestamp.node])
  | .writeRequest op => [op.key]
  | .writeResponse result => result.texts
  | .table wire => wire.partitions.flatten
  | .fragmentChunk chunk => chunk.entries.flatMap (fun entry => [entry.key, entry.timestamp.node])
  | .ownershipReport report => [report.node]
  | .replicate entry => [entry.key, entry.timestamp.node]
  | .peekRequest key => [key]
  | .fragmentRequest _ afterKey => afterKey.toList
  | .fragmentPush chunk => chunk.entries.flatMap (fun entry => [entry.key, entry.timestamp.node])
  | .keyVersions _ versions =>
    versions.flatMap (fun version => [version.key, version.timestamp.node])
  | .entriesRequest _ keys => keys
  | _ => []

/-- No key or name starts with a byte order mark. -/
def KvMessage.Unmarked (message : KvMessage) : Prop :=
  ∀ text ∈ message.texts, text.head? ≠ some byteOrderMark

instance (message : KvMessage) : Decidable message.Unmarked :=
  inferInstanceAs (Decidable (∀ text ∈ message.texts, _))

theorem Entry.mapText_eq_self_iff {entry : Entry} :
    entry.mapText f = entry ↔ f entry.key = entry.key ∧
      f entry.timestamp.node = entry.timestamp.node := by
  obtain ⟨key, value, ⟨wallMs, logical, node⟩, sequence, expiresAt, deleted⟩ := entry
  simp [Entry.mapText, HybridTime.mapText]

theorem KeyVersion.mapText_eq_self_iff {version : KeyVersion} :
    version.mapText f = version ↔ f version.key = version.key ∧
      f version.timestamp.node = version.timestamp.node := by
  obtain ⟨key, ⟨wallMs, logical, node⟩⟩ := version
  simp [KeyVersion.mapText, HybridTime.mapText]

theorem forall_mem_pairs {P : JsString → Prop} {first second : α → JsString} {values : List α} :
    (∀ text ∈ values.flatMap (fun value => [first value, second value]), P text) ↔
      ∀ value ∈ values, P (first value) ∧ P (second value) := by
  simp only [forall_mem_flatMap, forall_mem_cons, not_mem_nil, false_imp_iff,
    implies_true, and_true]

theorem map_eq_self_iff {f : α → α} {values : List α} :
    values.map f = values ↔ ∀ value ∈ values, f value = value := by
  constructor
  · intro h value hvalue
    exact map_eq_map_iff.mp (h.trans (map_id values).symm) value hvalue
  · intro h
    exact (map_congr_left h).trans (map_id values)

theorem FragmentChunk.mapText_eq_self_iff {chunk : FragmentChunk} :
    chunk.mapText f = chunk ↔ ∀ entry ∈ chunk.entries, entry.mapText f = entry := by
  obtain ⟨partitionId, final, entries⟩ := chunk
  simp [FragmentChunk.mapText, map_eq_self_iff]

/-- A message is kept exactly if each of its texts is. -/
theorem KvMessage.mapText_eq_self_iff :
    message.mapText f = message ↔ ∀ text ∈ message.texts, f text = text := by
  cases message with
  | readResponse entry =>
    cases entry <;> simp [mapText, texts, Entry.mapText_eq_self_iff]
  | writeRequest op =>
    cases op <;> simp [mapText, texts, WriteOp.mapText, WriteOp.key]
  | writeResponse result =>
    cases result <;> simp [mapText, texts, WriteResult.mapText, WriteResult.texts,
        Entry.mapText_eq_self_iff]
  | table wire =>
    obtain ⟨version, partitions⟩ := wire
    simp only [mapText, texts, RoutingTableWire.mapText, table.injEq,
      RoutingTableWire.mk.injEq, true_and, map_eq_self_iff, mem_flatten]
    constructor
    · rintro h text ⟨owners, howners, htext⟩
      exact h owners howners text htext
    · exact fun h owners howners text htext => h text ⟨owners, howners, htext⟩
  | fragmentChunk chunk =>
    rw [texts, forall_mem_pairs]
    simp [mapText, FragmentChunk.mapText_eq_self_iff, Entry.mapText_eq_self_iff]
  | fragmentPush chunk =>
    rw [texts, forall_mem_pairs]
    simp [mapText, FragmentChunk.mapText_eq_self_iff, Entry.mapText_eq_self_iff]
  | ownershipReport report =>
    obtain ⟨node, partitions⟩ := report
    simp [mapText, texts, OwnershipReport.mapText]
  | fragmentRequest partitionId afterKey =>
    cases afterKey <;> simp [mapText, texts]
  | keyVersions partitionId versions =>
    rw [texts, forall_mem_pairs]
    simp [mapText, map_eq_self_iff, KeyVersion.mapText_eq_self_iff]
  | entriesRequest partitionId keys => simp [mapText, texts, map_eq_self_iff]
  | _ => simp [mapText, texts, Entry.mapText_eq_self_iff]

/-! ### Numbers and texts -/

theorem isSafeInteger_iff {value : Millis} :
    isSafeInteger value = true ↔ value.den = 1 ∧ |value| ≤ (MAX_SAFE_INTEGER : Millis) := by
  simp [isSafeInteger]

theorem isSafeInteger_natCast {n : ℕ} : isSafeInteger n = true ↔ n ≤ MAX_SAFE_INTEGER := by
  simp [isSafeInteger_iff]

theorem assertU32_eq_ok {value : ℕ} : assertU32 value field = .ok u ↔ value < 256 ^ 4 := by
  simp only [assertU32, refuse_eq_ok, not_or, Bool.not_eq_false, isSafeInteger_natCast,
    MAX_SAFE_INTEGER]
  omega

theorem assertU64_eq_ok {value : ℕ} : assertU64 value field = .ok u ↔ value < 256 ^ 8 := by
  simp only [assertU64, refuse_eq_ok]
  omega

/-- The checked numbers are the exact naturals. -/
theorem assertUnsignedInteger_eq_ok {value : Millis} : assertUnsignedInteger value field = .ok u ↔
      ∃ n : ℕ, n ≤ MAX_SAFE_INTEGER ∧ (n : Millis) = value := by
  simp only [assertUnsignedInteger, refuse_eq_ok, not_or, Bool.not_eq_false, not_lt]
  constructor
  · rintro ⟨hsafe, hnonneg⟩
    obtain ⟨hden, hle⟩ := isSafeInteger_iff.mp hsafe
    have hint : (value.num : Millis) = value := (Rat.den_eq_one_iff value).mp hden
    have hcast : ((value.num.toNat : ℤ) : Millis) = value := by
      rw [Int.toNat_of_nonneg (Rat.num_nonneg.mpr hnonneg), hint]
    refine ⟨value.num.toNat, ?_, by exact_mod_cast hcast⟩
    rw [abs_of_nonneg hnonneg, ← hcast] at hle
    exact_mod_cast hle
  · rintro ⟨n, hle, rfl⟩
    exact ⟨isSafeInteger_natCast.mpr hle, Nat.cast_nonneg n⟩

theorem bigInt_natCast (n : ℕ) : bigInt (n : Millis) = n := by simp [bigInt]

theorem readNumber_eq_ok {n : ℕ} : readNumber width bytes = .ok (n, rest) ↔
      n < 256 ^ width ∧ bytes = bigEndian width n ++ rest := Reader.number_eq_ok

theorem takeBytes_eq_ok {count : ℕ} :
    takeBytes count bytes = .ok (block, rest) ↔ block.length = count ∧ bytes = block ++ rest :=
  Reader.take_eq_ok

/-- Unchecked 32-bit fields are read as they were checked. -/
theorem u32_exact (field : String) : Exact (writeU32 field) (readNumber 4) id := by
  intro bytes n rest
  simp only [readNumber_eq_ok, writeU32, except_bind_eq_ok, except_pure_eq_ok, assertU32_eq_ok]
  constructor
  · rintro ⟨hlt, rfl⟩
    exact ⟨n, bigEndian 4 n, ⟨(), hlt, rfl⟩, rfl, rfl⟩
  · rintro ⟨source, block, ⟨-, hlt, rfl⟩, rfl, rfl⟩
    exact ⟨hlt, rfl⟩

theorem safeU64_exact (field : String) : Exact (writeSafeU64 field) (readSafeU64 field) id := by
  intro bytes value rest
  simp only [readSafeU64, bind_eq_ok, Reader.refuse_eq_ok, pure_eq_ok,
    readNumber_eq_ok, writeSafeU64, except_bind_eq_ok, except_pure_eq_ok,
    assertUnsignedInteger_eq_ok]
  constructor
  · rintro ⟨n, _, ⟨hlt, rfl⟩, -, _, ⟨hsafe, rfl⟩, rfl, rfl⟩
    exact ⟨n, bigEndian 8 n, ⟨(), ⟨n, by omega, rfl⟩, by rw [bigInt_natCast]⟩, rfl, rfl⟩
  · rintro ⟨_, _, ⟨-, ⟨n, hsafe, rfl⟩, rfl⟩, rfl, rfl⟩
    rw [bigInt_natCast]
    have hlt : n < 256 ^ 8 := hsafe.trans_lt (by simp [MAX_SAFE_INTEGER])
    exact ⟨n, rest, ⟨hlt, rfl⟩, (), rest, ⟨by omega, rfl⟩, rfl, rfl⟩

theorem blob_exact (max : ℕ) (field : String) (hmax : max < 256 ^ 4) :
    Exact (writeBlob max field) (readBlob max field) id := by
  intro bytes block rest
  simp only [readBlob, bind_eq_ok, Reader.refuse_eq_ok, readNumber_eq_ok, takeBytes_eq_ok,
    writeBlob, except_bind_eq_ok, except_pure_eq_ok, refuse_eq_ok]
  constructor
  · rintro ⟨_, _, ⟨hlt, rfl⟩, -, _, ⟨hle, rfl⟩, rfl, rfl⟩
    exact ⟨block, _, ⟨(), hle, rfl⟩, (append_assoc ..).symm, rfl⟩
  · rintro ⟨source, _, ⟨-, hle, rfl⟩, rfl, rfl⟩
    refine ⟨source.length, source ++ rest, ⟨by omega, append_assoc ..⟩, (), _, ⟨hle, rfl⟩, rfl, rfl⟩

variable {decoder : TextDecoder}

/-- A text the writers accept, within `max` bytes. -/
def Writable (max : ℕ) (text : JsString) : Prop :=
  0 ∉ text ∧ encodeUtf8 text ≠ [] ∧ (encodeUtf8 text).length ≤ max ∧ isWellFormed text = true

theorem writeText_eq_ok {max : ℕ} {text : JsString} :
    writeText width max text field = .ok block ↔ Writable max text ∧
      block = bigEndian width (encodeUtf8 text).length ++ encodeUtf8 text := by
  simp only [writeText, except_bind_eq_ok, except_pure_eq_ok, refuse_eq_ok, Writable, not_or,
    length_eq_zero_iff, not_lt, Bool.not_eq_false]
  constructor
  · rintro ⟨-, hzero, -, ⟨hempty, hmax⟩, -, hformed, rfl⟩
    exact ⟨⟨hzero, hempty, hmax, hformed⟩, rfl⟩
  · rintro ⟨⟨hzero, hempty, hmax, hformed⟩, rfl⟩
    exact ⟨(), hzero, (), ⟨hempty, hmax⟩, (), hformed, rfl⟩

/-- A length-prefixed text is read exactly, if the lengths let through are those written. -/
theorem text_exact {max : ℕ} {bad : ℕ → Prop} [DecidablePred bad] (error : KvError) (field : String)
    (hbad : ∀ n, n < 256 ^ width ∧ ¬ bad n ↔ n ≠ 0 ∧ n ≤ max) :
    Exact (fun text => writeText width max text field) (do
        let length ← readNumber width
        Reader.refuse (bad length) error
        let bytes ← takeBytes length
        Reader.ofExcept (decodeUtf8 decoder bytes field)) decoder.emit := by
  intro bytes s rest
  simp only [bind_eq_ok, Reader.refuse_eq_ok, ofExcept_eq_ok, readNumber_eq_ok,
    takeBytes_eq_ok, decodeUtf8, TextDecoder.decodeText_eq_ok, writeText_eq_ok]
  constructor
  · rintro ⟨length, _, ⟨hlt, rfl⟩, -, _, ⟨hgood, rfl⟩, _, _, ⟨rfl, rfl⟩,
      ⟨text, hformed, rfl, hzero, rfl⟩, rfl⟩
    obtain ⟨hempty, hmax⟩ := (hbad _).mp ⟨hlt, hgood⟩
    exact ⟨text, _, ⟨⟨hzero, mt (congrArg length) hempty, hmax, hformed⟩, rfl⟩,
      (append_assoc ..).symm, rfl⟩
  · rintro ⟨text, _, ⟨⟨hzero, hempty, hmax, hformed⟩, rfl⟩, rfl, rfl⟩
    obtain ⟨hlt, hgood⟩ := (hbad (encodeUtf8 text).length).mpr
      ⟨mt length_eq_zero_iff.mp hempty, hmax⟩
    exact ⟨_, _, ⟨hlt, append_assoc ..⟩, (), _, ⟨hgood, rfl⟩, _, rest, ⟨rfl, rfl⟩,
      ⟨text, hformed, rfl, hzero, rfl⟩, rfl⟩

theorem name_exact (field : String) :
    Exact (fun name => writeName name field) (readName decoder field) decoder.emit :=
  text_exact _ field (by simp only [MAX_NAME_BYTES]; omega)

theorem key_exact : Exact writeKey (readKey decoder) decoder.emit :=
  text_exact _ "key" (by simp only [MAX_KEY_BYTES]; omega)

theorem hybridTime_exact :
    Exact writeHybridTime (readHybridTime decoder) (HybridTime.mapText decoder.emit) := by
  intro bytes time rest
  simp only [readHybridTime, bind_eq_ok, pure_eq_ok, readNumber_eq_ok,
    safeU64_exact _ bytes, name_exact _ _, writeHybridTime, except_bind_eq_ok, except_pure_eq_ok,
    assertU32_eq_ok, writeSafeU64]
  constructor
  · rintro ⟨_, _, ⟨wallMs, _, ⟨u, hwall, rfl⟩, rfl, rfl⟩, logical, _, ⟨hlogical, rfl⟩, _, _,
      ⟨name, block, hname, rfl, rfl⟩, rfl, rfl⟩
    exact ⟨⟨wallMs, logical, name⟩, _, ⟨u, hwall, (), hlogical, block, hname, rfl⟩,
      by simp only [append_assoc], rfl⟩
  · rintro ⟨⟨wallMs, logical, name⟩, _, ⟨u, hwall, -, hlogical, block, hname, rfl⟩, rfl, rfl⟩
    exact ⟨wallMs, _, ⟨wallMs, _, ⟨u, hwall, rfl⟩, by simp only [append_assoc], rfl⟩, logical,
      _, ⟨hlogical, rfl⟩, _, rest, ⟨name, block, hname, rfl, rfl⟩, rfl, rfl⟩

theorem flagSet_entryFlags (entry : Entry) : entryFlags entry ≤ 3 ∧
    flagSet (entryFlags entry) ENTRY_FLAG_DELETED = entry.deleted ∧
    flagSet (entryFlags entry) ENTRY_FLAG_EXPIRES = entry.expiresAt.isSome := by
  unfold entryFlags
  cases entry.deleted <;> cases entry.expiresAt.isSome <;> decide

theorem entry_exact : Exact writeEntry (readEntry decoder) (Entry.mapText decoder.emit) := by
  intro bytes entry rest
  have hblob := blob_exact MAX_VALUE_BYTES "value" (by simp [MAX_VALUE_BYTES])
  simp only [readEntry, bind_eq_ok, pure_eq_ok, Reader.refuse_eq_ok, readNumber_eq_ok,
    key_exact _, hybridTime_exact _, (safeU64_exact _).optional, hblob.optional, writeEntry,
    except_bind_eq_ok, except_pure_eq_ok, refuse_eq_ok, assertU64_eq_ok]
  constructor
  · rintro ⟨flags, _, ⟨-, rfl⟩, -, _, ⟨hflags, rfl⟩, _, _, ⟨key, _, hkey, rfl, rfl⟩, _, _,
      ⟨time, _, htime, rfl, rfl⟩, sequence, _, ⟨hsequence, rfl⟩, _, _,
      ⟨expiresAt, _, hexpires, hexpiry, rfl, rfl⟩, _, _, ⟨value, _, hpresent, hvalue, rfl, rfl⟩,
      rfl, rfl⟩
    have hcombined : entryFlags ⟨key, value, time, sequence, expiresAt,
        flagSet flags ENTRY_FLAG_DELETED⟩ = flags := by
      rw [entryFlags, hexpires]
      have hle := not_lt.mp hflags
      interval_cases flags <;> rfl
    refine ⟨⟨key, value, time, sequence, expiresAt, flagSet flags ENTRY_FLAG_DELETED⟩, _,
      ⟨(), ?_, (), hsequence, _, hexpiry, _, hkey, _, htime, _, hvalue, rfl⟩, ?_, ?_⟩
    · simp [← Option.not_isSome, hpresent]
    · rw [hcombined]
      simp only [append_assoc]
    · simp [Entry.mapText]
  · rintro ⟨source, _, ⟨-, hconsistent, -, hsequence, _, hexpiry, _, hkey, _, htime, _, hvalue,
      rfl⟩, rfl, rfl⟩
    obtain ⟨hle, hdeleted, hexpires⟩ := flagSet_entryFlags source
    have hpresent : source.value.isSome = !source.deleted := by
      rw [not_ne_iff.mp hconsistent, Option.not_isNone]
    refine ⟨entryFlags source, _, ⟨by omega, by simp only [append_assoc]⟩, (), _,
      ⟨not_lt.mpr hle, rfl⟩, _, _, ⟨source.key, _, hkey, rfl, rfl⟩, _, _,
      ⟨source.timestamp, _, htime, rfl, rfl⟩, source.sequence, _, ⟨hsequence, rfl⟩, _, _,
      ⟨source.expiresAt, _, hexpires.symm, hexpiry, rfl, rfl⟩, _, rest,
      ⟨source.value, _, ?_, hvalue, rfl, rfl⟩, ?_, rfl⟩
    · rw [hdeleted, hpresent]
    · simp [Entry.mapText, hdeleted]

theorem byteToCondition_eq_some {byte : ℕ} {condition : PutCondition} :
    byteToCondition byte = some condition ↔ conditionToByte condition = byte := by
  cases condition <;> unfold byteToCondition <;> split <;> simp_all [conditionToByte, eq_comm]

theorem byteToReason_eq_some {byte : ℕ} {reason : RejectionReason} :
    byteToReason byte = some reason ↔ reasonToByte reason = byte := by
  cases reason <;> unfold byteToReason <;> split <;> simp_all [reasonToByte, eq_comm]

theorem selected_eq_ok {value : Option α} {error : String} {a : α} :
    selected value error = .ok a ↔ value = some a := by
  cases value with
  | none | some b => simp [selected]

/-- Two's complement is exact on the signed 64-bit range. -/
theorem readI64_eq_ok {delta : ℤ} : readI64 bytes = .ok (delta, rest) ↔
      -(2 ^ 63) ≤ delta ∧ delta ≤ 2 ^ 63 - 1 ∧ bytes = writeI64 delta ++ rest := by
  simp only [readI64, Reader.map_eq_ok, readNumber_eq_ok, writeI64]
  constructor
  · rintro ⟨n, ⟨hlt, rfl⟩, rfl⟩
    split
    · have : ((n : ℤ) % 2 ^ 64).toNat = n := by omega
      rw [this]
      exact ⟨by omega, by omega, rfl⟩
    · have : (((n : ℤ) - 2 ^ 64) % 2 ^ 64).toNat = n := by omega
      rw [this]
      exact ⟨by omega, by omega, rfl⟩
  · rintro ⟨hlow, hhigh, rfl⟩
    refine ⟨(delta % 2 ^ 64).toNat, ⟨by omega, rfl⟩, ?_⟩
    split <;> omega

theorem put_exact : readPut decoder bytes = .ok (op, rest) ↔ ∃ key value condition ttlMs block,
      writePut key value condition ttlMs = .ok block ∧ bytes = block ++ rest ∧
        .put (decoder.emit key) value condition ttlMs = op := by
  have hblob := blob_exact MAX_VALUE_BYTES "value" (by simp [MAX_VALUE_BYTES])
  simp only [readPut, bind_eq_ok, pure_eq_ok, Reader.refuse_eq_ok,
    ofExcept_eq_ok, selected_eq_ok, byteToCondition_eq_some, readNumber_eq_ok, key_exact _,
    hblob _, (safeU64_exact _).optional, writePut, except_bind_eq_ok, except_pure_eq_ok]
  constructor
  · rintro ⟨_, _, ⟨-, rfl⟩, condition, _, ⟨rfl, rfl⟩, ttlByte, _, ⟨-, rfl⟩, -, _, ⟨hflag, rfl⟩, _, _,
      ⟨key, _, hkey, rfl, rfl⟩, _, _, ⟨value, _, hvalue, rfl, rfl⟩, _, _,
      ⟨ttlMs, _, hpresent, httl, rfl, rfl⟩, rfl, rfl⟩
    have hbyte : (if ttlMs.isSome then 1 else 0) = ttlByte := by
      rw [hpresent]
      simp only [decide_eq_true_eq]
      split <;> omega
    refine ⟨key, value, condition, ttlMs, _, ⟨_, hkey, _, hvalue, _, httl, rfl⟩, ?_, by simp⟩
    rw [hbyte]
    simp only [append_assoc]
  · rintro ⟨key, value, condition, ttlMs, _, ⟨_, hkey, _, hvalue, _, httl, rfl⟩, rfl, rfl⟩
    have hbound : conditionToByte condition < 256 ^ 1 := by cases condition <;> decide
    have hflag : (if ttlMs.isSome then 1 else 0) ≤ 1 := by split <;> decide
    refine ⟨conditionToByte condition, _, ⟨hbound, by simp only [append_assoc]⟩, condition, _,
      ⟨rfl, rfl⟩, (if ttlMs.isSome then 1 else 0), _, ⟨by omega, rfl⟩, (), _, ⟨by omega, rfl⟩, _, _,
      ⟨key, _, hkey, rfl, rfl⟩, value, _, ⟨value, _, hvalue, rfl, rfl⟩, _, rest,
      ⟨ttlMs, _, ?_, httl, rfl, rfl⟩, by simp, rfl⟩
    cases ttlMs <;> simp

theorem increment_exact : readIncrement decoder bytes = .ok (op, rest) ↔ ∃ key delta block,
      writeIncrement key delta = .ok block ∧ bytes = block ++ rest ∧
        .increment (decoder.emit key) delta = op := by
  simp only [readIncrement, bind_eq_ok, pure_eq_ok, key_exact _, readI64_eq_ok,
    writeIncrement, except_bind_eq_ok, except_pure_eq_ok, refuse_eq_ok, not_or, not_lt]
  constructor
  · rintro ⟨_, _, ⟨key, _, hkey, rfl, rfl⟩, delta, _, ⟨hlow, hhigh, rfl⟩, rfl, rfl⟩
    exact ⟨key, delta, _, ⟨(), ⟨hlow, hhigh⟩, _, hkey, rfl⟩, (append_assoc ..).symm, rfl⟩
  · rintro ⟨key, delta, _, ⟨-, ⟨hlow, hhigh⟩, _, hkey, rfl⟩, rfl, rfl⟩
    exact ⟨_, _, ⟨key, _, hkey, append_assoc .., rfl⟩, delta, rest, ⟨hlow, hhigh, rfl⟩, rfl, rfl⟩

theorem compareAndSet_exact :
    readCompareAndSet decoder bytes = .ok (op, rest) ↔ ∃ key expected value block,
      writeCompareAndSet key expected value = .ok block ∧ bytes = block ++ rest ∧
        .compareAndSet (decoder.emit key) expected value = op := by
  have hblob := fun field => blob_exact MAX_VALUE_BYTES field (by simp [MAX_VALUE_BYTES])
  simp only [readCompareAndSet, bind_eq_ok, pure_eq_ok, key_exact _, hblob _ _,
    writeCompareAndSet, except_bind_eq_ok, except_pure_eq_ok]
  constructor
  · rintro ⟨_, _, ⟨key, _, hkey, rfl, rfl⟩, _, _, ⟨expected, _, hexpected, rfl, rfl⟩, _, _,
      ⟨value, _, hvalue, rfl, rfl⟩, rfl, rfl⟩
    exact ⟨key, expected, value, _, ⟨_, hkey, _, hexpected, _, hvalue, rfl⟩,
      by simp only [append_assoc], rfl⟩
  · rintro ⟨key, expected, value, _, ⟨_, hkey, _, hexpected, _, hvalue, rfl⟩, rfl, rfl⟩
    exact ⟨_, _, ⟨key, _, hkey, by simp only [append_assoc], rfl⟩, expected, _,
      ⟨expected, _, hexpected, rfl, rfl⟩, value, rest, ⟨value, _, hvalue, rfl, rfl⟩, rfl, rfl⟩

theorem opBody_exact :
    TagExact opcodeOf writeOpBody (readOpBody decoder) (WriteOp.mapText decoder.emit) := by
  intro k bytes op rest
  constructor
  · intro h
    unfold readOpBody at h
    split_ifs at h with hput hdelete hincrement hcas
    · obtain ⟨key, value, condition, ttlMs, block, hwrite, hbytes, rfl⟩ := put_exact.mp h
      exact ⟨.put key value condition ttlMs, block, hput.symm, hwrite, hbytes, rfl⟩
    · obtain ⟨key, block, hwrite, hbytes, rfl⟩ := (key_exact.map _).mp h
      exact ⟨.delete key, block, hdelete.symm, hwrite, hbytes, rfl⟩
    · obtain ⟨key, delta, block, hwrite, hbytes, rfl⟩ := increment_exact.mp h
      exact ⟨.increment key delta, block, hincrement.symm, hwrite, hbytes, rfl⟩
    · obtain ⟨key, expected, value, block, hwrite, hbytes, rfl⟩ := compareAndSet_exact.mp h
      exact ⟨.compareAndSet key expected value, block, hcas.symm, hwrite, hbytes, rfl⟩
    · exact absurd h fail_eq_ok
  · rintro ⟨source, block, rfl, hwrite, rfl, rfl⟩
    cases source with
    | put key value condition ttlMs =>
      exact put_exact.mpr ⟨key, value, condition, ttlMs, block, hwrite, rfl, rfl⟩
    | delete key => exact (key_exact.map WriteOp.delete).mpr ⟨key, block, hwrite, rfl, rfl⟩
    | increment key delta => exact increment_exact.mpr ⟨key, delta, block, hwrite, rfl, rfl⟩
    | compareAndSet key expected value =>
      exact compareAndSet_exact.mpr ⟨key, expected, value, block, hwrite, rfl, rfl⟩

theorem writeOp_exact : Exact writeWriteOp (readWriteOp decoder) (WriteOp.mapText decoder.emit) :=
  opBody_exact.exact (fun op => by cases op <;> exact Nat.le_of_ble_eq_true rfl) _

theorem rejection_exact {result : WriteResult} :
    readRejection bytes = .ok (result, rest) ↔ ∃ reason,
      bytes = bigEndian 1 (reasonToByte reason) ++ rest ∧ .rejected reason = result := by
  simp only [readRejection, bind_eq_ok, pure_eq_ok, ofExcept_eq_ok,
    selected_eq_ok, byteToReason_eq_some, readNumber_eq_ok]
  constructor
  · rintro ⟨_, _, ⟨-, rfl⟩, reason, _, ⟨rfl, rfl⟩, rfl, rfl⟩
    exact ⟨reason, rfl, rfl⟩
  · rintro ⟨reason, rfl, rfl⟩
    exact ⟨_, rest, ⟨by cases reason <;> decide, rfl⟩, reason, rest, ⟨rfl, rfl⟩, rfl, rfl⟩

theorem resultBody_exact : TagExact markerOf writeResultBody (readResultBody decoder)
    (WriteResult.mapText decoder.emit) := by
  intro k bytes result rest
  constructor
  · intro h
    unfold readResultBody at h
    split_ifs at h with happlied hrejected
    · obtain ⟨entry, block, hwrite, hbytes, rfl⟩ := (entry_exact.map _).mp h
      exact ⟨.applied entry, block, happlied.symm, hwrite, hbytes, rfl⟩
    · obtain ⟨reason, hbytes, rfl⟩ := rejection_exact.mp h
      exact ⟨.rejected reason, _, hrejected.symm, rfl, hbytes, rfl⟩
    · exact absurd h fail_eq_ok
  · rintro ⟨source, block, rfl, hwrite, rfl, rfl⟩
    cases source with
    | applied entry =>
      exact (entry_exact.map WriteResult.applied).mpr ⟨entry, block, hwrite, rfl, rfl⟩
    | rejected reason =>
      obtain rfl := except_pure_eq_ok.mp hwrite
      exact rejection_exact.mpr ⟨reason, rfl, rfl⟩

theorem writeResult_exact :
    Exact writeWriteResult (readWriteResult decoder) (WriteResult.mapText decoder.emit) :=
  resultBody_exact.exact (fun result => by cases result <;> exact Nat.le_of_ble_eq_true rfl) _

/-! ### Lists and records -/

theorem digest_exact : Exact writeDigest readDigest id := by
  intro bytes digest rest
  simp only [readDigest, bind_eq_ok, pure_eq_ok, readNumber_eq_ok, writeDigest,
    except_bind_eq_ok, except_pure_eq_ok, writeU32, assertU32_eq_ok]
  constructor
  · rintro ⟨hi, _, ⟨hhi, rfl⟩, lo, _, ⟨hlo, rfl⟩, rfl, rfl⟩
    have hhiVal : (UInt32.ofNat hi).toNat = hi := UInt32.toNat_ofNat_of_lt (by simpa using hhi)
    have hloVal : (UInt32.ofNat lo).toNat = lo := UInt32.toNat_ofNat_of_lt (by simpa using hlo)
    refine ⟨⟨UInt32.ofNat hi, UInt32.ofNat lo⟩, _,
      ⟨_, ⟨(), by rwa [hhiVal], rfl⟩, _, ⟨(), by rwa [hloVal], rfl⟩, rfl⟩, ?_, rfl⟩
    rw [hhiVal, hloVal, append_assoc]
  · rintro ⟨source, _, ⟨_, ⟨-, hhi, rfl⟩, _, ⟨-, hlo, rfl⟩, rfl⟩, rfl, rfl⟩
    exact ⟨_, _, ⟨hhi, append_assoc ..⟩, _, rest, ⟨hlo, rfl⟩, by simp, rfl⟩

theorem keyVersion_exact :
    Exact writeKeyVersion (readKeyVersion decoder) (KeyVersion.mapText decoder.emit) := by
  intro bytes version rest
  simp only [readKeyVersion, bind_eq_ok, pure_eq_ok, key_exact _, hybridTime_exact _,
    writeKeyVersion, except_bind_eq_ok, except_pure_eq_ok]
  constructor
  · rintro ⟨_, _, ⟨key, _, hkey, rfl, rfl⟩, _, _, ⟨time, _, htime, rfl, rfl⟩, rfl, rfl⟩
    exact ⟨⟨key, time⟩, _, ⟨_, hkey, _, htime, rfl⟩, (append_assoc ..).symm, rfl⟩
  · rintro ⟨⟨key, time⟩, _, ⟨_, hkey, _, htime, rfl⟩, rfl, rfl⟩
    exact ⟨_, _, ⟨key, _, hkey, append_assoc .., rfl⟩, _, rest, ⟨time, _, htime, rfl, rfl⟩,
      rfl, rfl⟩

/-- A counted list of an exact format is exact. -/
theorem list_exact (h : Exact write read emit) (max : ℕ) (hmax : max < 256 ^ 4) (error : String) :
    Exact (writeList max error write) (readList max error read) (List.map emit) := by
  intro bytes values rest
  simp only [readList, bind_eq_ok, Reader.refuse_eq_ok, readNumber_eq_ok, h.times, writeList,
    except_bind_eq_ok, except_pure_eq_ok, refuse_eq_ok]
  constructor
  · rintro ⟨_, _, ⟨-, rfl⟩, -, _, ⟨hle, rfl⟩, sources, block, rfl, hall, rfl, rfl⟩
    exact ⟨sources, _, ⟨(), hle, block, hall, rfl⟩, (append_assoc ..).symm, rfl⟩
  · rintro ⟨sources, _, ⟨-, hle, block, hall, rfl⟩, rfl, rfl⟩
    exact ⟨_, _, ⟨by omega, append_assoc ..⟩, (), _, ⟨hle, rfl⟩, sources, block, rfl, hall, rfl,
      rfl⟩

/-- A guarded value of an exact format is exact. -/
theorem flagged_exact (h : Exact write read emit) (error : String) :
    Exact (writeFlagged write) (readFlagged error read) (Option.map emit) := by
  intro bytes value rest
  simp only [readFlagged, bind_eq_ok, Reader.refuse_eq_ok, readNumber_eq_ok, h.optional,
    writeFlagged, except_bind_eq_ok, except_pure_eq_ok]
  constructor
  · rintro ⟨present, _, ⟨-, rfl⟩, -, _, ⟨hle, rfl⟩, source, block, hpresent, hwrite, rfl, rfl⟩
    have hbyte : (if source.isSome then 1 else 0) = present := by
      rw [hpresent]
      simp only [decide_eq_true_eq]
      split <;> omega
    refine ⟨source, _, ⟨block, hwrite, rfl⟩, ?_, rfl⟩
    rw [hbyte, append_assoc]
  · rintro ⟨source, _, ⟨block, hwrite, rfl⟩, rfl, rfl⟩
    have hflag : (if source.isSome then 1 else 0) ≤ 1 := by split <;> decide
    refine ⟨_, _, ⟨by omega, append_assoc ..⟩, (), _, ⟨by omega, rfl⟩, source, block, ?_, hwrite,
      rfl, rfl⟩
    cases source <;> simp

theorem owners_exact : Exact writeOwners (readOwners decoder) (List.map decoder.emit) := by
  intro bytes owners rest
  simp only [readOwners, bind_eq_ok, Reader.refuse_eq_ok, readNumber_eq_ok,
    (name_exact _).times, writeOwners, except_bind_eq_ok, except_pure_eq_ok, refuse_eq_ok]
  constructor
  · rintro ⟨_, _, ⟨-, rfl⟩, -, _, ⟨hcount, rfl⟩, sources, block, rfl, hall, rfl, rfl⟩
    exact ⟨sources, _, ⟨(), hcount, block, hall, rfl⟩, (append_assoc ..).symm, rfl⟩
  · rintro ⟨sources, _, ⟨-, hcount, block, hall, rfl⟩, rfl, rfl⟩
    refine ⟨_, _, ⟨?_, append_assoc ..⟩, (), _, ⟨hcount, rfl⟩, sources, block, rfl, hall, rfl, rfl⟩
    simp only [MAX_OWNERS_PER_PARTITION] at hcount
    omega

theorem table_exact :
    Exact writeTable (readTable decoder) (RoutingTableWire.mapText decoder.emit) := by
  intro bytes table rest
  have hrows := list_exact (@owners_exact decoder) MAX_WIRE_PARTITIONS
    (by simp [MAX_WIRE_PARTITIONS]) "table partition count is out of range"
  simp only [readTable, bind_eq_ok, pure_eq_ok, readNumber_eq_ok, hrows _, writeTable,
    except_bind_eq_ok, except_pure_eq_ok, assertU64_eq_ok]
  constructor
  · rintro ⟨version, _, ⟨hversion, rfl⟩, _, _, ⟨partitions, _, hwrite, rfl, rfl⟩, rfl, rfl⟩
    exact ⟨⟨version, partitions⟩, _, ⟨(), hversion, _, hwrite, rfl⟩, (append_assoc ..).symm, rfl⟩
  · rintro ⟨⟨version, partitions⟩, _, ⟨-, hversion, _, hwrite, rfl⟩, rfl, rfl⟩
    exact ⟨version, _, ⟨hversion, append_assoc ..⟩, _, rest, ⟨partitions, _, hwrite, rfl, rfl⟩,
      rfl, rfl⟩

theorem chunk_exact :
    Exact writeChunk (readChunk decoder) (FragmentChunk.mapText decoder.emit) := by
  intro bytes chunk rest
  have hentries := list_exact (@entry_exact decoder) MAX_CHUNK_ENTRIES
    (by simp [MAX_CHUNK_ENTRIES]) "chunk entry count is out of range"
  simp only [readChunk, bind_eq_ok, pure_eq_ok, Reader.refuse_eq_ok, readNumber_eq_ok,
    hentries _, writeChunk, writePartitionField, writeU32, except_bind_eq_ok, except_pure_eq_ok,
    assertU32_eq_ok]
  constructor
  · rintro ⟨partitionId, _, ⟨hpartition, rfl⟩, finalByte, _, ⟨-, rfl⟩, -, _, ⟨hle, rfl⟩, _, _,
      ⟨entries, _, hwrite, rfl, rfl⟩, rfl, rfl⟩
    have hbyte : (if decide (finalByte = 1) = true then 1 else 0) = finalByte := by
      simp only [decide_eq_true_eq]
      split <;> omega
    refine ⟨⟨partitionId, decide (finalByte = 1), entries⟩, _,
      ⟨_, ⟨(), hpartition, rfl⟩, _, hwrite, rfl⟩, ?_, rfl⟩
    rw [hbyte]
    simp only [append_assoc]
  · rintro ⟨⟨partitionId, final, entries⟩, _, ⟨_, ⟨-, hpartition, rfl⟩, _, hwrite, rfl⟩, rfl, rfl⟩
    refine ⟨partitionId, _, ⟨hpartition, by simp only [append_assoc]⟩, (if final then 1 else 0),
      _, ⟨by cases final <;> decide, rfl⟩, (), _, ⟨by cases final <;> decide, rfl⟩, _, rest,
      ⟨entries, _, hwrite, rfl, rfl⟩, ?_, rfl⟩
    cases final <;> rfl

theorem report_exact : Exact writeOwnershipReport (readOwnershipReport decoder)
    (OwnershipReport.mapText decoder.emit) := by
  intro bytes report rest
  simp only [readOwnershipReport, readList, bind_eq_ok, pure_eq_ok,
    Reader.refuse_eq_ok, readNumber_eq_ok, name_exact _ _, (u32_exact "report partition id").times,
    writeOwnershipReport, except_bind_eq_ok, except_pure_eq_ok, refuse_eq_ok, map_id]
  constructor
  · rintro ⟨_, _, ⟨node, _, hnode, rfl, rfl⟩, _, _, ⟨_, _, ⟨-, rfl⟩, -, _, ⟨hle, rfl⟩, partitions, _,
      rfl, hall, rfl, rfl⟩, rfl, rfl⟩
    exact ⟨⟨node, partitions⟩, _, ⟨(), hle, _, hnode, _, hall, rfl⟩,
      by simp only [append_assoc], rfl⟩
  · rintro ⟨⟨node, partitions⟩, _, ⟨-, hle, _, hnode, _, hall, rfl⟩, rfl, rfl⟩
    simp only [MAX_WIRE_PARTITIONS] at hle
    exact ⟨_, _, ⟨node, _, hnode, by simp only [append_assoc], rfl⟩, partitions, rest,
      ⟨_, _, ⟨by omega, rfl⟩, (), _, ⟨by simpa [MAX_WIRE_PARTITIONS] using hle, rfl⟩, partitions, _,
        rfl, hall, rfl, rfl⟩, rfl, rfl⟩

/-! ### Messages -/

/-- A body behind a partition id is exact if the body is. -/
theorem withPartition_exact (h : Exact write read emit) (make : ℕ → α → KvMessage) :
    readWithPartition make read bytes = .ok (message, rest) ↔
      ∃ partitionId source block, writeWithPartition partitionId (write source) = .ok block ∧
        bytes = block ++ rest ∧ make partitionId (emit source) = message := by
  simp only [readWithPartition, bind_eq_ok, readNumber_eq_ok, h.map, writeWithPartition,
    writePartitionField, writeU32, except_bind_eq_ok, except_pure_eq_ok, assertU32_eq_ok]
  constructor
  · rintro ⟨partitionId, _, ⟨hlt, rfl⟩, source, _, hwrite, rfl, rfl⟩
    exact ⟨partitionId, source, _, ⟨_, ⟨(), hlt, rfl⟩, _, hwrite, rfl⟩, (append_assoc ..).symm, rfl⟩
  · rintro ⟨partitionId, source, _, ⟨_, ⟨-, hlt, rfl⟩, _, hwrite, rfl⟩, rfl, rfl⟩
    exact ⟨partitionId, _, ⟨hlt, append_assoc ..⟩, source, _, hwrite, rfl, rfl⟩

theorem digests_exact : Exact writeDigests readDigests id := by
  have h := list_exact digest_exact REPAIR_BUCKETS (by simp [REPAIR_BUCKETS])
    "bucket digest count is out of range"
  rwa [map_id_fun] at h

theorem buckets_exact : Exact writeBuckets readBuckets id := by
  have h := list_exact (u32_exact "bucket index") REPAIR_BUCKETS (by simp [REPAIR_BUCKETS])
    "bucket count is out of range"
  rwa [map_id_fun] at h

theorem keyVersions_exact : Exact writeKeyVersions (readKeyVersions decoder)
    (List.map (KeyVersion.mapText decoder.emit)) :=
  list_exact keyVersion_exact MAX_CHUNK_ENTRIES (by simp [MAX_CHUNK_ENTRIES]) _

theorem keys_exact : Exact writeKeys (readKeys decoder) (List.map decoder.emit) :=
  list_exact key_exact MAX_CHUNK_ENTRIES (by simp [MAX_CHUNK_ENTRIES]) _

theorem optionalKey_exact :
    Exact writeOptionalKey (readOptionalKey decoder) (Option.map decoder.emit) :=
  flagged_exact key_exact _

theorem optionalEntry_exact : Exact writeOptionalEntry (readOptionalEntry decoder)
    (Option.map (Entry.mapText decoder.emit)) :=
  flagged_exact entry_exact _

theorem readsTagged_withPartition {k : ℕ} (h : Exact write read emit) {make : ℕ → α → KvMessage}
    (hmake : ∀ id a, typeOf (make id a) = k ∧
      encodeBody (make id a) = writeWithPartition id (write a) ∧
      (make id a).mapText decoder.emit = make id (emit a)) :
    ReadsTagged typeOf encodeBody (mapText decoder.emit) k (readWithPartition make read) := by
  intro bytes message rest hread
  obtain ⟨id, source, block, hwrite, hbytes, rfl⟩ := (withPartition_exact h make).mp hread
  obtain ⟨htype, hbody, hemit⟩ := hmake id source
  exact ⟨make id source, block, htype, hbody.trans hwrite, hbytes, hemit⟩

/-- A body that decodes was written for its type. -/
theorem readsTagged_decodeBody (k : ℕ) :
    ReadsTagged typeOf encodeBody (mapText decoder.emit) k (decodeBody decoder k) := by
  refine .ite (fun hk => key_exact.readsTagged fun _ => ⟨hk, rfl, rfl⟩) ?_
  refine .ite (fun hk => optionalEntry_exact.readsTagged fun _ => ⟨hk, rfl, rfl⟩) ?_
  refine .ite (fun hk => writeOp_exact.readsTagged fun _ => ⟨hk, rfl, rfl⟩) ?_
  refine .ite (fun hk => writeResult_exact.readsTagged fun _ => ⟨hk, rfl, rfl⟩) ?_
  refine .ite (fun hk => table_exact.readsTagged fun _ => ⟨hk, rfl, rfl⟩) ?_
  refine .ite (fun hk => chunk_exact.readsTagged fun _ => ⟨hk, rfl, rfl⟩) ?_
  refine .ite (fun hk => report_exact.readsTagged fun _ => ⟨hk, rfl, rfl⟩) ?_
  refine .ite (fun hk => entry_exact.readsTagged fun _ => ⟨hk, rfl, rfl⟩) ?_
  refine .ite (fun hk _ _ _ h => ?_) ?_
  · obtain ⟨rfl, hbytes⟩ := pure_eq_ok.mp h
    exact ⟨.replicateAck, [], hk, rfl, hbytes, rfl⟩
  refine .ite (fun hk => key_exact.readsTagged fun _ => ⟨hk, rfl, rfl⟩) ?_
  refine .ite (fun hk => (u32_exact "partition id").readsTagged fun _ => ⟨hk, rfl, rfl⟩) ?_
  refine .ite (fun hk => readsTagged_withPartition optionalKey_exact fun _ _ => ⟨hk, rfl, rfl⟩) ?_
  refine .ite (fun hk => chunk_exact.readsTagged fun _ => ⟨hk, rfl, rfl⟩) ?_
  refine .ite (fun hk _ _ _ h => ?_) ?_
  · obtain ⟨rfl, hbytes⟩ := pure_eq_ok.mp h
    exact ⟨.fragmentAck, [], hk, rfl, hbytes, rfl⟩
  refine .ite (fun hk => readsTagged_withPartition digest_exact fun _ _ => ⟨hk, rfl, rfl⟩) ?_
  refine .ite (fun hk => readsTagged_withPartition digests_exact fun _ _ => ⟨hk, rfl, rfl⟩) ?_
  refine .ite (fun hk => readsTagged_withPartition buckets_exact fun _ _ => ⟨hk, rfl, rfl⟩) ?_
  refine .ite (fun hk => readsTagged_withPartition keyVersions_exact fun _ _ => ⟨hk, rfl, rfl⟩) ?_
  refine .ite (fun hk => readsTagged_withPartition keys_exact fun _ _ => ⟨hk, rfl, rfl⟩) ?_
  exact fun _ _ _ h => absurd h fail_eq_ok

/-- A body that was written decodes for its type. -/
theorem decodeBody_of_encode {source : KvMessage} (h : encodeBody source = .ok block) (rest : Bytes) :
    decodeBody decoder (typeOf source) (block ++ rest) =
      .ok (source.mapText decoder.emit, rest) := by
  cases source with
  | readRequest key => exact (key_exact.map _).mpr ⟨key, block, h, rfl, rfl⟩
  | readResponse entry => exact (optionalEntry_exact.map _).mpr ⟨entry, block, h, rfl, rfl⟩
  | writeRequest op => exact (writeOp_exact.map _).mpr ⟨op, block, h, rfl, rfl⟩
  | writeResponse result => exact (writeResult_exact.map _).mpr ⟨result, block, h, rfl, rfl⟩
  | table table => exact (table_exact.map _).mpr ⟨table, block, h, rfl, rfl⟩
  | fragmentChunk chunk => exact (chunk_exact.map _).mpr ⟨chunk, block, h, rfl, rfl⟩
  | ownershipReport report => exact (report_exact.map _).mpr ⟨report, block, h, rfl, rfl⟩
  | replicate entry => exact (entry_exact.map _).mpr ⟨entry, block, h, rfl, rfl⟩
  | replicateAck =>
    obtain rfl := except_pure_eq_ok.mp h
    exact pure_eq_ok.mpr ⟨rfl, rfl⟩
  | peekRequest key => exact (key_exact.map _).mpr ⟨key, block, h, rfl, rfl⟩
  | rebalancing id => exact ((u32_exact "partition id").map _).mpr ⟨id, block, h, rfl, rfl⟩
  | fragmentRequest id key =>
    exact (withPartition_exact optionalKey_exact _).mpr ⟨id, key, block, h, rfl, rfl⟩
  | fragmentPush chunk => exact (chunk_exact.map _).mpr ⟨chunk, block, h, rfl, rfl⟩
  | fragmentAck =>
    obtain rfl := except_pure_eq_ok.mp h
    exact pure_eq_ok.mpr ⟨rfl, rfl⟩
  | syncDigest id digest =>
    exact (withPartition_exact digest_exact _).mpr ⟨id, digest, block, h, rfl, rfl⟩
  | bucketDigests id digests =>
    exact (withPartition_exact digests_exact _).mpr ⟨id, digests, block, h, rfl, rfl⟩
  | keyVersionsRequest id buckets =>
    exact (withPartition_exact buckets_exact _).mpr ⟨id, buckets, block, h, rfl, rfl⟩
  | keyVersions id versions =>
    exact (withPartition_exact keyVersions_exact _).mpr ⟨id, versions, block, h, rfl, rfl⟩
  | entriesRequest id keys =>
    exact (withPartition_exact keys_exact _).mpr ⟨id, keys, block, h, rfl, rfl⟩

theorem body_exact :
    TagExact typeOf encodeBody (decodeBody decoder) (KvMessage.mapText decoder.emit) := by
  intro k bytes message rest
  refine ⟨readsTagged_decodeBody k bytes message rest, ?_⟩
  rintro ⟨source, block, rfl, hwrite, rfl, rfl⟩
  exact decodeBody_of_encode hwrite rest

theorem message_exact :
    Exact encodeMessage (readMessage decoder) (KvMessage.mapText decoder.emit) := by
  intro bytes message rest
  have hbody : Exact (writeTagged typeOf 1 encodeBody) (do
        let type ← readNumber 1
        decodeBody decoder type) (mapText decoder.emit) :=
    body_exact.exact (fun source => by cases source <;> exact Nat.le_of_ble_eq_true rfl) _
  simp only [encodeMessage, except_bind_eq_ok, except_pure_eq_ok]
  constructor
  · intro h
    obtain ⟨version, _, hversion, h⟩ := bind_eq_ok.mp h
    obtain ⟨u, _, hsupported, h⟩ := bind_eq_ok.mp h
    obtain ⟨-, rfl⟩ := readNumber_eq_ok.mp hversion
    obtain ⟨hsame, rfl⟩ := Reader.refuse_eq_ok.mp hsupported
    obtain rfl := not_ne_iff.mp hsame
    obtain ⟨source, block, hwrite, rfl, rfl⟩ := (hbody _ _ _).mp h
    exact ⟨source, _, ⟨block, hwrite, rfl⟩, (append_assoc ..).symm, rfl⟩
  · rintro ⟨source, _, ⟨block, hwrite, rfl⟩, rfl, rfl⟩
    refine bind_eq_ok.mpr ⟨PROTOCOL_VERSION, block ++ rest,
      readNumber_eq_ok.mpr ⟨by decide, append_assoc ..⟩, ?_⟩
    refine bind_eq_ok.mpr ⟨(), block ++ rest, Reader.refuse_eq_ok.mpr ⟨by decide, rfl⟩, ?_⟩
    exact (hbody _ _ _).mpr ⟨source, block, hwrite, rfl, rfl⟩

/-- A frame decodes to what the decoder makes of the message it encodes. -/
theorem decodeMessageWith_eq_ok : decodeMessageWith decoder bytes = .ok message ↔
      ∃ source, encodeMessage source = .ok bytes ∧ source.mapText decoder.emit = message := by
  rw [decodeMessageWith, Reader.whole_eq_ok, message_exact]
  constructor
  · rintro ⟨source, block, hwrite, rfl, rfl⟩
    exact ⟨source, by rwa [append_nil], rfl⟩
  · rintro ⟨source, hwrite, rfl⟩
    exact ⟨source, bytes, hwrite, (append_nil bytes).symm, rfl⟩

/-- A decoder that keeps byte order marks inverts the encoder. -/
theorem decodeMessageWith_keep_eq_ok :
    decodeMessageWith ⟨true⟩ bytes = .ok message ↔ encodeMessage message = .ok bytes := by
  have hkeep : ∀ source : KvMessage, source.mapText (TextDecoder.emit ⟨true⟩) = source :=
    fun source => mapText_eq_self_iff.mpr fun _ _ => rfl
  simp only [decodeMessageWith_eq_ok, hkeep, exists_eq_right]

/-- The code's decoder keeps a message exactly if none of its texts is marked. -/
theorem mapText_emit_eq_self_iff :
    message.mapText Kv.decoder.emit = message ↔ message.Unmarked := by
  rw [mapText_eq_self_iff]
  exact forall₂_congr fun text _ => stripBom_eq_self_iff

/-- No key or name in a frame starts with a byte order mark. -/
def UnmarkedFrame (bytes : Bytes) : Prop :=
  ∀ source, decodeMessageWith ⟨true⟩ bytes = .ok source → source.Unmarked

/-- Decoding returns the encoded message exactly if no key or name of it starts with a byte order
    mark, and encoding returns the decoded bytes exactly if none in the bytes does. -/
theorem codec_round_trips (message : KvMessage) (bytes : Bytes) :
    (encodeMessage message = .ok bytes → (decodeMessage bytes = .ok message ↔ message.Unmarked)) ∧
    (decodeMessage bytes = .ok message →
      (encodeMessage message = .ok bytes ↔ UnmarkedFrame bytes)) :=
  round_trips (fun _ _ => decodeMessageWith_keep_eq_ok)
    (fun _ _ => by simp only [decodeMessage, decodeMessageWith_eq_ok, and_true])
    (fun _ _ _ => trivial) (fun _ => mapText_emit_eq_self_iff) message bytes

/-- The key U+FEFF `a` comes back as `a`, and its frame is re-encoded without the mark. -/
theorem marked_key_lost : (∃ bytes, encodeMessage (.readRequest [0xFEFF, 97]) = .ok bytes ∧
      decodeMessage bytes ≠ .ok (.readRequest [0xFEFF, 97])) ∧
    ∃ message, decodeMessage [1, 1, 0, 4, 0xEF, 0xBB, 0xBF, 97] = .ok message ∧
      encodeMessage message ≠ .ok [1, 1, 0, 4, 0xEF, 0xBB, 0xBF, 97] :=
  ⟨⟨[1, 1, 0, 4, 0xEF, 0xBB, 0xBF, 97], by decide +kernel, by decide +kernel⟩,
    ⟨.readRequest [97], by decide +kernel, by decide +kernel⟩⟩

/-- The key `a` comes back, and so does its frame. -/
theorem plain_key_kept : decodeMessage [1, 1, 0, 1, 97] = .ok (.readRequest [97]) ∧
    encodeMessage (.readRequest [97]) = .ok [1, 1, 0, 1, 97] := by
  have hencode : encodeMessage (.readRequest [97]) = .ok [1, 1, 0, 1, 97] := by decide +kernel
  have hdecode := ((codec_round_trips (.readRequest [97]) _).1 hencode).mpr (by decide +kernel)
  refine ⟨hdecode, ((codec_round_trips _ _).2 hdecode).mpr fun source hsource => ?_⟩
  cases (decodeMessageWith_keep_eq_ok.mpr hencode).symm.trans hsource
  decide

end Nodeakt.Kv
