import Nodeakt.Kv.RoutingTable
import Nodeakt.Kv.WireRoundTrip

/-! Messages as they arrive.

    A message is encoded by its sender and decoded by its receiver, and the decoder drops a leading
    byte order mark of every key and name. `delivered_eq_some` says what arrives of a message that
    can be encoded at all; `pushOver` sends pages until one of them does not arrive, and
    `deliveredTable` is a routing table as a follower decodes it. -/

namespace Nodeakt.Kv
open Schemes JsString List Option KvMessage

variable {text key : JsString} {message arrived : KvMessage} {chunk page : FragmentChunk}

/-- A message as it arrives, if it can be encoded and decoded. -/
@[irreducible] def delivered (message : KvMessage) : Option KvMessage :=
  match encodeMessage message with
  | .ok bytes => (decodeMessage bytes).toOption
  | .error _ => none

/-- The page of a push. -/
def KvMessage.pushed : KvMessage → Option FragmentChunk
  | .fragmentPush chunk => some chunk
  | _ => none

/-- A pushed page as its receiver decodes it. -/
def deliveredPage (chunk : FragmentChunk) : Option FragmentChunk :=
  (delivered (.fragmentPush chunk)).bind KvMessage.pushed

/-- The entry of a replicate message. -/
def KvMessage.replicated : KvMessage → Option Entry
  | .replicate entry => some entry
  | _ => none

/-- A replicated entry as its receiver decodes it. -/
def deliveredEntry (entry : Entry) : Option Entry :=
  (delivered (.replicate entry)).bind KvMessage.replicated

/-- The codec's shape of a table. -/
def RoutingTable.toWire (table : RoutingTable) : RoutingTableWire := ⟨table.version, table.rows⟩

/-- The table of a wire shape; every partition needs an owner. -/
def RoutingTable.fromWire (wire : RoutingTableWire) : Option RoutingTable :=
  if h : ∀ row ∈ wire.partitions, row ≠ [] then some ⟨wire.version, wire.partitions, h⟩ else none

/-- The table in a message. -/
def KvMessage.tabled : KvMessage → Option RoutingTable
  | .table wire => RoutingTable.fromWire wire
  | _ => none

/-- A pushed table as its receiver decodes it. -/
def deliveredTable (table : RoutingTable) : Option RoutingTable :=
  (delivered (.table table.toWire)).bind KvMessage.tabled

/-- Pushes pages until one is not acknowledged. -/
def pushOver : List FragmentChunk → Engine → Engine × Bool
  | [], peer => (peer, true)
  | chunk :: rest, peer =>
    match deliveredPage chunk with
    | some page => pushOver rest (applyChunk peer page)
    | none => (peer, false)

/-- The text a decoder makes of a key or a name. -/
def arriving (text : JsString) : JsString := decoder.emit text

theorem arriving_eq_self (h : text.head? ≠ some byteOrderMark) :
    arriving text = text := stripBom_eq_self_iff.mpr h

/-- Only a text with one mark more arrives as a text with a mark. -/
theorem eq_of_arriving_marked (hkey : key.head? = some byteOrderMark)
    (h : arriving text = key) : text = byteOrderMark :: key := by
  cases text with
  | nil =>
    rw [← h] at hkey
    cases hkey
  | cons unit rest =>
    have hstrip : stripBom (unit :: rest) = key := h
    rw [stripBom] at hstrip
    split_ifs at hstrip with hmark
    · rw [hmark, hstrip]
    · rw [← hstrip, head?_cons, some.injEq] at hkey
      exact absurd hkey hmark

/-- A frame is decoded to the message as it arrives. -/
theorem decodeMessage_of_encode {bytes : Bytes} (h : encodeMessage message = .ok bytes) :
    decodeMessage bytes = .ok (message.mapText arriving) :=
  decodeMessageWith_eq_ok.mpr ⟨message, h, rfl⟩

theorem delivered_eq_some (h : delivered message = some arrived) :
    message.mapText arriving = arrived := by
  unfold delivered at h
  split at h
  · rename_i bytes hencode
    rw [decodeMessage_of_encode hencode] at h
    exact some.inj h
  · cases h

/-- A message without marks arrives as it was sent. -/
theorem eq_of_delivered (h : delivered message = some arrived) (hunmarked : message.Unmarked) :
    arrived = message :=
  (delivered_eq_some h).symm.trans (mapText_emit_eq_self_iff.mpr hunmarked)

theorem deliveredEntry_eq_some {entry other : Entry} (h : deliveredEntry entry = some other) :
    entry.mapText arriving = other := by
  obtain ⟨message, hmessage, hreplicated⟩ := bind_eq_some_iff.mp h
  rw [← delivered_eq_some hmessage, mapText, replicated, some.injEq] at hreplicated
  exact hreplicated

theorem deliveredEntry_of_encode {entry : Entry} {bytes : Bytes}
    (h : encodeMessage (.replicate entry) = .ok bytes) :
    deliveredEntry entry = some (entry.mapText arriving) := by
  simp only [deliveredEntry, delivered, h, decodeMessage_of_encode h]
  rfl

theorem eq_of_deliveredEntry {entry other : Entry} (h : deliveredEntry entry = some other)
    (hunmarked : (KvMessage.replicate entry).Unmarked) : other = entry := by
  rw [← deliveredEntry_eq_some h]
  exact replicate.inj (mapText_emit_eq_self_iff.mpr hunmarked)

theorem deliveredPage_eq_some (h : deliveredPage chunk = some page) :
    chunk.mapText arriving = page := by
  obtain ⟨message, hmessage, hpushed⟩ := bind_eq_some_iff.mp h
  rw [← delivered_eq_some hmessage, mapText, pushed, some.injEq] at hpushed
  exact hpushed

theorem eq_of_deliveredPage (h : deliveredPage chunk = some page)
    (hunmarked : (KvMessage.fragmentPush chunk).Unmarked) : page = chunk := by
  rw [← deliveredPage_eq_some h]
  exact fragmentPush.inj (mapText_emit_eq_self_iff.mpr hunmarked)

theorem RoutingTable.fromWire_toWire (table : RoutingTable) : fromWire table.toWire = some table :=
  dif_pos table.owned

/-- A table without marked owners arrives as it was sent. -/
theorem eq_of_deliveredTable {table pushed : RoutingTable} (h : deliveredTable table = some pushed)
    (hunmarked : ∀ id < table.partitionCount, ∀ owner ∈ table.owners id,
      owner.head? ≠ some byteOrderMark) : pushed = table := by
  obtain ⟨message, hmessage, htabled⟩ := bind_eq_some_iff.mp h
  have hmarks : (KvMessage.table table.toWire).Unmarked := by
    intro owner howner
    obtain ⟨row, hrow, hin⟩ := mem_flatten.mp howner
    obtain ⟨id, hid, rfl⟩ := RoutingTable.mem_rows_iff.mp hrow
    exact hunmarked id hid owner hin
  rw [eq_of_delivered hmessage hmarks, tabled, RoutingTable.fromWire_toWire] at htabled
  exact (some.inj htabled).symm

/-- An acknowledged push has merged every page as it arrives. -/
theorem pushOver_answered {pages : List FragmentChunk} {peer : Engine}
    (h : (pushOver pages peer).2 = true) :
    (pushOver pages peer).1 = (pages.map (FragmentChunk.mapText arriving)).foldl applyChunk peer := by
  induction pages generalizing peer with
  | nil => rfl
  | cons chunk rest ih =>
    rw [pushOver] at h ⊢
    cases hpage : deliveredPage chunk with
    | none =>
      rw [hpage] at h
      cases h
    | some page =>
      rw [hpage] at h
      rw [map_cons, foldl_cons, deliveredPage_eq_some hpage]
      exact ih h

end Nodeakt.Kv
