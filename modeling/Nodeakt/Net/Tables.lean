import Nodeakt.Net.Bytes
import Nodeakt.Schemes.Action
import Nodeakt.Schemes.OrderedMap

/-! String tables (`net/table.ts`): each direction of a connection interns actor paths and type ids.

    The sender assigns ids from 1 per kind and announces each in a TABLE body before it is used; an
    empty literal and a literal past the capacity travel inline. The receiver installs announcements
    under strict rules. What the owner caches at an installed path is not modelled. -/

namespace Nodeakt.Net
open Schemes JsString

inductive TableKind where
  | path
  | type
  deriving DecidableEq

def TableKind.code : TableKind → ℕ
  | path => 0
  | type => 1

/-- Entries per kind per direction. -/
def tableCapacity : ℕ := 8192

structure TableAnnouncement where
  kind : TableKind
  id : ℕ
  literal : JsString
  deriving DecidableEq

def encodeTableBody (announcement : TableAnnouncement) : Except EncodeError Bytes := do
  let id ← writeUvarint announcement.id
  let literal ← writeString announcement.literal
  pure (byte announcement.kind.code :: id ++ literal)

def readTableKind : Reader NetError TableKind := do
  let kind ← readU8
  if kind = 0 then pure .path
  else if kind = 1 then pure .type
  else Reader.fail (.protocol (.tableKind kind))

def decodeTableBody : Reader NetError TableAnnouncement := do
  let kind ← readTableKind
  let id ← readUvarint
  let literal ← readString
  let remaining ← Reader.remaining
  Reader.refuse (remaining ≠ 0) (.protocol .tableTrailing)
  pure ⟨kind, id, literal⟩

/-! ### The sending side -/

/-- An announcement with the body that carries it. -/
structure Announced extends TableAnnouncement where
  body : Bytes
  encoded : encodeTableBody toTableAnnouncement = .ok body

structure OutboundTables where
  table : TableKind → OrderedMap JsString ℕ

namespace OutboundTables

def empty : OutboundTables := ⟨fun _ => .empty⟩

def set (tables : OutboundTables) (kind : TableKind) (literal : JsString) (id : ℕ) : OutboundTables :=
  ⟨Function.update tables.table kind ((tables.table kind).set literal id)⟩

end OutboundTables

/-- The tables a direction encodes through, if it has any, and the announcements made so far. -/
structure Interner where
  tables : Option OutboundTables
  announced : List Announced

namespace Interner

def announce (announcement : TableAnnouncement) : Action Interner EncodeError Unit := fun s =>
  match h : encodeTableBody announcement with
  | .ok body => (.ok (), { s with announced := s.announced ++ [⟨announcement, body, h⟩] })
  | .error e => (.error e, s)

/-- The id of a literal, zero for inline. -/
def intern (kind : TableKind) (literal : JsString) : Action Interner EncodeError ℕ := fun s =>
  match s.tables with
  | none => (.ok 0, s)
  | some tables =>
    if literal = [] then (.ok 0, s)
    else match (tables.table kind).get literal with
      | some known => (.ok known, s)
      | none =>
        let size := (tables.table kind).keys.length
        if tableCapacity ≤ size then (.ok 0, s)
        else
          let assigned : Action Interner EncodeError ℕ := do
            announce ⟨kind, size + 1, literal⟩
            pure (size + 1)
          assigned { s with tables := some (tables.set kind literal (size + 1)) }

end Interner

/-! ### The receiving side -/

/-- The literals by id. -/
structure InboundTables where
  entry : TableKind → ℕ → Option JsString

namespace InboundTables

def empty : InboundTables := ⟨fun _ _ => none⟩

def set (tables : InboundTables) (kind : TableKind) (id : ℕ) (literal : JsString) : InboundTables :=
  ⟨Function.update tables.entry kind (Function.update (tables.entry kind) id (some literal))⟩

def install (tables : InboundTables) (announcement : TableAnnouncement) :
    Except ProtocolError InboundTables := do
  refuse (announcement.id = 0) .tableIdZero
  refuse (announcement.literal = []) (.tableEmpty announcement.id)
  refuse (tableCapacity < announcement.id) (.tableCapacity announcement.id)
  match tables.entry announcement.kind announcement.id with
  | some existing =>
    if existing = announcement.literal then pure tables
    else .error (.tableConflict announcement.id)
  | none => pure (tables.set announcement.kind announcement.id announcement.literal)

/-- Decodes a TABLE body and installs it. -/
def receive (tables : InboundTables) (body : Bytes) : Except NetError InboundTables := do
  let (announcement, _) ← decodeTableBody body
  (tables.install announcement).mapError .protocol

/-- The literal of an id, or the error of an unknown one. -/
def resolve (kind : TableKind) (unknown : ℕ → ProtocolError) (tables : InboundTables) (id : ℕ) :
    Except ProtocolError JsString :=
  match tables.entry kind id with
  | some literal => .ok literal
  | none => .error (unknown id)

def path : InboundTables → ℕ → Except ProtocolError JsString := resolve .path .unknownPath

def type : InboundTables → ℕ → Except ProtocolError JsString := resolve .type .unknownType

end InboundTables

end Nodeakt.Net
