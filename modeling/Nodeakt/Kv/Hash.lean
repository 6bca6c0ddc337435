import Nodeakt.Js.Text

/-! Partition hashing (`kv/hash.ts`): FNV-1a over UTF-8 bytes, finished with the MurmurHash3
    32-bit avalanche. `UInt32` wraps as `Math.imul` and `>>> 0` do. -/

namespace Nodeakt.Kv

/-- FNV-1a 32-bit offset basis. -/
def FNV_OFFSET : UInt32 := 0x811c9dc5

/-- FNV-1a 32-bit prime. -/
def FNV_PRIME : UInt32 := 0x01000193

/-- FNV-1a over the bytes, without the avalanche. -/
def fnv1a32 (bytes : Bytes) : UInt32 :=
  bytes.foldl (fun hash byte => (hash ^^^ byte.toUInt32) * FNV_PRIME) FNV_OFFSET

/-- MurmurHash3 finalizer. -/
def mix32 (hash : UInt32) : UInt32 := let mixed := hash ^^^ (hash >>> 16)
  let mixed := mixed * 0x85ebca6b
  let mixed := mixed ^^^ (mixed >>> 13)
  let mixed := mixed * 0xc2b2ae35
  mixed ^^^ (mixed >>> 16)

/-- Mixed FNV-1a of a string's UTF-8 bytes. -/
def hash32 (value : JsString) : UInt32 := mix32 (fnv1a32 value.encodeUtf8)

/-- Maps `key` onto `[0, partitionCount)`. -/
def partitionId (key : JsString) (partitionCount : ℕ) : ℕ := (hash32 key).toNat % partitionCount

theorem partitionId_lt (key : JsString) {partitionCount : ℕ} (h : 0 < partitionCount) :
    partitionId key partitionCount < partitionCount := Nat.mod_lt _ h

end Nodeakt.Kv
