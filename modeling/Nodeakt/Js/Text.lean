import Mathlib

/-! Text as the runtime has it.

    A string is its sequence of UTF-16 code units, lone surrogates included, and `<` on strings is
    the lexicographic order on code units. `encodeUtf8` is `TextEncoder.encode`: a surrogate pair
    becomes the four bytes of its code point and a lone surrogate the replacement character. -/

namespace Nodeakt

/-- One UTF-16 code unit. -/
abbrev CodeUnit := Fin 0x10000

/-- A string, by its code units. -/
abbrev JsString := List CodeUnit

instance neZeroUnits : NeZero 0x10000 := ⟨by decide⟩

instance lawfulBEqUnit : LawfulBEq CodeUnit := inferInstance

instance lawfulBEqText : LawfulBEq JsString := inferInstance

/-- Byte payloads. -/
abbrev Bytes := List UInt8

namespace JsString

/-- First unit of a surrogate pair. -/
def isHighSurrogate (u : CodeUnit) : Bool := 0xD800 ≤ u.val && u.val ≤ 0xDBFF

/-- Second unit of a surrogate pair. -/
def isLowSurrogate (u : CodeUnit) : Bool := 0xDC00 ≤ u.val && u.val ≤ 0xDFFF

/-- UTF-8 bytes of one code point. -/
def encodePoint (c : ℕ) : Bytes := if c < 0x80 then [c.toUInt8]
  else if c < 0x800 then [(0xC0 + c / 0x40).toUInt8, (0x80 + c % 0x40).toUInt8]
  else if c < 0x10000 then
    [(0xE0 + c / 0x1000).toUInt8, (0x80 + c / 0x40 % 0x40).toUInt8, (0x80 + c % 0x40).toUInt8]
  else
    [(0xF0 + c / 0x40000).toUInt8, (0x80 + c / 0x1000 % 0x40).toUInt8,
      (0x80 + c / 0x40 % 0x40).toUInt8, (0x80 + c % 0x40).toUInt8]

/-- U+FFFD, what a lone surrogate encodes as. -/
def replacement : ℕ := 0xFFFD

/-- `TextEncoder.encode`. -/
def encodeUtf8 : JsString → Bytes
  | [] => []
  | [u] => encodePoint (if isHighSurrogate u || isLowSurrogate u then replacement else u.val)
  | u :: v :: rest =>
    if isHighSurrogate u && isLowSurrogate v then
      encodePoint (0x10000 + (u.val - 0xD800) * 0x400 + (v.val - 0xDC00)) ++ encodeUtf8 rest
    else
      encodePoint (if isHighSurrogate u || isLowSurrogate u then replacement else u.val) ++
        encodeUtf8 (v :: rest)

/-- Decimal text of a natural number, as a template literal prints it. -/
def ofNat (n : ℕ) : JsString := (Nat.toDigits 10 n).map (fun c => Fin.ofNat 0x10000 c.toNat)

end JsString

end Nodeakt
