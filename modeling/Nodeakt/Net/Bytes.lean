import Nodeakt.Schemes.Codec
import Nodeakt.Js.Utf8

/-! The byte primitives of the wire protocol (`ByteWriter` and `ByteReader` of `net/values.ts`).

    A writer's methods are functions to the bytes they append; those that throw return an `Except`. The
    reader is `Schemes.Reader`. Strings have two paths on each side: the writer copies code units when
    the text is ASCII, and the reader builds short ASCII text itself and leaves the rest to a fatal
    `TextDecoder`, which drops a leading byte order mark. -/

namespace Nodeakt.Net
open Schemes JsString List

variable {n : ℕ} {bytes : Bytes} {s : JsString}

/-- What the modelled codecs refuse to write. -/
inductive EncodeError where
  | uvarintRange (value : ℕ)
  | envelopeKind (kind : ℕ)
  | serializer (id : ℕ)
  | watchShape
  deriving DecidableEq

/-- The malformed or truncated bytes of a `ValueDecodeError`. -/
inductive ValueDecodeError where
  | truncated (need have_ : ℕ)
  | uvarintRange
  | uvarintLength
  | utf8
  | envelopeKind (kind : ℕ)
  | serializer (id : ℕ)
  | watchShape
  deriving DecidableEq

/-- The violations of a `ProtocolError`. -/
inductive ProtocolError where
  | noTable (id : ℕ)
  | tableKind (kind : ℕ)
  | tableTrailing
  | tableIdZero
  | tableEmpty (id : ℕ)
  | tableCapacity (id : ℕ)
  | tableConflict (id : ℕ)
  | unknownPath (id : ℕ)
  | unknownType (id : ℕ)
  deriving DecidableEq

inductive NetError where
  | value (error : ValueDecodeError)
  | protocol (error : ProtocolError)
  deriving DecidableEq

/-- `Number.MAX_SAFE_INTEGER`. -/
def maxSafeInteger : ℕ := 2 ^ 53 - 1

/-- The byte a number is written as. -/
def byte (n : ℕ) : UInt8 := n.toUInt8

/-! ### Integers -/

def readBytes (count : ℕ) : Reader NetError Bytes := fun bytes =>
  if bytes.length < count then .error (.value (.truncated count bytes.length))
  else .ok (bytes.take count, bytes.drop count)

def readU8 : Reader NetError ℕ := do
  let block ← readBytes 1
  pure (fromBigEndian block)

/-- The groups of seven bits, the lowest first, all but the last marked. -/
def uvarintGroups : ℕ → ℕ → Bytes
  | 0, _ => []
  | groups + 1, remaining =>
    if 0x7F < remaining then byte (remaining % 0x80 + 0x80) :: uvarintGroups groups (remaining / 0x80)
    else [byte remaining]

/-- A safe integer has at most eight groups. -/
def writeUvarint (value : ℕ) : Except EncodeError Bytes := do
  refuse (maxSafeInteger < value) (.uvarintRange value)
  pure (uvarintGroups 8 value)

/-- Reads at most `groups` groups onto the value so far. -/
def readGroups : ℕ → ℕ → ℕ → Reader NetError ℕ
  | 0, _, _ => Reader.fail (.value .uvarintLength)
  | groups + 1, value, scale => do
    let group ← readU8
    let value := value + group % 0x80 * scale
    if group < 0x80 then do
      Reader.refuse (maxSafeInteger < value) (.value .uvarintRange)
      pure value
    else readGroups groups value (scale * 0x80)

def readUvarint : Reader NetError ℕ := readGroups 8 0 1

theorem yields_readBytes (block : Bytes) : (readBytes block.length).Yields block block := by
  intro rest
  simp [readBytes]

/-- A byte is what is left of the number it is written from. -/
theorem yields_readU8_mod (n : ℕ) : readU8.Yields [byte n] (n % 0x100) := by
  intro rest
  have hblock : readBytes 1 ([byte n] ++ rest) = .ok ([byte n], rest) := yields_readBytes [byte n] rest
  rw [readU8, Reader.bind_apply_ok hblock]
  change Except.ok (fromBigEndian [byte n], rest) = _
  simp [fromBigEndian, byte]

theorem yields_readU8 (h : n < 0x100) : readU8.Yields [byte n] n := by
  simpa only [Nat.mod_eq_of_lt h] using yields_readU8_mod n

/-- Reading groups onto a value adds the number they are. -/
theorem yields_readGroups (groups value scale : ℕ) (hn : n < 0x80 ^ groups) (hgroups : groups ≠ 0)
    (hsafe : value + n * scale ≤ maxSafeInteger) :
    (readGroups groups value scale).Yields (uvarintGroups groups n) (value + n * scale) := by
  induction groups generalizing value scale n with
  | zero => exact absurd rfl hgroups
  | succ groups ih =>
    rw [uvarintGroups, readGroups]
    split_ifs with hbig
    · have hnext : groups ≠ 0 := by
        rintro rfl
        simp at hn
        omega
      have hsplit : n = n % 0x80 + 0x80 * (n / 0x80) := (Nat.mod_add_div n 0x80).symm
      have hvalue : value + n % 0x80 * scale + n / 0x80 * (scale * 0x80) = value + n * scale := by
        conv_rhs => rw [hsplit]
        ring
      have hdiv : n / 0x80 < 0x80 ^ groups := by
        rw [Nat.pow_succ] at hn
        exact Nat.div_lt_of_lt_mul (by rwa [Nat.mul_comm])
      have hrest := ih (value + n % 0x80 * scale) (scale * 0x80) hdiv hnext (by omega)
      rw [hvalue] at hrest
      refine (yields_readU8 (by omega)).bind ?_
      have hmod : (n % 0x80 + 0x80) % 0x80 = n % 0x80 := by omega
      have hnot : ¬n % 0x80 + 0x80 < 0x80 := by omega
      simp only [hmod, if_neg hnot]
      exact hrest
    · have hmod : n % 0x80 = n := Nat.mod_eq_of_lt (by omega)
      have hlt : n < 0x80 := by omega
      refine (yields_readU8 (by omega)).bind_nil ?_
      have hvalue : value + n % 0x80 * scale = value + n * scale := by rw [hmod]
      simp only [if_pos hlt]
      refine (Reader.yields_refuse (by rwa [hvalue, Nat.not_lt])).bind ?_
      rw [hvalue]
      exact Reader.yields_pure _

theorem writeUvarint_eq_ok :
    writeUvarint n = .ok bytes ↔ n ≤ maxSafeInteger ∧ uvarintGroups 8 n = bytes := by
  simp only [writeUvarint, except_bind_eq_ok, refuse_eq_ok, except_pure_eq_ok, exists_and_left]
  simp

/-- A written varint is read back. -/
theorem yields_readUvarint (h : writeUvarint n = .ok bytes) : readUvarint.Yields bytes n := by
  obtain ⟨hsafe, rfl⟩ := writeUvarint_eq_ok.mp h
  have hlt : n < 0x80 ^ 8 := by
    have : maxSafeInteger < 0x80 ^ 8 := by decide
    omega
  have hread := yields_readGroups 8 0 1 hlt (by decide) (by omega)
  rwa [Nat.zero_add, Nat.mul_one] at hread

/-! ### Strings -/

/-- UTF-8 bytes of a string as the writer counts them. -/
def utf8Length : JsString → ℕ
  | [] => 0
  | [u] => if u.val < 0x80 then 1 else if u.val < 0x800 then 2 else 3
  | u :: v :: rest =>
    if u.val < 0x80 then 1 + utf8Length (v :: rest)
    else if u.val < 0x800 then 2 + utf8Length (v :: rest)
    else if isHighSurrogate u && isLowSurrogate v then 4 + utf8Length rest
    else 3 + utf8Length (v :: rest)

/-- The low bytes of the code units. -/
def asciiBytes (s : JsString) : Bytes := s.map fun u => byte u.val

def writeString (value : JsString) : Except EncodeError Bytes := do
  let utf8 := utf8Length value
  let length ← writeUvarint utf8
  pure (length ++ if utf8 = value.length then asciiBytes value else encodeUtf8 value)

/-- Strings below this byte length try a char loop before the decoder. -/
def asciiFastPathLimit : ℕ := 24

/-- `new TextDecoder("utf-8", \{ fatal: true })`. -/
def textDecoder : TextDecoder := ⟨false⟩

/-- The text of bytes below 0x80. -/
def asciiText (bytes : Bytes) : JsString := bytes.map fun b => Fin.ofNat 0x10000 b.toNat

def decodeText (bytes : Bytes) : Reader NetError JsString :=
  if bytes.length < asciiFastPathLimit ∧ bytes.all (·.toNat < 0x80) then pure (asciiText bytes)
  else match textDecoder.decode bytes with
    | some text => pure text
    | none => Reader.fail (.value .utf8)

def readString : Reader NetError JsString := do
  let length ← readUvarint
  let bytes ← readBytes length
  decodeText bytes

theorem length_encodePoint (c : ℕ) : (encodePoint c).length =
    if c < 0x80 then 1 else if c < 0x800 then 2 else if c < 0x10000 then 3 else 4 := by
  unfold encodePoint
  split_ifs <;> rfl

/-- A unit that is not part of a pair takes up to three bytes. -/
theorem length_encodePoint_unit (u : CodeUnit) :
    (encodePoint (if isHighSurrogate u || isLowSurrogate u then replacement else u.val)).length =
      if u.val < 0x80 then 1 else if u.val < 0x800 then 2 else 3 := by
  have hlt := u.isLt
  rw [length_encodePoint]
  by_cases h : (isHighSurrogate u || isLowSurrogate u) = true
  · have hrange : 0xD800 ≤ u.val := by
      rcases Bool.or_eq_true _ _ ▸ h with hu | hu
      · exact (isHighSurrogate_iff.mp hu).1
      · have := (isLowSurrogate_iff.mp hu).1
        omega
    simp only [h, if_true, replacement]
    rw [if_neg (by omega), if_neg (by omega), if_pos (by omega), if_neg (by omega),
      if_neg (by omega)]
  · simp only [h]
    simp only [Bool.false_eq_true, if_false]
    split_ifs <;> omega

theorem not_pair_of_lt {u v : CodeUnit} (h : u.val < 0x800) :
    (isHighSurrogate u && isLowSurrogate v) = false := by
  have : isHighSurrogate u = false := by
    rw [Bool.eq_false_iff]
    intro hu
    have := (isHighSurrogate_iff.mp hu).1
    omega
  rw [this, Bool.false_and]

/-- The writer counts what the encoder writes. -/
theorem utf8Length_eq (s : JsString) : utf8Length s = (encodeUtf8 s).length := by
  fun_induction utf8Length s with
  | case1 => rfl
  | case2 u | case3 u | case4 u =>
    rw [encodeUtf8, length_encodePoint_unit]
    simp [*]
  | case5 u v rest hu ih | case6 u v rest hge hu ih =>
    rw [encodeUtf8, not_pair_of_lt (by omega)]
    simp only [Bool.false_eq_true, if_false, length_append]
    rw [length_encodePoint_unit, ih]
    simp [*]
  | case7 u v rest hge hge' hpair ih =>
    rw [encodeUtf8, if_pos hpair, length_append, length_encodePoint, ih]
    rw [if_neg (by omega), if_neg (by omega), if_neg (by omega)]
  | case8 u v rest hge hge' hpair ih =>
    rw [encodeUtf8, if_neg hpair, length_append, length_encodePoint_unit, ih]
    simp [*]

theorem length_le_utf8Length (s : JsString) : s.length ≤ utf8Length s := by
  fun_induction utf8Length s <;> simp only [length_cons, length_nil] at * <;> omega

/-- Text whose bytes are as many as its units is ASCII. -/
theorem ascii_of_utf8Length (h : utf8Length s = s.length) : ∀ u ∈ s, u.val < 0x80 := by
  fun_induction utf8Length s with
  | case1 => simp
  | case2 u hu => simpa using hu
  | case3 | case4 => simp at h
  | case5 u v rest hu ih =>
    rintro x (_ | ⟨_, hx⟩)
    · exact hu
    · refine ih ?_ x hx
      rw [length_cons] at h
      omega
  | case6 u v rest _ _ _ | case8 u v rest _ _ _ _ =>
    have := length_le_utf8Length (v :: rest)
    rw [length_cons] at h
    omega
  | case7 u v rest _ _ _ _ =>
    have := length_le_utf8Length rest
    rw [length_cons, length_cons] at h
    omega

theorem not_surrogate_of_lt {u : CodeUnit} (h : u.val < 0x80) :
    (isHighSurrogate u || isLowSurrogate u) = false := by
  rw [Bool.eq_false_iff]
  intro hu
  rcases Bool.or_eq_true _ _ ▸ hu with hu | hu
  · have := (isHighSurrogate_iff.mp hu).1
    omega
  · have := (isLowSurrogate_iff.mp hu).1
    omega

theorem asciiBytes_eq (h : ∀ u ∈ s, u.val < 0x80) : asciiBytes s = encodeUtf8 s := by
  induction s with
  | nil => rfl
  | cons u rest ih =>
    have hu := h u (by simp)
    rw [(encodeUtf8_cons (not_surrogate_of_lt hu) rest).1, ← ih fun x hx => h x (by simp [hx])]
    simp [asciiBytes, encodePoint, hu, byte]

theorem writeString_eq_ok (h : writeString s = .ok bytes) :
    ∃ length, writeUvarint (encodeUtf8 s).length = .ok length ∧ bytes = length ++ encodeUtf8 s := by
  obtain ⟨length, hlength, hbytes⟩ := except_bind_eq_ok.mp h
  rw [utf8Length_eq] at hlength
  refine ⟨length, hlength, ?_⟩
  rw [← except_pure_eq_ok.mp hbytes]
  split_ifs with hascii
  · rw [asciiBytes_eq (ascii_of_utf8Length hascii)]
  · rfl

/-- The decoder reads bytes below 0x80 as they are. -/
theorem decode_ascii (h : ∀ b ∈ bytes, b.toNat < 0x80) :
    Utf8State.start.decode bytes = some (asciiText bytes) := by
  induction bytes with
  | nil => rfl
  | cons b rest ih =>
    have hb := h b (by simp)
    have hrest := ih fun x hx => h x (by simp [hx])
    have hstart : Utf8State.start.needed = 0 := rfl
    rw [Utf8State.decode, if_pos hstart, if_pos hb, hrest]
    simp [asciiText, units, show b.toNat < 0x10000 by omega]

theorem head_asciiText (h : ∀ b ∈ bytes, b.toNat < 0x80) :
    (asciiText bytes).head? ≠ some byteOrderMark := by
  cases bytes with
  | nil => simp [asciiText]
  | cons b rest =>
    have hb := h b (by simp)
    simp only [asciiText, map_cons, head?_cons, ne_eq, Option.some.injEq, Fin.ext_iff,
      Fin.val_ofNat, byteOrderMark]
    rw [Nat.mod_eq_of_lt (by omega)]
    change ¬b.toNat = 0xFEFF
    omega

/-- The text that arrives: lone surrogates are replaced and a leading mark is dropped. -/
def received (s : JsString) : JsString := stripBom (toWellFormed s)

theorem received_of_isWellFormed (h : isWellFormed s = true) : received s = stripBom s := by
  rw [received, toWellFormed_eq_self h]

/-- A written string is read back as the text that arrives. -/
theorem yields_received (h : writeString s = .ok bytes) : readString.Yields bytes (received s) := by
  obtain ⟨hformed, hbytes⟩ := toWellFormed_spec s
  obtain ⟨length, hlength, rfl⟩ := writeString_eq_ok h
  refine (yields_readUvarint hlength).bind ((yields_readBytes _).bind_nil ?_)
  intro rest
  unfold decodeText received
  split_ifs with hascii
  · have hall : ∀ b ∈ encodeUtf8 s, b.toNat < 0x80 := by simpa using hascii.2
    have htext : asciiText (encodeUtf8 s) = toWellFormed s := by
      have := decode_encodeUtf8 hformed
      rw [hbytes, decode_ascii hall] at this
      exact Option.some.inj this
    rw [htext, stripBom_eq_self_iff.mpr]
    · rfl
    · rw [← htext]
      exact head_asciiText hall
  · have hdecode : textDecoder.decode (encodeUtf8 s) = some (stripBom (toWellFormed s)) :=
      TextDecoder.decode_eq_some.mpr ⟨toWellFormed s, hformed, hbytes, rfl⟩
    rw [hdecode]
    rfl

end Nodeakt.Net
