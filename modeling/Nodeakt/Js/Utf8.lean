import Nodeakt.Js.Text

/-! Decoding text as the runtime does.

    `TextDecoder` with the fatal option reads UTF-8 one byte at a time, keeping the code point under
    construction, the number of bytes it still needs and the range the next byte must lie in, and
    throws on anything else. Unless `ignoreBOM` is set it drops one leading U+FEFF from its output.
    Up to that mark it is the exact inverse of `encodeUtf8` on well-formed strings:
    `decodeBytes_eq_some`. -/

namespace Nodeakt

variable {s : JsString} {c : ℕ} {byte : UInt8} {bytes : Bytes} {u : CodeUnit}
  {decoder : TextDecoder}

namespace JsString

/-- Whether every surrogate is part of a pair. -/
def isWellFormed : JsString → Bool
  | [] => true
  | [u] => !(isHighSurrogate u || isLowSurrogate u)
  | u :: v :: rest =>
    if isHighSurrogate u && isLowSurrogate v then isWellFormed rest
    else !(isHighSurrogate u || isLowSurrogate u) && isWellFormed (v :: rest)

/-- The code units of a code point. -/
def units (c : ℕ) : JsString := if c < 0x10000 then [Fin.ofNat 0x10000 c]
  else [Fin.ofNat 0x10000 (0xD800 + (c - 0x10000) / 0x400),
    Fin.ofNat 0x10000 (0xDC00 + (c - 0x10000) % 0x400)]

/-- A code point that is not a surrogate. -/
def IsScalar (c : ℕ) : Prop := c < 0xD800 ∨ 0xE000 ≤ c ∧ c < 0x110000

/-- U+FEFF, the byte order mark. -/
def byteOrderMark : CodeUnit := 0xFEFF

/-- Drops one leading byte order mark. -/
def stripBom : JsString → JsString
  | [] => []
  | u :: rest => if u = byteOrderMark then rest else u :: rest

/-- A string is kept exactly if it does not start with the mark. -/
theorem stripBom_eq_self_iff : stripBom s = s ↔ s.head? ≠ some byteOrderMark := by
  cases s with
  | nil => simp [stripBom]
  | cons u rest =>
    simp only [stripBom, List.head?_cons, ne_eq, Option.some.injEq]
    split_ifs with h
    · simp [h]
    · simp [h]

end JsString

open JsString List Option

/-- The decoder between two bytes: the code point so far, the bytes it needs and the range of the
    next one. -/
structure Utf8State where
  point : ℕ
  needed : ℕ
  lower : ℕ
  upper : ℕ
  deriving DecidableEq

namespace Utf8State

/-- Between two code points. -/
def start : Utf8State := ⟨0, 0, 0x80, 0xBF⟩

/-- The state after the first byte of a code point of several bytes. -/
def lead (byte : ℕ) : Option Utf8State :=
  if 0xC2 ≤ byte ∧ byte ≤ 0xDF then some ⟨byte - 0xC0, 1, 0x80, 0xBF⟩
  else if 0xE0 ≤ byte ∧ byte ≤ 0xEF then
    some ⟨byte - 0xE0, 2, if byte = 0xE0 then 0xA0 else 0x80, if byte = 0xED then 0x9F else 0xBF⟩
  else if 0xF0 ≤ byte ∧ byte ≤ 0xF4 then
    some ⟨byte - 0xF0, 3, if byte = 0xF0 then 0x90 else 0x80, if byte = 0xF4 then 0x8F else 0xBF⟩
  else none

/-- Reads the bytes that are left. -/
def decode : Utf8State → Bytes → Option JsString
  | state, [] => if state.needed = 0 then some [] else none
  | state, byte :: rest =>
    if state.needed = 0 then
      if byte.toNat < 0x80 then (decode start rest).map (units byte.toNat ++ ·)
      else (lead byte.toNat).bind (fun next => decode next rest)
    else if state.lower ≤ byte.toNat ∧ byte.toNat ≤ state.upper then
      let point := state.point * 0x40 + (byte.toNat - 0x80)
      if state.needed = 1 then (decode start rest).map (units point ++ ·)
      else decode ⟨point, state.needed - 1, 0x80, 0xBF⟩ rest
    else none

/-- One byte between two code points, where a malformed one is replaced. -/
def firstByte (byte : ℕ) : JsString × Utf8State := if byte < 0x80 then (units byte, start) else
    match lead byte with
    | some next => ([], next)
    | none => ([0xFFFD], start)

/-- Reads the bytes that are left, replacing what is malformed. -/
def decodeLossy : Utf8State → Bytes → JsString
  | state, [] => if state.needed = 0 then [] else [0xFFFD]
  | state, byte :: rest =>
    if state.needed = 0 then
      (firstByte byte.toNat).1 ++ decodeLossy (firstByte byte.toNat).2 rest
    else if state.lower ≤ byte.toNat ∧ byte.toNat ≤ state.upper then
      let point := state.point * 0x40 + (byte.toNat - 0x80)
      if state.needed = 1 then units point ++ decodeLossy start rest
      else decodeLossy ⟨point, state.needed - 1, 0x80, 0xBF⟩ rest
    else 0xFFFD :: ((firstByte byte.toNat).1 ++ decodeLossy (firstByte byte.toNat).2 rest)

end Utf8State

/-- The whole input. -/
def decodeBytes (bytes : Bytes) : Option JsString := Utf8State.start.decode bytes

/-- A fatal UTF-8 decoder with its other option. -/
structure TextDecoder where
  ignoreBOM : Bool

/-- What a decoder makes of the decoded code points. -/
def TextDecoder.emit (decoder : TextDecoder) (s : JsString) : JsString :=
  if decoder.ignoreBOM then s else stripBom s

/-- `TextDecoder.decode`, which throws on malformed input. -/
def TextDecoder.decode (decoder : TextDecoder) (bytes : Bytes) : Option JsString :=
  (decodeBytes bytes).map decoder.emit

/-- `new TextDecoder()`, which replaces malformed input and drops a leading byte order mark. -/
def decodeTolerant (bytes : Bytes) : JsString := stripBom (Utf8State.start.decodeLossy bytes)

/-- Decodes text that must be valid and free of NUL. -/
def TextDecoder.decodeText {ε : Type} (decoder : TextDecoder) (malformed nul : ε) (bytes : Bytes) :
    Except ε JsString :=
  match decoder.decode bytes with
  | none => .error malformed
  | some text => if 0 ∈ text then .error nul else .ok text

/-! ### One code point -/

namespace Utf8State

/-- The last `n` bytes of a code point. -/
def tails (c : ℕ) : ℕ → Bytes
  | 0 => []
  | n + 1 => (0x80 + c / 0x40 ^ n % 0x40).toUInt8 :: tails c n

theorem toNat_tail (k : ℕ) : (0x80 + k % 0x40).toUInt8.toNat = 0x80 + k % 0x40 := by
  simp
  omega

/-- A point is its upper part and the next six bits. -/
theorem div_pow_succ (c n : ℕ) :
    c / 0x40 ^ (n + 1) * 0x40 + (0x80 + c / 0x40 ^ n % 0x40 - 0x80) = c / 0x40 ^ n := by
  rw [pow_succ, ← Nat.div_div_eq_div_mul]
  omega

/-- Reading the last bytes of a point completes it. -/
theorem decode_tails {rest : Bytes} : ∀ (n : ℕ) {lower upper : ℕ},
    lower ≤ 0x80 + c / 0x40 ^ n % 0x40 → 0x80 + c / 0x40 ^ n % 0x40 ≤ upper →
      decode ⟨c / 0x40 ^ (n + 1), n + 1, lower, upper⟩ (tails c (n + 1) ++ rest) =
        (start.decode rest).map (units c ++ ·)
  | 0, lower, upper, hlower, hupper => by
      simp only [tails, cons_append, nil_append, decode, toNat_tail, hlower, hupper,
        and_self, if_true, div_pow_succ]
      simp
  | n + 1, lower, upper, hlower, hupper => by
      have hrest : decode ⟨c / 0x40 ^ (n + 1), n + 1, 0x80, 0xBF⟩ (tails c (n + 1) ++ rest) =
          (start.decode rest).map (units c ++ ·) := decode_tails n (by omega) (by omega)
      rw [tails, cons_append, decode]
      simp only [toNat_tail, hlower, hupper, and_self, if_true, div_pow_succ]
      simpa using hrest

theorem eq_toUInt8 {n : ℕ} (h : byte.toNat = n) : byte = n.toUInt8 := by
  subst h
  simp

/-- Bytes that complete a point are its last bytes. -/
theorem tails_of_decode : ∀ (n : ℕ) {point lower upper : ℕ} {bytes : Bytes},
    0x80 ≤ lower → upper ≤ 0xBF → decode ⟨point, n + 1, lower, upper⟩ bytes = some s →
      ∃ c rest s', c / 0x40 ^ (n + 1) = point ∧ lower ≤ 0x80 + c / 0x40 ^ n % 0x40 ∧
        0x80 + c / 0x40 ^ n % 0x40 ≤ upper ∧ bytes = tails c (n + 1) ++ rest ∧
          start.decode rest = some s' ∧ s = units c ++ s'
  | n, point, lower, upper, [], _, _, h => by simp [decode] at h
  | 0, point, lower, upper, byte :: rest, hlower, hupper, h => by
      simp only [decode, one_ne_zero, if_false, zero_add, if_true] at h
      split at h
      · rename_i hrange
        obtain ⟨s', hs', rfl⟩ := map_eq_some_iff.mp h
        obtain ⟨c, hc⟩ : ∃ c, c = point * 0x40 + (byte.toNat - 0x80) := ⟨_, rfl⟩
        have hbyte : byte.toNat = 0x80 + c / 0x40 ^ 0 % 0x40 := by omega
        rw [← hc]
        refine ⟨c, rest, s', by omega, hbyte ▸ hrange.1, hbyte ▸ hrange.2, ?_, hs', rfl⟩
        rw [eq_toUInt8 hbyte]
        rfl
      · cases h
  | n + 1, point, lower, upper, byte :: rest, hlower, hupper, h => by
      simp only [decode, Nat.add_eq_zero_iff, one_ne_zero, and_false, if_false, Nat.add_eq_right,
        Nat.add_sub_cancel] at h
      split at h
      · rename_i hrange
        obtain ⟨c, after, s', hpoint, -, -, rfl, hs', rfl⟩ := tails_of_decode n le_rfl le_rfl h
        have hbyte : byte.toNat = 0x80 + c / 0x40 ^ (n + 1) % 0x40 := by omega
        refine ⟨c, after, s', ?_, hbyte ▸ hrange.1, hbyte ▸ hrange.2, ?_, hs', rfl⟩
        · rw [pow_succ, ← Nat.div_div_eq_div_mul, hpoint]
          omega
        · rw [eq_toUInt8 hbyte]
          rfl
      · cases h

/-- A byte above ASCII opens a point of several bytes. -/
theorem decode_lead (h : ¬ byte.toNat < 0x80) (rest : Bytes) :
    start.decode (byte :: rest) = (lead byte.toNat).bind (fun next => decode next rest) := by
  rw [decode]
  simp [start, h]

/-- The bytes of a point, by its size. -/
theorem encodePoint_of_lt_800 (hge : ¬ c < 0x80) (hlt : c < 0x800) :
    encodePoint c = (0xC0 + c / 0x40).toUInt8 :: tails c 1 := by
  simp [encodePoint, hge, hlt, tails]

theorem encodePoint_of_lt_10000 (hge : ¬ c < 0x800) (hlt : c < 0x10000) :
    encodePoint c = (0xE0 + c / 0x1000).toUInt8 :: tails c 2 := by
  have : ¬ c < 0x80 := by omega
  simp [encodePoint, this, hge, hlt, tails]

theorem encodePoint_of_ge_10000 (hge : ¬ c < 0x10000) :
    encodePoint c = (0xF0 + c / 0x40000).toUInt8 :: tails c 3 := by
  have hsmall : ¬ c < 0x80 := by omega
  have hmid : ¬ c < 0x800 := by omega
  simp [encodePoint, hsmall, hmid, hge, tails]

theorem lead_two : ∀ k < 0x20, 2 ≤ k → lead (0xC0 + k) = some ⟨k, 1, 0x80, 0xBF⟩ := by decide

theorem lead_three : ∀ k < 0x10, lead (0xE0 + k) = some ⟨k, 2,
    if k = 0 then 0xA0 else 0x80, if k = 0xD then 0x9F else 0xBF⟩ := by decide

theorem lead_four : ∀ k < 5, lead (0xF0 + k) = some ⟨k, 3,
    if k = 0 then 0x90 else 0x80, if k = 4 then 0x8F else 0xBF⟩ := by decide

/-- The three kinds of first byte. -/
theorem lead_cases {byte : ℕ} {state : Utf8State} (h : lead byte = some state) :
    (∃ k < 0x20, 2 ≤ k ∧ byte = 0xC0 + k) ∨ (∃ k < 0x10, byte = 0xE0 + k) ∨
      ∃ k < 5, byte = 0xF0 + k := by
  unfold lead at h
  split at h
  · exact Or.inl ⟨byte - 0xC0, by omega⟩
  split at h
  · exact Or.inr (Or.inl ⟨byte - 0xE0, by omega⟩)
  split at h
  · exact Or.inr (Or.inr ⟨byte - 0xF0, by omega⟩)
  · cases h

/-- Reading the bytes of a scalar yields its units. -/
theorem decode_encodePoint (h : IsScalar c) (rest : Bytes) :
    start.decode (encodePoint c ++ rest) = (start.decode rest).map (units c ++ ·) := by
  unfold IsScalar at h
  by_cases hone : c < 0x80
  · have hbyte : c.toUInt8.toNat = c := by simp; omega
    simp [encodePoint, decode, start, hbyte, hone]
  by_cases htwo : c < 0x800
  · have hbyte : (0xC0 + c / 0x40).toUInt8.toNat = 0xC0 + c / 0x40 := by simp; omega
    rw [encodePoint_of_lt_800 hone htwo, cons_append, decode_lead (by omega), hbyte,
      lead_two _ (by omega) (by omega)]
    exact decode_tails 0 (by omega) (by omega)
  by_cases hthree : c < 0x10000
  · have hbyte : (0xE0 + c / 0x1000).toUInt8.toNat = 0xE0 + c / 0x1000 := by simp; omega
    rw [encodePoint_of_lt_10000 htwo hthree, cons_append, decode_lead (by omega), hbyte,
      lead_three _ (by omega)]
    refine decode_tails 1 ?_ ?_ <;> split <;> omega
  · have hbyte : (0xF0 + c / 0x40000).toUInt8.toNat = 0xF0 + c / 0x40000 := by simp; omega
    rw [encodePoint_of_ge_10000 hthree, cons_append, decode_lead (by omega), hbyte,
      lead_four _ (by omega)]
    refine decode_tails 2 ?_ ?_ <;> split <;> omega

/-- Accepted bytes are none, or those of a scalar and accepted bytes. -/
theorem encodePoint_of_decode (h : start.decode (byte :: bytes) = some s) :
    ∃ c rest s', IsScalar c ∧ byte :: bytes = encodePoint c ++ rest ∧
      start.decode rest = some s' ∧ s = units c ++ s' := by
  by_cases hone : byte.toNat < 0x80
  · simp only [decode, start, if_true, hone] at h
    obtain ⟨s', hs', rfl⟩ := map_eq_some_iff.mp h
    refine ⟨byte.toNat, bytes, s', Or.inl (by omega), ?_, hs', rfl⟩
    simp [encodePoint, hone]
  · rw [decode_lead hone] at h
    obtain ⟨state, hlead, hstate⟩ := bind_eq_some_iff.mp h
    rcases lead_cases hlead with ⟨k, hk, htwo, hbyte⟩ | ⟨k, hk, hbyte⟩ | ⟨k, hk, hbyte⟩
    · rw [hbyte, lead_two k hk htwo] at hlead
      cases hlead
      obtain ⟨c, rest, s', hpoint, hlower, hupper, rfl, hs', rfl⟩ :=
        tails_of_decode 0 le_rfl le_rfl hstate
      refine ⟨c, rest, s', Or.inl (by omega), ?_, hs', rfl⟩
      have hfirst : byte.toNat = 0xC0 + c / 0x40 := by omega
      rw [encodePoint_of_lt_800 (by omega) (by omega), eq_toUInt8 hfirst]
      rfl
    · rw [hbyte, lead_three k hk] at hlead
      cases hlead
      obtain ⟨c, rest, s', hpoint, hlower, hupper, rfl, hs', rfl⟩ :=
        tails_of_decode 1 (by split <;> omega) (by split <;> omega) hstate
      have hscalar : IsScalar c ∧ ¬ c < 0x800 ∧ c < 0x10000 := by
        unfold IsScalar
        split at hlower <;> split at hupper <;> omega
      have hfirst : byte.toNat = 0xE0 + c / 0x1000 := by omega
      refine ⟨c, rest, s', hscalar.1, ?_, hs', rfl⟩
      rw [encodePoint_of_lt_10000 hscalar.2.1 hscalar.2.2, eq_toUInt8 hfirst]
      rfl
    · rw [hbyte, lead_four k hk] at hlead
      cases hlead
      obtain ⟨c, rest, s', hpoint, hlower, hupper, rfl, hs', rfl⟩ :=
        tails_of_decode 2 (by split <;> omega) (by split <;> omega) hstate
      have hscalar : IsScalar c ∧ ¬ c < 0x10000 := by
        unfold IsScalar
        split at hlower <;> split at hupper <;> omega
      have hfirst : byte.toNat = 0xF0 + c / 0x40000 := by omega
      refine ⟨c, rest, s', hscalar.1, ?_, hs', rfl⟩
      rw [encodePoint_of_ge_10000 hscalar.2, eq_toUInt8 hfirst]
      rfl

end Utf8State

/-! ### Whole strings -/

namespace JsString

theorem isHighSurrogate_iff : isHighSurrogate u = true ↔ 0xD800 ≤ u.val ∧ u.val ≤ 0xDBFF := by
  simp [isHighSurrogate]

theorem isLowSurrogate_iff : isLowSurrogate u = true ↔ 0xDC00 ≤ u.val ∧ u.val ≤ 0xDFFF := by
  simp [isLowSurrogate]

/-- A string that starts with a unit outside the surrogates. -/
theorem encodeUtf8_cons (h : (isHighSurrogate u || isLowSurrogate u) = false) (s : JsString) :
    encodeUtf8 (u :: s) = encodePoint u.val ++ encodeUtf8 s ∧
      isWellFormed (u :: s) = isWellFormed s := by
  obtain ⟨hhigh, hlow⟩ := Bool.or_eq_false_iff.mp h
  cases s with
  | nil | cons v rest => simp [encodeUtf8, isWellFormed, hhigh, hlow]

/-- A string that starts with a surrogate pair. -/
theorem encodeUtf8_pair {v : CodeUnit} (hhigh : isHighSurrogate u = true)
    (hlow : isLowSurrogate v = true) (s : JsString) :
    encodeUtf8 (u :: v :: s) =
        encodePoint (0x10000 + (u.val - 0xD800) * 0x400 + (v.val - 0xDC00)) ++ encodeUtf8 s ∧
      isWellFormed (u :: v :: s) = isWellFormed s := by
  simp [encodeUtf8, isWellFormed, hhigh, hlow]

/-- The units of a scalar encode as its bytes and are well formed. -/
theorem encodeUtf8_units (h : IsScalar c) (s : JsString) :
    encodeUtf8 (units c ++ s) = encodePoint c ++ encodeUtf8 s ∧
      isWellFormed (units c ++ s) = isWellFormed s := by
  unfold IsScalar at h
  unfold units
  split_ifs with hlt
  · have hval : (Fin.ofNat 0x10000 c).val = c := Nat.mod_eq_of_lt hlt
    have hplain : (isHighSurrogate (Fin.ofNat 0x10000 c) ||
        isLowSurrogate (Fin.ofNat 0x10000 c)) = false := by
      rw [Bool.or_eq_false_iff, ← Bool.not_eq_true, ← Bool.not_eq_true, isHighSurrogate_iff,
        isLowSurrogate_iff, hval]
      omega
    have hcons := encodeUtf8_cons hplain s
    rwa [hval] at hcons
  · have hfirst : (Fin.ofNat 0x10000 (0xD800 + (c - 0x10000) / 0x400)).val =
        0xD800 + (c - 0x10000) / 0x400 := Nat.mod_eq_of_lt (by omega)
    have hsecond : (Fin.ofNat 0x10000 (0xDC00 + (c - 0x10000) % 0x400)).val =
        0xDC00 + (c - 0x10000) % 0x400 := Nat.mod_eq_of_lt (by omega)
    have hpair := encodeUtf8_pair (isHighSurrogate_iff.mpr (by rw [hfirst]; omega))
      (isLowSurrogate_iff.mpr (by rw [hsecond]; omega)) s
    rw [hfirst, hsecond] at hpair
    have hpoint : 0x10000 + (0xD800 + (c - 0x10000) / 0x400 - 0xD800) * 0x400 +
        (0xDC00 + (c - 0x10000) % 0x400 - 0xDC00) = c := by omega
    rwa [hpoint] at hpair

theorem units_val (u : CodeUnit) : units u.val = [u] := by
  rw [units, if_pos u.isLt, Fin.ofNat_val_eq_self]

/-- A unit outside the surrogates is a scalar. -/
theorem isScalar_val (h : (isHighSurrogate u || isLowSurrogate u) = false) : IsScalar u.val := by
  rw [Bool.or_eq_false_iff, ← Bool.not_eq_true, ← Bool.not_eq_true, isHighSurrogate_iff,
    isLowSurrogate_iff] at h
  have := u.isLt
  unfold IsScalar
  omega

/-- A surrogate pair is the units of its scalar. -/
theorem units_pair {v : CodeUnit} (hhigh : isHighSurrogate u = true)
    (hlow : isLowSurrogate v = true) :
    IsScalar (0x10000 + (u.val - 0xD800) * 0x400 + (v.val - 0xDC00)) ∧
      units (0x10000 + (u.val - 0xD800) * 0x400 + (v.val - 0xDC00)) = [u, v] := by
  rw [isHighSurrogate_iff] at hhigh
  rw [isLowSurrogate_iff] at hlow
  have hfirst : 0xD800 + (0x10000 + (u.val - 0xD800) * 0x400 + (v.val - 0xDC00) - 0x10000) / 0x400 =
      u.val := by omega
  have hsecond : 0xDC00 + (0x10000 + (u.val - 0xD800) * 0x400 + (v.val - 0xDC00) - 0x10000) % 0x400 =
      v.val := by omega
  refine ⟨?_, ?_⟩
  · unfold IsScalar
    omega
  · rw [units, if_neg (by omega), hfirst, hsecond, Fin.ofNat_val_eq_self, Fin.ofNat_val_eq_self]

/-- A well-formed string is empty or starts with the units of a scalar. -/
theorem units_of_isWellFormed (h : isWellFormed s = true) : s = [] ∨
    ∃ c s', IsScalar c ∧ s = units c ++ s' ∧ s'.length < s.length := by
  match s, h with
  | [], _ => exact Or.inl rfl
  | [u], h =>
    have hplain : (isHighSurrogate u || isLowSurrogate u) = false := by simpa [isWellFormed] using h
    exact Or.inr ⟨u.val, [], isScalar_val hplain, by rw [units_val]; rfl, by simp⟩
  | u :: v :: rest, h =>
    rw [isWellFormed] at h
    split_ifs at h with hpair
    · obtain ⟨hhigh, hlow⟩ := Bool.and_eq_true_iff.mp hpair
      obtain ⟨hscalar, hunits⟩ := units_pair hhigh hlow
      exact Or.inr ⟨_, rest, hscalar, by rw [hunits]; rfl, by simp⟩
    · have hplain : (isHighSurrogate u || isLowSurrogate u) = false := by
        simpa using (Bool.and_eq_true_iff.mp h).1
      exact Or.inr ⟨u.val, v :: rest, isScalar_val hplain, by rw [units_val]; rfl, by simp⟩

end JsString

open Utf8State

/-- Accepted bytes encode a well-formed string. -/
theorem encodeUtf8_of_decode (h : start.decode bytes = some s) :
    isWellFormed s = true ∧ encodeUtf8 s = bytes := by
  induction hlength : bytes.length using Nat.strong_induction_on generalizing bytes s with
  | _ n ih =>
    cases bytes with
    | nil =>
      cases h
      exact ⟨rfl, rfl⟩
    | cons byte bytes =>
      obtain ⟨c, rest, s', hscalar, hbytes, hrest, rfl⟩ := encodePoint_of_decode h
      have hshorter : rest.length < n := by
        rw [← hlength, hbytes, length_append]
        have : encodePoint c ≠ [] := by
          unfold encodePoint
          split_ifs <;> simp
        have := length_pos_iff.mpr this
        omega
      obtain ⟨hformed, hencoded⟩ := ih rest.length hshorter hrest rfl
      obtain ⟨hencode, hwell⟩ := encodeUtf8_units hscalar s'
      exact ⟨hwell.trans hformed, by rw [hencode, hencoded, hbytes]⟩

/-- The encoding of a well-formed string is accepted and yields it. -/
theorem decode_encodeUtf8 (h : isWellFormed s = true) : start.decode (encodeUtf8 s) = some s := by
  induction hlength : s.length using Nat.strong_induction_on generalizing s with
  | _ n ih =>
    rcases units_of_isWellFormed h with rfl | ⟨c, s', hscalar, rfl, hshorter⟩
    · rfl
    · obtain ⟨hencode, hwell⟩ := encodeUtf8_units hscalar s'
      rw [hencode, decode_encodePoint hscalar, ih s'.length (hlength ▸ hshorter)
        (hwell.symm.trans h) rfl]
      rfl

/-! ### Lone surrogates -/

namespace JsString

/-- The text with lone surrogates replaced (`toWellFormed`). -/
def toWellFormed : JsString → JsString
  | [] => []
  | [u] => units (if isHighSurrogate u || isLowSurrogate u then replacement else u.val)
  | u :: v :: rest =>
    if isHighSurrogate u && isLowSurrogate v then u :: v :: toWellFormed rest
    else units (if isHighSurrogate u || isLowSurrogate u then replacement else u.val) ++
      toWellFormed (v :: rest)

theorem isScalar_replaced (u : CodeUnit) :
    IsScalar (if isHighSurrogate u || isLowSurrogate u then replacement else u.val) := by
  split_ifs with h
  · exact Or.inr (by decide)
  · exact isScalar_val (Bool.not_eq_true _ ▸ h)

/-- It is well formed and has the bytes of the text. -/
theorem toWellFormed_spec (s : JsString) :
    isWellFormed (toWellFormed s) = true ∧ encodeUtf8 (toWellFormed s) = encodeUtf8 s := by
  fun_induction toWellFormed s with
  | case1 => exact ⟨rfl, rfl⟩
  | case2 u =>
    obtain ⟨hencode, hformed⟩ := encodeUtf8_units (isScalar_replaced u) []
    rw [append_nil] at hencode hformed
    exact ⟨hformed, by rw [hencode, encodeUtf8, encodeUtf8, append_nil]⟩
  | case3 u v rest hpair ih =>
    obtain ⟨hhigh, hlow⟩ := Bool.and_eq_true_iff.mp hpair
    obtain ⟨hencode, hformed⟩ := encodeUtf8_pair hhigh hlow (toWellFormed rest)
    refine ⟨hformed.trans ih.1, ?_⟩
    rw [hencode, ih.2, (encodeUtf8_pair hhigh hlow rest).1]
  | case4 u v rest hpair ih =>
    obtain ⟨hencode, hformed⟩ := encodeUtf8_units (isScalar_replaced u) (toWellFormed (v :: rest))
    refine ⟨hformed.trans ih.1, ?_⟩
    rw [hencode, ih.2]
    conv_rhs => rw [encodeUtf8, if_neg hpair]

/-- Well-formed text is kept. -/
theorem toWellFormed_eq_self (h : isWellFormed s = true) : toWellFormed s = s := by
  have hdecode := decode_encodeUtf8 (toWellFormed_spec s).1
  rw [(toWellFormed_spec s).2, decode_encodeUtf8 h] at hdecode
  exact (some.inj hdecode).symm

end JsString

/-- The decoder accepts exactly the encodings of well-formed strings. -/
theorem decodeBytes_eq_some :
    decodeBytes bytes = some s ↔ isWellFormed s = true ∧ encodeUtf8 s = bytes := by
  refine ⟨encodeUtf8_of_decode, ?_⟩
  rintro ⟨hformed, rfl⟩
  exact decode_encodeUtf8 hformed

/-- A decoder returns what it makes of the string that was encoded. -/
theorem TextDecoder.decode_eq_some : decoder.decode bytes = some s ↔
      ∃ text, isWellFormed text = true ∧ encodeUtf8 text = bytes ∧ decoder.emit text = s := by
  simp only [TextDecoder.decode, map_eq_some_iff, decodeBytes_eq_some, and_assoc]

theorem JsString.zero_mem_stripBom {text : JsString} : 0 ∈ stripBom text ↔ 0 ∈ text := by
  cases text with
  | nil => rfl
  | cons u rest =>
    simp only [stripBom]
    split_ifs with hu
    · have hne : (0 : CodeUnit) ≠ u := by rw [hu]; decide
      simp [hne]
    · rfl

/-- Without its leading mark a text is no longer, and as well formed. -/
theorem JsString.stripBom_formed {text : JsString} (h : isWellFormed text = true) :
    isWellFormed (stripBom text) = true ∧
      (encodeUtf8 (stripBom text)).length ≤ (encodeUtf8 text).length := by
  cases text with
  | nil => exact ⟨h, le_rfl⟩
  | cons u rest =>
    rw [stripBom]
    split_ifs with hu
    · subst hu
      obtain ⟨hencode, hformed⟩ := @encodeUtf8_cons byteOrderMark rfl rest
      rw [hencode, length_append]
      exact ⟨hformed.symm.trans h, Nat.le_add_left ..⟩
    · exact ⟨h, le_rfl⟩

theorem JsString.encodeUtf8_eq_nil {text : JsString} (h : isWellFormed text = true) :
    encodeUtf8 text = [] ↔ text = [] := by
  refine ⟨fun hempty => ?_, fun hempty => by rw [hempty]; rfl⟩
  have hdecode := decodeBytes_eq_some.mpr ⟨h, hempty⟩
  exact (some.inj hdecode).symm

theorem TextDecoder.zero_mem_emit {text : JsString} : 0 ∈ decoder.emit text ↔ 0 ∈ text := by
  unfold TextDecoder.emit
  split
  · rfl
  · exact zero_mem_stripBom

/-- Decoded text is what the decoder makes of a well-formed text without NUL. -/
theorem TextDecoder.decodeText_eq_ok {ε : Type} {malformed nul : ε} :
    decoder.decodeText malformed nul bytes = .ok s ↔
      ∃ text, isWellFormed text = true ∧ encodeUtf8 text = bytes ∧ 0 ∉ text ∧
        decoder.emit text = s := by
  constructor
  · intro h
    unfold TextDecoder.decodeText at h
    split at h
    · cases h
    · rename_i found hfound
      obtain ⟨text, hformed, hbytes, rfl⟩ := TextDecoder.decode_eq_some.mp hfound
      split at h
      · cases h
      · rename_i hzero
        exact ⟨text, hformed, hbytes, mt zero_mem_emit.mpr hzero, Except.ok.inj h⟩
  · rintro ⟨text, hformed, rfl, hzero, rfl⟩
    have hdecode : decoder.decode (encodeUtf8 text) = some (decoder.emit text) :=
      TextDecoder.decode_eq_some.mpr ⟨text, hformed, rfl, rfl⟩
    simp only [TextDecoder.decodeText, hdecode, if_neg (mt zero_mem_emit.mp hzero)]

end Nodeakt
