import Mathlib

/-! Byte codecs.

    A writer turns a value into bytes or refuses it; a reader takes a value off the front of its
    input. `Exact` relates the two: a reader accepts exactly the bytes its writer emits, whatever
    follows them, and returns what `emit` makes of the value written. The rules below say when a
    composed reader is exact for a composed writer: numbers of fixed width, counted blocks and
    counted lists; `bind_eq_ok` takes a reader of several fields apart. -/

namespace Nodeakt.Schemes
open List

variable {ε α β : Type}
variable {b : β} {a : α} {bad : Prop} {error : ε} {bytes more rest : List UInt8} {n width : ℕ}
  {write : α → Except ε (List UInt8)} {emit : α → α}

/-! ### Refusals -/

/-- Writers that refuse. -/
theorem except_bind_eq_ok {x : Except ε α} {f : α → Except ε β} :
    (x >>= f) = .ok b ↔ ∃ a, x = .ok a ∧ f a = .ok b := by
  cases x with
  | error e | ok a => simp [bind, Except.bind]

theorem except_pure_eq_ok {b : α} : (pure a : Except ε α) = .ok b ↔ a = b := by
  simp [pure, Except.pure]

/-- A check that passes when `bad` is not met. -/
def refuse (bad : Prop) [Decidable bad] (error : ε) : Except ε Unit :=
  if bad then .error error else .ok ()

theorem refuse_eq_ok [Decidable bad] {u : Unit} : refuse bad error = .ok u ↔ ¬ bad := by
  unfold refuse
  split_ifs with h
  · simp [h]
  · simp [h]

/-! ### Readers -/

/-- A reader of the bytes that are left. -/
def Reader (ε α : Type) : Type := List UInt8 → Except ε (α × List UInt8)

namespace Reader

variable {x : Reader ε α} {f : α → Reader ε β}

instance : Monad (Reader ε) where
  pure a := fun bytes => .ok (a, bytes)
  bind x f := fun bytes =>
    match x bytes with
    | .error e => .error e
    | .ok (a, rest) => f a rest

/-- Fails without reading. -/
def fail (error : ε) : Reader ε α := fun _ => .error error

/-- Fails when `bad` is met. -/
def refuse (bad : Prop) [Decidable bad] (error : ε) : Reader ε Unit := fun bytes =>
  if bad then .error error else .ok ((), bytes)

theorem bind_eq_ok : (x >>= f) bytes = .ok (b, rest) ↔
      ∃ a mid, x bytes = .ok (a, mid) ∧ f a mid = .ok (b, rest) := by
  change (match x bytes with
    | .error e => Except.error e
    | .ok (a, rest) => f a rest) = _ ↔ _
  split
  · rename_i e h
    simp [h]
  · rename_i a mid h
    simp [h]

theorem pure_eq_ok {b : α} :
    (pure a : Reader ε α) bytes = .ok (b, rest) ↔ a = b ∧ bytes = rest := by
  change Except.ok (a, bytes) = _ ↔ _
  simp

theorem map_eq_ok {f : α → β} :
    (f <$> x) bytes = .ok (b, rest) ↔ ∃ a, x bytes = .ok (a, rest) ∧ f a = b := by
  change (x >>= fun a => pure (f a)) bytes = _ ↔ _
  simp [bind_eq_ok, pure_eq_ok]

theorem fail_eq_ok : ¬ (fail error : Reader ε α) bytes = .ok (a, rest) := by
  simp [fail]

theorem refuse_eq_ok [Decidable bad] {u : Unit} :
    Reader.refuse bad error bytes = .ok (u, rest) ↔ ¬ bad ∧ bytes = rest := by
  unfold Reader.refuse
  split_ifs with h
  · simp [h]
  · simp [h]

/-- A reader chosen by a condition. -/
theorem ite_cases {c : Prop} [Decidable c] {y : Reader ε α} {result : Except ε (α × List UInt8)}
    (h : (if c then x else y) bytes = result) :
    c ∧ x bytes = result ∨ ¬ c ∧ y bytes = result := by
  by_cases hc : c
  · rw [if_pos hc] at h
    exact Or.inl ⟨hc, h⟩
  · rw [if_neg hc] at h
    exact Or.inr ⟨hc, h⟩

/-- A result that reads nothing. -/
def ofExcept (x : Except ε α) : Reader ε α := fun bytes => x.map (fun a => (a, bytes))

theorem ofExcept_eq_ok {x : Except ε α} :
    ofExcept x bytes = .ok (a, rest) ↔ x = .ok a ∧ bytes = rest := by
  cases x with
  | error e | ok b => simp [ofExcept, Except.map]

/-- Reads a value and refuses bytes after it. -/
def whole (trailing : ε) (read : Reader ε α) (bytes : List UInt8) : Except ε α :=
  match read bytes with
  | .error e => .error e
  | .ok (a, rest) => if rest = [] then .ok a else .error trailing

theorem whole_eq_ok {trailing : ε} {read : Reader ε α} :
    whole trailing read bytes = .ok a ↔ read bytes = .ok (a, []) := by
  unfold whole
  split
  · rename_i e h
    simp [h]
  · rename_i b rest h
    rw [h]
    split_ifs with hrest
    · simp [hrest]
    · simp [hrest]

/-- Reads a value if it is present. -/
def optional (present : Bool) (read : Reader ε α) : Reader ε (Option α) :=
  if present then some <$> read else pure none

/-- How many bytes are left. -/
def remaining : Reader ε ℕ := fun bytes => .ok (bytes.length, bytes)

theorem remaining_eq_ok :
    (remaining : Reader ε ℕ) bytes = .ok (n, rest) ↔ bytes.length = n ∧ bytes = rest := by
  simp [remaining]

/-- The next `count` bytes. -/
def take (short : ε) (count : ℕ) : Reader ε (List UInt8) := fun bytes =>
  if count ≤ bytes.length then .ok (bytes.take count, bytes.drop count) else .error short

theorem take_eq_ok {short : ε} {count : ℕ} {block : List UInt8} :
    take short count bytes = .ok (block, rest) ↔ block.length = count ∧ bytes = block ++ rest := by
  unfold take
  split_ifs with h
  · simp only [Except.ok.injEq, Prod.mk.injEq]
    constructor
    · rintro ⟨rfl, rfl⟩
      exact ⟨by simpa using h, (take_append_drop ..).symm⟩
    · rintro ⟨rfl, rfl⟩
      simp
  · simp only [false_iff]
    rintro ⟨rfl, rfl⟩
    simp at h

/-- `count` values, one after the other. -/
def times (read : Reader ε α) : ℕ → Reader ε (List α)
  | 0 => pure []
  | count + 1 => do
    let a ← read
    let rest ← times read count
    pure (a :: rest)

/-! ### Reading back -/

/-- The reader takes exactly these bytes off its input, whatever follows, and returns the value. -/
def Yields (read : Reader ε α) (bytes : List UInt8) (a : α) : Prop :=
  ∀ rest, read (bytes ++ rest) = .ok (a, rest)

theorem bind_apply_ok (h : x bytes = .ok (a, rest)) : (x >>= f) bytes = f a rest := by
  change (match x bytes with
    | .error e => Except.error e
    | .ok (a, rest) => f a rest) = _
  rw [h]

theorem yields_pure (a : α) : (pure a : Reader ε α).Yields [] a := fun _ => rfl

theorem Yields.bind (hx : x.Yields bytes a) (hf : (f a).Yields more b) :
    (x >>= f).Yields (bytes ++ more) b := by
  intro rest
  rw [append_assoc, bind_apply_ok (hx (more ++ rest)), hf rest]

/-- A last step that reads nothing. -/
theorem Yields.bind_nil (hx : x.Yields bytes a) (hf : (f a).Yields [] b) :
    (x >>= f).Yields bytes b := by
  simpa using hx.bind hf

theorem yields_refuse [Decidable bad] (h : ¬bad) : (Reader.refuse bad error).Yields [] () := by
  intro rest
  simp [Reader.refuse, h]

/-- A check that passes reads nothing. -/
theorem refuse_bind_apply [Decidable bad] (h : ¬bad) {f : Unit → Reader ε β} :
    (Reader.refuse bad error >>= f) bytes = f () bytes :=
  bind_apply_ok (by simp [Reader.refuse, h])

end Reader

/-! ### Numbers of fixed width -/

/-- A number as `width` bytes, the most significant first; higher bits are lost. -/
def bigEndian : ℕ → ℕ → List UInt8
  | 0, _ => []
  | width + 1, n => (n / 256 ^ width).toUInt8 :: bigEndian width n

/-- The number some bytes are. -/
def fromBigEndian : List UInt8 → ℕ
  | [] => 0
  | byte :: bytes => byte.toNat * 256 ^ bytes.length + fromBigEndian bytes

theorem length_bigEndian (n : ℕ) : ∀ width, (bigEndian width n).length = width
  | 0 => rfl
  | width + 1 => by rw [bigEndian, length_cons, length_bigEndian n width]

theorem fromBigEndian_lt : ∀ bytes, fromBigEndian bytes < 256 ^ bytes.length
  | [] => by simp [fromBigEndian]
  | byte :: bytes => by
      have hbyte : byte.toNat + 1 ≤ 256 := byte.toNat_lt
      calc byte.toNat * 256 ^ bytes.length + fromBigEndian bytes
          < byte.toNat * 256 ^ bytes.length + 256 ^ bytes.length :=
            Nat.add_lt_add_left (fromBigEndian_lt bytes) _
        _ = (byte.toNat + 1) * 256 ^ bytes.length := by ring
        _ ≤ 256 * 256 ^ bytes.length := Nat.mul_le_mul_right _ hbyte
        _ = 256 ^ (byte :: bytes).length := by rw [length_cons, pow_succ]; ring

theorem fromBigEndian_bigEndian_mod (n : ℕ) :
    ∀ width, fromBigEndian (bigEndian width n) = n % 256 ^ width
  | 0 => by simp [bigEndian, fromBigEndian, Nat.mod_one]
  | width + 1 => by
      have hbyte : (n / 256 ^ width).toUInt8.toNat = n / 256 ^ width % 256 := by simp
      rw [bigEndian, fromBigEndian, length_bigEndian, fromBigEndian_bigEndian_mod n width, hbyte,
        pow_succ, Nat.mod_mul]
      ring

/-- A number that fits is read back. -/
theorem fromBigEndian_bigEndian (h : n < 256 ^ width) : fromBigEndian (bigEndian width n) = n := by
  rw [fromBigEndian_bigEndian_mod, Nat.mod_eq_of_lt h]

/-- Only the lower bits are written. -/
theorem bigEndian_mul_add (k n : ℕ) :
    ∀ width above, bigEndian width (k * 256 ^ (width + above) + n) = bigEndian width n
  | 0, _ => rfl
  | width + 1, above => by
      have hhead : (k * 256 ^ (width + 1 + above) + n) / 256 ^ width =
          k * 256 ^ above * 256 + n / 256 ^ width := by
        rw [show k * 256 ^ (width + 1 + above) = 256 ^ width * (k * 256 ^ above * 256) by ring,
          Nat.mul_add_div (by positivity)]
      have htail : bigEndian width (k * 256 ^ (width + 1 + above) + n) = bigEndian width n := by
        rw [show width + 1 + above = width + (1 + above) by ring]
        exact bigEndian_mul_add k n width (1 + above)
      rw [bigEndian, bigEndian, hhead, htail]
      congr 1
      apply UInt8.toNat_inj.mp
      simp

/-- Bytes are the number they are, at their width. -/
theorem bigEndian_fromBigEndian : ∀ bytes, bigEndian bytes.length (fromBigEndian bytes) = bytes
  | [] => rfl
  | byte :: bytes => by
      have hhead : (byte.toNat * 256 ^ bytes.length + fromBigEndian bytes) / 256 ^ bytes.length =
          byte.toNat := by
        rw [mul_comm, Nat.mul_add_div (by positivity), Nat.div_eq_of_lt (fromBigEndian_lt bytes),
          add_zero]
      rw [length_cons, bigEndian, fromBigEndian, hhead]
      congr 1
      · simp
      · exact (bigEndian_mul_add _ _ bytes.length 0).trans (bigEndian_fromBigEndian bytes)

/-- Reads a number of `width` bytes. -/
def Reader.number (short : ε) (width : ℕ) : Reader ε ℕ := fromBigEndian <$> Reader.take short width

theorem Reader.number_eq_ok {short : ε} : Reader.number short width bytes = .ok (n, rest) ↔
      n < 256 ^ width ∧ bytes = bigEndian width n ++ rest := by
  simp only [Reader.number, Reader.map_eq_ok, Reader.take_eq_ok]
  constructor
  · rintro ⟨block, ⟨rfl, rfl⟩, rfl⟩
    exact ⟨fromBigEndian_lt block, by rw [bigEndian_fromBigEndian]⟩
  · rintro ⟨hlt, rfl⟩
    exact ⟨bigEndian width n, ⟨length_bigEndian n width, rfl⟩, fromBigEndian_bigEndian hlt⟩

/-! ### Exactness -/

/-- The reader accepts exactly what the writer emits, and returns `emit` of the value written. -/
def Exact (write : α → Except ε (List UInt8)) (read : Reader ε α) (emit : α → α) : Prop :=
  ∀ bytes a rest, read bytes = .ok (a, rest) ↔
    ∃ source block, write source = .ok block ∧ bytes = block ++ rest ∧ emit source = a

/-- Writes values one after the other. -/
def writeAll (write : α → Except ε (List UInt8)) : List α → Except ε (List UInt8)
  | [] => pure []
  | a :: rest => do
    let head ← write a
    let tail ← writeAll write rest
    pure (head ++ tail)

theorem writeAll_cons_eq_ok {as : List α} {block : List UInt8} :
    writeAll write (a :: as) = .ok block ↔
      ∃ head tail, write a = .ok head ∧ writeAll write as = .ok tail ∧ block = head ++ tail := by
  simp only [writeAll, except_bind_eq_ok, except_pure_eq_ok]
  constructor
  · rintro ⟨head, hhead, tail, htail, rfl⟩
    exact ⟨head, tail, hhead, htail, rfl⟩
  · rintro ⟨head, tail, hhead, htail, rfl⟩
    exact ⟨head, hhead, tail, htail, rfl⟩

/-- Reading a list undoes writing it, element by element. -/
theorem Exact.times {read : Reader ε α} (h : Exact write read emit) :
    ∀ (count : ℕ) (bytes : List UInt8) (as : List α)
      (rest : List UInt8), read.times count bytes = .ok (as, rest) ↔
        ∃ sources block, sources.length = count ∧ writeAll write sources = .ok block ∧
          bytes = block ++ rest ∧ sources.map emit = as
  | 0, bytes, as, rest => by
      simp only [Reader.times, Reader.pure_eq_ok]
      constructor
      · rintro ⟨rfl, rfl⟩
        exact ⟨[], [], rfl, rfl, rfl, rfl⟩
      · rintro ⟨sources, block, hlength, hblock, rfl, rfl⟩
        obtain rfl := length_eq_zero_iff.mp hlength
        obtain rfl := except_pure_eq_ok.mp hblock
        exact ⟨rfl, rfl⟩
  | count + 1, bytes, as, rest => by
      simp only [Reader.times, Reader.bind_eq_ok, Reader.pure_eq_ok]
      constructor
      · rintro ⟨a, mid, hread, tail, last, htimes, rfl, rfl⟩
        obtain ⟨source, head, hwrite, rfl, rfl⟩ := (h _ _ _).mp hread
        obtain ⟨sources, block, rfl, hall, rfl, rfl⟩ := (h.times count _ _ _).mp htimes
        refine ⟨source :: sources, head ++ block, rfl, ?_, (append_assoc ..).symm, rfl⟩
        exact writeAll_cons_eq_ok.mpr ⟨head, block, hwrite, hall, rfl⟩
      · rintro ⟨sources, block, hlength, hall, rfl, rfl⟩
        obtain ⟨source, sources, rfl⟩ := exists_cons_of_length_eq_add_one hlength
        obtain ⟨head, tail, hwrite, hrest, rfl⟩ := writeAll_cons_eq_ok.mp hall
        refine ⟨emit source, tail ++ rest, (h _ _ _).mpr ⟨source, head, hwrite,
          append_assoc .., rfl⟩, sources.map emit, rest, ?_, rfl, rfl⟩
        exact (h.times count _ _ _).mpr ⟨sources, tail, Nat.succ.inj hlength, hrest, rfl, rfl⟩

/-- Writes a value if it is present. -/
def writeOptional (write : α → Except ε (List UInt8)) : Option α → Except ε (List UInt8)
  | none => pure []
  | some a => write a

/-- Reading an optional value undoes writing it, once its presence is known. -/
theorem Exact.optional {read : Reader ε α} (h : Exact write read emit) {present : Bool}
    {a : Option α} :
    Reader.optional present read bytes = .ok (a, rest) ↔
      ∃ source block, source.isSome = present ∧ writeOptional write source = .ok block ∧
        bytes = block ++ rest ∧ source.map emit = a := by
  cases present with
  | false =>
    simp only [Reader.optional, Bool.false_eq_true, if_false, Reader.pure_eq_ok]
    constructor
    · rintro ⟨rfl, rfl⟩
      exact ⟨none, [], rfl, rfl, rfl, rfl⟩
    · rintro ⟨source, block, hnone, hblock, rfl, rfl⟩
      obtain rfl := Option.isSome_eq_false_iff.mp hnone |> Option.isNone_iff_eq_none.mp
      obtain rfl := except_pure_eq_ok.mp hblock
      exact ⟨rfl, rfl⟩
  | true =>
    simp only [Reader.optional, if_true, Reader.map_eq_ok, h bytes]
    constructor
    · rintro ⟨_, ⟨source, block, hwrite, rfl, rfl⟩, rfl⟩
      exact ⟨some source, block, rfl, hwrite, rfl, rfl⟩
    · rintro ⟨source, block, hsome, hwrite, rfl, rfl⟩
      obtain ⟨value, rfl⟩ := Option.isSome_iff_exists.mp hsome
      exact ⟨emit value, ⟨value, block, hwrite, rfl, rfl⟩, rfl⟩

/-- A reader made into another type reads what was written of its own. -/
theorem Exact.map {read : Reader ε α} (h : Exact write read emit) (make : α → β) :
    (make <$> read) bytes = .ok (b, rest) ↔
      ∃ source block, write source = .ok block ∧ bytes = block ++ rest ∧ make (emit source) = b := by
  simp only [Reader.map_eq_ok, h bytes]
  constructor
  · rintro ⟨_, ⟨source, block, hwrite, rfl, rfl⟩, rfl⟩
    exact ⟨source, block, hwrite, rfl, rfl⟩
  · rintro ⟨source, block, hwrite, rfl, rfl⟩
    exact ⟨emit source, ⟨source, block, hwrite, rfl, rfl⟩, rfl⟩

/-! ### Tagged bodies -/

/-- Writes the tag of a value and then its body. -/
def writeTagged (tag : α → ℕ) (width : ℕ) (writeBody : α → Except ε (List UInt8)) (a : α) :
    Except ε (List UInt8) := do
  let body ← writeBody a
  pure (bigEndian width (tag a) ++ body)

/-- Each tag's reader accepts exactly the bodies of the values with that tag. -/
def TagExact (tag : α → ℕ) (writeBody : α → Except ε (List UInt8)) (readBody : ℕ → Reader ε α)
    (emit : α → α) : Prop :=
  ∀ k bytes a rest, readBody k bytes = .ok (a, rest) ↔ ∃ source block, tag source = k ∧
    writeBody source = .ok block ∧ bytes = block ++ rest ∧ emit source = a

/-- A tag followed by the body it announces is read exactly. -/
theorem TagExact.exact {tag : α → ℕ} {writeBody : α → Except ε (List UInt8)}
    {readBody : ℕ → Reader ε α} (h : TagExact tag writeBody readBody emit)
    (htag : ∀ a, tag a < 256 ^ width) (short : ε) :
    Exact (writeTagged tag width writeBody) (do
        let k ← Reader.number short width
        readBody k) emit := by
  intro bytes a rest
  simp only [Reader.bind_eq_ok, Reader.number_eq_ok, h _ _, writeTagged, except_bind_eq_ok,
    except_pure_eq_ok]
  constructor
  · rintro ⟨_, _, ⟨-, rfl⟩, source, block, rfl, hwrite, rfl, rfl⟩
    exact ⟨source, _, ⟨block, hwrite, rfl⟩, (append_assoc ..).symm, rfl⟩
  · rintro ⟨source, _, ⟨block, hwrite, rfl⟩, rfl, rfl⟩
    exact ⟨tag source, _, ⟨htag source, append_assoc ..⟩, source, block, rfl, hwrite, rfl, rfl⟩

section TaggedReaders

variable (tag : α → ℕ) (writeBody : α → Except ε (List UInt8)) (emit : α → α) (k : ℕ)

/-- Whatever the reader accepts was written as a body with the tag `k`. -/
def ReadsTagged (read : Reader ε α) : Prop :=
  ∀ bytes a rest, read bytes = .ok (a, rest) → ∃ source block, tag source = k ∧
    writeBody source = .ok block ∧ bytes = block ++ rest ∧ emit source = a

variable {tag writeBody emit k}

theorem ReadsTagged.ite {t : ℕ} {x y : Reader ε α}
    (hx : t = k → ReadsTagged tag writeBody emit k x) (hy : ReadsTagged tag writeBody emit k y) :
    ReadsTagged tag writeBody emit k (if k = t then x else y) := by
  intro bytes a rest h
  obtain ⟨hk, h⟩ | ⟨-, h⟩ := Reader.ite_cases h
  · exact hx hk.symm bytes a rest h
  · exact hy bytes a rest h

theorem Exact.readsTagged {write : β → Except ε (List UInt8)} {read : Reader ε β} {emit' : β → β}
    (h : Exact write read emit') {make : β → α} (hmake : ∀ b, tag (make b) = k ∧
      writeBody (make b) = write b ∧ emit (make b) = make (emit' b)) :
    ReadsTagged tag writeBody emit k (make <$> read) := by
  intro bytes a rest hread
  obtain ⟨source, block, hwrite, hbytes, rfl⟩ := (h.map make).mp hread
  obtain ⟨htag, hbody, hemit⟩ := hmake source
  exact ⟨make source, block, htag, hbody.trans hwrite, hbytes, hemit⟩

end TaggedReaders

/-! ### Round trips -/

/-- A decoder that makes `emit` of each encoded value round trips exactly on what `emit` keeps. `keep`
    is the decoder that inverts the encoder, and `fit` a check the decoder makes of its result. -/
theorem round_trips {encode : α → Except ε β} {keep decode : β → Except ε α} {fit kept : α → Prop}
    (hkeep : ∀ b a, keep b = .ok a ↔ encode a = .ok b)
    (hdecode : ∀ b a, decode b = .ok a ↔ ∃ source, encode source = .ok b ∧ emit source = a ∧ fit a)
    (hfit : ∀ a b, encode a = .ok b → fit a) (hkept : ∀ a, emit a = a ↔ kept a) (a : α) (b : β) :
    (encode a = .ok b → (decode b = .ok a ↔ kept a)) ∧
      (decode b = .ok a → (encode a = .ok b ↔ ∀ source, keep b = .ok source → kept source)) := by
  have hinj : ∀ a a', encode a = .ok b → encode a' = .ok b → a = a' := fun a a' h h' =>
    Except.ok.inj (((hkeep b a).mpr h).symm.trans ((hkeep b a').mpr h'))
  constructor
  · intro hencode
    rw [hdecode, ← hkept]
    constructor
    · rintro ⟨source, hsource, hsame, -⟩
      rwa [hinj source a hsource hencode] at hsame
    · intro hsame
      exact ⟨a, hencode, hsame, hfit a b hencode⟩
  · intro h
    obtain ⟨source, hsource, rfl, -⟩ := (hdecode b a).mp h
    have hframe : (∀ other, keep b = .ok other → kept other) ↔ kept source := by
      simp only [hkeep]
      exact ⟨fun h => h source hsource, fun h other hother => hinj source other hsource hother ▸ h⟩
    rw [hframe, ← hkept]
    constructor
    · intro hagain
      exact hinj _ _ hagain hsource
    · intro hsame
      rwa [hsame]

end Nodeakt.Schemes
