import Nodeakt.Net.EnvelopeRoundTrip

/-! The tables of a sender and its announcements agree: every assigned id is announced, ids are
    distinct and within the capacity. Encoding keeps this whether it succeeds or not, and a body that
    was encoded uses only announced ids. -/

namespace Nodeakt.Net
open Schemes JsString OutboundTables DataEnvelope List

variable {literal : JsString} {t : Interner} {q : JsString → Prop} {bytes : Bytes}

/-- A text whose bytes a length prefix can count. -/
def Writable (s : JsString) : Prop := (encodeUtf8 s).length ≤ maxSafeInteger

instance (s : JsString) : Decidable (Writable s) := inferInstanceAs (Decidable (_ ≤ _))

theorem Writable.writeString {s : JsString} (h : Writable s) : ∃ bytes, writeString s = .ok bytes := by
  refine ⟨_, except_bind_eq_ok.mpr ⟨_, writeUvarint_eq_ok.mpr ⟨?_, rfl⟩, rfl⟩⟩
  rw [utf8Length_eq]
  exact h

theorem encodeTableBody_ok (kind : TableKind) {id : ℕ} (hid : id ≤ tableCapacity)
    (hliteral : Writable literal) : ∃ body, encodeTableBody ⟨kind, id, literal⟩ = .ok body := by
  obtain ⟨text, htext⟩ := hliteral.writeString
  have hsafe : id ≤ maxSafeInteger := hid.trans (by decide)
  exact ⟨_, except_bind_eq_ok.mpr ⟨_, writeUvarint_eq_ok.mpr ⟨hsafe, rfl⟩,
    except_bind_eq_ok.mpr ⟨text, htext, rfl⟩⟩⟩

namespace Interner

/-- What holds of a sender's tables and announcements. -/
structure Sound (s : Interner) : Prop where
  known : ∀ tables kind literal id, s.tables = some tables →
    (tables.table kind).get literal = some id →
      ∃ a ∈ s.announced, a.toTableAnnouncement = ⟨kind, id, literal⟩
  assigned : ∀ a ∈ s.announced, ∃ tables, s.tables = some tables ∧
    (tables.table a.kind).get a.literal = some a.id
  range : ∀ tables kind literal id, s.tables = some tables →
    (tables.table kind).get literal = some id →
    literal ≠ [] ∧ 1 ≤ id ∧ id ≤ (tables.table kind).keys.length
  size : ∀ tables kind, s.tables = some tables → (tables.table kind).keys.length ≤ tableCapacity
  distinct : ∀ tables kind literal literal' id, s.tables = some tables →
    (tables.table kind).get literal = some id → (tables.table kind).get literal' = some id →
    literal = literal'

theorem sound_start (tables : Option Unit) : Sound ⟨tables.map fun _ => .empty, []⟩ := by
  have hempty : ∀ t, tables.map (fun _ => empty) = some t → t = .empty := by
    intro t ht
    obtain ⟨_, _, rfl⟩ := Option.map_eq_some_iff.mp ht
    rfl
  constructor
  · rintro t kind literal id ht hget
    simp [hempty t ht, empty] at hget
  · simp
  · rintro t kind literal id ht hget
    simp [hempty t ht, empty] at hget
  · rintro t kind ht
    simp [hempty t ht, empty]
  · rintro t kind literal literal' id ht hget
    simp [hempty t ht, empty] at hget

/-- The announcements only grow. -/
def Grows (s t : Interner) : Prop := s.announced <+: t.announced

/-- A new literal takes the next id, and the id is announced. -/
def assign (s : Interner) (tables : OutboundTables) (a : Announced) : Interner where
  tables := some (tables.set a.kind a.literal a.id)
  announced := s.announced ++ [a]

theorem announce_eq (s : Interner) (tables : OutboundTables) {announcement : TableAnnouncement}
    {body : Bytes} (h : encodeTableBody announcement = .ok body) :
    announce announcement
      { s with tables := some (tables.set announcement.kind announcement.literal announcement.id) } =
      (.ok (), s.assign tables ⟨announcement, body, h⟩) := by
  unfold announce
  split
  · rename_i body' hbody'
    obtain rfl := Except.ok.inj (h.symm.trans hbody')
    rfl
  · rename_i e he
    rw [h] at he
    cases he

/-- What interning does with a text that can be written. -/
theorem intern_cases (s : Interner) (kind : TableKind) (h : Writable literal) :
    (∃ id, intern kind literal s = (.ok id, s) ∧ (id = 0 ∨ ∃ tables, s.tables = some tables ∧
      (tables.table kind).get literal = some id)) ∨
    ∃ tables, ∃ a : Announced, s.tables = some tables ∧ literal ≠ [] ∧
      (tables.table kind).get literal = none ∧
      a.toTableAnnouncement = ⟨kind, (tables.table kind).keys.length + 1, literal⟩ ∧
      (tables.table kind).keys.length < tableCapacity ∧
      intern kind literal s = (.ok a.id, s.assign tables a) := by
  unfold intern
  cases htables : s.tables with
  | none => exact .inl ⟨0, rfl, .inl rfl⟩
  | some tables =>
    by_cases hempty : literal = []
    · exact .inl ⟨0, if_pos hempty, .inl rfl⟩
    · simp only [if_neg hempty]
      cases hknown : (tables.table kind).get literal with
      | some id => exact .inl ⟨id, rfl, .inr ⟨tables, rfl, hknown⟩⟩
      | none =>
        by_cases hfull : tableCapacity ≤ (tables.table kind).keys.length
        · exact .inl ⟨0, if_pos hfull, .inl rfl⟩
        · have hroom := Nat.lt_of_not_le hfull
          obtain ⟨body, hbody⟩ := encodeTableBody_ok kind hroom h
          refine .inr ⟨tables, ⟨_, body, hbody⟩, rfl, hempty, hknown, rfl, hroom, ?_⟩
          simp only [if_neg hfull]
          exact Action.bind_eq_ok.mpr ⟨(), _, announce_eq s _ hbody, rfl⟩

section

variable {s : Interner} {tables : OutboundTables} {a : Announced}

theorem get_set (tables : OutboundTables) (kind kind' : TableKind) (literal literal' : JsString)
    (id : ℕ) : ((tables.set kind literal id).table kind').get literal' =
      if kind' = kind ∧ literal' = literal then some id else (tables.table kind').get literal' := by
  by_cases hkind : kind' = kind
  · subst hkind
    simp [OutboundTables.set, OrderedMap.get_set]
  · simp [OutboundTables.set, hkind]

/-- Assigning the next id to a new literal keeps the tables sound. -/
theorem Sound.assign (hs : Sound s) (htables : s.tables = some tables) (hempty : a.literal ≠ [])
    (hnew : (tables.table a.kind).get a.literal = none)
    (hid : a.id = (tables.table a.kind).keys.length + 1)
    (hroom : (tables.table a.kind).keys.length < tableCapacity) : Sound (s.assign tables a) := by
  have hsize (kind : TableKind) : ((tables.set a.kind a.literal a.id).table kind).keys.length =
      (tables.table kind).keys.length + if kind = a.kind then 1 else 0 := by
    by_cases hkind : kind = a.kind
    · subst hkind
      simp [OutboundTables.set, OrderedMap.keys_set, OrderedMap.mem_keys_iff, hnew]
    · simp [OutboundTables.set, hkind]
  have hcases (kind : TableKind) (literal : JsString) (id : ℕ)
      (h : ((tables.set a.kind a.literal a.id).table kind).get literal = some id) :
      kind = a.kind ∧ literal = a.literal ∧ id = a.id ∨ (tables.table kind).get literal = some id := by
    rw [get_set] at h
    split_ifs at h with hit
    · exact .inl ⟨hit.1, hit.2, (Option.some.inj h).symm⟩
    · exact .inr h
  constructor
  · rintro t kind literal id ht hget
    cases ht
    rcases hcases kind literal id hget with ⟨rfl, rfl, rfl⟩ | hold
    · exact ⟨a, mem_append_right _ (mem_singleton.mpr rfl), rfl⟩
    · obtain ⟨b, hb, heq⟩ := hs.known tables kind literal id htables hold
      exact ⟨b, mem_append_left _ hb, heq⟩
  · rintro b hb
    refine ⟨_, rfl, ?_⟩
    rw [get_set]
    rcases mem_append.mp hb with hb | hb
    · obtain ⟨t, ht, hget⟩ := hs.assigned b hb
      cases (htables.symm.trans ht)
      rw [if_neg]
      · exact hget
      · rintro ⟨hkind, hliteral⟩
        rw [hkind, hliteral, hnew] at hget
        cases hget
    · obtain rfl := mem_singleton.mp hb
      exact if_pos ⟨rfl, rfl⟩
  · rintro t kind literal id ht hget
    cases ht
    rw [hsize]
    rcases hcases kind literal id hget with ⟨rfl, rfl, rfl⟩ | hold
    · exact ⟨hempty, by omega, by simp [hid]⟩
    · obtain ⟨hliteral, hpos, hle⟩ := hs.range tables kind literal id htables hold
      exact ⟨hliteral, hpos, by omega⟩
  · rintro t kind ht
    cases ht
    rw [hsize]
    have := hs.size tables kind htables
    split_ifs with hkind
    · subst hkind
      exact hroom
    · exact this
  · rintro t kind literal literal' id ht hget hget'
    cases ht
    -- the new id is larger than every id of its table
    have hfresh (text : JsString) (h : (tables.table a.kind).get text = some a.id) : False := by
      have := (hs.range tables a.kind text a.id htables h).2.2
      omega
    rcases hcases kind literal id hget with ⟨rfl, rfl, rfl⟩ | hold
    · rcases hcases a.kind literal' a.id hget' with ⟨-, rfl, -⟩ | hold'
      · rfl
      · exact (hfresh _ hold').elim
    · rcases hcases kind literal' id hget' with ⟨rfl, rfl, rfl⟩ | hold'
      · exact (hfresh _ hold).elim
      · exact hs.distinct tables kind literal literal' id htables hold hold'

end

/-- A state reached from `s` by interning literals with `q`. -/
structure Advances (q : JsString → Prop) (s t : Interner) : Prop where
  sound : Sound t
  grows : Grows s t
  literals : ∀ a ∈ t.announced, a ∈ s.announced ∨ q a.literal

/-- Interning keeps the tables sound, and its id is announced or means inline. -/
theorem Sound.intern {s : Interner} (hs : Sound s) (kind : TableKind) (h : Writable literal)
    {r : Except EncodeError ℕ} (hintern : intern kind literal s = (r, t)) :
    Advances (· = literal) s t ∧ ∃ id, r = .ok id ∧ Refers t.announced kind literal id := by
  rcases intern_cases s kind h with ⟨id, heq, hid⟩ | ⟨tables, a, htables, hempty, hnew, ha, hroom, heq⟩
  · obtain ⟨rfl, rfl⟩ := Prod.mk.inj (heq.symm.trans hintern)
    refine ⟨⟨hs, prefix_rfl, fun a ha => .inl ha⟩, id, rfl, hid.imp_right ?_⟩
    rintro ⟨tables, htables, hget⟩
    exact hs.known tables kind literal id htables hget
  · obtain ⟨rfl, rfl⟩ := Prod.mk.inj (heq.symm.trans hintern)
    obtain ⟨hkind, hid, hliteral⟩ := TableAnnouncement.mk.inj ha
    refine ⟨⟨hs.assign htables ?_ ?_ ?_ ?_, prefix_append _ _, ?_⟩, a.id, rfl, .inr ⟨a, ?_, ?_⟩⟩
    · rwa [hliteral]
    · rwa [hkind, hliteral]
    · rw [hkind, hid]
    · rwa [hkind]
    · intro b hb
      rcases mem_append.mp hb with hb | hb
      · exact .inl hb
      · exact .inr (mem_singleton.mp hb ▸ hliteral)
    · exact mem_append_right _ (mem_singleton.mpr rfl)
    · rw [ha]

theorem Advances.trans {q' : JsString → Prop} {s u : Interner} (h : Advances q s t)
    (h' : Advances q' t u) (hq : ∀ literal, q' literal → q literal) : Advances q s u where
  sound := h'.sound
  grows := h.grows.trans h'.grows
  literals a ha := (h'.literals a ha).elim (h.literals a) fun hnew => .inr (hq _ hnew)

theorem keeps_internRef (s₀ : Interner) (kind : TableKind) (h : Writable literal) (hq : q literal) :
    Action.Keeps (Advances q s₀) (internRef kind literal) := by
  refine Action.Keeps.bind ?_ fun _ => Action.keeps_lift
  intro s hs
  refine hs.trans (hs.sound.intern kind h (r := _) rfl).1 ?_
  rintro _ rfl
  exact hq

theorem Sound.internRef {s : Interner} (hs : Sound s) {kind : TableKind} (h : Writable literal)
    (hok : internRef kind literal s = (.ok bytes, t)) :
    Sound t ∧ Grows s t ∧ RefWritten t.announced kind literal bytes := by
  obtain ⟨id, u, hintern, hwrite⟩ := Action.bind_eq_ok.mp hok
  obtain ⟨hbytes, rfl⟩ := Action.lift_eq_ok.mp hwrite
  obtain ⟨hadvances, id', hid, hrefers⟩ := hs.intern kind h hintern
  obtain rfl := Except.ok.inj hid
  exact ⟨hadvances.sound, hadvances.grows, id, hbytes, hrefers⟩

end Interner

/-! ### Encoding -/

open Interner

def DataEnvelope.texts (envelope : DataEnvelope) : List JsString :=
  [envelope.target, envelope.uid, envelope.sender, envelope.senderUid, envelope.typeRef]

/-- The texts an envelope interns. -/
def DataEnvelope.literals (envelope : DataEnvelope) : List JsString :=
  [envelope.target, envelope.sender, envelope.typeRef]

theorem keeps_encodeDataEnvelope (s₀ : Interner) {envelope : DataEnvelope}
    (h : ∀ text ∈ envelope.texts, Writable text) (hq : ∀ literal ∈ envelope.literals, q literal) :
    Action.Keeps (Advances q s₀) (encodeDataEnvelope envelope) := by
  have htarget := keeps_internRef s₀ .path (h envelope.target (by simp [texts]))
    (hq _ (by simp [literals]))
  have hsender := keeps_internRef s₀ .path (h envelope.sender (by simp [texts]))
    (hq _ (by simp [literals]))
  have htype := keeps_internRef s₀ .type (h envelope.typeRef (by simp [texts]))
    (hq _ (by simp [literals]))
  exact Action.keeps_refuse.bind fun _ => Action.keeps_refuse.bind fun _ =>
    Action.keeps_refuse.bind fun _ => htarget.bind fun _ => Action.keeps_lift.bind fun _ =>
    hsender.bind fun _ => Action.keeps_lift.bind fun _ => Action.keeps_lift.bind fun _ =>
    htype.bind fun _ => Action.keeps_pure

/-- Encoding a data envelope keeps the tables sound, and its bytes use announced ids only. -/
theorem Interner.Sound.encodeData {s : Interner} (hs : Sound s) {envelope : DataEnvelope}
    (h : ∀ text ∈ envelope.texts, Writable text)
    (hok : encodeDataEnvelope envelope s = (.ok bytes, t)) :
    EncodesData t.announced envelope bytes := by
  obtain ⟨hkind, hok⟩ := Action.refuse_bind_eq_ok.mp hok
  obtain ⟨hserializer, hok⟩ := Action.refuse_bind_eq_ok.mp hok
  obtain ⟨hshape, hok⟩ := Action.refuse_bind_eq_ok.mp hok
  obtain ⟨target, u, htarget, hok⟩ := Action.bind_eq_ok.mp hok
  obtain ⟨uid, huid, hok⟩ := Action.lift_bind_eq_ok.mp hok
  obtain ⟨sender, v, hsender, hok⟩ := Action.bind_eq_ok.mp hok
  obtain ⟨senderUid, hsenderUid, hok⟩ := Action.lift_bind_eq_ok.mp hok
  obtain ⟨timeout, htimeout, hok⟩ := Action.lift_bind_eq_ok.mp hok
  obtain ⟨typeRef, w, htype, hok⟩ := Action.bind_eq_ok.mp hok
  obtain ⟨rfl, rfl⟩ := Action.pure_eq_ok.mp hok
  obtain ⟨hu, -, htarget⟩ := hs.internRef (h envelope.target (by simp [texts])) htarget
  obtain ⟨hv, huv, hsender⟩ := hu.internRef (h envelope.sender (by simp [texts])) hsender
  obtain ⟨-, hvw, htype⟩ := hv.internRef (h envelope.typeRef (by simp [texts])) htype
  exact ⟨Nat.not_lt.mp hkind, not_not.mp hserializer, not_not.mp hshape, target, uid, sender,
    senderUid, timeout, typeRef, htarget.mono (huv.trans hvw).subset, huid, hsender.mono hvw.subset,
    hsenderUid, htimeout, htype, rfl⟩

theorem keeps_encodeReplyEnvelope (s₀ : Interner) {envelope : ReplyEnvelope}
    (h : Writable envelope.typeRef) (hq : q envelope.typeRef) :
    Action.Keeps (Advances q s₀) (encodeReplyEnvelope envelope) :=
  Action.keeps_refuse.bind fun _ => (keeps_internRef s₀ .type h hq).bind fun _ => Action.keeps_pure

theorem Interner.Sound.encodeReply {s : Interner} (hs : Sound s) {envelope : ReplyEnvelope}
    (h : Writable envelope.typeRef) (hok : encodeReplyEnvelope envelope s = (.ok bytes, t)) :
    EncodesReply t.announced envelope bytes := by
  obtain ⟨hserializer, hok⟩ := Action.refuse_bind_eq_ok.mp hok
  obtain ⟨typeRef, u, htype, hok⟩ := Action.bind_eq_ok.mp hok
  obtain ⟨rfl, rfl⟩ := Action.pure_eq_ok.mp hok
  obtain ⟨-, -, htype⟩ := hs.internRef h htype
  exact ⟨not_not.mp hserializer, typeRef, htype, rfl⟩

/-! ### Installing -/

theorem InboundTables.entry_set (tables : InboundTables) (kind kind' : TableKind) (id id' : ℕ)
    (literal : JsString) : (tables.set kind id literal).entry kind' id' =
      if kind' = kind ∧ id' = id then some literal else tables.entry kind' id' := by
  by_cases hkind : kind' = kind
  · subst hkind
    simp [InboundTables.set, Function.update_apply]
  · simp [InboundTables.set, hkind]

/-- The first `n` announcements are installed, and nothing else is. -/
structure Mirrors (announced : List Announced) (n : ℕ) (inbound : InboundTables) : Prop where
  installed : Installed (announced.take n) (some inbound)
  entries : ∀ kind id literal, inbound.entry kind id = some literal →
    ∃ a ∈ announced, a.kind = kind ∧ a.id = id ∧ literal = received a.literal

theorem mirrors_empty : Mirrors [] 0 .empty where
  installed a ha := by simp at ha
  entries kind id literal h := by cases h

theorem Mirrors.grow {announced more : List Announced} {n : ℕ} {inbound : InboundTables}
    (h : Mirrors announced n inbound) (hn : n ≤ announced.length) (hmore : announced <+: more) :
    Mirrors more n inbound where
  installed := by
    obtain ⟨rest, rfl⟩ := hmore
    rw [take_append_of_le_length hn]
    exact h.installed
  entries kind id literal hentry := by
    obtain ⟨a, ha, hrest⟩ := h.entries kind id literal hentry
    exact ⟨a, hmore.subset ha, hrest⟩

/-- Two announcements of one id are of the same literal. -/
theorem Interner.Sound.literal_eq {s : Interner} (hs : Sound s) {a b : Announced}
    (ha : a ∈ s.announced) (hb : b ∈ s.announced) (hkind : a.kind = b.kind) (hid : a.id = b.id) :
    a.literal = b.literal := by
  obtain ⟨tables, htables, hget⟩ := hs.assigned a ha
  obtain ⟨tables', htables', hget'⟩ := hs.assigned b hb
  cases (htables.symm.trans htables')
  rw [← hkind, ← hid] at hget'
  exact hs.distinct tables a.kind a.literal b.literal a.id htables hget hget'

/-- The next announcement is installed, unless nothing arrives of its literal. -/
theorem Mirrors.install {s : Interner} {n : ℕ} {inbound : InboundTables} {a : Announced}
    (h : Mirrors s.announced n inbound) (hs : Sound s) (ha : s.announced[n]? = some a)
    (hliteral : received a.literal ≠ []) :
    ∃ inbound', inbound.receive a.body = .ok inbound' ∧ Mirrors s.announced (n + 1) inbound' := by
  have hmem : a ∈ s.announced := mem_of_getElem? ha
  obtain ⟨tables, htables, hget⟩ := hs.assigned a hmem
  obtain ⟨-, hpos, hle⟩ := hs.range tables a.kind a.literal a.id htables hget
  have hcapacity : ¬tableCapacity < a.id :=
    Nat.not_lt.mpr (hle.trans (hs.size tables a.kind htables))
  have hzero : ¬a.id = 0 := by omega
  have hreceive : inbound.receive a.body =
      (inbound.install ⟨a.kind, a.id, received a.literal⟩).mapError .protocol := by
    unfold InboundTables.receive
    rw [decodeTableBody_eq a]
    rfl
  have htake : s.announced.take (n + 1) = s.announced.take n ++ [a] := by
    rw [take_add_one, ha]
    rfl
  rw [hreceive]
  simp only [InboundTables.install, refuse, hzero, hliteral, hcapacity, if_false]
  cases hentry : inbound.entry a.kind a.id with
  | some existing =>
    obtain ⟨b, hb, hkind, hid, rfl⟩ := h.entries a.kind a.id existing hentry
    have hsame : received b.literal = received a.literal :=
      congrArg received (hs.literal_eq hb hmem hkind hid)
    refine ⟨inbound, by simp only [if_pos hsame]; rfl, ?_, h.entries⟩
    rw [htake]
    intro c hc
    rcases mem_append.mp hc with hc | hc
    · exact h.installed c hc
    · obtain rfl := mem_singleton.mp hc
      exact ⟨inbound, rfl, hentry.trans (congrArg some hsame)⟩
  | none =>
    refine ⟨_, rfl, ?_, ?_⟩
    · rw [htake]
      intro c hc
      refine ⟨_, rfl, ?_⟩
      rw [InboundTables.entry_set]
      split_ifs with hit
      · have hmemc : c ∈ s.announced := by
          rcases mem_append.mp hc with hc | hc
          · exact mem_of_mem_take hc
          · exact mem_singleton.mp hc ▸ hmem
        rw [hs.literal_eq hmemc hmem hit.1 hit.2]
      · rcases mem_append.mp hc with hc | hc
        · obtain ⟨_, heq, hc⟩ := h.installed c hc
          exact Option.some.inj heq ▸ hc
        · obtain rfl := mem_singleton.mp hc
          exact absurd ⟨rfl, rfl⟩ hit
    · intro kind id literal hget
      rw [InboundTables.entry_set] at hget
      split_ifs at hget with hit
      · exact ⟨a, hmem, hit.1.symm, hit.2.symm, (Option.some.inj hget).symm⟩
      · exact h.entries kind id literal hget

end Nodeakt.Net
