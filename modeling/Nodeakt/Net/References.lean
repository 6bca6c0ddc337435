import Nodeakt.Net.Interning
import Nodeakt.Schemes.Run

/-! One direction of a connection with string tables.

    Envelopes are encoded through the sender's tables and may be refused afterwards, when their
    announcements are already made. Announcements are installed in order; an envelope is decoded at any
    time after the announcements made before it was encoded. -/

namespace Nodeakt.Net
open Schemes JsString List

/-- An encoded envelope. -/
inductive Sent where
  | data (envelope : DataEnvelope) (body : Bytes)
  | reply (envelope : ReplyEnvelope) (body : Bytes)

/-- An envelope and what it was decoded to. -/
inductive Decoded where
  | data (envelope : DataEnvelope) (result : Except NetError DataEnvelope)
  | reply (envelope : ReplyEnvelope) (result : Except NetError ReplyEnvelope)

def Sent.decode (refs : Option InboundTables) : Sent → Decoded
  | data envelope body => .data envelope ((decodeDataEnvelope refs body).map Prod.fst)
  | reply envelope body => .reply envelope ((decodeReplyEnvelope refs body).map Prod.fst)

/-- The decoded envelope is the one that was encoded. -/
def Decoded.Faithful : Decoded → Prop
  | data envelope result => result = .ok envelope
  | reply envelope result => result = .ok envelope

instance : ∀ d : Decoded, Decidable d.Faithful
  | .data _ _ | .reply _ _ => inferInstanceAs (Decidable (_ = _))

/-- An envelope in flight, with the number of announcements made before it. -/
structure Flight where
  after : ℕ
  sent : Sent

structure Link where
  interner : Interner
  /-- Announcements installed so far. -/
  installed : ℕ
  inbound : InboundTables
  flight : List Flight
  decoded : List Decoded
  /-- What the installs threw. -/
  thrown : List NetError

inductive LinkEvent where
  | data (envelope : DataEnvelope) (sent : Bool)
  | reply (envelope : ReplyEnvelope) (sent : Bool)
  | install
  | decode (index : ℕ)

namespace Link

def start : Link where
  interner := ⟨some .empty, []⟩
  installed := 0
  inbound := .empty
  flight := []
  decoded := []
  thrown := []

/-- Encodes an envelope; a refused send drops its body. -/
def encode (s : Link) (action : Action Interner EncodeError Bytes) (wrap : Bytes → Sent)
    (sent : Bool) : Link :=
  match action s.interner with
  | (.ok body, interner) =>
    { s with
      interner
      flight := if sent then s.flight ++ [⟨interner.announced.length, wrap body⟩] else s.flight }
  | (.error _, interner) => { s with interner }

def install (s : Link) (a : Announced) : Link := match s.inbound.receive a.body with
  | .ok inbound => { s with inbound, installed := s.installed + 1 }
  | .error e => { s with installed := s.installed + 1, thrown := s.thrown ++ [e] }

def step (s : Link) : LinkEvent → Option Link
  | .data envelope sent => some (s.encode (encodeDataEnvelope envelope) (.data envelope) sent)
  | .reply envelope sent => some (s.encode (encodeReplyEnvelope envelope) (.reply envelope) sent)
  | .install => s.interner.announced[s.installed]?.map s.install
  | .decode index => do
    let item ← s.flight[index]?
    if item.after ≤ s.installed then
      some { s with
        flight := s.flight.eraseIdx index
        decoded := s.decoded ++ [item.sent.decode (some s.inbound)] }
    else none

/-- A well-formed text that arrives as it is. -/
def Plain (text : JsString) : Prop :=
  isWellFormed text = true ∧ text.head? ≠ some byteOrderMark ∧ Writable text

instance (text : JsString) : Decidable (Plain text) := inferInstanceAs (Decidable (_ ∧ _ ∧ _))

/-- No text of an encoded envelope starts with a byte order mark. -/
def Unmarked (_ : Link) : LinkEvent → Prop
  | .data envelope _ => ∀ text ∈ envelope.texts, Plain text
  | .reply envelope _ => Plain envelope.typeRef
  | _ => True

instance (s : Link) (event) : Decidable (Unmarked s event) := by
  rcases event <;> dsimp only [Unmarked] <;> infer_instance

theorem Plain.received {text : JsString} (h : Plain text) : received text = text := by
  rw [received_of_isWellFormed h.1, stripBom_eq_self_iff]
  exact h.2.1

/-- The bytes of an envelope that arrives as it is. -/
def Readable (announced : List Announced) : Sent → Prop
  | .data envelope body => EncodesData announced envelope body ∧ envelope.received = envelope
  | .reply envelope body => EncodesReply announced envelope body ∧ envelope.received = envelope

theorem Readable.mono {announced more : List Announced} (hmore : announced ⊆ more) :
    ∀ {sent : Sent}, Readable announced sent → Readable more sent
  | .data _ _, h => ⟨h.1.mono hmore, h.2⟩
  | .reply _ _, h => ⟨h.1.mono hmore, h.2⟩

theorem Readable.faithful {announced : List Announced} {refs : Option InboundTables}
    (hinstalled : Installed announced refs) :
    ∀ {sent : Sent}, Readable announced sent → (sent.decode refs).Faithful
  | .data _ _, h => by
      simp only [Sent.decode, Decoded.Faithful, decodeDataEnvelope_eq hinstalled h.1, h.2]
      rfl
  | .reply _ _, h => by
      simp only [Sent.decode, Decoded.Faithful, decodeReplyEnvelope_eq hinstalled h.1, h.2]
      rfl

/-- What holds of a link in every run. -/
structure Sound (s : Link) : Prop where
  interner : s.interner.Sound
  literals : ∀ a ∈ s.interner.announced, received a.literal = a.literal
  installed : s.installed ≤ s.interner.announced.length
  mirrors : Mirrors s.interner.announced s.installed s.inbound
  flight : ∀ item ∈ s.flight, item.after ≤ s.interner.announced.length ∧
    Readable (s.interner.announced.take item.after) item.sent
  decoded : ∀ d ∈ s.decoded, d.Faithful
  thrown : s.thrown = []

theorem sound_start : Sound start where
  interner := Interner.sound_start (some ())
  literals := by simp [start]
  installed := Nat.zero_le _
  mirrors := mirrors_empty
  flight := by simp [start]
  decoded := by simp [start]
  thrown := rfl

/-- Encoding keeps a link sound if the tables advance and the body can be read. -/
theorem Sound.encode {s : Link} (hs : Sound s) {action : Action Interner EncodeError Bytes}
    {wrap : Bytes → Sent} (sent : Bool)
    (hadvances : Interner.Advances (fun literal => received literal = literal) s.interner
      (action s.interner).2)
    (hreadable : ∀ body t, action s.interner = (.ok body, t) → Readable t.announced (wrap body)) :
    Sound (s.encode action wrap sent) := by
  have hgrows := hadvances.grows
  have hflight : ∀ item ∈ s.flight, item.after ≤ (action s.interner).2.announced.length ∧
      Readable ((action s.interner).2.announced.take item.after) item.sent := by
    intro item hitem
    obtain ⟨hle, hread⟩ := hs.flight item hitem
    refine ⟨hle.trans hgrows.length_le, ?_⟩
    obtain ⟨rest, hrest⟩ := hgrows
    rwa [← hrest, take_append_of_le_length hle]
  have hliterals : ∀ a ∈ (action s.interner).2.announced, received a.literal = a.literal :=
    fun a ha => (hadvances.literals a ha).elim (hs.literals a) id
  have hmirrors := hs.mirrors.grow hs.installed hgrows
  have hinstalled := hs.installed.trans hgrows.length_le
  unfold Link.encode
  split
  · rename_i body t hbody
    rw [hbody] at hadvances hflight hliterals hmirrors hinstalled
    refine ⟨hadvances.sound, hliterals, hinstalled, hmirrors, ?_, hs.decoded, hs.thrown⟩
    intro item hitem
    dsimp only at hitem
    split at hitem
    · rcases mem_append.mp hitem with hitem | hitem
      · exact hflight item hitem
      · obtain rfl := mem_singleton.mp hitem
        refine ⟨Nat.le_refl _, ?_⟩
        dsimp only
        rw [take_length]
        exact hreadable body t hbody
    · exact hflight item hitem
  · rename_i e t hbody
    rw [hbody] at hadvances hflight hliterals hmirrors hinstalled
    exact ⟨hadvances.sound, hliterals, hinstalled, hmirrors, hflight, hs.decoded, hs.thrown⟩

theorem Sound.install {s : Link} (hs : Sound s) {a : Announced}
    (ha : s.interner.announced[s.installed]? = some a) : Sound (s.install a) := by
  have hmem : a ∈ s.interner.announced := mem_of_getElem? ha
  have hliteral : received a.literal ≠ [] := by
    obtain ⟨tables, htables, hget⟩ := hs.interner.assigned a hmem
    rw [hs.literals a hmem]
    exact (hs.interner.range tables _ _ _ htables hget).1
  obtain ⟨inbound, hreceive, hmirrors⟩ := hs.mirrors.install hs.interner ha hliteral
  have hlt : s.installed < s.interner.announced.length := (List.getElem?_eq_some_iff.mp ha).1
  unfold Link.install
  rw [hreceive]
  exact ⟨hs.interner, hs.literals, hlt, hmirrors, hs.flight, hs.decoded, hs.thrown⟩

theorem Sound.step {s t : Link} {event : LinkEvent} (hs : Sound s) (hcond : Unmarked s event)
    (hstep : s.step event = some t) : Sound t := by
  cases event with
  | data envelope sent =>
    cases hstep
    have hwritable : ∀ text ∈ envelope.texts, Writable text := fun text h => (hcond text h).2.2
    have hliterals : ∀ literal ∈ envelope.literals, received literal = literal := by
      intro literal hliteral
      refine (hcond literal ?_).received
      simp only [DataEnvelope.literals, DataEnvelope.texts, mem_cons] at hliteral ⊢
      tauto
    have hself : envelope.received = envelope := by
      have (text : JsString) (h : text ∈ envelope.texts) := (hcond text h).received
      simp [DataEnvelope.texts] at this
      simp [DataEnvelope.received, this]
    refine hs.encode sent (keeps_encodeDataEnvelope s.interner hwritable hliterals s.interner
      ⟨hs.interner, prefix_rfl, fun a ha => .inl ha⟩) ?_
    intro body t hbody
    exact ⟨hs.interner.encodeData hwritable hbody, hself⟩
  | reply envelope sent =>
    cases hstep
    refine hs.encode sent (keeps_encodeReplyEnvelope (q := fun literal => received literal = literal)
      s.interner hcond.2.2 hcond.received s.interner ⟨hs.interner, prefix_rfl, fun a ha => .inl ha⟩) ?_
    intro body t hbody
    refine ⟨hs.interner.encodeReply hcond.2.2 hbody, ?_⟩
    simp [ReplyEnvelope.received, hcond.received]
  | install =>
    obtain ⟨a, ha, rfl⟩ := Option.map_eq_some_iff.mp hstep
    exact hs.install ha
  | decode index =>
    obtain ⟨item, hitem, hstep⟩ := Option.bind_eq_some_iff.mp hstep
    obtain ⟨hafter, rfl⟩ := of_guarded hstep
    obtain ⟨hle, hread⟩ := hs.flight item (mem_of_getElem? hitem)
    have hsubset : s.interner.announced.take item.after ⊆ s.interner.announced.take s.installed :=
      (take_prefix_take_left hafter).subset
    refine ⟨hs.interner, hs.literals, hs.installed, hs.mirrors, ?_, ?_, hs.thrown⟩
    · exact fun other hother => hs.flight other (mem_of_mem_eraseIdx hother)
    · intro d hd
      rcases mem_append.mp hd with hd | hd
      · exact hs.decoded d hd
      · obtain rfl := mem_singleton.mp hd
        exact (hread.mono hsubset).faithful hs.mirrors.installed

/-- In every run without marked texts no install throws and every envelope is decoded to itself. -/
theorem references_invisible {events : List LinkEvent} {s : Link}
    (hmeets : Meets step Unmarked start events) (hrun : run step start events = some s) :
    s.thrown = [] ∧ ∀ d ∈ s.decoded, d.Faithful := by
  have hsound : Sound s := run_preserves (P := Sound) (fun _ _ _ => Sound.step) sound_start hmeets hrun
  exact ⟨hsound.thrown, hsound.decoded⟩

/-- A refused tell announces its path, and the next one uses the id. -/
theorem refused_path_interned :
    ∃ s ∈ run step start [.data ⟨kindTell, [97], [], [98], [], 0, 0, [], [1]⟩ false,
      .data ⟨kindTell, [98], [], [97], [], 0, 0, [116], [2]⟩ true, .install, .install, .install,
      .decode 0], s.thrown = [] ∧ s.decoded.length = 1 ∧ ∀ d ∈ s.decoded, d.Faithful := by
  have hrun : ∃ s ∈ run step start [.data ⟨kindTell, [97], [], [98], [], 0, 0, [], [1]⟩ false,
      .data ⟨kindTell, [98], [], [97], [], 0, 0, [116], [2]⟩ true, .install, .install, .install,
      .decode 0], s.decoded.length = 1 := by decide +kernel
  obtain ⟨s, hs, hlength⟩ := hrun
  obtain ⟨hthrown, hdecoded⟩ := references_invisible (by decide +kernel) hs
  exact ⟨s, hs, hthrown, hlength, hdecoded⟩

/-- A path that starts with the mark arrives without it, and the path that is only the mark cannot be
    installed. -/
theorem marked_path_misread :
    (∃ s ∈ run step start [.data ⟨kindTell, [0xFEFF, 97], [], [], [], 0, 0, [], []⟩ true, .install,
      .decode 0], ∃ d ∈ s.decoded, ¬d.Faithful) ∧
    ∃ s ∈ run step start [.data ⟨kindTell, [0xFEFF], [], [], [], 0, 0, [], []⟩ true, .install],
      s.thrown = [.protocol (.tableEmpty 1)] := by
  constructor <;> decide +kernel

end Link

end Nodeakt.Net
