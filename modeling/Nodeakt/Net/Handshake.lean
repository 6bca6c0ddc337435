import Nodeakt.Net.Envelope

/-! The handshake of a session (`negotiateHello` and `Session.onHandshakeFrame` of `net/session.ts`).

    The dialer says HELLO with its own parameters. The acceptor applies the negotiation rule to what
    arrives of them, answers with the result, and the dialer applies the rule once more to what arrives
    of that answer. The lane and the codec travel as one byte each, so a codec above 255 that the
    dialer proposes is not the one the acceptor sees. -/

namespace Nodeakt.Net

def frameHello : ℕ := 0x01
def frameHelloAck : ℕ := 0x02
def frameError : ℕ := 0x05

/-- The floor under every negotiated `maxFrameSize`. -/
def minMaxFrameSize : ℕ := 16 * 1024

/-- Pairwise minima over their floors, the lane of the remote side, and a codec both proposed. -/
def negotiateHello (own remote : Hello) : Hello :=
  let frameSize := max (min own.maxFrameSize remote.maxFrameSize) minMaxFrameSize
  { revision := min own.revision remote.revision
    systemName := own.systemName
    host := own.host
    port := own.port
    lane := remote.lane
    compression := if own.compression = remote.compression then remote.compression else 0
    maxFrameSize := frameSize
    maxMessageSize := max (min own.maxMessageSize remote.maxMessageSize) frameSize
    initialCredits := min own.initialCredits remote.initialCredits
    maxLargeTransfers := max (min own.maxLargeTransfers remote.maxLargeTransfers) 1 }

inductive SessionState where
  | handshaking
  | opened
  | closed
  deriving DecidableEq

/-- An end of a connection, as far as the handshake goes. -/
structure Session where
  dialer : Bool
  hello : Hello
  chunkSize : ℕ
  state : SessionState
  effective : Option Hello
  deriving DecidableEq

namespace Session

def create (dialer : Bool) (hello : Hello) (chunkSize : ℕ) : Session :=
  ⟨dialer, hello, chunkSize, .handshaking, none⟩

/-- The session after a violation, or after the peer's own error. -/
def close (session : Session) : Session := { session with state := .closed, effective := none }

/-- The session once the parameters are negotiated. -/
def establish (session : Session) (effective : Hello) : Session := { session with
    chunkSize := min session.chunkSize effective.maxFrameSize
    state := .opened
    effective := some effective }

/-- A frame during the handshake; the second value is what is sent in answer. An answer that cannot be
    written throws before anything is recorded. -/
def onHandshakeFrame (session : Session) (type correlation : ℕ) (body : Bytes) :
    Except EncodeError (Session × Option (ℕ × Bytes)) :=
  if type = frameError ∧ correlation = 0 then .ok (session.close, none)
  else if type ≠ (if session.dialer then frameHelloAck else frameHello) then .ok (session.close, none)
  else match decodeHello body with
    | .error _ => .ok (session.close, none)
    | .ok (remote, _) =>
      if remote.revision < 1 then .ok (session.close, none)
      else
        let effective := negotiateHello session.hello remote
        if session.dialer then .ok (session.establish effective, none)
        else do
          let ack ← encodeHello effective
          pure (session.establish effective, some (frameHelloAck, ack))

/-- The two ends once the HELLO and the answer to it have arrived. -/
def handshake (dialer acceptor : Session) : Except EncodeError (Session × Session) := do
  let hello ← encodeHello dialer.hello
  let (accepted, answer) ← acceptor.onHandshakeFrame frameHello 0 hello
  match answer with
  | none => pure (dialer, accepted)
  | some (type, ack) => do
    let (dialed, _) ← dialer.onHandshakeFrame type 0 ack
    pure (dialed, accepted)

section

variable (session : Session) {body : Bytes} {remote : Hello}

/-- The acceptor opens at a HELLO and answers with the result. -/
theorem onHandshakeFrame_hello (hrole : session.dialer = false) (hbody : decodeHello.Yields body remote)
    (hrevision : 1 ≤ remote.revision) {ack : Bytes}
    (hack : encodeHello (negotiateHello session.hello remote) = .ok ack) :
    session.onHandshakeFrame frameHello 0 body =
      .ok (session.establish (negotiateHello session.hello remote), some (frameHelloAck, ack)) := by
  have hread : decodeHello body = .ok (remote, []) := by simpa using hbody []
  rw [onHandshakeFrame, if_neg (by decide), hrole, if_neg (by decide), hread]
  simp only [if_neg (Nat.not_lt.mpr hrevision), hack]
  rfl

/-- The dialer opens at the answer. -/
theorem onHandshakeFrame_helloAck (hrole : session.dialer = true)
    (hbody : decodeHello.Yields body remote) (hrevision : 1 ≤ remote.revision) :
    session.onHandshakeFrame frameHelloAck 0 body =
      .ok (session.establish (negotiateHello session.hello remote), none) := by
  have hread : decodeHello body = .ok (remote, []) := by simpa using hbody []
  rw [onHandshakeFrame, if_neg (by decide), hrole, if_neg (by decide), hread]
  simp only [if_neg (Nat.not_lt.mpr hrevision), if_true]

end

end Session

/-- The parameters that both ends have to agree on. -/
structure Agree (left right : Hello) : Prop where
  revision : left.revision = right.revision
  lane : left.lane = right.lane
  compression : left.compression = right.compression
  maxFrameSize : left.maxFrameSize = right.maxFrameSize
  maxMessageSize : left.maxMessageSize = right.maxMessageSize
  initialCredits : left.initialCredits = right.initialCredits
  maxLargeTransfers : left.maxLargeTransfers = right.maxLargeTransfers

/-- A floor that is already in one side of a minimum is not felt again. -/
theorem floor_absorbed (n m floor : ℕ) : max (min n (max (min m n) floor)) floor =
    max (min m n) floor := by
  omega

/-- Neither is a codec that both ends have, or that at least no byte is mistaken for. -/
theorem codec_absorbed {n m : ℕ} (h : n < 0x100 ∨ n % 0x100 = 0 ∨ n % 0x100 ≠ m) :
    (if n = (if m = n % 0x100 then n % 0x100 else 0) % 0x100
      then (if m = n % 0x100 then n % 0x100 else 0) % 0x100 else 0) =
      if m = n % 0x100 then n % 0x100 else 0 := by
  by_cases hsame : m = n % 0x100
  · rw [if_pos hsame, Nat.mod_mod]
    split_ifs <;> omega
  · simp [hsame]

/-- The numbers of an answer are bounded by the ones that were read. -/
theorem bounded_negotiateHello (own : Hello) {remote : Hello} (h : remote.Bounded) :
    (negotiateHello own remote).Bounded := by
  have hfloor : minMaxFrameSize ≤ maxSafeInteger ∧ 1 ≤ maxSafeInteger := by decide
  obtain ⟨hrevision, hframe, hmessage, hcredits, htransfers⟩ := h
  constructor <;> simp only [negotiateHello] <;> omega

/-- The rule applied to its own output gives that output, if the codec of the dialer is a byte, or is
    not taken for the one of the acceptor. -/
theorem negotiateHello_answer {dialer acceptor : Hello} (hcodec : dialer.compression < 0x100 ∨
      dialer.compression % 0x100 = 0 ∨ dialer.compression % 0x100 ≠ acceptor.compression) :
    Agree (negotiateHello dialer (negotiateHello acceptor dialer.received).received)
      (negotiateHello acceptor dialer.received) := by
  have hframe : (negotiateHello dialer (negotiateHello acceptor dialer.received).received).maxFrameSize =
      (negotiateHello acceptor dialer.received).maxFrameSize := floor_absorbed ..
  refine ⟨?_, ?_, ?_, hframe, ?_, ?_, floor_absorbed ..⟩
  · simp [negotiateHello, Hello.received]
  · simp [negotiateHello, Hello.received]
  · exact codec_absorbed hcodec
  · change max (min _ _) (negotiateHello dialer _).maxFrameSize = _
    rw [hframe]
    exact floor_absorbed ..
  · simp [negotiateHello, Hello.received]

theorem maxFrameSize_le (own remote : Hello) :
    (negotiateHello own remote).maxFrameSize ≤ (negotiateHello own remote).maxMessageSize :=
  le_max_right ..

/-- Both ends open with the same parameters, and neither chunks above them. -/
theorem both_ends_negotiate (dialer acceptor : Hello) (chunkSize chunkSize' : ℕ)
    (hdialer : 1 ≤ dialer.revision) (hacceptor : 1 ≤ acceptor.revision)
    (hnamed : dialer.Named) (hbounded : dialer.Bounded) (hnamed' : acceptor.Named)
    (hcodec : dialer.compression < 0x100 ∨ dialer.compression % 0x100 = 0 ∨
      dialer.compression % 0x100 ≠ acceptor.compression) :
    ∃ dialed accepted seen effective,
      Session.handshake (Session.create true dialer chunkSize)
        (Session.create false acceptor chunkSize') = .ok (dialed, accepted) ∧
      accepted.state = .opened ∧ accepted.effective = some effective ∧
      dialed.state = .opened ∧ dialed.effective = some seen ∧ Agree seen effective ∧
      accepted.chunkSize ≤ effective.maxFrameSize ∧
      effective.maxFrameSize ≤ effective.maxMessageSize ∧
      dialed.chunkSize ≤ seen.maxFrameSize ∧ seen.maxFrameSize ≤ seen.maxMessageSize := by
  obtain ⟨hello, hhello, harrives⟩ := decodeHello_encodeHello hnamed hbounded
  have hread : dialer.received.Bounded := ⟨hbounded.revision, hbounded.maxFrameSize,
    hbounded.maxMessageSize, hbounded.initialCredits, hbounded.maxLargeTransfers⟩
  have hanswered : (negotiateHello acceptor dialer.received).Named :=
    ⟨hnamed'.systemName, hnamed'.host, hnamed'.port⟩
  obtain ⟨ack, hack, hanswer⟩ :=
    decodeHello_encodeHello hanswered (bounded_negotiateHello acceptor hread)
  have haccepts := (Session.create false acceptor chunkSize').onHandshakeFrame_hello rfl harrives
    hdialer hack
  have hopens := (Session.create true dialer chunkSize).onHandshakeFrame_helloAck rfl hanswer
    (le_min hacceptor hdialer)
  refine ⟨(Session.create true dialer chunkSize).establish _,
    (Session.create false acceptor chunkSize').establish _, _, _, ?_, rfl, rfl, rfl, rfl,
    negotiateHello_answer hcodec, min_le_right .., maxFrameSize_le .., min_le_right ..,
    maxFrameSize_le ..⟩
  change (encodeHello dialer >>= _) = _
  rw [hhello]
  change (Session.onHandshakeFrame _ frameHello 0 hello >>= _) = _
  rw [haccepts]
  change (Session.onHandshakeFrame _ frameHelloAck 0 ack >>= _) = _
  rw [hopens]
  rfl

/-- An acceptor with lower limits than the dialer, one of them below its floor. -/
theorem lower_limits_negotiated : ∃ dialed accepted seen effective,
    Session.handshake (Session.create true ⟨3, [], [], 0, 4, 1, 65536, 65536, 9, 3⟩ 262144)
      (Session.create false ⟨2, [], [], 0, 0, 1, 100, 5, 7, 0⟩ 9) = .ok (dialed, accepted) ∧
    accepted.effective = some effective ∧ dialed.effective = some seen ∧ Agree seen effective := by
  obtain ⟨dialed, accepted, seen, effective, hrun, -, heffective, -, hseen, hagree, -⟩ :=
    both_ends_negotiate ⟨3, [], [], 0, 4, 1, 65536, 65536, 9, 3⟩ ⟨2, [], [], 0, 0, 1, 100, 5, 7, 0⟩
      262144 9 (by decide) (by decide) ⟨by decide, by decide, by decide⟩
      ⟨by decide, by decide, by decide, by decide, by decide⟩ ⟨by decide, by decide, by decide⟩
      (.inl (by decide))
  exact ⟨dialed, accepted, seen, effective, hrun, heffective, hseen, hagree⟩

/-- A dialer that proposes the codec 257 to an acceptor of the codec 1: the acceptor ends with the codec
    and the dialer without. -/
theorem wide_codec_disagrees :
    (Session.handshake (Session.create true ⟨1, [], [], 0, 0, 257, 65536, 65536, 9, 3⟩ 262144)
      (Session.create false ⟨1, [], [], 0, 0, 1, 65536, 65536, 9, 3⟩ 262144)).toOption.map
        (fun ends => (ends.1.effective.map Hello.compression, ends.2.effective.map Hello.compression)) =
      some (some 0, some 1) := by
  decide +kernel

end Nodeakt.Net
