import Nodeakt.Schemes.Framing
import Nodeakt.Membership.Wire

/-! The stream framing of table exchanges (`SyncFrameAssembler` of `membership/wire.ts` and `frame` of
    `membership/sync.ts`).

    A message goes out behind its length in four bytes. The assembler takes the stream in whatever
    pieces the carrier reads. Seen through `view` it is a parser that wants four bytes, then as many
    as they say. A call of `push` that fails returns no frames, so those it completed are lost: two
    ways of cutting a stream agree if the reads with its bad length begin after equally many frames. -/

namespace Nodeakt.Membership
open Schemes List

/-- One encoded message behind its length. -/
def frame (message : Bytes) : Bytes := bigEndian 4 message.length ++ message

/-- The length prefix under construction and, once it is known, the length of the frame with the
    bytes copied into it. -/
structure SyncFrameAssembler where
  prefixBytes : Bytes
  frame : Option ℕ
  frameBytes : Bytes

namespace SyncFrameAssembler

/-- An assembler between frames. -/
def new : SyncFrameAssembler := ⟨[], none, []⟩

/-- Whether all pushed bytes end exactly on a frame boundary. -/
def complete (a : SyncFrameAssembler) : Bool := a.prefixBytes.length = 0 ∧ a.frame = none

/-- Copies into the frame, then goes on with the bytes left. -/
def fillFrame (goOn : SyncFrameAssembler → Bytes → Fed Bytes ProtocolError SyncFrameAssembler)
    (a : SyncFrameAssembler) (length : ℕ) (bytes : Bytes) :
    Fed Bytes ProtocolError SyncFrameAssembler :=
  let count := min (length - a.frameBytes.length) bytes.length
  let frameBytes := a.frameBytes ++ bytes.take count
  if frameBytes.length = length then (goOn new (bytes.drop count)).after [frameBytes] count
  else (goOn { a with frameBytes } (bytes.drop count)).after [] count

/-- The loop of `push`. Every round takes a byte, so there are at most as many rounds as bytes. -/
def pushLoop : ℕ → SyncFrameAssembler → Bytes → Fed Bytes ProtocolError SyncFrameAssembler
  | 0, a, _ => ⟨[], 0, .ok a⟩
  | rounds + 1, a, bytes =>
    if bytes.length = 0 then ⟨[], 0, .ok a⟩
    else
      match a.frame with
      | some length => fillFrame (pushLoop rounds) a length bytes
      | none =>
        let count := min (4 - a.prefixBytes.length) bytes.length
        let prefixBytes := a.prefixBytes ++ bytes.take count
        if prefixBytes.length < 4 then ⟨[], count, .ok { a with prefixBytes }⟩
        else
          let length := fromBigEndian prefixBytes
          if length < 4 ∨ MAX_SYNC_MESSAGE_BYTES < length then
            ⟨[], count, .error (fail "sync frame length is out of range")⟩
          else
            (fillFrame (pushLoop rounds) ⟨prefixBytes, some length, []⟩ length
              (bytes.drop count)).after [] count

/-- Incorporates carrier bytes. -/
def push (a : SyncFrameAssembler) (bytes : Bytes) : Fed Bytes ProtocolError SyncFrameAssembler :=
  pushLoop bytes.length a bytes

/-- What a stream cut into reads leads to. -/
structure Reading where
  yielded : List Bytes
  lost : List Bytes
  taken : ℕ
  next : Except ProtocolError SyncFrameAssembler

/-- Pushes the reads up to the first that fails. -/
def pushAll : SyncFrameAssembler → List Bytes → Reading
  | a, [] => ⟨[], [], 0, .ok a⟩
  | a, bytes :: reads =>
    match a.push bytes with
    | ⟨frames, taken, .error error⟩ => ⟨[], frames, taken, .error error⟩
    | ⟨frames, taken, .ok a'⟩ =>
      let rest := pushAll a' reads
      { rest with yielded := frames ++ rest.yielded, taken := taken + rest.taken }

/-! ### Streams and cuts -/

/-- How many complete frames a stream begins with, and where a length out of range that follows them
    ends. Every frame takes a byte, so there are at most as many rounds as bytes. -/
def scan : ℕ → Bytes → ℕ × Option ℕ
  | 0, _ => (0, none)
  | rounds + 1, stream =>
    let length := fromBigEndian (stream.take 4)
    if stream.length < 4 then (0, none)
    else if length < 4 ∨ MAX_SYNC_MESSAGE_BYTES < length then (0, some 4)
    else if stream.length < 4 + length then (0, none)
    else
      let rest := scan rounds (stream.drop (4 + length))
      (rest.1 + 1, rest.2.map (4 + length + ·))

def completeFrames (stream : Bytes) : ℕ := (scan stream.length stream).1

def badLength (stream : Bytes) : Option ℕ := (scan stream.length stream).2

/-- Where the read begins that holds the last of the first `position` bytes. -/
def readStart : List Bytes → ℕ → ℕ
  | [], _ => 0
  | bytes :: reads, position =>
    if position ≤ bytes.length then 0 else bytes.length + readStart reads (position - bytes.length)

/-- The read in which the bad length of the stream ends begins after equally many complete frames in
    both ways of cutting it. -/
def SameStart (reads reads' : List Bytes) : Prop :=
  ∀ position ∈ badLength reads.flatten,
    completeFrames (reads.flatten.take (readStart reads position)) =
      completeFrames (reads.flatten.take (readStart reads' position))

instance (reads reads' : List Bytes) : Decidable (SameStart reads reads') :=
  inferInstanceAs (Decidable (∀ position ∈ badLength reads.flatten, _))

/-- Stream position and error of a failure. -/
def Reading.failure (r : Reading) : Option (ℕ × ProtocolError) := match r.next with
  | .error error => some (r.taken, error)
  | .ok _ => none

/-! ### The assembler as a parser -/

/-- The parser: no length known, or the one of the frame being filled. -/
def framing : Framing UInt8 (Option ℕ) Bytes ProtocolError where
  want mode := mode.getD 4
  finish
    | none, bytes =>
      if fromBigEndian bytes < 4 ∨ MAX_SYNC_MESSAGE_BYTES < fromBigEndian bytes then
        .error (fail "sync frame length is out of range")
      else .ok (none, some (fromBigEndian bytes))
    | some _, bytes => .ok (some bytes, none)

@[simp] theorem want_none : framing.want none = 4 := rfl

@[simp] theorem want_some (length : ℕ) : framing.want (some length) = length := rfl

@[simp] theorem finish_some (length : ℕ) (bytes : Bytes) :
    framing.finish (some length) bytes = .ok (some bytes, none) := rfl

/-- Mode and bytes kept. -/
def view (a : SyncFrameAssembler) : Option ℕ × Bytes := match a.frame with
  | none => (none, a.prefixBytes)
  | some length => (some length, a.frameBytes)

/-- What holds between two rounds: nothing kept is complete, and no buffer is larger than a maximal
    frame. -/
structure Ready (a : SyncFrameAssembler) : Prop where
  prefixBytes : a.prefixBytes.length ≤ 4
  awaiting : a.frame = none → a.prefixBytes.length < 4
  filling : ∀ length, a.frame = some length →
    length ≤ MAX_SYNC_MESSAGE_BYTES ∧ a.frameBytes.length < length

theorem ready_new : new.Ready := ⟨by decide, fun _ => by decide, nofun⟩

/-- The call does what the parser does, and leaves the assembler ready. -/
def Follows (fed : Fed Bytes ProtocolError SyncFrameAssembler)
    (spec : Fed Bytes ProtocolError (Option ℕ × Bytes)) : Prop :=
  fed.map view = spec ∧ ∀ a, fed.next = .ok a → a.Ready

theorem Follows.after {fed : Fed Bytes ProtocolError SyncFrameAssembler}
    {spec : Fed Bytes ProtocolError (Option ℕ × Bytes)} (h : Follows fed spec) (frames : List Bytes)
    (taken : ℕ) : Follows (fed.after frames taken) (spec.after frames taken) :=
  ⟨by rw [Fed.map_after, h.1], h.2⟩

theorem fillFrame_follows {a : SyncFrameAssembler} {length : ℕ} {bytes : Bytes} (ha : a.Ready)
    {goOn : SyncFrameAssembler → Bytes → Fed Bytes ProtocolError SyncFrameAssembler}
    (hframe : a.frame = some length)
    (hgoOn : ∀ next left, next.Ready → left.length ≤ bytes.length - 1 →
      Follows (goOn next left) (framing.feed next.view.1 next.view.2 left)) :
    Follows (fillFrame goOn a length bytes) (framing.feed (some length) a.frameBytes bytes) := by
  obtain ⟨hmax, hless⟩ := ha.filling length hframe
  rw [fillFrame]
  by_cases hpart : a.frameBytes.length + bytes.length < length
  · have hready : Ready { a with frameBytes := a.frameBytes ++ bytes } :=
      ⟨ha.prefixBytes, ha.awaiting, fun other hother => by
        cases (hframe.symm.trans hother)
        exact ⟨hmax, by rw [length_append]; exact hpart⟩⟩
    have hnext := (hgoOn _ [] hready (Nat.zero_le _)).after [] bytes.length
    have hne : ¬ (a.frameBytes ++ bytes).length = length := by rw [length_append]; omega
    rw [framing.feed_short hpart, show min (length - a.frameBytes.length) bytes.length = bytes.length
      by omega, take_length, drop_length, if_neg hne]
    simpa [view, hframe, Framing.feed, Fed.after] using hnext
  · have hfull : (a.frameBytes ++ bytes.take (length - a.frameBytes.length)).length = length := by
      rw [length_append, length_take]; omega
    rw [framing.feed_full hless (by simpa using hpart), want_some, finish_some, show
      min (length - a.frameBytes.length) bytes.length = length - a.frameBytes.length by omega,
      if_pos hfull]
    exact (hgoOn new _ ready_new (by rw [length_drop]; omega)).after _ _

theorem pushLoop_follows : ∀ {rounds : ℕ} {a : SyncFrameAssembler} {bytes : Bytes}, a.Ready →
    bytes.length ≤ rounds → Follows (pushLoop rounds a bytes) (framing.feed a.view.1 a.view.2 bytes)
  | 0, a, bytes, ha, hrounds => by
      obtain rfl := length_eq_zero_iff.mp (Nat.le_zero.mp hrounds)
      exact ⟨rfl, fun a' ha' => Except.ok.inj ha' ▸ ha⟩
  | rounds + 1, a, bytes, ha, hrounds => by
      rw [pushLoop]
      by_cases hempty : bytes.length = 0
      · obtain rfl := length_eq_zero_iff.mp hempty
        exact ⟨rfl, fun a' ha' => Except.ok.inj ha' ▸ ha⟩
      rw [if_neg hempty]
      cases hframe : a.frame with
      | some length =>
        rw [show a.view = (some length, a.frameBytes) by rw [view, hframe]]
        exact fillFrame_follows ha hframe fun next left hnext hleft =>
          pushLoop_follows hnext (by omega)
      | none =>
        have hshort := ha.awaiting hframe
        rw [show a.view = (none, a.prefixBytes) by rw [view, hframe]]
        by_cases hpart : a.prefixBytes.length + bytes.length < 4
        · rw [framing.feed_short hpart, show min (4 - a.prefixBytes.length) bytes.length = bytes.length
            by omega]
          dsimp only
          rw [take_length, if_pos (by rwa [length_append])]
          refine ⟨by simp [Fed.map, view, Except.map], fun a' ha' => ?_⟩
          rw [← Except.ok.inj ha']
          exact ⟨by rw [length_append]; omega, fun _ => by rwa [length_append], by simp⟩
        · have hfour : (a.prefixBytes ++ bytes.take (4 - a.prefixBytes.length)).length = 4 := by
            rw [length_append, length_take]; omega
          rw [framing.feed_full hshort (by simpa using hpart), want_none, show
            min (4 - a.prefixBytes.length) bytes.length = 4 - a.prefixBytes.length by omega,
            if_neg (by omega), framing]
          dsimp only
          split_ifs with hrange
          · exact ⟨rfl, nofun⟩
          · refine Follows.after (fillFrame_follows ⟨hfour.le, by simp, ?_⟩ rfl ?_) [] _
            · rintro length ⟨⟩
              exact ⟨by omega, by simp; omega⟩
            · intro next left hnext hleft
              rw [length_drop] at hleft
              exact pushLoop_follows hnext (by omega)

/-- However the stream is cut, the frames returned and lost, the position and the end are those of
    the parser on the whole stream. -/
theorem pushAll_follows : ∀ {reads : List Bytes} {a : SyncFrameAssembler}, a.Ready →
    Follows ⟨(pushAll a reads).yielded ++ (pushAll a reads).lost, (pushAll a reads).taken,
      (pushAll a reads).next⟩ (framing.feed a.view.1 a.view.2 reads.flatten)
  | [], a, ha => ⟨rfl, fun a' ha' => Except.ok.inj ha' ▸ ha⟩
  | bytes :: reads, a, ha => by
      obtain ⟨hmap, hready⟩ := pushLoop_follows ha le_rfl
      rw [flatten_cons, framing.feed_append, ← hmap, pushAll, push]
      rcases hpush : pushLoop bytes.length a bytes with ⟨frames, taken, error | a'⟩
      · exact ⟨rfl, nofun⟩
      · rw [hpush] at hready
        have hrest := (@pushAll_follows reads a' (hready a' rfl)).after frames taken
        simpa [Fed.map, Fed.after, Except.map] using hrest

/-- The parser returns what was framed. -/
theorem feed_frames : ∀ {messages : List Bytes},
    (∀ message ∈ messages, 4 ≤ message.length ∧ message.length ≤ MAX_SYNC_MESSAGE_BYTES) →
    (framing.feed none [] (messages.flatMap Membership.frame)).frames = messages ∧
      (framing.feed none [] (messages.flatMap Membership.frame)).next = .ok (none, [])
  | [], _ => ⟨rfl, rfl⟩
  | message :: messages, hmessages => by
      obtain ⟨⟨hfour, hmax⟩, hothers⟩ := forall_mem_cons.mp hmessages
      have hlength : (bigEndian 4 message.length).length = 4 := length_bigEndian ..
      have hnumber : fromBigEndian (bigEndian 4 message.length) = message.length :=
        fromBigEndian_bigEndian (by rw [MAX_SYNC_MESSAGE_BYTES] at hmax; omega)
      have hfinish : framing.finish none (bigEndian 4 message.length) =
          .ok (none, some message.length) := by
        simp only [framing, hnumber]
        rw [if_neg (by omega)]
      obtain ⟨hframes, hnext⟩ := feed_frames hothers
      rw [flatMap_cons, Membership.frame, append_assoc,
        framing.feed_full (by decide) (by simp [hlength]), want_none, length_nil, Nat.sub_zero,
        nil_append, take_left' hlength, drop_left' hlength, hfinish]
      dsimp only
      rw [framing.feed_full (by simp; omega) (by simp), want_some, length_nil, Nat.sub_zero,
        nil_append, take_left, drop_left, finish_some]
      exact ⟨congrArg (message :: ·) hframes, hnext⟩

/-- The position at which a piece of the stream makes the parser fail. -/
def failedAt {σ : Type} (fed : Fed Bytes ProtocolError σ) : Option ℕ := match fed.next with
  | .error _ => some fed.taken
  | .ok _ => none

theorem failedAt_after {σ : Type} (fed : Fed Bytes ProtocolError σ) (frames : List Bytes) (taken : ℕ) :
    failedAt (fed.after frames taken) = (failedAt fed).map (taken + ·) := by
  unfold failedAt Fed.after
  cases fed.next <;> rfl

/-- The parser finds the frames and the bad length that are in the stream. -/
theorem feed_scan : ∀ {rounds : ℕ} {stream : Bytes}, stream.length ≤ rounds →
    (framing.feed none [] stream).frames.length = (scan rounds stream).1 ∧
      failedAt (framing.feed none [] stream) = (scan rounds stream).2
  | 0, stream, hrounds => by
      obtain rfl := length_eq_zero_iff.mp (Nat.le_zero.mp hrounds)
      exact ⟨rfl, rfl⟩
  | rounds + 1, stream, hrounds => by
      rw [scan]
      dsimp only
      by_cases hshort : stream.length < 4
      · rw [if_pos hshort, framing.feed_short (by simpa using hshort)]
        exact ⟨rfl, rfl⟩
      rw [if_neg hshort, framing.feed_full (by decide) (by simpa using hshort)]
      simp only [want_none, length_nil, Nat.sub_zero, nil_append]
      by_cases hrange : fromBigEndian (stream.take 4) < 4 ∨
          MAX_SYNC_MESSAGE_BYTES < fromBigEndian (stream.take 4)
      · have hfinish : framing.finish none (stream.take 4) =
            .error (fail "sync frame length is out of range") := if_pos hrange
        rw [if_pos hrange, hfinish]
        exact ⟨rfl, rfl⟩
      have hfinish : framing.finish none (stream.take 4) =
          .ok (none, some (fromBigEndian (stream.take 4))) := if_neg hrange
      rw [if_neg hrange, hfinish]
      dsimp only
      generalize fromBigEndian (stream.take 4) = length at hrange ⊢
      by_cases hpart : stream.length < 4 + length
      · have hmore : ([] : Bytes).length + (stream.drop 4).length < framing.want (some length) := by
          rw [length_nil, length_drop, want_some]; omega
        rw [if_pos hpart, framing.feed_short hmore]
        exact ⟨rfl, rfl⟩
      · have hfull : framing.want (some length) ≤ ([] : Bytes).length + (stream.drop 4).length := by
          rw [length_nil, length_drop, want_some]; omega
        obtain ⟨hframes, hfailed⟩ := @feed_scan rounds (stream.drop (4 + length))
          (by rw [length_drop]; omega)
        rw [if_neg hpart, framing.feed_full (by simp; omega) hfull]
        simp only [want_some, length_nil, Nat.sub_zero, nil_append, finish_some, drop_drop]
        constructor
        · rw [← hframes]
          simp [Fed.after]
        · rw [← hfailed, failedAt_after, failedAt_after, Option.map_map]
          congr 1
          funext position
          exact (Nat.add_assoc ..).symm

/-- The frames returned before a failure are those of the reads before the one that fails. -/
theorem yielded_of_failure : ∀ {reads : List Bytes} {a : SyncFrameAssembler} {error : ProtocolError},
    a.Ready → (pushAll a reads).next = .error error →
    (pushAll a reads).yielded = (framing.feed a.view.1 a.view.2
      (reads.flatten.take (readStart reads (pushAll a reads).taken))).frames ∧
    0 < (pushAll a reads).taken
  | [], _, _, _, h => by cases h
  | bytes :: reads, a, error, ha, h => by
      obtain ⟨hmap, hready⟩ := pushLoop_follows ha (le_refl bytes.length)
      have htaken := framing.feed_taken bytes a.view.1 a.view.2
      rw [pushAll, push] at h ⊢
      rcases hpush : pushLoop bytes.length a bytes with ⟨frames, taken, error | next⟩
      · rw [hpush] at hmap
        rw [← hmap] at htaken
        obtain ⟨hpos, hle⟩ := htaken
        have hstart : readStart (bytes :: reads) taken = 0 := if_pos hle
        exact ⟨by simp [hstart, Framing.feed], hpos⟩
      · rw [hpush] at hmap hready h
        rw [← hmap] at htaken
        have hwhole : taken = bytes.length := htaken
        obtain ⟨hyielded, hpos⟩ := yielded_of_failure (hready next rfl) h
        refine ⟨?_, by dsimp only; omega⟩
        dsimp only
        rw [readStart, if_neg (by omega), flatten_cons, hwhole, Nat.add_sub_cancel_left,
          take_length_add_append, framing.feed_append, ← hmap]
        exact congrArg (frames ++ ·) hyielded

/-- Only a failing read loses frames. -/
theorem lost_eq_nil : ∀ {reads : List Bytes} {a a' : SyncFrameAssembler},
    (pushAll a reads).next = .ok a' → (pushAll a reads).lost = []
  | [], _, _, _ => rfl
  | bytes :: reads, a, a', h => by
      rw [pushAll] at h ⊢
      rcases hpush : a.push bytes with ⟨frames, taken, error | next⟩
      · simp [hpush] at h
      · rw [hpush] at h
        exact lost_eq_nil h

theorem pushAll_new_follows (reads : List Bytes) :
    Follows ⟨(pushAll new reads).yielded ++ (pushAll new reads).lost, (pushAll new reads).taken,
      (pushAll new reads).next⟩ (framing.feed none [] reads.flatten) :=
  pushAll_follows ready_new

/-- The failure is the parser's. -/
theorem failure_eq {reads : List Bytes} : (pushAll new reads).failure =
      match (framing.feed none [] reads.flatten).next with
      | .error error => some ((framing.feed none [] reads.flatten).taken, error)
      | .ok _ => none := by
  rw [← (pushAll_new_follows reads).1, Reading.failure]
  simp only [Fed.map]
  cases (pushAll new reads).next <;> rfl

theorem failedAt_eq (reads : List Bytes) :
    (pushAll new reads).failure.map Prod.fst = badLength reads.flatten := by
  rw [failure_eq, badLength, ← (feed_scan le_rfl).2, failedAt]
  cases (framing.feed none [] reads.flatten).next <;> rfl

/-- How many frames are returned before the failure at a bad length. -/
theorem length_yielded {reads : List Bytes} {position : ℕ}
    (hbad : badLength reads.flatten = some position) :
    (pushAll new reads).yielded.length =
      completeFrames (reads.flatten.take (readStart reads position)) := by
  rw [← failedAt_eq, Reading.failure] at hbad
  cases hnext : (pushAll new reads).next with
  | ok a =>
    rw [hnext] at hbad
    cases hbad
  | error error =>
    rw [hnext] at hbad
    cases hbad
    rw [(yielded_of_failure ready_new hnext).1, completeFrames, ← (feed_scan le_rfl).1]
    rfl

/-- Two ways of cutting a stream fail alike, and return the same frames exactly if the reads in which
    its bad length ends begin after equally many frames. Framed messages all come back, and nothing
    larger than a maximal frame is buffered. -/
theorem reassembly {reads reads' : List Bytes} (hsame : reads.flatten = reads'.flatten) :
    (((pushAll new reads).yielded = (pushAll new reads').yielded ∧
        (pushAll new reads).failure = (pushAll new reads').failure) ↔ SameStart reads reads') ∧
    (∀ messages : List Bytes,
      (∀ message ∈ messages, 4 ≤ message.length ∧ message.length ≤ MAX_SYNC_MESSAGE_BYTES) →
      reads.flatten = messages.flatMap Membership.frame → (pushAll new reads).yielded = messages ∧
        ∃ a, (pushAll new reads).next = .ok a ∧ a.complete = true) ∧
    ∀ a, (pushAll new reads).next = .ok a → a.prefixBytes.length ≤ 4 ∧
      ∀ length, a.frame = some length →
        length ≤ MAX_SYNC_MESSAGE_BYTES ∧ a.frameBytes.length < length := by
  have hfed := pushAll_new_follows
  have hframes : (pushAll new reads).yielded ++ (pushAll new reads).lost =
      (pushAll new reads').yielded ++ (pushAll new reads').lost := by
    have hframes := congrArg Fed.frames (hfed reads).1
    rw [hsame, ← (hfed reads').1] at hframes
    exact hframes
  have hfailure : (pushAll new reads).failure = (pushAll new reads').failure := by
    rw [failure_eq, failure_eq, hsame]
  refine ⟨⟨fun h position hbad => ?_, fun h => ⟨?_, hfailure⟩⟩, fun messages hm hs => ?_,
    fun a ha => ?_⟩
  · have hbad' : badLength reads'.flatten = some position := hsame ▸ hbad
    rw [← length_yielded hbad, h.1, length_yielded hbad', hsame]
  · cases hbad : badLength reads.flatten with
    | none =>
      -- without a bad length no read fails, and none loses a frame
      have hended : ∀ {cut : List Bytes}, cut.flatten = reads.flatten → (pushAll new cut).lost = [] := by
        intro cut hcut
        have hnone := failedAt_eq cut
        rw [hcut, hbad, Option.map_eq_none_iff, Reading.failure] at hnone
        split at hnone
        · cases hnone
        · exact lost_eq_nil ‹_›
      rwa [hended rfl, hended hsame.symm, append_nil, append_nil] at hframes
    | some position =>
      have hbad' : badLength reads'.flatten = some position := hsame ▸ hbad
      refine append_inj_left hframes ?_
      rw [length_yielded hbad, length_yielded hbad', h position hbad, hsame]
  · obtain ⟨hyielded, hnext⟩ := feed_frames hm
    rw [← hs, ← (hfed reads).1] at hyielded hnext
    simp only [Fed.map] at hyielded hnext
    cases hend : (pushAll new reads).next with
    | error error => rw [hend] at hnext; cases hnext
    | ok a =>
      rw [lost_eq_nil hend, append_nil] at hyielded
      rw [hend] at hnext
      refine ⟨hyielded, a, rfl, ?_⟩
      have hview : a.view = (none, []) := Except.ok.inj hnext
      rw [view] at hview
      split at hview
      · rename_i hframe
        simp [complete, hframe, (Prod.mk.inj hview).2]
      · cases hview
  · exact ⟨((hfed reads).2 a ha).prefixBytes, ((hfed reads).2 a ha).filling⟩

/-- A frame and a length out of range: read at once, the frame is lost. -/
theorem failing_read_loses_frame :
    (pushAll new [[0, 0, 0, 4, 1, 2, 3, 4, 0, 0, 0, 0]]).yielded = [] ∧
    (pushAll new [[0, 0, 0, 4, 1, 2, 3, 4], [0, 0, 0, 0]]).yielded = [[1, 2, 3, 4]] :=
  ⟨rfl, rfl⟩

/-- A frame and a length out of range, cut between them and once more before the frame or inside the
    length: the frame is returned before the failure both times. -/
theorem cut_frame_returns :
    (pushAll new [[0, 0], [0, 4, 1, 2, 3, 4], [0, 0, 0, 0]]).yielded =
      (pushAll new [[0, 0, 0, 4, 1, 2, 3, 4, 0], [0, 0, 0]]).yielded :=
  ((reassembly (rfl : [([0, 0] : Bytes), [0, 4, 1, 2, 3, 4], [0, 0, 0, 0]].flatten =
    [([0, 0, 0, 4, 1, 2, 3, 4, 0] : Bytes), [0, 0, 0]].flatten)).1.mpr (by decide +kernel)).1

end SyncFrameAssembler

end Nodeakt.Membership
