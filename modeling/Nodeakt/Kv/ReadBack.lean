import Nodeakt.Schemes.Run
import Nodeakt.Kv.Engine

/-! Reading back an acknowledged write.

    A node's engine is driven by local writes, merges of entries other nodes stamped, janitor sweeps
    and drops, under arbitrary clock readings. A commit stamps the entry with the node's own clock
    and stores it by last write wins, and a merge never advances that clock, so a commit is lost
    under a stored entry whose stamp the clock has not reached. `applied_write_stored_iff` says that
    this is the only way to lose it: entries the node stamped itself are always behind its clock. -/

namespace Nodeakt.Kv
open Schemes

/-- What can happen to one node's engine. -/
inductive EngineEvent where
  | write (op : WriteOp) (nowMs physical : Millis)
  | merge (entry : Entry)
  | sweep (nowMs : Millis)
  | drop (partition : ℕ)

namespace Engine

/-- One event; a merge brings an entry another node stamped. -/
def step (engine : Engine) : EngineEvent → Option Engine
  | .write op nowMs physical => some (engine.write op nowMs physical).2
  | .merge entry => if entry.timestamp.node = engine.node then none else some (engine.merge entry)
  | .sweep nowMs => some (engine.sweep nowMs)
  | .drop partition => some (engine.drop partition)

/-- Every entry this node stamped is at or behind its clock. -/
def OwnBehindClock (engine : Engine) : Prop :=
  ∀ k e, engine.peek k = some e → e.timestamp.node = engine.node → e.timestamp ≤ engine.clock.stamp

theorem ownBehindClock_create (node : JsString) (partitionCount : ℕ)
    (positive : 0 < partitionCount) : (create node partitionCount positive).OwnBehindClock := by
  intro k e h
  simp at h

theorem ownBehindClock_commit {engine : Engine} (h : engine.OwnBehindClock) (key : JsString)
    (value : Option Bytes) (expiresAt : Option Millis) (physical : Millis) :
    (engine.commit key value expiresAt physical).2.OwnBehindClock := by
  intro k e hpeek hown
  have hold : ∀ x, engine.peek k = some x → x.timestamp.node = engine.node →
      x.timestamp ≤ (engine.clock.tick physical).stamp := fun x hx hn =>
    (h k x hx hn).trans (HybridClock.stamp_lt_tick engine.clock physical).le
  rcases peek_commit_cases hpeek with hstored | rfl
  · exact hold e hstored hown
  · exact le_rfl

theorem ownBehindClock_step {engine engine' : Engine} {event : EngineEvent}
    (h : engine.OwnBehindClock) (hstep : engine.step event = some engine') :
    engine'.OwnBehindClock := by
  cases event with
  | write op nowMs physical =>
    cases hstep
    unfold write
    split
    · exact h
    · exact h
    · exact ownBehindClock_commit h _ _ _ _
  | merge entry =>
    obtain ⟨hforeign, rfl⟩ := of_barred hstep
    intro k e hpeek hown
    rcases peek_merge_cases hpeek with hold | rfl
    · exact h k e hold hown
    · exact absurd hown hforeign
  | sweep nowMs =>
    cases hstep
    exact fun k e hpeek => h k e (peek_of_sweep hpeek)
  | drop partition =>
    cases hstep
    exact fun k e hpeek => h k e (peek_of_drop hpeek)

/-- The engine's clock, at the reading `physical`, is past the timestamp `t`: a later wall time, or
    the same one with a higher counter, or the same counter with a greater node name. -/
def ClockPast (engine : Engine) (physical : Millis) (t : HybridTime) : Prop :=
  let wall := max engine.clock.wallMs physical
  let logical := if wall = engine.clock.wallMs then engine.clock.logical + 1 else 0
  t.wallMs < wall ∨ t.wallMs = wall ∧ (t.logical < logical ∨ t.logical = logical ∧ t.node < engine.node)

theorem clockPast_iff {engine : Engine} {physical : Millis} {t : HybridTime} :
    engine.ClockPast physical t ↔ t < (engine.clock.tick physical).stamp := by
  rw [HybridTime.lt_iff]; rfl

/-- After any run, an applied write is what its key stores exactly when the clock is past every
    entry a peer stamped for the key. -/
theorem applied_write_stored_iff {node : JsString} {partitionCount : ℕ}
    {positive : 0 < partitionCount} {events : List EngineEvent} {engine engine' : Engine}
    {op : WriteOp} {nowMs physical : Millis} {entry : Entry}
    (hrun : run step (create node partitionCount positive) events = some engine)
    (hwrite : engine.write op nowMs physical = (.ok (.applied entry), engine')) :
    engine'.peek op.key = some entry ↔
      ∀ stored, engine.peek op.key = some stored → stored.timestamp.node ≠ engine.node →
        engine.ClockPast physical stored.timestamp := by
  have hown : engine.OwnBehindClock :=
    run_invariant (fun _ _ _ => ownBehindClock_step) (ownBehindClock_create _ _ _) hrun
  obtain ⟨value, expiresAt, -, rfl, rfl⟩ := write_applied hwrite
  have hstamp : (engine.commitEntry op.key value expiresAt physical).timestamp =
      (engine.clock.tick physical).stamp := rfl
  have hcommit : (engine.commit op.key value expiresAt physical).1 =
      engine.commitEntry op.key value expiresAt physical := rfl
  rw [peek_commit, if_pos rfl, Option.some.injEq, hcommit]
  cases hpeek : engine.peek op.key with
  | none => simp [newest]
  | some stored =>
    rw [newest_some_eq_iff, hstamp]
    constructor
    · rintro (hlt | rfl) stored' heq hforeign
      · cases heq
        exact clockPast_iff.mpr hlt
      · cases heq
        exact absurd rfl hforeign
    · intro hpast
      left
      by_cases hnode : stored.timestamp.node = engine.node
      · exact (hown op.key stored hpeek hnode).trans_lt (HybridClock.stamp_lt_tick ..)
      · exact clockPast_iff.mp (hpast stored rfl hnode)

/-- A peer's entry for the key `k`, stamped 95 ms ahead of this node's clock. -/
def aheadEntry : Entry := ⟨[107], some [2], ⟨100, 0, [98]⟩, 1, none, false⟩

/-- A plain put of the key `k`. -/
def putK : WriteOp := .put [107] [1] .none none

/-- Node `a` after that merge. -/
def behindEngine : Engine := (create [97] 1 Nat.one_pos).merge aheadEntry

/-- Node `a` merges the peer's entry and then acknowledges a put at time 5 that it does not store. -/
theorem applied_write_not_stored :
    run step (create [97] 1 Nat.one_pos) [.merge aheadEntry] = some behindEngine ∧
    ∃ entry, (behindEngine.write putK 5 5).1 = .ok (.applied entry) ∧
      (behindEngine.write putK 5 5).2.peek [107] ≠ some entry :=
  ⟨rfl, behindEngine.commitEntry [107] (some [1]) none 5, rfl, by decide +kernel⟩

/-- The same put once the clock reads 200 is stored. -/
theorem applied_write_stored_at_200 : (behindEngine.write putK 200 200).2.peek [107] =
      some (behindEngine.commitEntry [107] (some [1]) none 200) := by
  have hrun : run step (create [97] 1 Nat.one_pos) [.merge aheadEntry] = some behindEngine := rfl
  have hwrite : behindEngine.write putK 200 200 =
      (.ok (.applied (behindEngine.commitEntry [107] (some [1]) none 200)),
        (behindEngine.write putK 200 200).2) := rfl
  refine (applied_write_stored_iff hrun hwrite).mpr ?_
  intro stored h _
  obtain rfl : aheadEntry = stored := Option.some.inj h
  exact Or.inl (by decide +kernel)

end Engine

end Nodeakt.Kv
