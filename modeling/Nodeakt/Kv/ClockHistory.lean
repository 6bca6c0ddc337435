import Nodeakt.Kv.Transferable

/-! Stamps of one clock.

    Whatever the readings, each stamp is later than the one before and than the remote timestamp it
    answers. The counter has no limit of its own: it leaves the four bytes of the wire when an event
    finds it at the last of them, at once after a remote timestamp that carries it. `clock_monotone`:
    that, and a node name the wire refuses, is all that goes wrong. -/

namespace Nodeakt.Kv
open Schemes List

/-- What a clock is asked for, with its reading of the physical clock. -/
inductive ClockEvent where
  | now (physical : Millis)
  | update (remote : HybridTime) (physical : Millis)

/-- A clock and the stamps it returned, newest first, with the timestamps they answer. -/
structure ClockHistory where
  clock : HybridClock
  issued : List (HybridTime × Option HybridTime)

namespace ClockHistory

variable {h h' : ClockHistory}

/-- The history of a clock that has stamped nothing. -/
def create (node : JsString) : ClockHistory := ⟨.create node, []⟩

/-- The state after an event. -/
def next (clock : HybridClock) : ClockEvent → HybridClock
  | .now physical => (clock.now physical).2
  | .update remote physical => (clock.update remote physical).2

/-- One event. -/
def step (h : ClockHistory) : ClockEvent → Option ClockHistory
  | .now physical => some ⟨(h.clock.now physical).2, ((h.clock.now physical).1, none) :: h.issued⟩
  | .update remote physical => some ⟨(h.clock.update remote physical).2,
      ((h.clock.update remote physical).1, some remote) :: h.issued⟩

/-- The wire takes a timestamp. -/
def Sendable (time : HybridTime) : Prop := ∃ block, writeHybridTime time = .ok block

/-- The reading and the remote timestamp are within the limits of the wire. -/
def InRange : ClockEvent → Prop
  | .now physical => IsUnsigned physical
  | .update remote physical => IsUnsigned physical ∧ Sendable remote

/-- The wire takes the node's name, and where the event leaves the wall time at the clock's or at
    the remote timestamp's, that one's counter is below the last the wire takes. -/
def Counts (h : ClockHistory) (event : ClockEvent) : Prop :=
  Writable MAX_NAME_BYTES h.clock.node ∧ match event with
  | .now physical => physical ≤ h.clock.wallMs → h.clock.logical < 2 ^ 32 - 1
  | .update remote physical =>
    (max remote.wallMs physical ≤ h.clock.wallMs → h.clock.logical < 2 ^ 32 - 1) ∧
    (max h.clock.wallMs physical ≤ remote.wallMs → remote.logical < 2 ^ 32 - 1)

instance (h : ClockHistory) (event : ClockEvent) : Decidable (h.Counts event) := by
  rcases event <;> dsimp only [Counts] <;> infer_instance

/-- The counter after an event fits the wire exactly if the event counts on. -/
theorem counts_iff {event : ClockEvent} : h.Counts event ↔
    Writable MAX_NAME_BYTES h.clock.node ∧ (next h.clock event).logical < 256 ^ 4 := by
  refine and_congr_right fun _ => ?_
  cases event with
  | now physical =>
    simp only [next, HybridClock.now, HybridClock.tick, max_eq_left_iff]
    split_ifs with hwall <;> simp [hwall]; omega
  | update remote physical =>
    -- the wall time is the clock's, the remote one's, both or neither
    have hclock : max (max h.clock.wallMs remote.wallMs) physical = h.clock.wallMs ↔
        max remote.wallMs physical ≤ h.clock.wallMs := by rw [max_assoc, max_eq_left_iff]
    have hremote : max (max h.clock.wallMs remote.wallMs) physical = remote.wallMs ↔
        max h.clock.wallMs physical ≤ remote.wallMs := by
      rw [max_comm h.clock.wallMs, max_assoc, max_eq_left_iff]
    simp only [next, HybridClock.update, HybridClock.merge, HybridClock.mergeLogical, ← hclock,
      ← hremote]
    split_ifs <;> grind

theorem step_eq {event : ClockEvent} (hstep : step h event = some h') : ∃ remote,
    h' = ⟨next h.clock event, ((next h.clock event).stamp, remote) :: h.issued⟩ ∧
      h.clock.stamp < (next h.clock event).stamp ∧
      ∀ time, remote = some time → time < (next h.clock event).stamp := by
  cases event with
  | now physical =>
    exact ⟨none, (Option.some.inj hstep).symm, h.clock.stamp_lt_tick physical, nofun⟩
  | update remote physical =>
    obtain ⟨hclock, hremote⟩ := h.clock.lt_merge remote physical
    exact ⟨some remote, (Option.some.inj hstep).symm, hclock,
      fun time ht => Option.some.inj ht ▸ hremote⟩

/-- Stamps descend from the state of the clock, which has a wall time the wire takes. -/
structure Ordered (h : ClockHistory) : Prop where
  wall : IsUnsigned h.clock.wallMs
  last : ∀ pair ∈ h.issued, pair.1 ≤ h.clock.stamp
  descending : h.issued.Pairwise (fun later earlier => earlier.1 < later.1)
  answers : ∀ pair ∈ h.issued, ∀ time, pair.2 = some time → time < pair.1

theorem wall_next {event : ClockEvent} (hwall : IsUnsigned h.clock.wallMs) (hrange : InRange event) :
    IsUnsigned (next h.clock event).wallMs := by
  cases event with
  | now physical => exact hwall.max hrange
  | update remote physical =>
    exact (hwall.max (writeHybridTime_total.mp hrange.2).1).max hrange.1

theorem Ordered.step {event : ClockEvent} (ho : h.Ordered) (hrange : InRange event)
    (hstep : step h event = some h') : h'.Ordered := by
  obtain ⟨remote, rfl, hlater, hremote⟩ := step_eq hstep
  constructor
  · exact wall_next ho.wall hrange
  · rintro pair hpair
    rcases mem_cons.mp hpair with rfl | hpair
    · exact le_rfl
    · exact (ho.last pair hpair).trans hlater.le
  · exact pairwise_cons.mpr ⟨fun pair hpair => (ho.last pair hpair).trans_lt hlater, ho.descending⟩
  · rintro pair hpair
    rcases mem_cons.mp hpair with rfl | hpair
    · exact hremote
    · exact ho.answers pair hpair

/-- What a run issues can be sent exactly if every event of it counts on. -/
theorem sendable_iff : ∀ {events : List ClockEvent} {h final : ClockHistory},
    IsUnsigned h.clock.wallMs → (∀ event ∈ events, InRange event) →
    run step h events = some final →
    ((∀ pair ∈ final.issued, Sendable pair.1) ↔
      (∀ pair ∈ h.issued, Sendable pair.1) ∧ Meets step Counts h events)
  | [], h, final, _, _, hrun => by
      cases hrun
      simp [Meets]
  | event :: events, h, final, hwall, hrange, hrun => by
      obtain ⟨h', hstep, hrest⟩ := (run_cons_eq_some step).mp hrun
      obtain ⟨hfirst, hothers⟩ := forall_mem_cons.mp hrange
      have hwall' := wall_next hwall hfirst
      obtain ⟨remote, rfl, -, -⟩ := step_eq hstep
      have hnode : (next h.clock event).node = h.clock.node := by cases event <;> rfl
      have hstamp : Sendable (next h.clock event).stamp ↔ h.Counts event := by
        rw [Sendable, writeHybridTime_total, counts_iff, HybridClock.stamp, hnode]
        exact ⟨fun hs => ⟨hs.2.2, hs.2.1⟩, fun hs => ⟨hwall', hs.2, hs.1⟩⟩
      rw [sendable_iff hwall' hothers hrest, forall_mem_cons, hstamp, Meets]
      simp only [hstep, Option.some.injEq, forall_eq']
      tauto

/-- In every history of readings and remote timestamps the wire takes, stamps strictly increase,
    exceed what they answer and can be sent, exactly if every event counts on. -/
theorem clock_monotone (node : JsString) {events : List ClockEvent} {final : ClockHistory}
    (hrange : ∀ event ∈ events, InRange event)
    (hrun : run step (create node) events = some final) :
    (final.issued.Pairwise (fun later earlier => 0 < compareHybrid later.1 earlier.1) ∧
      (∀ pair ∈ final.issued, ∀ remote, pair.2 = some remote → 0 < compareHybrid pair.1 remote) ∧
      ∀ pair ∈ final.issued, Sendable pair.1) ↔ Meets step Counts (create node) events := by
  have hzero : IsUnsigned (create node).clock.wallMs := (by decide : IsUnsigned 0)
  have hcreate : (create node).Ordered := ⟨hzero, nofun, List.Pairwise.nil, nofun⟩
  have hordered : final.Ordered := run_preserves (fun _ _ _ ho hr hs => ho.step hr hs) hcreate
    (Meets.of_forall _ hrange) hrun
  have hsendable := sendable_iff hzero hrange hrun
  simp only [compareHybrid_pos]
  constructor
  · exact fun hall => (hsendable.mp hall.2.2).2
  · exact fun hcounts => ⟨hordered.descending, hordered.answers, hsendable.mpr ⟨nofun, hcounts⟩⟩

/-- A remote timestamp with the last counter pushes the clock of `a` out of the wire's range. -/
theorem last_counter_unsendable : InRange (.update ⟨5, 4294967295, [98]⟩ 0) ∧
    ∃ final, run step (create [97]) [.update ⟨5, 4294967295, [98]⟩ 0] = some final ∧
      ∃ pair ∈ final.issued, ¬ Sendable pair.1 := by
  refine ⟨⟨by decide, writeHybridTime_total.mpr (by decide)⟩, _, rfl, _, List.mem_singleton_self _, ?_⟩
  rw [Sendable, writeHybridTime_total]
  decide

/-- A clock that goes back and a remote timestamp from the future. -/
theorem stalled_clock_counts : ∃ final, run step (create [97])
    [.now 5, .now 3, .update ⟨9, 4, [98]⟩ 4] = some final ∧ final.issued.length = 3 ∧
      ∀ pair ∈ final.issued, Sendable pair.1 := by
  have hrange : ∀ event ∈ [ClockEvent.now 5, .now 3, .update ⟨9, 4, [98]⟩ 4], InRange event := by
    simp only [List.forall_mem_cons, InRange, Sendable, writeHybridTime_total]
    exact ⟨by decide, by decide, by decide, nofun⟩
  exact ⟨_, rfl, rfl, ((clock_monotone [97] hrange rfl).mpr (by decide +kernel)).2.2⟩

end ClockHistory

end Nodeakt.Kv
