import Nodeakt.Kv.Ports

/-! Hybrid logical clock (`kv/hlc.ts`).

    `compareHybrid` is the comparison as the source writes it; `compareHybrid_pos` ties it to a
    linear order on timestamps, wall time first, then the counter, then the node name, which is
    the order every later proof uses. -/

namespace Nodeakt.Kv

/-- Wall time, then logical counter, then the writing node's name. -/
def compareHybrid (left right : HybridTime) : ℤ :=
  if left.wallMs ≠ right.wallMs then (if left.wallMs < right.wallMs then -1 else 1)
  else if left.logical ≠ right.logical then (if left.logical < right.logical then -1 else 1)
  else if left.node = right.node then 0
  else if left.node < right.node then -1 else 1

/-- A timestamp as a lexicographic triple. -/
def HybridTime.toTriple (t : HybridTime) : ℚ ×ₗ ℕ ×ₗ JsString :=
  toLex (t.wallMs, toLex (t.logical, t.node))

theorem HybridTime.toTriple_injective : Function.Injective HybridTime.toTriple := by
  rintro ⟨w, l, n⟩ ⟨w', l', n'⟩ h
  simp only [HybridTime.toTriple, toLex_inj, Prod.mk.injEq] at h
  obtain ⟨rfl, rfl, rfl⟩ := h
  rfl

instance : LinearOrder HybridTime := LinearOrder.lift' HybridTime.toTriple
  HybridTime.toTriple_injective

theorem HybridTime.lt_iff {a b : HybridTime} : a < b ↔ a.wallMs < b.wallMs ∨
    a.wallMs = b.wallMs ∧ (a.logical < b.logical ∨ a.logical = b.logical ∧ a.node < b.node) := by
  change a.toTriple < b.toTriple ↔ _
  simp [HybridTime.toTriple, Prod.Lex.toLex_lt_toLex]

/-- The source's comparison is positive exactly when `left` is the later timestamp. -/
theorem compareHybrid_pos {left right : HybridTime} :
    0 < compareHybrid left right ↔ right < left := by
  rw [HybridTime.lt_iff, compareHybrid]
  rcases lt_trichotomy left.wallMs right.wallMs with hw | hw | hw
  · simp [hw.ne, hw, hw.not_gt, hw.ne']
  · rcases lt_trichotomy left.logical right.logical with hl | hl | hl
    · simp [hw, hl.ne, hl, hl.not_gt, hl.ne']
    · rcases lt_trichotomy left.node right.node with hn | hn | hn
      · simp [hw, hl, hn.ne, hn, hn.le]
      · simp [hw, hl, hn]
      · simp [hw, hl, hn.ne', hn, hn.not_gt]
    · simp [hw, hl.ne', hl, hl.not_gt]
  · simp [hw.ne', hw, hw.not_gt]

/-- Swapped timestamps compare the other way. -/
theorem compareHybrid_swap (left right : HybridTime) :
    compareHybrid right left = -compareHybrid left right := by
  unfold compareHybrid
  split_ifs <;> grind

/-- And negative exactly when it is the earlier one. -/
theorem compareHybrid_neg {left right : HybridTime} :
    compareHybrid left right < 0 ↔ left < right := by
  rw [compareHybrid_swap, neg_lt_zero, compareHybrid_pos]

/-- Per-node hybrid clock: the greatest wall time issued and the counter at it. -/
structure HybridClock where
  node : JsString
  wallMs : Millis
  logical : ℕ

namespace HybridClock

/-- The clock of a node that has stamped nothing. -/
def create (node : JsString) : HybridClock := ⟨node, 0, 0⟩

/-- Snapshot of the current state. -/
def stamp (clock : HybridClock) : HybridTime := ⟨clock.wallMs, clock.logical, clock.node⟩

/-- The state after a local event at the reading `physical`. -/
def tick (clock : HybridClock) (physical : Millis) : HybridClock :=
  let wall := max clock.wallMs physical
  { clock with wallMs := wall, logical := if wall = clock.wallMs then clock.logical + 1 else 0 }

/-- Timestamps a local event and advances the clock. -/
def now (clock : HybridClock) (physical : Millis) : HybridTime × HybridClock :=
  ((clock.tick physical).stamp, clock.tick physical)

/-- The counter of a merge, from the state before it. -/
def mergeLogical (clock : HybridClock) (wall : Millis) (remote : HybridTime) : ℕ :=
  if wall = clock.wallMs ∧ wall = remote.wallMs then max clock.logical remote.logical + 1
  else if wall = clock.wallMs then clock.logical + 1
  else if wall = remote.wallMs then remote.logical + 1
  else 0

/-- The state after a remote timestamp is merged at the reading `physical`. -/
def merge (clock : HybridClock) (remote : HybridTime) (physical : Millis) : HybridClock :=
  let wall := max (max clock.wallMs remote.wallMs) physical
  { clock with wallMs := wall, logical := clock.mergeLogical wall remote }

/-- Merges a timestamp from another node and advances the clock past it. -/
def update (clock : HybridClock) (remote : HybridTime) (physical : Millis) :
    HybridTime × HybridClock :=
  ((clock.merge remote physical).stamp, clock.merge remote physical)

/-- Each stamp is later than the state it was issued from. -/
theorem stamp_lt_tick (clock : HybridClock) (physical : Millis) :
    clock.stamp < (clock.tick physical).stamp := by
  rw [HybridTime.lt_iff]
  simp only [stamp, tick]
  rcases eq_or_lt_of_le (le_max_left clock.wallMs physical) with h | h
  · right; exact ⟨h, by simp [← h]⟩
  · left; exact h

/-- A merge is later than the state it was issued from and than what it merged. -/
theorem lt_merge (clock : HybridClock) (remote : HybridTime) (physical : Millis) :
    clock.stamp < (clock.merge remote physical).stamp ∧
      remote < (clock.merge remote physical).stamp := by
  simp only [HybridTime.lt_iff, stamp, merge, mergeLogical]
  have hclock : clock.wallMs ≤ max (max clock.wallMs remote.wallMs) physical := by simp
  have hremote : remote.wallMs ≤ max (max clock.wallMs remote.wallMs) physical := by simp
  generalize max (max clock.wallMs remote.wallMs) physical = wall at hclock hremote ⊢
  rcases eq_or_lt_of_le hclock with rfl | hc
  · rcases eq_or_lt_of_le hremote with hr | hr
    · simp [hr]
    · simp [hr, hr.ne']
  · rcases eq_or_lt_of_le hremote with rfl | hr
    · simp [hc, hc.ne']
    · exact ⟨Or.inl hc, Or.inl hr⟩

end HybridClock

end Nodeakt.Kv
