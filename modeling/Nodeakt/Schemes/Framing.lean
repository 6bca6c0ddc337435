import Mathlib

/-! Parsers of streams that arrive in pieces.

    In each of its modes such a parser collects a number of items, then `finish` makes at most one
    frame of them and picks the next mode, or fails. `feed` takes one item at a time. `feed_append`
    puts pieces together, `feed_short` and `feed_full` take as much of one as the mode still wants. -/

namespace Nodeakt.Schemes
open List

/-- A stream parser with modes `μ` and frames `φ`. -/
structure Framing (β μ φ ε : Type) where
  want : μ → ℕ
  finish : μ → List β → Except ε (Option φ × μ)

/-- What a piece of the stream leads to: the frames completed, the number of items taken, and the
    parser after it unless it failed. -/
structure Fed (φ ε σ : Type) where
  frames : List φ
  taken : ℕ
  next : Except ε σ

namespace Fed

variable {φ ε σ τ : Type}

/-- The same after other frames and items. -/
def after (fed : Fed φ ε σ) (frames : List φ) (taken : ℕ) : Fed φ ε σ :=
  ⟨frames ++ fed.frames, taken + fed.taken, fed.next⟩

/-- The same with another view of the parser. -/
def map (view : σ → τ) (fed : Fed φ ε σ) : Fed φ ε τ := ⟨fed.frames, fed.taken, fed.next.map view⟩

@[simp] theorem map_after (view : σ → τ) (fed : Fed φ ε σ) (frames : List φ) (taken : ℕ) :
    (fed.after frames taken).map view = (fed.map view).after frames taken := rfl

theorem after_after (fed : Fed φ ε σ) (frames frames' : List φ) (taken taken' : ℕ) :
    (fed.after frames' taken').after frames taken =
      fed.after (frames ++ frames') (taken + taken') := by
  simp [after, Nat.add_assoc]

end Fed

namespace Framing

variable {β μ φ ε : Type} (f : Framing β μ φ ε)

/-- Takes the items one by one. -/
def feed : μ → List β → List β → Fed φ ε (μ × List β)
  | mode, kept, [] => ⟨[], 0, .ok (mode, kept)⟩
  | mode, kept, b :: rest =>
    if (kept ++ [b]).length < f.want mode then (feed mode (kept ++ [b]) rest).after [] 1
    else
      match f.finish mode (kept ++ [b]) with
      | .error error => ⟨[], 1, .error error⟩
      | .ok (frame, mode') => (feed mode' [] rest).after frame.toList 1

/-- Two pieces in a row are one. -/
theorem feed_append {more : List β} : ∀ (bytes : List β) (mode : μ) (kept : List β),
    f.feed mode kept (bytes ++ more) = match (f.feed mode kept bytes).next with
      | .error error => ⟨(f.feed mode kept bytes).frames, (f.feed mode kept bytes).taken, .error error⟩
      | .ok (mode', kept') => (f.feed mode' kept' more).after (f.feed mode kept bytes).frames
          (f.feed mode kept bytes).taken
  | [], mode, kept => by simp [feed, Fed.after]
  | b :: bytes, mode, kept => by
      rw [cons_append, feed, feed]
      split_ifs
      · rw [feed_append bytes]
        simp only [Fed.after]
        split <;> simp [Nat.add_assoc]
      · cases f.finish mode (kept ++ [b]) with
        | error error => rfl
        | ok result =>
          dsimp only
          rw [feed_append bytes]
          simp only [Fed.after]
          split <;> simp [Nat.add_assoc]

/-- A piece is taken whole unless the parser fails in it. -/
theorem feed_taken : ∀ (bytes : List β) (mode : μ) (kept : List β),
    match (f.feed mode kept bytes).next with
    | .error _ => 0 < (f.feed mode kept bytes).taken ∧ (f.feed mode kept bytes).taken ≤ bytes.length
    | .ok _ => (f.feed mode kept bytes).taken = bytes.length
  | [], _, _ => rfl
  | b :: bytes, mode, kept => by
      rw [feed]
      split_ifs
      · have ih := feed_taken bytes mode (kept ++ [b])
        simp only [Fed.after, length_cons]
        split at ih <;> omega
      · cases f.finish mode (kept ++ [b]) with
        | error error => simp
        | ok result =>
          have ih := feed_taken bytes result.2 []
          simp only [Fed.after, length_cons]
          split at ih <;> omega

/-- A piece that does not complete what the mode wants is kept. -/
theorem feed_short {mode : μ} : ∀ {bytes kept : List β}, kept.length + bytes.length < f.want mode →
    f.feed mode kept bytes = ⟨[], bytes.length, .ok (mode, kept ++ bytes)⟩
  | [], kept, _ => by simp [feed]
  | b :: bytes, kept, hshort => by
      rw [length_cons] at hshort
      rw [feed, if_pos (by rw [length_append, length_singleton]; omega),
        feed_short (by rw [length_append, length_singleton]; omega)]
      simp [Fed.after, Nat.add_comm]

/-- Otherwise its first items do. -/
theorem feed_full {mode : μ} : ∀ {bytes kept : List β}, kept.length < f.want mode →
    f.want mode ≤ kept.length + bytes.length →
    f.feed mode kept bytes =
      match f.finish mode (kept ++ bytes.take (f.want mode - kept.length)) with
      | .error error => ⟨[], f.want mode - kept.length, .error error⟩
      | .ok (frame, mode') =>
        (f.feed mode' [] (bytes.drop (f.want mode - kept.length))).after frame.toList
          (f.want mode - kept.length)
  | [], kept, hkept, hfull => absurd hkept (by simpa using hfull)
  | b :: bytes, kept, hkept, hfull => by
      rw [length_cons] at hfull
      rw [feed, length_append, length_singleton]
      by_cases hmore : kept.length + 1 < f.want mode
      · have hwant : f.want mode - kept.length = (f.want mode - (kept.length + 1)) + 1 := by omega
        have hlength : (kept ++ [b]).length = kept.length + 1 := by simp
        rw [if_pos hmore, feed_full (by omega) (by omega), hlength, hwant, take_succ_cons,
          drop_succ_cons, append_assoc, singleton_append]
        cases f.finish mode (kept ++ b :: bytes.take (f.want mode - (kept.length + 1))) with
        | error error => simp [Fed.after, Nat.add_comm]
        | ok result => simp [Fed.after_after, Nat.add_comm]
      · rw [if_neg hmore, show f.want mode - kept.length = 1 by omega]
        rfl

end Framing

end Nodeakt.Schemes
