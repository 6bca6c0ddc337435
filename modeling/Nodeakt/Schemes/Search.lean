import Mathlib

/-! Binary search and circular walks over lists.

    `lowerBound` is the halving loop for the first index that is not `before`; over a list in which
    the `before` elements come first it splits the list into the two filters. `walk` visits a list
    once around from a start index, and `distinct` keeps the first occurrence of each element. -/

namespace Nodeakt.Schemes
open List

variable {α : Type}
variable {before : α → Bool} {l : List α}

/-- The halving loop on `[lo, hi)`; `hi - lo` rounds are enough. -/
def lowerBoundLoop (before : α → Bool) (l : List α) : ℕ → ℕ → ℕ → ℕ
  | 0, lo, _ => lo
  | fuel + 1, lo, hi =>
    if lo < hi then
      let mid := (lo + hi) / 2
      if (l[mid]?).any before then lowerBoundLoop before l fuel (mid + 1) hi
      else lowerBoundLoop before l fuel lo mid
    else lo

/-- First index whose element is not `before`, the length when there is none. -/
def lowerBound (before : α → Bool) (l : List α) : ℕ := lowerBoundLoop before l l.length 0 l.length

theorem lowerBoundLoop_le (before : α → Bool) (l : List α) :
    ∀ fuel lo hi : ℕ, lo ≤ hi → lowerBoundLoop before l fuel lo hi ≤ hi
  | 0, _, _, hle => hle
  | fuel + 1, lo, hi, hle => by
      rw [lowerBoundLoop]
      dsimp only
      split
      · split
        · exact lowerBoundLoop_le before l fuel _ _ (by omega)
        · exact (lowerBoundLoop_le before l fuel _ _ (by omega)).trans (by omega)
      · exact hle

/-- Everything below `lo` is `before` and nothing from `hi` on is. -/
structure Bracket (before : α → Bool) (l : List α) (lo hi : ℕ) : Prop where
  below : ∀ i (h : i < l.length), i < lo → before l[i] = true
  above : ∀ i (h : i < l.length), hi ≤ i → before l[i] = false

theorem bracket_loop (sorted : l.Pairwise (fun a b => before b = true → before a = true)) :
    ∀ (fuel lo hi : ℕ), hi - lo ≤ fuel → lo ≤ hi → hi ≤ l.length → Bracket before l lo hi →
      Bracket before l (lowerBoundLoop before l fuel lo hi) (lowerBoundLoop before l fuel lo hi)
  | 0, lo, hi, hfuel, hle, _, hb => by
      obtain rfl : lo = hi := by omega
      exact hb
  | fuel + 1, lo, hi, hfuel, hle, hlen, hb => by
      rw [lowerBoundLoop]
      by_cases hlt : lo < hi
      · have hmid : (lo + hi) / 2 < l.length := by omega
        rw [if_pos hlt]
        simp only [getElem?_eq_getElem hmid, Option.any_some]
        by_cases hbef : before l[(lo + hi) / 2] = true
        · rw [if_pos hbef]
          refine bracket_loop sorted fuel _ _ (by omega) (by omega) hlen ⟨?_, hb.above⟩
          intro i hi' hlo
          rcases Nat.lt_or_eq_of_le (Nat.lt_succ_iff.mp hlo) with h | rfl
          · exact pairwise_iff_getElem.mp sorted i _ hi' hmid h hbef
          · exact hbef
        · rw [if_neg hbef]
          refine bracket_loop sorted fuel _ _ (by omega) (by omega) hmid.le ⟨hb.below, ?_⟩
          intro i hi' hge
          rcases Nat.lt_or_eq_of_le hge with h | rfl
          · refine Bool.eq_false_iff.mpr fun ht => hbef ?_
            exact pairwise_iff_getElem.mp sorted _ i hmid hi' h ht
          · exact Bool.eq_false_iff.mpr hbef
      · rw [if_neg hlt]
        obtain rfl : lo = hi := by omega
        exact hb

theorem bracket_lowerBound (sorted : l.Pairwise (fun a b => before b = true → before a = true)) :
    Bracket before l (lowerBound before l) (lowerBound before l) :=
  bracket_loop sorted l.length 0 l.length (by omega) (by omega) le_rfl
    ⟨fun _ _ h => absurd h (Nat.not_lt_zero _), fun _ h hge => absurd h (by omega)⟩

/-- Elements before the bound are the `before` ones. -/
theorem take_lowerBound (sorted : l.Pairwise (fun a b => before b = true → before a = true)) :
    l.take (lowerBound before l) = l.filter before ∧
    l.drop (lowerBound before l) = l.filter (fun a => !before a) := by
  have hb := bracket_lowerBound sorted
  have htake : ∀ a ∈ l.take (lowerBound before l), before a = true := by
    intro a ha
    obtain ⟨i, hi, rfl⟩ := mem_iff_getElem.mp ha
    rw [length_take] at hi
    rw [getElem_take]
    exact hb.below i (by omega) (by omega)
  have hdrop : ∀ a ∈ l.drop (lowerBound before l), before a = false := by
    intro a ha
    obtain ⟨i, hi, rfl⟩ := mem_iff_getElem.mp ha
    rw [length_drop] at hi
    rw [getElem_drop]
    exact hb.above _ (by omega) (by omega)
  have hsplit := (take_append_drop (lowerBound before l) l).symm
  constructor
  · conv_rhs => rw [hsplit]
    rw [filter_append, filter_eq_self.mpr htake,
      filter_eq_nil_iff.mpr (by simpa using hdrop), append_nil]
  · conv_rhs => rw [hsplit]
    rw [filter_append, filter_eq_nil_iff.mpr (by simpa using htake),
      filter_eq_self.mpr (by simpa using hdrop), nil_append]

theorem lowerBoundLoop_map {β : Type} (f : β → α) (l : List β) : ∀ fuel lo hi : ℕ,
    lowerBoundLoop before (l.map f) fuel lo hi =
      lowerBoundLoop (fun b => before (f b)) l fuel lo hi
  | 0, _, _ => rfl
  | fuel + 1, lo, hi => by
      simp only [lowerBoundLoop, getElem?_map, Option.any_map, lowerBoundLoop_map f l fuel]

theorem lowerBound_map {β : Type} (f : β → α) (l : List β) :
    lowerBound before (l.map f) = lowerBound (fun b => before (f b)) l := by
  rw [lowerBound, lowerBoundLoop_map, length_map, lowerBound]

/-- Once around the list from index `start`. -/
def walk (l : List α) (start : ℕ) : List α :=
  (List.range l.length).filterMap (fun step => l[(start + step) % l.length]?)

theorem filterMap_getElem?_range : ∀ l : List α,
    (List.range l.length).filterMap (fun i => l[i]?) = l
  | [] => rfl
  | a :: l => by
      rw [length_cons, range_succ_eq_map, filterMap_cons, filterMap_map]
      exact congrArg (a :: ·) (filterMap_getElem?_range l)

theorem walk_eq_rotate (l : List α) (start : ℕ) : walk l start = l.rotate start := by
  have hmap : walk l start =
      (range (l.rotate start).length).filterMap (fun step => (l.rotate start)[step]?) := by
    rw [length_rotate]
    refine filterMap_congr fun step hstep => ?_
    rw [getElem?_rotate (mem_range.mp hstep), Nat.add_comm]
  rw [hmap, filterMap_getElem?_range]

/-- A walk from the bound visits what is not `before` first, then the rest. -/
theorem walk_lowerBound (sorted : l.Pairwise (fun a b => before b = true → before a = true)) :
    walk l (lowerBound before l) = l.filter (fun a => !before a) ++ l.filter before := by
  obtain ⟨htake, hdrop⟩ := take_lowerBound sorted
  rw [walk_eq_rotate, ← htake, ← hdrop]
  exact rotate_eq_drop_append_take (lowerBoundLoop_le before l _ _ _ (Nat.zero_le _))

/-- Filtering moves the elements it keeps only forward. -/
theorem mem_take_filter {p : α → Bool} {x : α} (hp : p x = true) : ∀ {l : List α} {n : ℕ},
    x ∈ l.take n → x ∈ (l.filter p).take n
  | [], _, h => by simp at h
  | a :: l, 0, h => by simp at h
  | a :: l, n + 1, h => by
      rcases mem_cons.mp h with rfl | h
      · simp [hp]
      · have ih := mem_take_filter hp h
        cases ha : p a with
        | true => simp [ha, ih]
        | false =>
          rw [filter_cons_of_neg (by simp [ha])]
          exact (take_prefix_take_left (Nat.le_succ n)).subset ih

/-- The first element found is found as well where others are left out. -/
theorem find?_filter_of_imp {p q : α → Bool} : ∀ {l : List α},
    (∀ a, l.find? q = some a → p a = true) → (l.filter p).find? q = l.find? q
  | [], _ => rfl
  | a :: l, h => by
      cases hq : q a with
      | true =>
        have ha := h a (find?_cons_of_pos hq)
        rw [filter_cons_of_pos ha, find?_cons_of_pos hq, find?_cons_of_pos hq]
      | false =>
        have hskip : (a :: l).find? q = l.find? q := find?_cons_of_neg (by simp [hq])
        rw [hskip] at h ⊢
        rw [← find?_filter_of_imp h]
        cases hp : p a <;> simp [hp, hq]

section Distinct

variable [DecidableEq α]

/-- Keeps the first occurrence of each element. -/
def distinct : List α → List α
  | [] => []
  | a :: l => a :: (distinct l).filter (· ≠ a)

theorem mem_distinct {x : α} : ∀ {l : List α}, x ∈ distinct l ↔ x ∈ l
  | [] => Iff.rfl
  | a :: l => by
      simp only [distinct, mem_cons, mem_filter, mem_distinct (l := l), decide_eq_true_eq]
      tauto

theorem nodup_distinct : ∀ l : List α, (distinct l).Nodup
  | [] => nodup_nil
  | a :: l => nodup_cons.mpr ⟨by simp, (nodup_distinct l).filter _⟩

theorem distinct_filter (p : α → Bool) : ∀ l : List α, distinct (l.filter p) = (distinct l).filter p
  | [] => rfl
  | a :: l => by
      cases hp : p a with
      | true =>
        simp only [filter_cons, hp, if_true, distinct, distinct_filter p l,
          filter_filter, Bool.and_comm]
      | false =>
        simp only [filter_cons, hp, distinct, distinct_filter p l, filter_filter,
          Bool.false_eq_true, if_false]
        refine filter_congr fun x _ => ?_
        by_cases hx : x = a
        · subst hx; simp [hp]
        · simp [hx]

end Distinct

/-! ### Stable sorts -/

section Stable

variable {r : α → α → Prop} [DecidableRel r] [Std.Total r] [IsTrans α r]

omit [Std.Total r] in
theorem filter_orderedInsert (p : α → Bool) (a : α) : ∀ {l : List α}, l.Pairwise r →
    (l.orderedInsert r a).filter p = if p a then (l.filter p).orderedInsert r a else l.filter p
  | [], _ => by cases hp : p a <;> simp [hp]
  | b :: l, hl => by
      obtain ⟨hb, hl⟩ := pairwise_cons.mp hl
      have ih := filter_orderedInsert p a hl
      by_cases hab : r a b
      · -- everything behind `b` is behind `a`
        have hall : ∀ c ∈ (b :: l).filter p, r a c := by
          intro c hc
          rcases mem_cons.mp (mem_filter.mp hc).1 with rfl | hc
          · exact hab
          · exact IsTrans.trans _ _ _ hab (hb c hc)
        rw [orderedInsert_cons_of_le r l hab, filter_cons]
        cases hf : (b :: l).filter p with
        | nil => rfl
        | cons c rest =>
          rw [orderedInsert_cons_of_le r rest (hall c (hf ▸ mem_cons_self ..))]
      · rw [orderedInsert_of_not_le r l hab]
        cases hpa : p a <;> cases hpb : p b <;> simp [hpa, hpb, hab, ih]

/-- An insertion sort is stable: what is left out does not change the order of the rest. -/
theorem filter_insertionSort (p : α → Bool) : ∀ l : List α,
    (l.insertionSort r).filter p = (l.filter p).insertionSort r
  | [] => rfl
  | a :: l => by
      rw [insertionSort_cons, filter_orderedInsert p a (pairwise_insertionSort r l),
        filter_insertionSort p l]
      cases hp : p a <;> simp [hp]

end Stable

end Nodeakt.Schemes
