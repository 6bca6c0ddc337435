import Nodeakt.Js.Text

/-! The split-brain resolver (`kv/resolver.ts`).

    A half keeps serving when it reaches more than half of the last stable membership, or exactly
    half of it with the oldest member. Two halves that share no stable member never both survive
    (`not_both_survive`), and of two halves that share them out exactly one does. -/

namespace Nodeakt.Kv
open List

/-- Keep-majority with an oldest-member tiebreak. -/
structure KeepMajorityResolver where
  minimumMemberQuorum : ℕ
  positive : 1 ≤ minimumMemberQuorum
  deriving DecidableEq

namespace KeepMajorityResolver

/-- How many of the last stable members a half reaches. -/
def held (reachable : Finset JsString) (lastStable : List JsString) : ℕ :=
  lastStable.countP (fun name => decide (name ∈ reachable))

/-- Whether this half keeps serving. -/
def survives (resolver : KeepMajorityResolver) (reachable : Finset JsString)
    (lastStable : List JsString) : Bool :=
  let stableSize := lastStable.length
  if resolver.minimumMemberQuorum ≤ 1 ∨ stableSize = 0 then true
  else if stableSize < held reachable lastStable * 2 then true
  else if held reachable lastStable * 2 < stableSize then false
  else decide (lastStable.headD [] ∈ reachable)

variable {resolver : KeepMajorityResolver} {left right : Finset JsString} {oldest : JsString}
  {lastStable rest : List JsString}

/-- With the strategy on, a half survives by a majority, or by half of the members and the oldest. -/
theorem survives_iff (hquorum : 1 < resolver.minimumMemberQuorum) :
    resolver.survives left (oldest :: rest) = true ↔
      rest.length + 1 < held left (oldest :: rest) * 2 ∨
        held left (oldest :: rest) * 2 = rest.length + 1 ∧ oldest ∈ left := by
  rw [survives, if_neg (by simp; omega)]
  simp only [length_cons]
  split
  · simp [*]
  · split
    · simp
      omega
    · rw [decide_eq_true_iff, headD_cons]
      constructor
      · exact fun holdest => .inr ⟨by omega, holdest⟩
      · exact fun h => (h.resolve_left (by omega)).2

/-- Members shared out between two halves are counted once. -/
theorem held_add_held (hshare : ∀ name ∈ lastStable, (name ∈ left ↔ name ∉ right)) :
    held left lastStable + held right lastStable = lastStable.length := by
  rw [length_eq_countP_add_countP fun name => decide (name ∈ left), held, held]
  refine congrArg _ (countP_congr fun name hname => ?_)
  simp [hshare name hname]

/-- No member is counted for both of two halves that share none. -/
theorem held_add_held_le (hapart : ∀ name ∈ lastStable, name ∈ left → name ∉ right) :
    held left lastStable + held right lastStable ≤ lastStable.length := by
  rw [length_eq_countP_add_countP fun name => decide (name ∈ left), held, held]
  refine Nat.add_le_add_left (countP_mono_left fun name hname hright => ?_) _
  simpa using fun hleft => hapart name hname hleft (of_decide_eq_true hright)

/-- Halves that share no stable member do not both survive, whatever their quorums. -/
theorem not_both_survive {other : KeepMajorityResolver}
    (hquorum : 1 < resolver.minimumMemberQuorum) (hquorum' : 1 < other.minimumMemberQuorum)
    (hne : lastStable ≠ []) (hapart : ∀ name ∈ lastStable, name ∈ left → name ∉ right)
    (hleft : resolver.survives left lastStable = true) :
    other.survives right lastStable = false := by
  obtain ⟨oldest, rest, rfl⟩ := exists_cons_of_ne_nil hne
  refine Bool.eq_false_iff.mpr fun hright => ?_
  have hcount := held_add_held_le hapart
  rw [length_cons] at hcount
  rcases (survives_iff hquorum).mp hleft with hmore | ⟨hhalf, holdest⟩ <;>
    rcases (survives_iff hquorum').mp hright with hmore' | ⟨hhalf', holdest'⟩
  · omega
  · omega
  · omega
  · exact hapart oldest (mem_cons_self ..) holdest holdest'

/-- A half that reaches every stable member survives. -/
theorem survives_of_reaches_all (h : ∀ name ∈ lastStable, name ∈ left) :
    resolver.survives left lastStable = true := by
  have hall : held left lastStable = lastStable.length :=
    countP_eq_length.mpr fun name hname => decide_eq_true (h name hname)
  rw [survives]
  split
  · rfl
  · rw [if_pos (by omega)]

/-- Of two halves that share out a stable membership (with duplicates or without), whoever else they
    reach, exactly one keeps serving. -/
theorem clean_split_keeps_one (resolver : KeepMajorityResolver)
    (hquorum : 1 < resolver.minimumMemberQuorum) (lastStable : List JsString)
    (hne : lastStable ≠ []) (left right : Finset JsString)
    (hshare : ∀ name ∈ lastStable, (name ∈ left ↔ name ∉ right)) :
    Xor (resolver.survives left lastStable = true) (resolver.survives right lastStable = true) := by
  by_cases hleft : resolver.survives left lastStable = true
  · have hright := not_both_survive hquorum hquorum hne (fun name hname => (hshare name hname).mp) hleft
    exact .inl ⟨hleft, by simp [hright]⟩
  · refine .inr ⟨?_, hleft⟩
    obtain ⟨oldest, rest, rfl⟩ := List.exists_cons_of_ne_nil hne
    rw [survives_iff hquorum] at hleft ⊢
    have hcount := held_add_held hshare
    have holdest := hshare oldest (List.mem_cons_self ..)
    rw [List.length_cons] at hcount
    -- without a majority on the left, the right has one or the oldest decides the tie
    by_cases hhalf : held right (oldest :: rest) * 2 = rest.length + 1
    · refine .inr ⟨hhalf, ?_⟩
      by_contra hright
      exact hleft (.inr ⟨by omega, holdest.mpr hright⟩)
    · left
      by_contra hless
      exact hleft (.inl (by omega))

/-- Four members, two and two, with a stranger on one side: the half with the oldest stays. -/
theorem tie_kept_by_oldest :
    Xor ((⟨2, by decide⟩ : KeepMajorityResolver).survives {[1], [4], [9]} [[1], [2], [3], [4]] = true)
      ((⟨2, by decide⟩ : KeepMajorityResolver).survives {[2], [3]} [[1], [2], [3], [4]] = true) :=
  clean_split_keeps_one ⟨2, by decide⟩ (by decide) [[1], [2], [3], [4]] (by decide)
    {[1], [4], [9]} {[2], [3]} (by decide)

end KeepMajorityResolver

end Nodeakt.Kv
