import Mathlib

/-! Insertion-ordered maps, the `Map` of the runtime.

    A map is its list of bindings in insertion order with no key bound twice. `set` overwrites a
    bound key in place and appends a fresh one, `delete` removes the binding, and iteration walks
    the list. Every reader goes through `get`, so proofs about a store never look at the list. -/

namespace Nodeakt.Schemes
open List

/-- Bindings in insertion order, each key bound at most once. -/
structure OrderedMap (κ ν : Type) where
  toList : List (κ × ν)
  nodup : (toList.map Prod.fst).Nodup

namespace OrderedMap

variable {κ ν : Type}
variable {m : OrderedMap κ ν}

/-- The map with no binding. -/
def empty : OrderedMap κ ν := ⟨[], List.nodup_nil⟩

/-- Keeps the bindings that satisfy `f`. -/
def filter (m : OrderedMap κ ν) (f : κ → ν → Bool) : OrderedMap κ ν :=
  ⟨m.toList.filter (fun p => f p.1 p.2), (List.filter_sublist.map Prod.fst).nodup m.nodup⟩

/-- The keys in insertion order. -/
def keys (m : OrderedMap κ ν) : List κ := m.toList.map Prod.fst

/-- The values in insertion order. -/
def values (m : OrderedMap κ ν) : List ν := m.toList.map Prod.snd

@[simp] theorem keys_empty : (empty : OrderedMap κ ν).keys = [] := rfl

variable [DecidableEq κ]

/-- The value bound to `k` in a list of bindings. -/
def assoc (k : κ) : List (κ × ν) → Option ν
  | [] => none
  | (k', v) :: rest => if k' = k then some v else assoc k rest

theorem mem_of_assoc {k : κ} {v : ν} : ∀ {l : List (κ × ν)}, assoc k l = some v → (k, v) ∈ l
  | (k₀, v₀) :: rest, h => by
      rw [assoc] at h
      split_ifs at h with hk
      · cases h
        exact hk ▸ mem_cons_self ..
      · exact mem_cons_of_mem _ (mem_of_assoc h)

/-- Overwrites the binding of `k` in place, or appends one. -/
def put (k : κ) (v : ν) : List (κ × ν) → List (κ × ν)
  | [] => [(k, v)]
  | (k', v') :: rest => if k' = k then (k, v) :: rest else (k', v') :: put k v rest

theorem assoc_put (k k' : κ) (v : ν) : ∀ l : List (κ × ν),
    assoc k' (put k v l) = if k' = k then some v else assoc k' l
  | [] => by
      by_cases h : k' = k
      · simp [put, assoc, h]
      · simp [put, assoc, h, Ne.symm h]
  | (k₀, v₀) :: rest => by
      by_cases h₀ : k₀ = k
      · subst h₀
        by_cases h : k' = k₀
        · simp [put, assoc, h]
        · simp [put, assoc, h, Ne.symm h]
      · by_cases h : k' = k
        · subst h; simp [put, assoc, h₀, assoc_put k' k' v rest]
        · simp [put, assoc, h₀, h, assoc_put k k' v rest]

/-- A bound key keeps its place, and a fresh one comes last. -/
theorem keys_put (k : κ) (v : ν) : ∀ l : List (κ × ν), (put k v l).map Prod.fst =
    if k ∈ l.map Prod.fst then l.map Prod.fst else l.map Prod.fst ++ [k]
  | [] => by simp [put]
  | (k₀, v₀) :: rest => by
      by_cases h : k₀ = k
      · simp [put, h]
      · simp only [put, if_neg h, map_cons, keys_put k v rest, mem_cons, Ne.symm h,
          false_or]
        split <;> rfl

theorem mem_keys_put {k x : κ} {v : ν} {l : List (κ × ν)} :
    x ∈ (put k v l).map Prod.fst ↔ x = k ∨ x ∈ l.map Prod.fst := by
  rw [keys_put]
  split_ifs with h
  · exact ⟨Or.inr, fun hx => hx.elim (fun heq => heq ▸ h) id⟩
  · rw [mem_append, mem_singleton, or_comm]

theorem nodup_put (k : κ) (v : ν) {l : List (κ × ν)} (hl : (l.map Prod.fst).Nodup) :
    ((put k v l).map Prod.fst).Nodup := by
  rw [keys_put]
  split_ifs with h
  · exact hl
  · exact concat_eq_append ▸ hl.concat h

theorem assoc_eq_some_iff {k : κ} {v : ν} : ∀ {l : List (κ × ν)}, (l.map Prod.fst).Nodup →
    (assoc k l = some v ↔ (k, v) ∈ l)
  | [], _ => by simp [assoc]
  | (k₀, v₀) :: rest, hl => by
      rw [map_cons, nodup_cons] at hl
      by_cases h : k₀ = k
      · subst h
        have hfresh : (k₀, v) ∉ rest := fun hm =>
          hl.1 (mem_map.mpr ⟨(k₀, v), hm, rfl⟩)
        simp [assoc, hfresh, eq_comm]
      · simp [assoc, h, Ne.symm h, assoc_eq_some_iff hl.2]

/-- The value bound to `k`. -/
def get (m : OrderedMap κ ν) (k : κ) : Option ν := assoc k m.toList

/-- Binds `k` to `v`. -/
def set (m : OrderedMap κ ν) (k : κ) (v : ν) : OrderedMap κ ν :=
  ⟨put k v m.toList, nodup_put k v m.nodup⟩

/-- Removes the binding of `k`, if any. -/
def delete (m : OrderedMap κ ν) (k : κ) : OrderedMap κ ν := m.filter (fun k' _ => k' ≠ k)

@[simp] theorem get_empty (k : κ) : (empty : OrderedMap κ ν).get k = none := rfl

theorem get_set (m : OrderedMap κ ν) (k k' : κ) (v : ν) :
    (m.set k v).get k' = if k' = k then some v else m.get k' :=
  assoc_put k k' v m.toList

theorem get_eq_some_iff {k : κ} {v : ν} : m.get k = some v ↔ (k, v) ∈ m.toList :=
  assoc_eq_some_iff m.nodup

/-- A map that binds no key is empty. -/
theorem eq_empty : ∀ {m : OrderedMap κ ν}, (∀ k, m.get k = none) → m = empty
  | ⟨[], _⟩, _ => rfl
  | ⟨(k, v) :: _, hnodup⟩, h => by
      have hget := get_eq_some_iff (m := ⟨(k, v) :: _, hnodup⟩).mpr (mem_cons_self ..)
      rw [h k] at hget
      nomatch hget

theorem get_filter_eq_some_iff {f : κ → ν → Bool} {k : κ} {v : ν} :
    (m.filter f).get k = some v ↔ m.get k = some v ∧ f k v = true := by
  rw [get_eq_some_iff, get_eq_some_iff]
  simp [filter]

theorem get_delete (m : OrderedMap κ ν) (k k' : κ) :
    (m.delete k).get k' = if k' = k then none else m.get k' := by
  refine Option.ext fun v => ?_
  rw [delete, get_filter_eq_some_iff]
  by_cases h : k' = k <;> simp [h]

theorem mem_keys_iff {k : κ} : k ∈ m.keys ↔ ∃ v, m.get k = some v := by
  simp [keys, get_eq_some_iff]

theorem mem_values_iff {v : ν} : v ∈ m.values ↔ ∃ k, m.get k = some v := by
  simp [values, get_eq_some_iff]

theorem mem_keys_set {k x : κ} {v : ν} : x ∈ (m.set k v).keys ↔ x = k ∨ x ∈ m.keys := mem_keys_put

theorem mem_keys_delete {k x : κ} : x ∈ (m.delete k).keys ↔ x ≠ k ∧ x ∈ m.keys := by
  rw [mem_keys_iff, mem_keys_iff]
  by_cases h : x = k <;> simp [get_delete, h]

/-! ### Counting values -/

/-- How many values satisfy `f`. -/
def count (m : OrderedMap κ ν) (f : ν → Bool) : ℕ := m.toList.countP (fun p => f p.2)

theorem countP_put (f : ν → Bool) (k : κ) (v : ν) : ∀ l : List (κ × ν),
    (put k v l).countP (fun p => f p.2) + (if (assoc k l).any f then 1 else 0) =
      l.countP (fun p => f p.2) + (if f v then 1 else 0)
  | [] => by simp [put, assoc, countP_cons]
  | (k', v') :: rest => by
      have ih := countP_put f k v rest
      by_cases h : k' = k
      · simp only [put, assoc, if_pos h, countP_cons, Option.any_some]
        omega
      · simp only [put, assoc, if_neg h, countP_cons]
        omega

/-- Binding a key counts its new value instead of its old one. -/
theorem count_set (m : OrderedMap κ ν) (f : ν → Bool) (k : κ) (v : ν) :
    (m.set k v).count f + (if (m.get k).any f then 1 else 0) =
      m.count f + (if f v then 1 else 0) := countP_put f k v m.toList

omit [DecidableEq κ] in
/-- Every key is counted by the test that accepts all. -/
theorem length_keys (m : OrderedMap κ ν) : m.keys.length = m.count (fun _ => true) := by
  simp [keys, count]

theorem keys_set (k : κ) (v : ν) :
    (m.set k v).keys = if k ∈ m.keys then m.keys else m.keys ++ [k] := keys_put k v m.toList

omit [DecidableEq κ] in
theorem count_le_length_keys (m : OrderedMap κ ν) (f : ν → Bool) : m.count f ≤ m.keys.length := by
  rw [keys, List.length_map]
  exact List.countP_le_length

theorem length_keys_delete_le (m : OrderedMap κ ν) (k : κ) :
    (m.delete k).keys.length ≤ m.keys.length := by
  simp only [keys, length_map]
  exact length_filter_le _ _

/-- Removing a value that does not count changes no count. -/
theorem count_delete (m : OrderedMap κ ν) (f : ν → Bool) (k : κ) (h : (m.get k).any f = false) :
    (m.delete k).count f = m.count f := by
  simp only [count, delete, filter, countP_filter]
  refine countP_congr fun p hp => ?_
  have hget : m.get p.1 = some p.2 := get_eq_some_iff.mpr hp
  by_cases hk : p.1 = k
  · rw [← hk, hget, Option.any_some] at h
    simp [hk, h]
  · simp [hk]

end OrderedMap

end Nodeakt.Schemes
