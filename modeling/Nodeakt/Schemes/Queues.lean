import Mathlib

/-! Families of queues.

    Items wait in the queues of a family; an item joins at the end of a queue and leaves anywhere.
    `Distinct` says that no key waits twice, in one queue or in two, and the lemmas say when joining
    and leaving keep it so. -/

namespace Nodeakt.Schemes
open List Function

variable {ι α κ : Type} [DecidableEq ι]

/-- Adds an item at the end of a queue. -/
def push (queues : ι → List α) (i : ι) (a : α) : ι → List α :=
  Function.update queues i (queues i ++ [a])

/-- Removes the item at a position of a queue. -/
def removeAt (queues : ι → List α) (i : ι) (index : ℕ) : ι → List α :=
  Function.update queues i ((queues i).eraseIdx index)

/-- Removes the item at the head of a queue. -/
def pop (queues : ι → List α) (i : ι) : ι → List α := removeAt queues i 0

/-- An item with this key waits in some queue. -/
def Waiting (key : α → κ) (queues : ι → List α) (k : κ) : Prop := ∃ i, ∃ a ∈ queues i, key a = k

/-- No key waits twice. -/
structure Distinct (key : α → κ) (queues : ι → List α) : Prop where
  once : ∀ i, ((queues i).map key).Nodup
  apart : ∀ i j a b, a ∈ queues i → b ∈ queues j → key a = key b → i = j

variable {key : α → κ} {queues : ι → List α} {i j : ι} {a b : α} {index : ℕ}

theorem push_of_ne (hne : j ≠ i) : push queues i a j = queues j := update_of_ne hne ..

theorem removeAt_of_ne (hne : j ≠ i) : removeAt queues i index j = queues j := update_of_ne hne ..

theorem mem_push : b ∈ push queues i a j ↔ b ∈ queues j ∨ j = i ∧ b = a := by
  unfold push
  by_cases h : j = i
  · subst h
    simp
  · simp [h]

theorem mem_of_mem_removeAt (h : b ∈ removeAt queues i index j) : b ∈ queues j := by
  by_cases hj : j = i
  · subst hj
    rw [removeAt, update_self] at h
    exact mem_of_mem_eraseIdx h
  · rwa [removeAt_of_ne hj] at h

theorem countP_push (p : α → Bool) :
    (push queues i a j).countP p = (queues j).countP p + if j = i ∧ p a then 1 else 0 := by
  unfold push
  by_cases hj : j = i
  · subst hj
    simp [countP_singleton]
  · simp [hj]

theorem countP_removeAt (p : α → Bool) (hitem : (queues i)[index]? = some a) :
    (removeAt queues i index j).countP p + (if j = i ∧ p a then 1 else 0) =
      (queues j).countP p := by
  unfold removeAt
  by_cases hj : j = i
  · subst hj
    obtain ⟨hlt, rfl⟩ := List.getElem?_eq_some_iff.mp hitem
    have hperm := (getElem_cons_eraseIdx_perm hlt).countP_eq p
    simpa [countP_cons] using hperm
  · simp [hj]

/-- A key that does not wait may join. -/
theorem Distinct.push (h : Distinct key queues) (hnot : ¬ Waiting key queues (key a)) :
    Distinct key (push queues i a) := by
  constructor
  · intro j
    by_cases hj : j = i
    · subst hj
      rw [Schemes.push, update_self, map_append, map_singleton,
        nodup_append]
      refine ⟨h.once j, nodup_singleton _, fun k hk k' hk' => ?_⟩
      obtain ⟨b, hb, rfl⟩ := mem_map.mp hk
      rw [mem_singleton.mp hk']
      exact fun heq => hnot ⟨j, b, hb, heq⟩
    · rw [push_of_ne hj]
      exact h.once j
  · intro j j' b c hb hc hkey
    rcases mem_push.mp hb with hold | ⟨hj, rfl⟩
    · rcases mem_push.mp hc with hold' | ⟨-, rfl⟩
      · exact h.apart j j' b c hold hold' hkey
      · exact absurd ⟨j, b, hold, hkey⟩ hnot
    · rcases mem_push.mp hc with hold' | ⟨hj', -⟩
      · exact absurd ⟨j', c, hold', hkey.symm⟩ hnot
      · exact hj.trans hj'.symm

theorem Distinct.removeAt (h : Distinct key queues) : Distinct key (removeAt queues i index) := by
  constructor
  · intro j
    by_cases hj : j = i
    · subst hj
      rw [Schemes.removeAt, update_self]
      exact (h.once j).sublist ((eraseIdx_sublist ..).map key)
    · rw [removeAt_of_ne hj]
      exact h.once j
  · exact fun j j' b c hb hc hkey =>
      h.apart j j' b c (mem_of_mem_removeAt hb) (mem_of_mem_removeAt hc) hkey

/-- What left does not wait any more. -/
theorem Distinct.not_waiting_removeAt (h : Distinct key queues)
    (hitem : (queues i)[index]? = some a) :
    ¬ Waiting key (Schemes.removeAt queues i index) (key a) := by
  rintro ⟨j, b, hb, hkey⟩
  obtain ⟨hlt, rfl⟩ := List.getElem?_eq_some_iff.mp hitem
  obtain rfl := h.apart j i b _ (mem_of_mem_removeAt hb) (getElem_mem hlt) hkey
  have honce := (((getElem_cons_eraseIdx_perm hlt).map key).nodup_iff).mpr (h.once j)
  rw [map_cons, nodup_cons] at honce
  rw [Schemes.removeAt, update_self] at hb
  exact honce.1 (mem_map.mpr ⟨b, hb, hkey⟩)

end Nodeakt.Schemes
