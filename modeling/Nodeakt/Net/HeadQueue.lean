import Nodeakt.Schemes.Refine

/-! The frame queue of a connection (`net/queue.ts`).

    Shifting advances a head index over an array whose consumed slots are cleared, and the array is
    compacted now and then. `Represents` says that an array is its cleared slots followed by the
    waiting items; every operation keeps that, so the queue answers as a list does. -/

namespace Nodeakt.Net
open Schemes List

variable {α : Type}

/-- Consumed slots from which on the array may be compacted. -/
def COMPACT_MIN_HEAD : ℕ := 64

/-- The backing array, an undefined slot being `none`, and the index of the oldest item. -/
structure HeadQueue (α : Type) where
  items : List (Option α)
  head : ℕ

/-- What can be asked of a queue. -/
inductive QueueOp (α : Type) where | push (item : α) | peek | shift | pop | clear

namespace HeadQueue

def create : HeadQueue α := ⟨[], 0⟩

def length (queue : HeadQueue α) : ℤ := queue.items.length - queue.head

def push (queue : HeadQueue α) (item : α) : HeadQueue α :=
  { queue with items := queue.items ++ [some item] }

/-- The oldest item without removing it; no slot is undefined. -/
def peek (queue : HeadQueue α) : Option α := queue.items[queue.head]?.join

/-- Removes and returns the oldest item. -/
def shift (queue : HeadQueue α) : Option α × HeadQueue α :=
  if queue.head = queue.items.length then (none, queue)
  else
    let item := queue.items[queue.head]?.join
    let items := queue.items.set queue.head none
    let head := queue.head + 1
    if head = items.length then (item, ⟨[], 0⟩)
    else if COMPACT_MIN_HEAD ≤ head ∧ items.length ≤ head * 2 then (item, ⟨items.drop head, 0⟩)
    else (item, ⟨items, head⟩)

/-- Removes and returns the newest item. -/
def pop (queue : HeadQueue α) : Option α × HeadQueue α :=
  if queue.head = queue.items.length then (none, queue)
  else
    let item := queue.items.getLast?.join
    let items := queue.items.dropLast
    if queue.head = items.length then (item, ⟨[], 0⟩) else (item, ⟨items, queue.head⟩)

def clear (_ : HeadQueue α) : HeadQueue α := ⟨[], 0⟩

def step (queue : HeadQueue α) : QueueOp α → Option α × HeadQueue α
  | .push item => (none, queue.push item)
  | .peek => (queue.peek, queue)
  | .shift => queue.shift
  | .pop => queue.pop
  | .clear => (none, queue.clear)

end HeadQueue

/-- A plain list under the same operations. -/
def listStep (list : List α) : QueueOp α → Option α × List α
  | .push item => (none, list ++ [item])
  | .peek => (list.head?, list)
  | .shift => (list.head?, list.tail)
  | .pop => (list.getLast?, list.dropLast)
  | .clear => (none, [])

namespace HeadQueue

/-- The cleared slots, then the waiting items. -/
def Represents (queue : HeadQueue α) (list : List α) : Prop :=
  queue.items = replicate queue.head none ++ list.map some

variable {queue : HeadQueue α} {list : List α}

theorem Represents.length_items (h : queue.Represents list) :
    queue.items.length = queue.head + list.length := by
  rw [h, length_append, length_replicate, length_map]

theorem Represents.getElem?_head (h : queue.Represents list) :
    queue.items[queue.head]?.join = list.head? := by
  rw [h, getElem?_append_right (by simp), length_replicate, Nat.sub_self, getElem?_map,
    ← head?_eq_getElem?]
  cases list <;> rfl

theorem Represents.shift (h : queue.Represents list) :
    queue.shift.1 = list.head? ∧ queue.shift.2.Represents list.tail := by
  unfold HeadQueue.shift
  cases list with
  | nil => simpa [h.length_items] using h
  | cons item rest =>
    have hset : queue.items.set queue.head none =
        replicate (queue.head + 1) none ++ rest.map some := by
      rw [h, set_append_right _ _ (by simp), replicate_succ']
      simp
    rw [if_neg (by simp [h.length_items]), h.getElem?_head, hset]
    dsimp only
    split_ifs with hdrained hcompact
    · have hrest : rest = [] := by simpa using hdrained
      exact ⟨rfl, by rw [hrest]; rfl⟩
    · exact ⟨rfl, drop_left' (by simp)⟩
    · exact ⟨rfl, rfl⟩

theorem Represents.pop (h : queue.Represents list) :
    queue.pop.1 = list.getLast? ∧ queue.pop.2.Represents list.dropLast := by
  unfold HeadQueue.pop
  rcases eq_nil_or_concat' list with rfl | ⟨front, item, rfl⟩
  · simpa [h.length_items] using h
  · have hitems : queue.items = (replicate queue.head none ++ front.map some) ++ [some item] := by
      rw [h, map_append, append_assoc]
      rfl
    rw [if_neg (by simp [h.length_items]), hitems, getLast?_concat, dropLast_concat,
      getLast?_concat, dropLast_concat]
    dsimp only
    split_ifs with hdrained
    · have hfront : front = [] := by simpa using hdrained
      exact ⟨rfl, by rw [hfront]; rfl⟩
    · exact ⟨rfl, rfl⟩

theorem refines_list : Refines step listStep (Represents (α := α)) := by
  intro queue list op h
  cases op with
  | push item =>
    refine ⟨rfl, ?_⟩
    change queue.items ++ [some item] = _
    rw [h, append_assoc, listStep, map_append]
    rfl
  | peek => exact ⟨h.getElem?_head, h⟩
  | shift => exact h.shift
  | pop => exact h.pop
  | clear => exact ⟨rfl, rfl⟩

/-- Under every sequence of operations the queue answers as a list does, its length is that of the
    list, and the array refers to the waiting items only. -/
theorem head_queue_refines (ops : List (QueueOp α)) :
    (perform step create ops).1 = (perform listStep [] ops).1 ∧
      (perform step create ops).2.length = (perform listStep [] ops).2.length ∧
      (perform step create ops).2.items.reduceOption = (perform listStep [] ops).2 := by
  have hstart : (create : HeadQueue α).Represents [] := rfl
  obtain ⟨hanswers, hfinal⟩ := refines_list.perform ops hstart
  refine ⟨hanswers, ?_, ?_⟩
  · rw [length, hfinal.length_items]
    omega
  · rw [hfinal, reduceOption_append]
    simp [reduceOption]

end HeadQueue

end Nodeakt.Net
