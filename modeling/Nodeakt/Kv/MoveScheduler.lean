import Nodeakt.Schemes.Run
import Nodeakt.Kv.Ports

/-! The priority queue over concurrent fragment moves (`kv/move.scheduler.ts`).

    `submit` and `#settle` call `#pump`, whose loop calls the bodies of moves, and a body may submit
    again before it returns: the calls in progress are a stack. Between two of its events the
    scheduler does nothing, so an event is one call, one return or one round of the loop, and other
    code runs exactly while no `#pump` is on top of the stack. -/

namespace Nodeakt.Kv
open Schemes List Option

/-- Move priorities, most urgent first. -/
inductive MovePriority where
  | restoreReplication
  | drain
  | rebalance
  deriving DecidableEq

/-- A lower number runs before a higher one. -/
def MovePriority.value : MovePriority → ℕ
  | .restoreReplication => 0
  | .drain => 1
  | .rebalance => 2

/-- A move and the promise its callbacks settle, numbered by submission. -/
structure MoveScheduler.QueuedMove where
  priority : MovePriority
  promise : ℕ
  deriving DecidableEq

open MoveScheduler (QueuedMove)

/-- How a promise settles. -/
inductive Outcome (ν : Type) where
  | resolved (value : ν)
  | rejected (reason : ν)
  deriving DecidableEq

/-- A call in progress: `#pump` at the test of its loop, or the body of a move. -/
inductive MoveFrame where
  | pump
  | body (move : QueuedMove)
  deriving DecidableEq

/-- The scheduler with the calls in progress, the moves whose promise is pending and, newest first,
    the promises started and settled. -/
structure MoveScheduler (ν : Type) where
  maxConcurrent : ℕ
  queue : List QueuedMove
  running : ℕ
  stack : List MoveFrame
  inFlight : List QueuedMove
  submitted : ℕ
  started : List ℕ
  settled : List (ℕ × Outcome ν)

/-- What happens: a submission, a round of a `#pump` loop, the return of a body with its promise,
    or the callback of that promise. -/
inductive MoveEvent (ν : Type) where
  | submit (priority : MovePriority)
  | pump
  | yield
  | settle (move : QueuedMove) (outcome : Outcome ν)

namespace MoveScheduler

variable {ν : Type} {s s' : MoveScheduler ν} {event : MoveEvent ν} {queue : List QueuedMove}

/-- Priority of the move at `index`. -/
def priorityAt (queue : List QueuedMove) (index : ℕ) : ℕ :=
  (queue[index]?).elim 0 (fun move => move.priority.value)

/-- Index of the most urgent move after the first `rounds` rounds of the scan. -/
def scan (queue : List QueuedMove) : ℕ → ℕ
  | 0 => 0
  | rounds + 1 =>
    let best := scan queue rounds
    if priorityAt queue (rounds + 1) < priorityAt queue best then rounds + 1 else best

/-- The highest-priority queued move, ties broken by arrival, and the others. -/
def dequeue (queue : List QueuedMove) : Option (QueuedMove × List QueuedMove) :=
  let best := scan queue (queue.length - 1)
  (queue[best]?).map (fun move => (move, queue.eraseIdx best))

/-- A scheduler for `maxConcurrent` moves at once. -/
def new (maxConcurrent : ℕ) : Except KvError (MoveScheduler ν) :=
  if 0 < maxConcurrent then .ok ⟨maxConcurrent, [], 0, [], [], 0, [], []⟩
  else .error (.rangeError "max concurrent moves must be a positive integer")

/-- Queues a move and calls `#pump`. -/
def submit (s : MoveScheduler ν) (priority : MovePriority) : MoveScheduler ν := { s with
    queue := s.queue ++ [⟨priority, s.submitted⟩], submitted := s.submitted + 1,
    stack := .pump :: s.stack }

/-- Takes a slot for `move` and calls its body. -/
def start (s : MoveScheduler ν) (move : QueuedMove) (rest : List QueuedMove) : MoveScheduler ν :=
  { s with
    queue := rest, running := s.running + 1, started := move.promise :: s.started,
    stack := .body move :: s.stack }

/-- Frees the slot of `move`, delivers its outcome and calls `#pump`. -/
def settle (s : MoveScheduler ν) (move : QueuedMove) (outcome : Outcome ν) : MoveScheduler ν :=
  { s with
    running := s.running - 1, inFlight := s.inFlight.erase move,
    settled := (move.promise, outcome) :: s.settled, stack := [.pump] }

/-- One event. A callback runs once no other call is in progress. -/
def step (s : MoveScheduler ν) : MoveEvent ν → Option (MoveScheduler ν)
  | .submit priority => if s.stack.head? = some .pump then none else some (s.submit priority)
  | .pump =>
    match s.stack with
    | .pump :: callers =>
      match if s.running < s.maxConcurrent then dequeue s.queue else none with
      | some (move, rest) => some (s.start move rest)
      | none => some { s with stack := callers }
    | _ => none
  | .yield =>
    match s.stack with
    | .body move :: callers => some { s with inFlight := move :: s.inFlight, stack := callers }
    | _ => none
  | .settle move outcome =>
    if s.stack = [] ∧ move ∈ s.inFlight then some (s.settle move outcome) else none

/-! ### The most urgent move -/

theorem scan_le (queue : List QueuedMove) (rounds : ℕ) : scan queue rounds ≤ rounds := by
  induction rounds with
  | zero => exact le_rfl
  | succ rounds ih => rw [scan]; split_ifs <;> omega

/-- Nothing scanned is more urgent than the result, and nothing before it is as urgent. -/
theorem scan_best (queue : List QueuedMove) (rounds : ℕ) : ∀ index ≤ rounds,
    priorityAt queue (scan queue rounds) < priorityAt queue index ∨
      priorityAt queue (scan queue rounds) = priorityAt queue index ∧
        scan queue rounds ≤ index := by
  induction rounds with
  | zero => intro index hindex; right; simp [scan, Nat.le_zero.mp hindex]
  | succ rounds ih =>
    intro index hindex
    rw [scan]
    have hbest := ih (scan queue rounds) (scan_le queue rounds)
    have hle := scan_le queue rounds
    rcases Nat.lt_or_eq_of_le hindex with hold | rfl
    · have := ih index (by omega)
      split_ifs <;> omega
    · split_ifs <;> omega

/-- A move is dequeued whenever one waits, and it is the earliest of the most urgent ones. -/
theorem dequeue_spec (hqueue : queue ≠ [])
    (hordered : queue.Pairwise (fun a b => a.promise < b.promise)) :
    ∃ move rest, dequeue queue = some (move, rest) ∧ queue.Perm (move :: rest) ∧
      rest.Sublist queue ∧ ∀ other ∈ queue, other = move ∨
        move.priority.value < other.priority.value ∨
          move.priority = other.priority ∧ move.promise < other.promise := by
  have hlength : 0 < queue.length := length_pos_iff.mpr hqueue
  have hbest : scan queue (queue.length - 1) < queue.length := by
    have := scan_le queue (queue.length - 1)
    omega
  refine ⟨queue[scan queue (queue.length - 1)], queue.eraseIdx (scan queue (queue.length - 1)), ?_,
    (getElem_cons_eraseIdx_perm hbest).symm, eraseIdx_sublist .., ?_⟩
  · rw [dequeue, getElem?_eq_getElem hbest]
    rfl
  · intro other hother
    obtain ⟨index, hindex, rfl⟩ := getElem_of_mem hother
    have hprior := scan_best queue (queue.length - 1) index (by omega)
    simp only [priorityAt, getElem?_eq_getElem hbest, getElem?_eq_getElem hindex,
      elim_some] at hprior
    rcases hprior with hprior | ⟨hsame, hle⟩
    · exact .inr (.inl hprior)
    · rcases hle.eq_or_lt with heq | hlt
      · simp [heq]
      · refine .inr (.inr ⟨?_, pairwise_iff_getElem.mp hordered _ _ hbest hindex hlt⟩)
        revert hsame
        cases queue[scan queue (queue.length - 1)].priority <;> cases queue[index].priority <;> decide

/-! ### What an event does -/

theorem step_cases (h : step s event = some s') :
    (∃ priority, event = .submit priority ∧ s.stack.head? ≠ some .pump ∧ s' = s.submit priority) ∨
    (∃ callers move rest, event = .pump ∧ s.stack = .pump :: callers ∧
      s.running < s.maxConcurrent ∧ dequeue s.queue = some (move, rest) ∧ s' = s.start move rest) ∨
    (∃ callers, event = .pump ∧ s.stack = .pump :: callers ∧
      (s.running < s.maxConcurrent → dequeue s.queue = none) ∧ s' = { s with stack := callers }) ∨
    (∃ move callers, event = .yield ∧ s.stack = .body move :: callers ∧
      s' = { s with inFlight := move :: s.inFlight, stack := callers }) ∨
    (∃ move outcome, event = .settle move outcome ∧ s.stack = [] ∧ move ∈ s.inFlight ∧
      s' = s.settle move outcome) := by
  cases event with
  | submit priority =>
    obtain ⟨htop, rfl⟩ := of_barred h
    exact .inl ⟨priority, rfl, htop, rfl⟩
  | pump =>
    simp only [step] at h
    split at h
    · rename_i callers hstack
      split at h
      · rename_i move rest hmove
        obtain ⟨hslot, hmove⟩ := ite_none_right_eq_some.mp hmove
        exact .inr (.inl ⟨callers, move, rest, rfl, hstack, hslot, hmove, (some.inj h).symm⟩)
      · rename_i hnone
        exact .inr (.inr (.inl ⟨callers, rfl, hstack, fun hslot => by simpa [hslot] using hnone,
          (some.inj h).symm⟩))
    · cases h
  | yield =>
    simp only [step] at h
    split at h
    · rename_i move callers hstack
      exact .inr (.inr (.inr (.inl ⟨move, callers, rfl, hstack, (some.inj h).symm⟩)))
    · cases h
  | settle move outcome =>
    obtain ⟨⟨hstack, hmove⟩, rfl⟩ := of_guarded h
    exact .inr (.inr (.inr (.inr ⟨move, outcome, rfl, hstack, hmove, rfl⟩)))

/-! ### The invariant -/

/-- The moves whose bodies are being called. -/
def bodies : List MoveFrame → List QueuedMove
  | [] => []
  | .pump :: frames => bodies frames
  | .body move :: frames => move :: bodies frames

/-- Moves wait only for a slot; inside `#pump` one slot or one move is not dealt with yet. -/
def Busy (s : MoveScheduler ν) : Prop :=
  if s.stack.head? = some .pump then s.queue.length ≤ 1 ∨ s.maxConcurrent ≤ s.running + 1
  else s.queue = [] ∨ s.running = s.maxConcurrent

/-- Slots are held by the bodies called and the promises awaited, and every promise submitted is
    queued or started, and if started then called, awaited or settled. -/
structure Sound (limit : ℕ) (s : MoveScheduler ν) : Prop where
  cap : s.maxConcurrent = limit
  positive : 0 < limit
  limited : s.running ≤ s.maxConcurrent
  slots : s.running = (bodies s.stack).length + s.inFlight.length
  busy : s.Busy
  ordered : s.queue.Pairwise (fun a b => a.promise < b.promise)
  submitted : (s.queue.map QueuedMove.promise ++ s.started).Perm (List.range s.submitted)
  started : s.started.Perm
    ((bodies s.stack ++ s.inFlight).map QueuedMove.promise ++ s.settled.map Prod.fst)

/-- Whatever is called, it suffices that moves wait for a slot. -/
theorem busy_of_full (h : s.queue = [] ∨ s.running = s.maxConcurrent) : s.Busy := by
  unfold Busy
  split_ifs
  · rcases h with hnone | hfull
    · simp [hnone]
    · right; omega
  · exact h

/-- A move is dequeued whenever one waits. -/
theorem dequeue_eq_none (h : dequeue queue = none) : queue = [] := by
  by_contra hqueue
  have hlength : 0 < queue.length := length_pos_iff.mpr hqueue
  have hbest := scan_le queue (queue.length - 1)
  rw [dequeue, map_eq_none_iff, getElem?_eq_none_iff] at h
  omega

theorem sound_new {limit : ℕ} (h : new limit = .ok s) : s.Sound limit := by
  unfold new at h
  split_ifs at h with hpositive
  obtain rfl := Except.ok.inj h
  exact ⟨rfl, hpositive, Nat.zero_le _, rfl, by simp [Busy], List.Pairwise.nil, .refl _, .refl _⟩

variable {limit : ℕ}

section

variable (hs : s.Sound limit)
include hs

theorem Sound.submit (htop : s.stack.head? ≠ some .pump)
    (priority : MovePriority) : (s.submit priority).Sound limit := by
  refine ⟨hs.cap, hs.positive, hs.limited, hs.slots, ?_, ?_, ?_, hs.started⟩
  · have hbusy := hs.busy
    rw [Busy, if_neg htop] at hbusy
    simp only [Busy, MoveScheduler.submit, head?_cons, ↓reduceIte, length_append, length_singleton]
    rcases hbusy with hnone | hfull
    · simp [hnone]
    · right; omega
  · refine pairwise_append.mpr ⟨hs.ordered, pairwise_singleton .., ?_⟩
    intro move hmove other hother
    rw [mem_singleton.mp hother]
    have hmem := hs.submitted.subset (mem_append_left _ (mem_map_of_mem hmove))
    exact mem_range.mp hmem
  · simp only [MoveScheduler.submit, map_append, map_cons, map_nil, range_succ,
      append_assoc, singleton_append]
    exact (perm_middle.trans (hs.submitted.cons _)).trans (perm_append_singleton ..).symm

theorem Sound.start {callers : List MoveFrame} {move : QueuedMove}
    {rest : List QueuedMove} (hstack : s.stack = .pump :: callers)
    (hslot : s.running < s.maxConcurrent) (hperm : s.queue.Perm (move :: rest))
    (hrest : rest.Sublist s.queue) : (s.start move rest).Sound limit := by
  have hlength := hperm.length_eq
  rw [length_cons] at hlength
  refine ⟨hs.cap, hs.positive, hslot, ?_, ?_, hs.ordered.sublist hrest, ?_, ?_⟩
  · simp [MoveScheduler.start, bodies, hs.slots]
    omega
  · have hbusy := hs.busy
    simp only [Busy, hstack, head?_cons, ↓reduceIte] at hbusy
    simp only [Busy, MoveScheduler.start, head?_cons, some.injEq, reduceCtorEq, ↓reduceIte,
      ← length_eq_zero_iff]
    omega
  · refine perm_middle.trans (List.Perm.trans ?_ hs.submitted)
    exact (List.Perm.append_right s.started (hperm.map QueuedMove.promise)).symm
  · simpa [MoveScheduler.start, bodies] using hs.started

theorem Sound.settle {move : QueuedMove} (hstack : s.stack = [])
    (hmove : move ∈ s.inFlight) (outcome : Outcome ν) : (s.settle move outcome).Sound limit := by
  have hlength := length_erase_of_mem hmove
  have hpositive := length_pos_of_mem hmove
  have hslots := hs.slots
  have hlimited := hs.limited
  have hbusy := hs.busy
  rw [hstack] at hslots
  simp only [Busy, hstack, head?_nil, reduceCtorEq, ↓reduceIte] at hbusy
  refine ⟨hs.cap, hs.positive, ?_, ?_, ?_, hs.ordered, hs.submitted, ?_⟩
  · simp only [MoveScheduler.settle]
    omega
  · simp only [MoveScheduler.settle, bodies, length_nil] at hslots ⊢
    omega
  · simp only [Busy, MoveScheduler.settle, head?_cons, ↓reduceIte]
    rcases hbusy with hnone | hfull
    · simp [hnone]
    · right; omega
  · have hstarted := hs.started
    rw [hstack] at hstarted
    simp only [MoveScheduler.settle, bodies, nil_append, map_cons] at hstarted ⊢
    refine (hstarted.trans ?_).trans perm_middle.symm
    exact ((perm_cons_erase hmove).map QueuedMove.promise).append_right _

theorem Sound.step (h : step s event = some s') : s'.Sound limit := by
  rcases step_cases h with ⟨priority, -, htop, rfl⟩ |
    ⟨callers, move, rest, -, hstack, hslot, hmove, rfl⟩ | ⟨callers, -, hstack, hstop, rfl⟩ | ⟨move, callers, -, hstack, rfl⟩ |
    ⟨move, outcome, -, hstack, hmove, rfl⟩
  · exact hs.submit htop priority
  · have hqueue : s.queue ≠ [] := fun hnil => by simp [hnil, dequeue] at hmove
    obtain ⟨move', rest', hmove', hperm, hrest, -⟩ := dequeue_spec hqueue hs.ordered
    obtain ⟨rfl, rfl⟩ := Prod.mk.inj (some.inj (hmove'.symm.trans hmove))
    exact hs.start hstack hslot hperm hrest
  · have hfull : s.queue = [] ∨ s.running = s.maxConcurrent := by
      rcases hs.limited.lt_or_eq with hslot | hfull
      · exact .inl (dequeue_eq_none (hstop hslot))
      · exact .inr hfull
    have hslots := hs.slots
    have hstarted := hs.started
    rw [hstack] at hslots hstarted
    exact { hs with slots := hslots, busy := busy_of_full hfull, started := hstarted }
  · have hbusy := hs.busy
    have hslots := hs.slots
    have hstarted := hs.started
    simp only [Busy, hstack, head?_cons, some.injEq, reduceCtorEq, ↓reduceIte] at hbusy
    rw [hstack] at hslots hstarted
    simp only [bodies, length_cons] at hslots hstarted
    refine { hs with slots := ?_, busy := busy_of_full hbusy, started := hstarted.trans ?_ }
    · dsimp only
      rw [hslots, length_cons]; omega
    · exact (perm_middle.symm.map QueuedMove.promise).append_right _
  · exact hs.settle hstack hmove outcome

/-! ### Ends of runs -/

/-- A round starts the earliest of the most urgent moves, and nothing else starts one. -/
theorem Sound.starts (h : MoveScheduler.step s event = some s') :
    s'.started = s.started ∨ ∃ move ∈ s.queue, s'.started = move.promise :: s.started ∧
      ∀ other ∈ s.queue, other = move ∨ move.priority.value < other.priority.value ∨
        move.priority = other.priority ∧ move.promise < other.promise := by
  rcases step_cases h with ⟨priority, -, -, rfl⟩ | ⟨callers, move, rest, -, -, -, hmove, rfl⟩ |
    ⟨callers, -, -, -, rfl⟩ | ⟨move, callers, -, -, rfl⟩ | ⟨move, outcome, -, -, -, rfl⟩
  · exact .inl rfl
  · right
    have hqueue : s.queue ≠ [] := fun hnil => by simp [hnil, dequeue] at hmove
    obtain ⟨move', rest', hmove', hperm, -, hfirst⟩ := dequeue_spec hqueue hs.ordered
    obtain ⟨rfl, rfl⟩ := Prod.mk.inj (some.inj (hmove'.symm.trans hmove))
    exact ⟨_, hperm.symm.subset (mem_cons_self ..), rfl, hfirst⟩
  · exact .inl rfl
  · exact .inl rfl
  · exact .inl rfl

end

/-- The outcome an event delivers. -/
def delivery : MoveEvent ν → Option (ℕ × Outcome ν)
  | .settle move outcome => some (move.promise, outcome)
  | _ => none

/-- Promises settle with the outcomes of their moves, and with nothing else. -/
theorem settled_run : ∀ {events : List (MoveEvent ν)} {s final : MoveScheduler ν},
    run step s events = some final → final.settled = (events.filterMap delivery).reverse ++ s.settled
  | [], s, final, hrun => by simp [← some.inj hrun]
  | event :: events, s, final, hrun => by
      obtain ⟨s', hstep, hrest⟩ := (run_cons_eq_some step).mp hrun
      rw [settled_run hrest]
      rcases step_cases hstep with ⟨_, rfl, -, rfl⟩ | ⟨_, _, _, rfl, -, -, -, rfl⟩ |
        ⟨_, rfl, -, -, rfl⟩ | ⟨_, _, rfl, -, rfl⟩ | ⟨_, _, rfl, -, -, rfl⟩
      all_goals simp [filterMap_cons, delivery, submit, start, settle]

/-- Events left until nothing runs, if nothing more is submitted. -/
def work (s : MoveScheduler ν) : ℕ :=
  4 * s.queue.length + 2 * (bodies s.stack).length + s.stack.length + 2 * s.inFlight.length

/-- Whether the event submits a move. -/
def submits : MoveEvent ν → Bool
  | .submit _ => true
  | _ => false

theorem work_step (h : step s event = some s') (hsubmits : submits event = false) :
    s'.work < s.work := by
  rcases step_cases h with ⟨_, rfl, -, rfl⟩ | ⟨_, move, rest, rfl, -, -, hmove, rfl⟩ |
    ⟨_, rfl, hstack, -, rfl⟩ | ⟨_, _, rfl, hstack, rfl⟩ | ⟨move, _, rfl, hstack, hmove, rfl⟩
  · cases hsubmits
  · obtain ⟨_, hbest, hpair⟩ := map_eq_some_iff.mp hmove
    obtain ⟨rfl, rfl⟩ := Prod.mk.inj hpair
    have hlength := List.length_eraseIdx_add_one (List.getElem?_eq_some_iff.mp hbest).1
    simp only [work, start, bodies, List.length_cons]
    omega
  · simp only [work, hstack, bodies, List.length_cons]
    omega
  · simp only [work, hstack, bodies, List.length_cons]
    omega
  · have hlength := List.length_erase_of_mem hmove
    have hpositive := List.length_pos_of_mem hmove
    simp only [work, settle, hstack, bodies, List.length_cons, List.length_nil]
    omega

theorem work_run : ∀ {events : List (MoveEvent ν)} {s final : MoveScheduler ν},
    (∀ event ∈ events, submits event = false) → run step s events = some final →
      events.length + final.work ≤ s.work
  | [], s, final, _, hrun => by simp [← some.inj hrun]
  | event :: events, s, final, hevents, hrun => by
      obtain ⟨s', hstep, hrest⟩ := (run_cons_eq_some step).mp hrun
      obtain ⟨hfirst, hothers⟩ := forall_mem_cons.mp hevents
      have hless := work_step hstep hfirst
      have hleft := work_run hothers hrest
      rw [length_cons]
      omega

/-- Unless nothing runs, the scheduler, a body or a pending promise can go on. -/
theorem Sound.idle [Inhabited ν] (hs : s.Sound limit)
    (hstuck : ∀ event, submits event = false → MoveScheduler.step s event = none) :
    s.queue = [] ∧ s.settled.length = s.submitted := by
  have hstack : s.stack = [] := by
    rcases hframes : s.stack with - | ⟨- | move, callers⟩
    · rfl
    · have := hstuck .pump rfl
      simp only [MoveScheduler.step, hframes] at this
      split at this <;> cases this
    · have := hstuck .yield rfl
      simp [MoveScheduler.step, hframes] at this
  have hflight : s.inFlight = [] := by
    refine eq_nil_iff_forall_not_mem.mpr fun move hmove => ?_
    have := hstuck (.settle move (.resolved default)) rfl
    simp [MoveScheduler.step, hstack, hmove] at this
  have hslots := hs.slots
  have hbusy := hs.busy
  have hpositive := hs.positive
  have hcap := hs.cap
  have hsubmitted := hs.submitted.length_eq
  have hstarted := hs.started.length_eq
  simp only [Busy, hstack, hflight, bodies, head?_nil, reduceCtorEq, ↓reduceIte, append_nil,
    map_nil, nil_append, length_nil, length_map, length_append,
    length_range, ← length_eq_zero_iff] at hslots hbusy hsubmitted hstarted ⊢
  omega

/-- In every interleaving at most `limit` moves run at once, and while other code runs a move waits
    only if `limit` of them do. Every submitted move waits or has started, once, the earliest of the
    most urgent ones first, and its promise settles once, with its own outcome. Once submissions
    stop, the events left are bounded and end with every promise settled. -/
theorem moves_scheduled [Inhabited ν] {start s : MoveScheduler ν} {events : List (MoveEvent ν)}
    (hnew : new limit = .ok start) (hrun : run step start events = some s) :
    s.started.length ≤ s.settled.length + limit ∧
    (s.stack.head? ≠ some .pump → s.queue = [] ∨ s.started.length = s.settled.length + limit) ∧
    (s.queue.map QueuedMove.promise ++ s.started).Perm (List.range s.submitted) ∧
    (∀ event s', step s event = some s' → s'.started = s.started ∨
      ∃ move ∈ s.queue, s'.started = move.promise :: s.started ∧
        ∀ other ∈ s.queue, other = move ∨ move.priority.value < other.priority.value ∨
          move.priority = other.priority ∧ move.promise < other.promise) ∧
    s.settled = (events.filterMap delivery).reverse ∧ (s.settled.map Prod.fst).Nodup ∧
    ∀ rest final, (∀ event ∈ rest, submits event = false) → run step s rest = some final →
      rest.length ≤ s.work ∧ ((∀ event, submits event = false → step final event = none) →
        final.queue = [] ∧ final.settled.length = final.submitted) := by
  have hs : s.Sound limit := run_invariant (fun _ _ _ hs h => hs.step h) (sound_new hnew) hrun
  have hlimited := hs.cap ▸ hs.limited
  have hslots := hs.slots
  have hstarted : s.started.length = s.running + s.settled.length := by
    have hlength := hs.started.length_eq
    simp only [length_append, length_map] at hlength
    omega
  have hfresh : start.settled = [] := by
    unfold new at hnew
    split_ifs at hnew
    rw [← Except.ok.inj hnew]
  refine ⟨by omega, fun htop => ?_, hs.submitted, fun event s' h => hs.starts h, ?_, ?_,
    fun rest final hrest hfinal => ⟨?_, fun hstuck => ?_⟩⟩
  · have hbusy := hs.busy
    have hcap := hs.cap
    rw [Busy, if_neg htop] at hbusy
    exact hbusy.imp_right fun _ => by omega
  · rw [settled_run hrun, hfresh, append_nil]
  · have hnodup := (nodup_append.mp (hs.submitted.nodup_iff.mpr nodup_range)).2.1
    exact (nodup_append.mp (hs.started.nodup_iff.mp hnodup)).2.1
  · have := work_run hrest hfinal
    omega
  · exact (run_invariant (fun _ _ _ hs h => hs.step h) hs hfinal).idle hstuck

/-- One slot, a rebalance and a move its body submits: the second starts once the first settles. -/
theorem nested_submission : ∃ start s : MoveScheduler ℕ, new 1 = .ok start ∧
    run step start [.submit .rebalance, .pump, .submit .drain, .pump, .yield, .pump,
      .settle ⟨.rebalance, 0⟩ (.rejected 7), .pump] = some s ∧
    s.settled = [(0, .rejected 7)] ∧ s.started = [1, 0] ∧
      s.started.length ≤ s.settled.length + 1 := by
  refine ⟨_, _, rfl, rfl, rfl, rfl, ?_⟩
  exact (moves_scheduled (rfl : new 1 = .ok _) (rfl : run step _ [.submit .rebalance, .pump,
    .submit .drain, .pump, .yield, .pump, .settle ⟨.rebalance, 0⟩ (.rejected 7), .pump] = _)).1

end MoveScheduler

end Nodeakt.Kv
