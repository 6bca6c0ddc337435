import Nodeakt.Actor.Loops

/-! The scheduler that all actors share (`ready`, `arm` and `pump` of `pid.ts`).

    One thread runs everything: at any moment at most one receive loop is on the stack, put there by
    the pump or by the settlement of a behavior's promise. An actor's event may come at any other
    moment, from the behavior that is running or from a callback of its own. The queue keeps the
    entries that a running pump has dispatched until the pump ends; `due` are the others.

    `serial_without_lost_wakeups`: one behavior call per actor at a time, a running actor with mail
    is due once, on the stack or parked, and a queue that no pump works on has one pump scheduled. -/

namespace Nodeakt.Actor
open Schemes List Option

variable {μ ρ ι : Type}

/-! ### What an event does to the loops of its actor -/

/-- The loop is in the ready queue. -/
def Loop.isReady : Loop μ → Bool
  | .ready => true
  | .turn _ | .behavior .. | .parked .. => false

/-- The loop is on the stack. -/
def Loop.onStack : Loop μ → Bool
  | .turn _ | .behavior .. => true
  | .ready | .parked .. => false

/-- The loop is in a behavior call, running or pending. -/
def Loop.inBehavior : Loop μ → Bool
  | .behavior .. | .parked .. => true
  | .ready | .turn _ => false

/-- The events a loop takes on the stack or in the settlement of a promise. -/
def PidEvent.turns : PidEvent μ ρ → Bool
  | .take .. | .returned _ | .threw .. | .park _ | .fulfilled _ | .rejected .. => true
  | _ => false

namespace PidState

variable {s next : PidState μ ρ} {loop processed : ℕ}

/-- No loop moves; a new one may be woken. -/
inductive Stirs (s next : PidState μ ρ) : Prop
  | still (hloops : next.loops = s.loops) (hwakes : next.wakes = s.wakes)
  | woken (hloops : next.loops = s.loops ++ [.ready]) (hwakes : next.wakes = s.wakes ++ [false])

/-- At most one loop moves on, yields or ends, and it was not in the ready queue. -/
inductive Moves (s next : PidState μ ρ) : Prop
  | stirs (h : Stirs s next)
  | moved {loop : ℕ} {old new : Loop μ} (hold : s.loops[loop]? = some old)
    (hbusy : old.isReady = false) (hnew : new.isReady = false)
    (hloops : next.loops = s.loops.set loop new) (hwakes : next.wakes = s.wakes)
  | yielded {loop : ℕ} {old : Loop μ} (hold : s.loops[loop]? = some old)
    (hbusy : old.isReady = false) (hloops : next.loops = s.loops.set loop .ready)
    (hwakes : next.wakes = s.wakes ++ [true])
  | left {loop : ℕ} {old : Loop μ} (hold : s.loops[loop]? = some old)
    (hbusy : old.isReady = false) (hloops : next.loops = s.loops.eraseIdx loop)
    (hwakes : next.wakes = s.wakes)

/-- Only the loops and the pushes matter. -/
theorem Stirs.of_eq {other : PidState μ ρ} (h : Stirs other next) (hloops : other.loops = s.loops)
    (hwakes : other.wakes = s.wakes) : Stirs s next := by
  cases h with
  | still hloops' hwakes' => exact .still (hloops'.trans hloops) (hwakes'.trans hwakes)
  | woken hloops' hwakes' => exact .woken (hloops ▸ hloops') (hwakes ▸ hwakes')

theorem Moves.of_eq {other : PidState μ ρ} (h : Moves other next) (hloops : other.loops = s.loops)
    (hwakes : other.wakes = s.wakes) : Moves s next := by
  cases h with
  | stirs h => exact .stirs (h.of_eq hloops hwakes)
  | moved hold hbusy hnew hloops' hwakes' =>
    exact .moved (hloops ▸ hold) hbusy hnew (hloops ▸ hloops') (hwakes ▸ hwakes')
  | yielded hold hbusy hloops' hwakes' =>
    exact .yielded (hloops ▸ hold) hbusy (hloops ▸ hloops') (hwakes ▸ hwakes')
  | left hold hbusy hloops' hwakes' =>
    exact .left (hloops ▸ hold) hbusy (hloops ▸ hloops') (hwakes ▸ hwakes')

theorem stirs_schedule (s : PidState μ ρ) : Stirs s s.schedule := by
  cases hp : s.processing with
  | true => exact .still (by simp [schedule, hp]) (by simp [schedule, hp])
  | false => exact .woken (by simp [schedule, hp]) (by simp [schedule, hp])

theorem Fed.stirs (h : Fed s next) : Stirs s next := by
  rcases h.armed with ⟨-, hloops, hwakes, -⟩ | ⟨-, -, hloops, hwakes⟩
  · exact .still hloops hwakes
  · cases stirs_schedule s with
    | still hloops' hwakes' => exact .still (hloops.trans hloops') (hwakes.trans hwakes')
    | woken hloops' hwakes' => exact .woken (hloops.trans hloops') (hwakes.trans hwakes')

theorem moves_continueLoop {old : Loop μ} (hold : s.loops[loop]? = some old)
    (hbusy : old.isReady = false) : Moves s (s.continueLoop loop processed) := by
  unfold continueLoop
  split
  · exact .moved hold hbusy rfl rfl rfl
  · exact .yielded hold hbusy rfl rfl

theorem moves_postReceive {old : Loop μ} (hold : s.loops[loop]? = some old)
    (hbusy : old.isReady = false) : Moves s (s.postReceive loop processed) := by
  unfold postReceive
  split
  · exact .left hold hbusy rfl rfl
  · exact moves_continueLoop hold hbusy

theorem Steers.stirs (h : Steers s next) : Stirs s next := by
  rw [h.same]
  exact .still rfl rfl

theorem stirs_completeRestart (s : PidState μ ρ) : Stirs s s.completeRestart := by
  unfold completeRestart resume
  split
  · exact .still rfl rfl
  · cases stirs_schedule s with
    | still hloops hwakes => exact .still hloops hwakes
    | woken hloops hwakes => exact .woken hloops hwakes

theorem stirs_doReinstate (s : PidState μ ρ) : Stirs s s.doReinstate := by
  unfold doReinstate resume
  split
  · dsimp only
    split
    · exact .still rfl rfl
    · exact (stirs_schedule { s with suspended := false }).of_eq rfl rfl
  · exact .still rfl rfl

/-- An event that no loop takes moves no loop. -/
theorem stirs_of_step {event : PidEvent μ ρ} (hstep : s.step event = some next)
    (hturns : event.turns = false) (hdispatch : ∀ loop, event ≠ .dispatch loop) : Stirs s next := by
  cases does_of_step hstep with
  | started | suspend | restartPostStopEnded | restartFailed | shutdownPostStopEnded =>
    exact .still rfl rfl
  | tell | poisonPill | panicking | stash | unstash | unstashAll | request | outcome | cancel
  | onReply => exact (fed_of_step rfl hstep).stirs
  | dispatch => exact absurd rfl (hdispatch _)
  | take | drained | returned | threw | park | fulfilled | rejected => cases hturns
  | reinstate => exact stirs_doReinstate s
  | restart children =>
    rcases steers_restart s children with h | ⟨-, h⟩
    · exact h.stirs
    · exact h.stirs.of_eq rfl rfl
  | restartResumed => exact (steers_resumeRestart s _ _).stirs
  | restartChildrenStopped => exact (steers_restartPostStop s _).stirs
  | restartCompleted => exact stirs_completeRestart s
  | shutdown children => exact (steers_shutdown s children).stirs
  | shutdownResumed => exact (steers_stopChildren s _).stirs
  | shutdownChildrenStopped => exact (steers_stopChildren s false).stirs

theorem moves_process {index : ℕ} (hold : s.loops[loop]? = some (.turn processed))
    (mail : Message μ ρ) :
    Moves s ({ s with mailbox := s.mailbox.eraseIdx index }.process loop processed mail) := by
  have herased : Fed s { s with mailbox := s.mailbox.eraseIdx index } := fed_eraseIdx s index
  cases mail with
  | requestReply handle outcome =>
    exact .stirs (herased.trans (fed_completeRequest _ handle outcome)).stirs
  | poisonPill => exact .stirs ((steers_shutdown _ false).stirs.of_eq rfl rfl)
  | panicking => exact .stirs herased.stirs
  | user message =>
    dsimp only [process]
    split
    · exact (moves_continueLoop (s := { s with
        mailbox := s.mailbox.eraseIdx index, stash := s.stash ++ [message] }) hold rfl).of_eq rfl rfl
    · exact .moved hold rfl rfl rfl rfl

/-- Every event but a dispatch moves at most one loop. -/
theorem moves_of_step {event : PidEvent μ ρ} (hstep : s.step event = some next)
    (hdispatch : ∀ loop, event ≠ .dispatch loop) : Moves s next := by
  cases hturns : event.turns with
  | false => exact .stirs (stirs_of_step hstep hturns hdispatch)
  | true =>
    cases does_of_step hstep with
    | take hloop => exact moves_process hloop _
    | drained hloop => exact .left hloop rfl rfl rfl
    | returned hloop | fulfilled hloop => exact moves_postReceive hloop rfl
    | @threw _ _ _ resume hloop | @rejected _ _ _ resume hloop =>
      exact (moves_postReceive (s := s.handleFault resume) hloop rfl).of_eq rfl rfl
    | park hloop => exact .moved hloop rfl rfl rfl rfl
    | _ => cases hturns

/-- A loop becomes ready exactly when its actor is pushed into the queue. -/
theorem Moves.countP_isReady (h : Moves s next) : next.loops.countP Loop.isReady + s.wakes.length =
      s.loops.countP Loop.isReady + next.wakes.length := by
  -- a loop that was busy counted for nothing
  have hset : ∀ {loop : ℕ} {old : Loop μ} (new : Loop μ), s.loops[loop]? = some old →
      old.isReady = false → (s.loops.set loop new).countP Loop.isReady =
        s.loops.countP Loop.isReady + if new.isReady then 1 else 0 := by
    intro loop old new hold hbusy
    obtain ⟨hlt, rfl⟩ := List.getElem?_eq_some_iff.mp hold
    rw [countP_set hlt, hbusy]
    simp
  cases h with
  | stirs h =>
    cases h with
    | still hloops hwakes => rw [hloops, hwakes]
    | woken hloops hwakes =>
      rw [hloops, hwakes, countP_append, length_append]
      simp [Loop.isReady]
      omega
  | moved hold hbusy hnew hloops hwakes =>
    rw [hloops, hwakes, hset _ hold hbusy, hnew]
    simp
  | yielded hold hbusy hloops hwakes =>
    rw [hloops, hwakes, hset _ hold hbusy, length_append]
    simp [Loop.isReady]
    omega
  | left hold hbusy hloops hwakes =>
    rw [hloops, hwakes]
    obtain ⟨hlt, rfl⟩ := List.getElem?_eq_some_iff.mp hold
    have hperm := (getElem_cons_eraseIdx_perm hlt).countP_eq Loop.isReady
    rw [countP_cons, hbusy] at hperm
    simp only [Bool.false_eq_true, if_false, add_zero] at hperm
    rw [hperm]

theorem Stirs.any_onStack (h : Stirs s next) :
    next.loops.any Loop.onStack = s.loops.any Loop.onStack := by
  cases h with
  | still hloops hwakes => rw [hloops]
  | woken hloops hwakes => simp [hloops, Loop.onStack]

theorem Regular.with_wakes (h : s.Regular) (wakes : List Bool) : { s with wakes }.Regular :=
  { h with }

end PidState

/-! ### The runtime -/

/-- A pump on the stack: the next entry, the length of the queue when it started, and whether a
    loop had yielded by then. -/
structure Pump where
  index : ℕ
  total : ℕ
  later : Bool

/-- All actors and the scheduler; `scheduled` counts the pumps that are queued as microtasks or
    immediates. -/
structure Runtime (μ ρ ι : Type) where
  actors : ι → PidState μ ρ
  ready : List ι
  armed : Bool
  yieldTurn : Bool
  scheduled : ℕ
  pump : Option Pump
  stack : Option ι

inductive RuntimeEvent (μ ρ ι : Type) where
  | act (actor : ι) (event : PidEvent μ ρ)
  | pumpStarted
  | pumpNext (loop : ℕ)
  | pumpEnded

namespace Runtime

variable [DecidableEq ι]

/-- Actors that are about to start, each with its mailbox and its reentrancy. -/
def create (admits : ι → List (Message μ ρ) → Message μ ρ → Bool)
    (config : ι → Option (ReentrancyMode × ℚ)) : Runtime μ ρ ι where
  actors actor := PidState.spawned (admits actor) (config actor)
  ready := []
  armed := false
  yieldTurn := false
  scheduled := 0
  pump := none
  stack := none

variable (w : Runtime μ ρ ι)

/-- The entries of the queue that are still to be dispatched. -/
def due : List ι := match w.pump with
  | none => w.ready
  | some pump => w.ready.drop pump.index

/-- Schedules a pump unless one is scheduled. -/
def arm (later : Bool) : Runtime μ ρ ι := { w with
    yieldTurn := w.yieldTurn || later
    armed := true
    scheduled := if w.armed then w.scheduled else w.scheduled + 1 }

/-- Pushes an actor into the queue, once for each time its loop became ready. -/
def flush (w : Runtime μ ρ ι) (actor : ι) : List Bool → Runtime μ ρ ι
  | [] => w
  | later :: rest => ({ w with ready := w.ready ++ [actor] }.arm later).flush actor rest

/-- The runtime after an event of an actor. The stack is left when the loop that was on it no longer
    is. -/
def put (actor : ι) (next : PidState μ ρ) : Runtime μ ρ ι :=
  let stack := if next.loops.any Loop.onStack then some actor
    else if w.stack = some actor then none else w.stack
  { w with actors := Function.update w.actors actor { next with wakes := [] }, stack }.flush actor
    next.wakes

/-- When an event of an actor can come: what a loop does, when it is on the stack; the settlement of
    a promise, on an empty stack. -/
def permits (actor : ι) : PidEvent μ ρ → Bool
  | .dispatch _ => false
  | .take .. | .returned _ | .threw .. | .park _ => w.stack = some actor
  | .fulfilled _ | .rejected .. => w.stack = none ∧ w.pump.isNone
  | _ => true

/-- Drops the dispatched entries from the queue, and schedules a pump for the others. -/
def compact (pump : Pump) : Runtime μ ρ ι := let compacted := { w with
    pump := none
    ready := if w.ready.length = pump.total then [] else w.ready.drop pump.total }
  if compacted.ready.isEmpty then compacted else compacted.arm pump.later

/-- One event. -/
def step (w : Runtime μ ρ ι) : RuntimeEvent μ ρ ι → Option (Runtime μ ρ ι)
  | .act actor event =>
    if w.permits actor event then ((w.actors actor).step event).map (w.put actor) else none
  | .pumpStarted =>
    if 0 < w.scheduled ∧ w.pump.isNone ∧ w.stack = none then
      some { w with
        scheduled := w.scheduled - 1, armed := false, yieldTurn := false
        pump := some ⟨0, w.ready.length, w.yieldTurn⟩ }
    else none
  | .pumpNext loop =>
    match w.pump with
    | none => none
    | some pump =>
      if pump.index < pump.total ∧ w.stack = none then
        w.ready[pump.index]?.bind fun actor => ((w.actors actor).step (.dispatch loop)).map
          ({ w with pump := some { pump with index := pump.index + 1 } }.put actor)
      else none
  | .pumpEnded =>
    match w.pump with
    | none => none
    | some pump =>
      if pump.index = pump.total ∧ w.stack = none then some (w.compact pump) else none

/-- What an event does, with what it found. -/
inductive Does (w : Runtime μ ρ ι) : RuntimeEvent μ ρ ι → Runtime μ ρ ι → Prop
  | act {actor : ι} {event : PidEvent μ ρ} {next : PidState μ ρ}
    (hpermits : w.permits actor event = true) (hstep : (w.actors actor).step event = some next) :
    Does w (.act actor event) (w.put actor next)
  | pumpStarted (hscheduled : 0 < w.scheduled) (hpump : w.pump = none) (hstack : w.stack = none) :
    Does w .pumpStarted { w with
      scheduled := w.scheduled - 1, armed := false, yieldTurn := false
      pump := some ⟨0, w.ready.length, w.yieldTurn⟩ }
  | pumpNext {loop : ℕ} {pump : Pump} {actor : ι} {next : PidState μ ρ} (hpump : w.pump = some pump)
    (hindex : pump.index < pump.total) (hstack : w.stack = none)
    (hactor : w.ready[pump.index]? = some actor)
    (hstep : (w.actors actor).step (.dispatch loop) = some next) :
    Does w (.pumpNext loop)
      ({ w with pump := some { pump with index := pump.index + 1 } }.put actor next)
  | pumpEnded {pump : Pump} (hpump : w.pump = some pump) (hindex : pump.index = pump.total)
    (hstack : w.stack = none) : Does w .pumpEnded (w.compact pump)

theorem does_of_step {w next : Runtime μ ρ ι} {event : RuntimeEvent μ ρ ι}
    (h : w.step event = some next) : Does w event next := by
  cases event with
  | act actor event =>
    obtain ⟨hpermits, hnext⟩ := ite_none_right_eq_some.mp h
    obtain ⟨state, hstep, rfl⟩ := map_eq_some_iff.mp hnext
    exact .act hpermits hstep
  | pumpStarted =>
    obtain ⟨⟨hscheduled, hpump, hstack⟩, rfl⟩ := of_guarded h
    exact .pumpStarted hscheduled (by simpa using hpump) hstack
  | pumpNext loop =>
    simp only [step] at h
    split at h
    · cases h
    · rename_i pump hpump
      obtain ⟨⟨hindex, hstack⟩, hnext⟩ := ite_none_right_eq_some.mp h
      obtain ⟨actor, hactor, hnext⟩ := bind_eq_some_iff.mp hnext
      obtain ⟨state, hstep, rfl⟩ := map_eq_some_iff.mp hnext
      exact .pumpNext hpump hindex hstack hactor hstep
  | pumpEnded =>
    simp only [step] at h
    split at h
    · cases h
    · rename_i pump hpump
      obtain ⟨⟨hindex, hstack⟩, rfl⟩ := of_guarded h
      exact .pumpEnded hpump hindex hstack

variable {w next : Runtime μ ρ ι}

/-! ### The invariant -/

/-- The queue, the stack and the scheduled pumps agree with the loops of the actors. -/
structure Scheduled (w : Runtime μ ρ ι) : Prop where
  regular : ∀ actor, (w.actors actor).Regular
  flushed : ∀ actor, (w.actors actor).wakes = []
  due : ∀ actor, w.due.count actor = (w.actors actor).loops.countP Loop.isReady
  stack : ∀ actor, (w.actors actor).loops.any Loop.onStack = true → w.stack = some actor
  pumps : w.scheduled = if w.armed then 1 else 0
  armed : w.pump = none → w.ready ≠ [] → w.armed = true
  bounds : ∀ pump ∈ w.pump, pump.index ≤ pump.total ∧ pump.total ≤ w.ready.length

theorem scheduled_create (admits : ι → List (Message μ ρ) → Message μ ρ → Bool)
    (config : ι → Option (ReentrancyMode × ℚ)) : (create admits config).Scheduled where
  regular _ := PidState.regular_create _ _
  flushed _ := rfl
  due _ := rfl
  stack _ h := nomatch h
  pumps := rfl
  armed _ h := absurd rfl h
  bounds _ h := nomatch h

omit [DecidableEq ι] in
theorem due_eq_drop (w : Runtime μ ρ ι) : w.due = w.ready.drop ((w.pump.map Pump.index).getD 0) := by
  unfold due
  cases w.pump <;> rfl

omit [DecidableEq ι] in
/-- Pushes lengthen the queue and leave a pump scheduled. -/
theorem flush_spec (actor : ι) : ∀ (wakes : List Bool) (w : Runtime μ ρ ι),
    w.scheduled = (if w.armed then 1 else 0) →
    (w.flush actor wakes).actors = w.actors ∧ (w.flush actor wakes).stack = w.stack ∧
    (w.flush actor wakes).pump = w.pump ∧
    (w.flush actor wakes).ready = w.ready ++ List.replicate wakes.length actor ∧
    (w.flush actor wakes).armed = (w.armed || !wakes.isEmpty) ∧
    (w.flush actor wakes).scheduled = if (w.flush actor wakes).armed then 1 else 0
  | [], w, hpumps => ⟨rfl, rfl, rfl, by simp [flush], by simp [flush], hpumps⟩
  | later :: rest, w, hpumps => by
      have hpumps' : ({ w with ready := w.ready ++ [actor] }.arm later).scheduled =
          if ({ w with ready := w.ready ++ [actor] }.arm later).armed then 1 else 0 := by
        cases harmed : w.armed <;> simp [arm, harmed, hpumps]
      obtain ⟨hactors, hstack, hpump, hready, harmed, hscheduled⟩ := flush_spec actor rest
        ({ w with ready := w.ready ++ [actor] }.arm later) hpumps'
      refine ⟨hactors, hstack, hpump, hready.trans ?_, harmed.trans ?_, hscheduled⟩
      · simp [arm, replicate_succ]
      · simp [arm]

/-- The event of one actor, if its loops agree with its entries in the queue and it comes to the
    stack only when no other actor is there. -/
theorem Scheduled.put {actor : ι} {state : PidState μ ρ}
    (hregular : ∀ other, other ≠ actor → (w.actors other).Regular) (hstate : state.Regular)
    (hflushed : ∀ other, other ≠ actor → (w.actors other).wakes = [])
    (hdue : ∀ other, other ≠ actor → w.due.count other = (w.actors other).loops.countP Loop.isReady)
    (hcount : w.due.count actor + state.wakes.length = state.loops.countP Loop.isReady)
    (hstack : ∀ other, other ≠ actor → (w.actors other).loops.any Loop.onStack = true →
      w.stack = some other)
    (halone : state.loops.any Loop.onStack = true → ∀ other, w.stack = some other → other = actor)
    (hpumps : w.scheduled = if w.armed then 1 else 0)
    (harmed : w.pump = none → w.ready ≠ [] → w.armed = true)
    (hbounds : ∀ pump ∈ w.pump, pump.index ≤ pump.total ∧ pump.total ≤ w.ready.length) :
    (w.put actor state).Scheduled := by
  obtain ⟨hactors', hstack', hpump', hready', harmed', hscheduled'⟩ := flush_spec actor state.wakes
    { w with
      actors := Function.update w.actors actor { state with wakes := [] }
      stack := if state.loops.any Loop.onStack then some actor
        else if w.stack = some actor then none else w.stack } hpumps
  have hindex : (w.pump.map Pump.index).getD 0 ≤ w.ready.length := by
    cases hpump : w.pump with
    | none => exact Nat.zero_le _
    | some pump => exact (hbounds pump hpump).1.trans (hbounds pump hpump).2
  have hdue' : (w.put actor state).due = w.due ++ replicate state.wakes.length actor := by
    rw [due_eq_drop, due_eq_drop, Runtime.put, hready', hpump',
      drop_append_of_le_length hindex]
  constructor
  · intro other
    rw [Runtime.put, hactors']
    by_cases hother : other = actor
    · subst hother
      simpa using hstate.with_wakes []
    · simpa [hother] using hregular other hother
  · intro other
    rw [Runtime.put, hactors']
    by_cases hother : other = actor
    · subst hother
      simp
    · simpa [hother] using hflushed other hother
  · intro other
    rw [hdue', count_append, count_replicate, Runtime.put, hactors']
    by_cases hother : other = actor
    · subst hother
      simpa using hcount
    · simpa [hother, Ne.symm hother] using hdue other hother
  · intro other
    rw [Runtime.put, hactors', hstack']
    by_cases hother : other = actor
    · subst hother
      simp only [Function.update_self]
      intro hany
      rw [if_pos hany]
    · simp only [Function.update_of_ne hother]
      intro hany
      have hon := hstack other hother hany
      have hnone : ¬ state.loops.any Loop.onStack = true :=
        fun hown => hother (halone hown other hon)
      rw [if_neg hnone, if_neg (by simp [hon, hother]), hon]
  · exact hscheduled'
  · intro hnone hne
    rw [Runtime.put, harmed']
    cases hwakes : state.wakes with
    | nil =>
      have hsame : (w.put actor state).ready = w.ready := by
        rw [Runtime.put, hready', hwakes]
        simp
      have hpump : w.pump = none := hpump' ▸ hnone
      simpa using harmed hpump (hsame ▸ hne)
    | cons later rest => simp
  · intro pump hpump
    rw [Runtime.put, hpump'] at hpump
    rw [Runtime.put, hready', length_append]
    have hle := hbounds pump hpump
    exact ⟨hle.1, Nat.le_add_right_of_le hle.2⟩

/-- An actor's event puts a loop on the stack only if no other actor's is there. -/
theorem Scheduled.alone (h : w.Scheduled) {actor : ι} {event : PidEvent μ ρ} {state : PidState μ ρ}
    (hpermits : w.permits actor event = true) (hstep : (w.actors actor).step event = some state)
    (hany : state.loops.any Loop.onStack = true) {other : ι} (hother : w.stack = some other) :
    other = actor := by
  cases event with
  | dispatch => cases hpermits
  | take | returned | threw | park =>
    simp only [permits, decide_eq_true_eq] at hpermits
    exact some.inj (hother.symm.trans hpermits)
  | fulfilled | rejected =>
    simp only [permits, Bool.decide_and, Bool.and_eq_true, decide_eq_true_eq] at hpermits
    cases hother.symm.trans hpermits.1
  | _ =>
    have hstirs := PidState.stirs_of_step hstep rfl nofun
    rw [hstirs.any_onStack] at hany
    exact some.inj (hother.symm.trans (h.stack actor hany))

theorem Scheduled.act (h : w.Scheduled) {actor : ι} {event : PidEvent μ ρ} {state : PidState μ ρ}
    (hpermits : w.permits actor event = true) (hstep : (w.actors actor).step event = some state) :
    (w.put actor state).Scheduled := by
  have hdispatch : ∀ loop, event ≠ .dispatch loop := by
    rintro loop rfl
    cases hpermits
  have hcount := (PidState.moves_of_step hstep hdispatch).countP_isReady
  rw [h.flushed actor, length_nil, add_zero] at hcount
  refine Scheduled.put (fun other _ => h.regular other) ((h.regular actor).step hstep)
    (fun other _ => h.flushed other) (fun other _ => h.due other) ?_ (fun other _ => h.stack other)
    (fun hany _ hother => h.alone hpermits hstep hany hother) h.pumps h.armed h.bounds
  rw [h.due actor, hcount]

theorem Scheduled.pumpNext (h : w.Scheduled) {loop : ℕ} {pump : Pump} {actor : ι}
    {state : PidState μ ρ} (hpump : w.pump = some pump) (hindex : pump.index < pump.total)
    (hstack : w.stack = none) (hactor : w.ready[pump.index]? = some actor)
    (hstep : (w.actors actor).step (.dispatch loop) = some state) :
    ({ w with pump := some { pump with index := pump.index + 1 } }.put actor state).Scheduled := by
  have hregular := (h.regular actor).step hstep
  -- the entry that is dispatched was the first one due
  have hdue : ∀ other, w.due.count other =
      (w.ready.drop (pump.index + 1)).count other + if actor = other then 1 else 0 := by
    intro other
    obtain ⟨hlt, rfl⟩ := List.getElem?_eq_some_iff.mp hactor
    simp only [Runtime.due, hpump]
    rw [drop_eq_getElem_cons hlt, count_cons]
    simp
  refine Scheduled.put (fun other _ => h.regular other) hregular (fun other _ => h.flushed other)
    (fun other hother => ?_) ?_ (fun other _ => h.stack other) ?_ h.pumps
    nofun ?_
  · rw [← h.due other, hdue other]
    simp [Runtime.due, Ne.symm hother]
  · have hready := h.due actor
    rw [hdue actor, if_pos rfl] at hready
    cases PidState.does_of_step hstep with
    | dispatch hloop =>
      obtain ⟨hlt, hget⟩ := List.getElem?_eq_some_iff.mp hloop
      rw [countP_set hlt, hget]
      simp only [Runtime.due, h.flushed actor, Loop.isReady, if_true, length_nil, add_zero,
        Bool.false_eq_true, if_false]
      omega
  · intro _ other hother
    cases hstack.symm.trans hother
  · rintro other ⟨⟩
    exact ⟨hindex, (h.bounds pump hpump).2⟩

theorem Scheduled.compact (h : w.Scheduled) {pump : Pump} (hpump : w.pump = some pump)
    (hindex : pump.index = pump.total) : (w.compact pump).Scheduled := by
  have hle := (h.bounds pump hpump).2
  have hready : (if w.ready.length = pump.total then [] else w.ready.drop pump.total) =
      w.ready.drop pump.total := by
    split_ifs with hlength
    · rw [← hlength, drop_length]
    · rfl
  have hdue : w.due = w.ready.drop pump.total := by
    simp only [Runtime.due, hpump, hindex]
  unfold Runtime.compact
  dsimp only
  rw [hready]
  split_ifs with hempty
  · refine ⟨h.regular, h.flushed, fun actor => ?_, h.stack, h.pumps, fun _ hne => ?_,
      (fun _ hnot => nomatch hnot)⟩
    · rw [← h.due actor, hdue]
      rfl
    · exact absurd (isEmpty_iff.mp hempty) hne
  · refine ⟨h.regular, h.flushed, fun actor => ?_, h.stack, ?_, fun _ _ => rfl,
      (fun _ hnot => nomatch hnot)⟩
    · have hold := h.due actor
      rw [hdue] at hold
      exact hold
    · have hpumps := h.pumps
      cases harmed : w.armed <;> simp_all [arm]

theorem Scheduled.step (h : w.Scheduled) {event : RuntimeEvent μ ρ ι}
    (hnext : w.step event = some next) : next.Scheduled := by
  cases does_of_step hnext with
  | act hpermits hstep => exact h.act hpermits hstep
  | pumpStarted hscheduled hpump hstack =>
    have hpumps := h.pumps
    have hone : w.scheduled = 1 := by
      split at hpumps <;> omega
    refine ⟨h.regular, h.flushed, fun actor => ?_, h.stack, ?_, nofun, ?_⟩
    · rw [← h.due actor]
      simp [Runtime.due, hpump]
    · simp [hone]
    · rintro pump ⟨⟩
      exact ⟨Nat.zero_le _, le_rfl⟩
  | pumpNext hpump hindex hstack hactor hstep => exact h.pumpNext hpump hindex hstack hactor hstep
  | pumpEnded hpump hindex => exact h.compact hpump hindex

/-- In every run: a shutdown or a restart that waits for its actor's loop to end does not wait in
    vain, for the loop is due exactly once, on the stack, or parked on a behavior. -/
theorem idle_waits_for_loop {admits : ι → List (Message μ ρ) → Message μ ρ → Bool}
    {config : ι → Option (ReentrancyMode × ℚ)} {events : List (RuntimeEvent μ ρ ι)} {actor : ι}
    (hrun : run step (create admits config) events = some w)
    (hwaits : (w.actors actor).shutdownPhase = some .idle ∨
      ∃ wasSuspended, (w.actors actor).restartPhase = some (.idle wasSuspended)) :
    w.due.count actor = 1 ∨ w.stack = some actor ∨
      ∃ processed message, (w.actors actor).loops = [.parked processed message] := by
  have h : w.Scheduled := run_invariant (fun _ _ _ h hstep => h.step hstep)
    (scheduled_create admits config) hrun
  have hserial := (h.regular actor).serial
  have hp : (w.actors actor).processing = true := by
    rcases hwaits with hphase | ⟨wasSuspended, hphase⟩
    · exact (h.regular actor).shutdownIdle hphase
    · exact (h.regular actor).restartIdle wasSuspended hphase
  rw [hp, if_pos rfl] at hserial
  obtain ⟨loop, hloop⟩ := length_eq_one_iff.mp hserial
  have hdue := h.due actor
  have hstack := h.stack actor
  rw [hloop] at hdue hstack ⊢
  cases loop with
  | ready => exact Or.inl hdue
  | turn | behavior => exact Or.inr (Or.inl (hstack rfl))
  | parked processed message => exact Or.inr (Or.inr ⟨processed, message, rfl⟩)

/-- A behavior shuts its actor down and parks. -/
theorem shutdown_waits_for_behavior :
    ∃ w ∈ run step (create (fun _ => unbounded) (fun _ => none) : Runtime ℕ ℕ ℕ)
      [.act 0 (.started true), .act 0 (.tell 5), .pumpStarted, .pumpNext 0, .act 0 (.take 0 0),
        .act 0 (.shutdown false), .act 0 (.park 0)],
      (w.actors 0).shutdownPhase = some .idle ∧ (w.due.count 0 = 1 ∨ w.stack = some 0 ∨
        ∃ processed message, (w.actors 0).loops = [.parked processed message]) := by
  refine ends_imp (P := fun w => (w.actors 0).shutdownPhase = some .idle) (by decide +kernel) ?_
  exact fun w hrun hphase => ⟨hphase, idle_waits_for_loop hrun (Or.inl hphase)⟩

end Runtime

end Nodeakt.Actor
