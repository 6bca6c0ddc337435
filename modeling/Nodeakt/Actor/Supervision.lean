import Nodeakt.Actor.Loops

/-! Supervised restarts (`supervisor.ts`, `PID.handleRestartDirective` to `PID.recordFault`).

    A parent, its children and one supervisor with the restart directive. A failing child sends its
    parent a Panicking command, which is handled at some later time. The restarts it leads to are
    tasks of their own: they wait out a backoff delay, call `restart`, and try again after a pause
    when that fails. `exhausted` and `log` (newest first) are history: whose budget was found
    exhausted since the last call from outside, and when faults were recorded, with whether they led
    to a restart. -/

namespace Nodeakt.Actor
open Schemes List Option

variable {μ ρ ι : Type}
variable {group : List ι} {member : ι}

inductive Strategy where
  | oneForOne
  | oneForAll
  deriving DecidableEq

structure SupervisorOptions where
  strategy : Option Strategy
  maxRetries : Option ℚ
  timeout : Option ℚ
  initialDelay : Option ℚ
  maxDelay : Option ℚ
  backoffResetAfter : Option ℚ

structure Supervisor where
  strategy : Strategy
  maxRetries : ℚ
  timeout : ℚ
  initialDelay : ℚ
  maxDelay : ℚ
  backoffResetAfter : ℚ

namespace Supervisor

def create (options : SupervisorOptions) : Supervisor :=
  let initialDelay := options.initialDelay.getD 0
  let maxDelay := if 0 < initialDelay then max (options.maxDelay.getD initialDelay) initialDelay else 0
  let resetAfter := options.backoffResetAfter.getD 0
  { strategy := options.strategy.getD .oneForOne
    maxRetries := options.maxRetries.getD 0
    timeout := options.timeout.getD (-1)
    initialDelay := if 0 < initialDelay then initialDelay else 0
    maxDelay
    backoffResetAfter :=
      if 0 < initialDelay then if 0 < resetAfter then resetAfter else maxDelay else 0 }

variable (supervisor : Supervisor)

/-- The reset window: resetAfter of the backoff when configured, the retry timeout otherwise. -/
def window : ℚ :=
  if 0 < supervisor.backoffResetAfter then supervisor.backoffResetAfter else supervisor.timeout

/-- How often a restart is tried. -/
def attempts : ℚ :=
  if 0 < supervisor.maxRetries ∧ 0 < supervisor.timeout then supervisor.maxRetries else 1

/-- The actors a directive applies to: the failing child alone, or all children. -/
def supervisionGroup [DecidableEq ι] (children : List ι) (cid : ι) : List ι :=
  if supervisor.strategy = .oneForAll then cid :: children.erase cid else [cid]

end Supervisor

/-- The exponential backoff delay for the nth consecutive fault. -/
def backoffDelay (faults : ℕ) (initialDelay maxDelay : ℚ) : ℚ :=
  if initialDelay ≤ 0 ∨ faults < 1 then 0 else min (initialDelay * 2 ^ (faults - 1)) maxDelay

structure FaultHistory where
  consecutive : ℕ
  lastAt : ℚ

namespace FaultHistory

/-- The previous fault is older than the window. -/
abbrev Aged (faults : FaultHistory) (window now : ℚ) : Prop :=
  0 < window ∧ 0 < faults.lastAt ∧ window < now - faults.lastAt

/-- Counts a fault; a previous one older than the window resets the counter first. -/
def recordFault (faults : FaultHistory) (window now : ℚ) : FaultHistory :=
  let consecutive := if faults.Aged window now then 0 else faults.consecutive
  ⟨consecutive + 1, now⟩

/-- Equal counters that are reset together stay equal. -/
theorem consecutive_recordFault {faults other : FaultHistory} {window now now' : ℚ}
    (hsame : faults.consecutive = other.consecutive)
    (haged : faults.Aged window now ↔ other.Aged window now') :
    (faults.recordFault window now).consecutive = (other.recordFault window now').consecutive := by
  simp only [recordFault, haged, hsame]

end FaultHistory

/-- Where a restart that was ordered waits: for its delay, for `restart` to settle, for its next
    attempt. -/
inductive TaskPhase where
  | delayed
  | restarting (attempt : ℕ)
  | pausing (attempt : ℕ)
  deriving DecidableEq

structure RestartTask (ι : Type) where
  member : ι
  phase : TaskPhase

/-- The children of one parent and the restarts it has ordered. -/
structure Family (μ ρ ι : Type) where
  members : ι → PidState μ ρ
  histories : ι → FaultHistory
  panics : List ι
  tasks : List (RestartTask ι)
  exhausted : ι → Bool
  log : ι → List (ℚ × Bool)

/-- What can happen in a family. `children` says whether an actor has children to stop, `running`
    whether the parent still runs, `now` what the clock reads for each member of a group. -/
inductive FamilyEvent (μ ρ ι : Type) where
  | member (member : ι) (event : PidEvent μ ρ)
  | fault (cid : ι) (now : ι → ℚ) (children : ι → Bool)
  | delayPassed (task : ℕ) (running children : Bool)
  | pausePassed (task : ℕ) (children : Bool)
  | outside (member : ι) (event : PidEvent μ ρ)

/-- The events of a child that neither come from its supervision nor from a caller of its
    lifecycle. -/
def PidEvent.internal : PidEvent μ ρ → Bool
  | .started _ | .poisonPill | .suspend | .reinstate | .restart _ | .shutdown _ => false
  | _ => true

/-- The calls that revive an actor. -/
def PidEvent.revival : PidEvent μ ρ → Bool
  | .reinstate | .restart _ => true
  | _ => false

/-- The event is a fault that is handed to the parent. -/
def PidEvent.faults : PidEvent μ ρ → Bool
  | .threw _ resume | .rejected _ resume => !resume
  | _ => false

/-- An actor that has started. -/
def PidState.launched (admits : List (Message μ ρ) → Message μ ρ → Bool)
    (config : Option (ReentrancyMode × ℚ)) : PidState μ ρ :=
  { spawned admits config with starting := false, running := true }.mark (.preStartEnded true)

namespace Family

variable [DecidableEq ι]

/-- Children that have started and never failed. -/
def create (admits : ι → List (Message μ ρ) → Message μ ρ → Bool)
    (config : ι → Option (ReentrancyMode × ℚ)) : Family μ ρ ι where
  members member := .launched (admits member) (config member)
  histories _ := ⟨0, 0⟩
  panics := []
  tasks := []
  exhausted _ := false
  log _ := []

variable (supervisor : Supervisor) (children : List ι)

/-- What follows a failed attempt. -/
def failed (attempt : ℕ) : Option TaskPhase :=
  if (attempt : ℚ) = supervisor.attempts then none else some (.pausing attempt)

/-- One attempt to restart a child, if one is left. A refused call fails at once. -/
def tryRestart (w : Family μ ρ ι) (member : ι) (attempt : ℕ) (hasChildren : Bool) : Family μ ρ ι :=
  if (attempt : ℚ) ≤ supervisor.attempts then
    let state := w.members member
    let phase := if state.stopping ∨ state.running = false ∨ state.restarting
      then failed supervisor attempt else some (.restarting attempt)
    { w with
      members := Function.update w.members member (state.restart hasChildren)
      tasks := w.tasks ++ (phase.map (RestartTask.mk member)).toList }
  else w

/-- Restarts one member of a group, after the delay. -/
def restartChild (w : Family μ ρ ι) (member : ι) (delay : ℚ) (hasChildren : Bool) : Family μ ρ ι :=
  if 0 < delay then { w with tasks := w.tasks ++ [⟨member, .delayed⟩] }
  else w.tryRestart supervisor member 1 hasChildren

/-- Restarts the members of a group. -/
def restartGroup (delay : ℚ) (hasChildren : ι → Bool) (w : Family μ ρ ι) : List ι → Family μ ρ ι
  | [] => w
  | member :: rest =>
    (w.restartChild supervisor member delay (hasChildren member)).restartGroup delay hasChildren rest

/-- Counts a fault of a group in the history of every member, with a clock reading for each. -/
def recordFaults (w : Family μ ρ ι) (cid : ι) (now : ι → ℚ) (restarts : Bool) : Family μ ρ ι :=
  { w with
    histories := fun member => if member ∈ supervisor.supervisionGroup children cid
      then (w.histories member).recordFault supervisor.window (now member) else w.histories member
    log := fun member => if member ∈ supervisor.supervisionGroup children cid
      then (now member, restarts) :: w.log member else w.log member }

/-- The fault of a child would exceed the restart budget. -/
def exceeds (w : Family μ ρ ι) (cid : ι) (now : ℚ) : Prop :=
  0 < supervisor.maxRetries ∧ 0 < supervisor.window ∧
    supervisor.maxRetries < ((w.histories cid).recordFault supervisor.window now).consecutive

instance (w : Family μ ρ ι) (cid : ι) (now : ℚ) : Decidable (w.exceeds supervisor cid now) :=
  inferInstanceAs (Decidable (_ ∧ _ ∧ _))

/-- Suspends the running siblings of a child whose budget is exhausted. -/
def exhaust (w : Family μ ρ ι) (cid : ι) : Family μ ρ ι := { w with
    members := fun member => if member ∈ supervisor.supervisionGroup children cid ∧ member ≠ cid ∧
        (w.members member).isRunning
      then { w.members member with suspended := true } else w.members member
    exhausted := fun member =>
      w.exhausted member || member ∈ supervisor.supervisionGroup children cid }

/-- Restarts a failing child, and its siblings under a one-for-all strategy, within the budget. -/
def handleRestartDirective (w : Family μ ρ ι) (cid : ι) (now : ι → ℚ) (hasChildren : ι → Bool) :
    Family μ ρ ι :=
  if w.exceeds supervisor cid (now cid) then
    (w.recordFaults supervisor children cid now false).exhaust supervisor children cid
  else
    let faults := ((w.histories cid).recordFault supervisor.window (now cid)).consecutive
    let delay := backoffDelay faults supervisor.initialDelay supervisor.maxDelay
    (w.recordFaults supervisor children cid now true).restartGroup supervisor delay hasChildren
      (supervisor.supervisionGroup children cid)

/-- A task whose restart has settled. -/
def settleTask (member : ι) (outcome : RestartOutcome) (task : RestartTask ι) :
    Option (RestartTask ι) :=
  match task.phase with
  | .restarting attempt =>
    if task.member = member then
      if outcome = .completed then none
      else (failed supervisor attempt).map (RestartTask.mk member)
    else some task
  | .delayed | .pausing _ => some task

/-- The restart of an actor settled in its last event. -/
def settledOutcome (state next : PidState μ ρ) : Option RestartOutcome :=
  match state.restartPhase, next.restartPhase, next.trace with
  | some _, none, .restartSettled outcome :: _ => some outcome
  | _, _, _ => none

/-- After an event of a member: a fault goes to the parent, a settled restart to its task. -/
def put (w : Family μ ρ ι) (member : ι) (event : PidEvent μ ρ) (next : PidState μ ρ) :
    Family μ ρ ι :=
  { w with
    members := Function.update w.members member next
    panics := if event.faults then w.panics ++ [member] else w.panics
    tasks := match settledOutcome (w.members member) next with
      | some outcome => w.tasks.filterMap (settleTask supervisor member outcome)
      | none => w.tasks }

/-- A call from outside supervision. -/
def call (w : Family μ ρ ι) (member : ι) (event : PidEvent μ ρ) (next : PidState μ ρ) :
    Family μ ρ ι :=
  { w.put supervisor member event next with
    exhausted := fun other =>
      w.exhausted other && other ∉ supervisor.supervisionGroup children member }

/-- One event. -/
def step (w : Family μ ρ ι) : FamilyEvent μ ρ ι → Option (Family μ ρ ι)
  | .member member event =>
    if member ∈ children ∧ event.internal = true then
      ((w.members member).step event).map (w.put supervisor member event)
    else none
  | .fault cid now hasChildren =>
    if cid ∈ w.panics then
      some ({ w with panics := w.panics.erase cid }.handleRestartDirective supervisor children cid
        now hasChildren)
    else none
  | .delayPassed task running hasChildren =>
    match w.tasks[task]? with
    | some ⟨member, .delayed⟩ =>
      let w' := { w with tasks := w.tasks.eraseIdx task }
      some (if running then w'.tryRestart supervisor member 1 hasChildren else w')
    | _ => none
  | .pausePassed task hasChildren =>
    match w.tasks[task]? with
    | some ⟨member, .pausing attempt⟩ =>
      some ({ w with tasks := w.tasks.eraseIdx task }.tryRestart supervisor member (attempt + 1)
        hasChildren)
    | _ => none
  | .outside member event =>
    if member ∈ children ∧ event.revival = true then
      ((w.members member).step event).map (w.call supervisor children member event)
    else none

/-- What an event does, with what it found. -/
inductive Does (w : Family μ ρ ι) : FamilyEvent μ ρ ι → Family μ ρ ι → Prop
  | member {member : ι} {event : PidEvent μ ρ} {next : PidState μ ρ} (hmember : member ∈ children)
    (hinternal : event.internal = true) (hstep : (w.members member).step event = some next) :
    Does w (.member member event) (w.put supervisor member event next)
  | fault {cid : ι} {now : ι → ℚ} {hasChildren : ι → Bool} (hpanic : cid ∈ w.panics) :
    Does w (.fault cid now hasChildren)
      ({ w with panics := w.panics.erase cid }.handleRestartDirective supervisor children cid now
        hasChildren)
  | delayPassed {task : ℕ} {hasChildren : Bool} {member : ι}
    (htask : w.tasks[task]? = some ⟨member, .delayed⟩) :
    Does w (.delayPassed task true hasChildren)
      ({ w with tasks := w.tasks.eraseIdx task }.tryRestart supervisor member 1 hasChildren)
  | parentGone {task : ℕ} {hasChildren : Bool} :
    Does w (.delayPassed task false hasChildren) { w with tasks := w.tasks.eraseIdx task }
  | pausePassed {task attempt : ℕ} {hasChildren : Bool} {member : ι}
    (htask : w.tasks[task]? = some ⟨member, .pausing attempt⟩) :
    Does w (.pausePassed task hasChildren)
      ({ w with tasks := w.tasks.eraseIdx task }.tryRestart supervisor member (attempt + 1)
        hasChildren)
  | outside {member : ι} {event : PidEvent μ ρ} {next : PidState μ ρ} (hmember : member ∈ children)
    (hrevival : event.revival = true) (hstep : (w.members member).step event = some next) :
    Does w (.outside member event) (w.call supervisor children member event next)

theorem does_of_step {supervisor : Supervisor} {children : List ι} {w next : Family μ ρ ι}
    {event : FamilyEvent μ ρ ι} (h : w.step supervisor children event = some next) :
    Does supervisor children w event next := by
  cases event with
  | member member event =>
    obtain ⟨⟨hmember, hinternal⟩, hnext⟩ := ite_none_right_eq_some.mp h
    obtain ⟨state, hstep, rfl⟩ := map_eq_some_iff.mp hnext
    exact .member hmember hinternal hstep
  | fault cid now hasChildren =>
    obtain ⟨hpanic, rfl⟩ := of_guarded h
    exact .fault hpanic
  | delayPassed task running hasChildren =>
    simp only [step] at h
    split at h
    · rename_i htask
      cases h
      cases running with
      | true => exact .delayPassed htask
      | false => exact .parentGone
    · cases h
  | pausePassed task hasChildren =>
    simp only [step] at h
    split at h
    · rename_i htask
      cases h
      exact .pausePassed htask
    · cases h
  | outside member event =>
    obtain ⟨⟨hmember, hrevival⟩, hnext⟩ := ite_none_right_eq_some.mp h
    obtain ⟨state, hstep, rfl⟩ := map_eq_some_iff.mp hnext
    exact .outside hmember hrevival hstep

/-! ### What the restarts leave alone -/

section frame

variable {supervisor : Supervisor} {children : List ι}

/-- `next` has the same history as `w`; among the members and the tasks only those of `group` have
    changed, and no member was started. -/
structure Restarts (group : List ι) (w next : Family μ ρ ι) : Prop where
  histories : next.histories = w.histories
  panics : next.panics = w.panics
  exhausted : next.exhausted = w.exhausted
  log : next.log = w.log
  members : ∀ member, member ∉ group → next.members member = w.members member
  starting : ∀ member, (next.members member).starting = (w.members member).starting
  tasks : ∀ task ∈ next.tasks, task ∈ w.tasks ∨ task.member ∈ group

omit [DecidableEq ι] in
theorem Restarts.trans {w mid next : Family μ ρ ι} (h : Restarts group w mid)
    (h' : Restarts group mid next) : Restarts group w next where
  histories := h'.histories.trans h.histories
  panics := h'.panics.trans h.panics
  exhausted := h'.exhausted.trans h.exhausted
  log := h'.log.trans h.log
  members member hmember := (h'.members member hmember).trans (h.members member hmember)
  starting member := (h'.starting member).trans (h.starting member)
  tasks task htask := by
    rcases h'.tasks task htask with hold | hgroup
    · exact h.tasks task hold
    · exact Or.inr hgroup

theorem restarts_tryRestart (supervisor : Supervisor) (w : Family μ ρ ι) (hmember : member ∈ group)
    (attempt : ℕ) (hasChildren : Bool) :
    Restarts group w (w.tryRestart supervisor member attempt hasChildren) := by
  unfold tryRestart
  split
  · refine ⟨rfl, rfl, rfl, rfl, fun other hother => ?_, fun other => ?_, fun task htask => ?_⟩
    · have hne : other ≠ member := fun heq => hother (heq ▸ hmember)
      simp [hne]
    · by_cases hother : other = member
      · subst hother
        simpa using (PidState.keeps_restart (w.members other) hasChildren).starting
      · simp [hother]
    · rcases mem_append.mp htask with hold | hnew
      · exact Or.inl hold
      · obtain ⟨phase, -, rfl⟩ := map_eq_some_iff.mp (mem_toList.mp hnew)
        exact Or.inr hmember
  · exact ⟨rfl, rfl, rfl, rfl, fun _ _ => rfl, fun _ => rfl, fun _ => Or.inl⟩

theorem restarts_restartGroup (supervisor : Supervisor) (delay : ℚ) (hasChildren : ι → Bool) :
    ∀ (members : List ι) (w : Family μ ρ ι), (∀ member ∈ members, member ∈ group) →
      Restarts group w (restartGroup supervisor delay hasChildren w members)
  | [], w, _ => ⟨rfl, rfl, rfl, rfl, fun _ _ => rfl, fun _ => rfl, fun _ => Or.inl⟩
  | member :: rest, w, hgroup => by
      have hmember := hgroup member (mem_cons_self ..)
      refine Restarts.trans ?_ (restarts_restartGroup supervisor delay hasChildren rest _
        fun other hother => hgroup other (mem_cons_of_mem _ hother))
      unfold restartChild
      split
      · refine ⟨rfl, rfl, rfl, rfl, fun _ _ => rfl, fun _ => rfl, fun task htask => ?_⟩
        rcases mem_append.mp htask with hold | hnew
        · exact Or.inl hold
        · obtain rfl := mem_singleton.mp hnew
          exact Or.inr hmember
      · exact restarts_tryRestart supervisor w hmember 1 (hasChildren member)

/-- Another member is in the group of a child only under the one-for-all strategy, as a child. -/
theorem of_mem_supervisionGroup {cid : ι} (h : member ∈ supervisor.supervisionGroup children cid) :
    member = cid ∨ supervisor.strategy = .oneForAll ∧ member ∈ children := by
  unfold Supervisor.supervisionGroup at h
  split_ifs at h with hall
  · rcases mem_cons.mp h with heq | hsibling
    · exact Or.inl heq
    · exact Or.inr ⟨hall, mem_of_mem_erase hsibling⟩
  · exact Or.inl (mem_singleton.mp h)

theorem mem_supervisionGroup_of_all (cid : ι) (hall : supervisor.strategy = .oneForAll)
    (hmember : member ∈ children) : member ∈ supervisor.supervisionGroup children cid := by
  unfold Supervisor.supervisionGroup
  rw [if_pos hall]
  by_cases heq : member = cid
  · exact heq ▸ mem_cons_self ..
  · exact mem_cons_of_mem _ ((mem_erase_of_ne heq).mpr hmember)

/-- A settled restart ends its task or leaves it to the same member. -/
theorem settleTask_member {outcome : RestartOutcome} {task next : RestartTask ι}
    (h : settleTask supervisor member outcome task = some next) : next.member = task.member := by
  unfold settleTask at h
  split at h
  · split at h
    · rename_i heq
      split at h
      · cases h
      · obtain ⟨phase, -, rfl⟩ := map_eq_some_iff.mp h
        exact heq.symm
    · rw [← some.inj h]
  · rw [← some.inj h]
  · rw [← some.inj h]

theorem put_tasks {w : Family μ ρ ι} {event : PidEvent μ ρ} {next : PidState μ ρ}
    {task : RestartTask ι} (htask : task ∈ (w.put supervisor member event next).tasks) :
    ∃ old ∈ w.tasks, old.member = task.member := by
  simp only [put] at htask
  split at htask
  · obtain ⟨old, hold, hsettled⟩ := mem_filterMap.mp htask
    exact ⟨old, hold, (settleTask_member hsettled).symm⟩
  · exact ⟨task, htask, rfl⟩

end frame

end Family

end Nodeakt.Actor
