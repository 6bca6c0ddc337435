import Nodeakt.Actor.Loops

/-! Code that runs in the middle of a step of an actor (`pid.ts`).

    A shutdown runs postStop hooks before its promise is recorded, so that a call of shutdown from
    there begins another one. A reinstatement and a restart publish what they did before they arm the
    receive loop, so that a subscriber finds mail without a loop. The continuation of a request may
    throw out of the receive loop, and so may the handling of a fault whose value `String` cannot
    convert: the actor keeps its `processing` flag without a loop, the pump ends before it has
    compacted its queue, and the next one dispatches actors that are not ready.

    A nested event is harmless when it comes to the same as plain events; `nested_preserves` carries
    what the plain events keep over to it. -/

namespace Nodeakt.Actor
open Schemes

variable {μ ρ : Type}

/-- What a subscriber may call on the actor that an event is about. -/
inductive LifecycleCall where
  | restart (children : Bool)
  | shutdown (children : Bool)

def LifecycleCall.event : LifecycleCall → PidEvent μ ρ
  | .restart children => .restart children
  | .shutdown children => .shutdown children

/-- What can happen to an actor: a plain event; a shutdown that is called again from its synchronous
    part; a subscriber that restarts or shuts down the actor when its reinstatement is published, or
    shuts it down when its restart is (a restart is refused there); a continuation or a fault handling
    that throws; and the dispatch of an actor that an interrupted pump left in the queue. -/
inductive NestedEvent (μ ρ : Type) where
  | plain (event : PidEvent μ ρ)
  | shutdownAgain (children again : Bool)
  | reinstated (call : LifecycleCall)
  | restarted (children : Bool)
  | continuationThrew (loop index : ℕ)
  | faultThrew (loop : ℕ)
  | strayDispatch

namespace PidState

variable {s next : PidState μ ρ}

def call (s : PidState μ ρ) : LifecycleCall → PidState μ ρ
  | .restart children => s.restart children
  | .shutdown children => s.shutdown children

/-- The continuation of a request would run when its reply is completed. -/
def continues (s : PidState μ ρ) (index : ℕ) : Bool :=
  s.requests.handles[index]?.any fun handle => !handle.settled && handle.callback

/-- One event, nested or not. -/
def nestedStep (s : PidState μ ρ) : NestedEvent μ ρ → Option (PidState μ ρ)
  | .plain event => s.step event
  | .shutdownAgain children again =>
    -- a loop that runs is awaited before any hook
    if s.shutdownPhase = none ∧ s.running = true ∧ s.processing = false then
      some ((s.doShutdown children).doShutdown again)
    else some (s.shutdown children)
  | .reinstated call =>
    if s.suspended then some ({ s with suspended := false }.call call).resume else none
  | .restarted children =>
    if s.restartPhase = some .preStart then
      some ((({ s with suspended := false }.mark (.preStartEnded true)).shutdown
        children).resume.settleRestart .completed)
    else none
  | .continuationThrew loop index =>
    match s.loops[loop]?, s.mailbox[index]? with
    | some (.turn _), some (.requestReply handle outcome) =>
      if s.continues handle then
        let completed := { s with mailbox := s.mailbox.eraseIdx index }.completeRequest handle outcome
        some { completed with loops := s.loops.eraseIdx loop }
      else none
    | _, _ => none
  | .faultThrew loop =>
    if s.loops[loop]?.any fun loop => !loop.between then
      some { s with loops := s.loops.eraseIdx loop }
    else none
  | .strayDispatch => some { s with loops := s.loops ++ [.turn 0] }

/-- Nothing runs in the middle of the step that matters to it. -/
def Harmless (s : PidState μ ρ) : NestedEvent μ ρ → Prop
  | .plain _ => True
  | .shutdownAgain .. => s.shutdownPhase = none → s.running = true → s.processing = true
  | .reinstated _ => s.mailbox = []
  | .restarted _ => s.shutdownPhase ≠ none
  | .continuationThrew .. => False
  | .faultThrew _ => False
  | .strayDispatch => False

end PidState

/-- The plain events that a harmless event comes to. -/
def NestedEvent.plainly : NestedEvent μ ρ → List (PidEvent μ ρ)
  | .plain event => [event]
  | .shutdownAgain children _ => [.shutdown children]
  | .reinstated call => [.reinstate, call.event]
  | .restarted _ => [.restartPreStartEnded true]
  | .continuationThrew .. => []
  | .faultThrew _ => []
  | .strayDispatch => []

namespace PidState

variable {s next : PidState μ ρ}

/-- The event is harmless, and the plain events it comes to meet a condition. -/
def Within (cond : PidState μ ρ → PidEvent μ ρ → Prop) (s : PidState μ ρ) (e : NestedEvent μ ρ) :
    Prop :=
  s.Harmless e ∧ Meets step cond s e.plainly

instance (s : PidState μ ρ) (e : NestedEvent μ ρ) : Decidable (s.Harmless e) := by
  rcases e with _ | _ | _ | _ | _ | _ | _ <;> dsimp only [Harmless]
  case reinstated => exact decidable_of_iff (s.mailbox.isEmpty = true) List.isEmpty_iff
  all_goals infer_instance

instance {cond : PidState μ ρ → PidEvent μ ρ → Prop} [∀ s e, Decidable (cond s e)]
    (s : PidState μ ρ) (e : NestedEvent μ ρ) : Decidable (s.Within cond e) :=
  inferInstanceAs (Decidable (_ ∧ _))

theorem step_call (s : PidState μ ρ) (call : LifecycleCall) :
    s.step call.event = some (s.call call) := by
  cases call <;> rfl

/-- A lifecycle call brings no mail. -/
theorem mailbox_call (s : PidState μ ρ) (call : LifecycleCall) : (s.call call).mailbox = s.mailbox := by
  cases call with
  | restart children =>
    rcases steers_restart s children with h | ⟨-, h⟩
    · rw [call, h.same]
    · rw [call, h.same]
  | shutdown children => rw [call, (steers_shutdown s children).same]

/-- A harmless event is a run of plain ones. -/
theorem run_plainly {e : NestedEvent μ ρ} (hcond : s.Harmless e) (h : s.nestedStep e = some next) :
    run step s e.plainly = some next := by
  cases e with
  | plain event =>
    have hplain : s.step event = some next := h
    simp [NestedEvent.plainly, run, hplain]
  | shutdownAgain children again =>
    have hnot : ¬(s.shutdownPhase = none ∧ s.running = true ∧ s.processing = false) := by
      rintro ⟨hnone, hrunning, hidle⟩
      cases hidle.symm.trans (hcond hnone hrunning)
    rw [nestedStep, if_neg hnot] at h
    exact h
  | reinstated call =>
    obtain ⟨hsuspended, rfl⟩ := of_guarded h
    have hempty : s.mailbox = [] := hcond
    have hlifted : s.doReinstate = { s with suspended := false } := by
      simp [doReinstate, resume, hsuspended, hempty]
    have hcalled : ({ s with suspended := false }.call call).resume =
        { s with suspended := false }.call call := by
      simp [resume, mailbox_call, hempty]
    have hreinstated : s.step .reinstate = some { s with suspended := false } := by
      rw [← hlifted]
      rfl
    simp [NestedEvent.plainly, run, hreinstated, step_call, hcalled]
  | restarted children =>
    obtain ⟨hphase, rfl⟩ := of_guarded h
    have hsame : ({ s with suspended := false }.mark (.preStartEnded true)).shutdown children =
        { s with suspended := false }.mark (.preStartEnded true) := if_pos hcond
    have hcompleted : s.step (.restartPreStartEnded true) = some s.completeRestart := if_pos hphase
    simp [NestedEvent.plainly, run, hcompleted, hsame, completeRestart]
  | continuationThrew | faultThrew | strayDispatch => cases hcond

/-- What plain events keep under a condition is kept by events within which they meet it. -/
theorem nested_preserves {P : PidState μ ρ → Prop} {cond : PidState μ ρ → PidEvent μ ρ → Prop}
    (hstep : ∀ s event next, P s → cond s event → s.step event = some next → P next)
    {e : NestedEvent μ ρ} (h : P s) (hcond : s.Within cond e) (hnext : s.nestedStep e = some next) :
    P next :=
  run_preserves hstep h hcond.2 (run_plainly hcond.1 hnext)

end PidState

end Nodeakt.Actor
