import Nodeakt.Actor.Supervision

/-! The restart budget of a supervised group.

    `chain` is the length of the run of faults that ends with the newest one, each within the window
    of the one before. The counter of a child never falls below it, so a run of faults leads to at
    most `maxRetries` restarts, as long as the counters of a group are reset together: the clock is
    read once for each of them. That the exhausted budget is final holds only if no restart is under
    way when it is found exhausted, and if later faults do not age it away. -/

namespace Nodeakt.Actor
open Schemes Family List

variable {μ ρ ι : Type}
variable {window : ℚ} {event : PidEvent μ ρ} {cid member : ι}

/-! ### Runs of faults -/

/-- The length of the newest run of faults whose successive times differ by at most the window. -/
def chain (window : ℚ) : List (ℚ × Bool) → ℕ
  | [] => 0
  | [_] => 1
  | newer :: older :: rest =>
    if newer.1 - older.1 ≤ window then chain window (older :: rest) + 1 else 1

/-- Successive faults, newest first, are at most a window apart. -/
def Close (window : ℚ) (faults : List (ℚ × Bool)) : Prop :=
  List.IsChain (fun newer older => newer.1 - older.1 ≤ window) faults

theorem length_le_chain : ∀ {log segment : List (ℚ × Bool)}, segment <+: log →
    Close window segment → segment.length ≤ chain window log
  | _, [], _, _ => Nat.zero_le _
  | [], _ :: _, hseg, _ => by simp at hseg
  | [_], newer :: rest, hseg, _ => by
      obtain ⟨rfl, hrest⟩ := cons_prefix_cons.mp hseg
      simp [chain, prefix_nil.mp hrest]
  | first :: second :: log, [newer], _, _ => by
      unfold chain
      split <;> simp
  | first :: second :: log, newer :: older :: rest, hseg, hclose => by
      obtain ⟨rfl, htail⟩ := cons_prefix_cons.mp hseg
      obtain ⟨rfl, -⟩ := cons_prefix_cons.mp htail
      obtain ⟨hnear, hclose'⟩ := isChain_cons_cons.mp hclose
      have ih := length_le_chain htail hclose'
      rw [chain, if_pos hnear]
      simpa using ih

/-- A fault that led to a restart ended no run longer than the budget. -/
def Budgeted (maxRetries window : ℚ) : List (ℚ × Bool) → Prop
  | [] => True
  | fault :: older =>
    (fault.2 = true → (chain window (fault :: older) : ℚ) ≤ maxRetries) ∧
      Budgeted maxRetries window older

/-- In a run of faults at most `maxRetries` led to a restart: the newest of them ended a run that
    holds all of them. -/
theorem Budgeted.restarts_le {maxRetries : ℚ} (hretries : 0 ≤ maxRetries) :
    ∀ {log segment : List (ℚ × Bool)}, Budgeted maxRetries window log → segment <:+: log →
      Close window segment → (segment.countP (·.2) : ℚ) ≤ maxRetries
  | [], segment, _, hseg, _ => by
      rw [infix_nil.mp hseg]
      simpa using hretries
  | fault :: older, segment, h, hseg, hclose => by
      rcases infix_cons_iff.mp hseg with hstart | hinfix
      · cases segment with
        | nil => simpa using hretries
        | cons newest rest =>
          have hlength := length_le_chain hstart hclose
          obtain ⟨rfl, hrest⟩ := cons_prefix_cons.mp hstart
          cases hled : newest.2 with
          | true =>
            have hcount : (newest :: rest).countP (·.2) ≤ chain window (newest :: older) :=
              countP_le_length.trans hlength
            exact (Nat.cast_le.mpr hcount).trans (h.1 hled)
          | false =>
            rw [countP_cons_of_neg (by simp [hled])]
            exact h.2.restarts_le hretries hrest.isInfix hclose.tail
      · exact h.2.restarts_le hretries hinfix hclose

/-- Counting a fault keeps the counter at or above the length of the newest run. -/
theorem chain_recordFault {faults : FaultHistory} {log : List (ℚ × Bool)} (now : ℚ)
    (restarts : Bool) (hcount : chain window log ≤ faults.consecutive)
    (hlast : ∀ fault ∈ log.head?, faults.lastAt = fault.1) :
    chain window ((now, restarts) :: log) ≤ (faults.recordFault window now).consecutive := by
  cases log with
  | nil => simp [chain, FaultHistory.recordFault]
  | cons older rest =>
    have hlast' : faults.lastAt = older.1 := hlast older rfl
    unfold chain FaultHistory.recordFault
    dsimp only
    split
    · rename_i hnear
      rw [if_neg fun haged => absurd haged.2.2 (not_lt.mpr (hlast' ▸ hnear))]
      omega
    · omega

/-! ### What an actor does by itself -/

namespace PidState

variable {s next : PidState μ ρ}

/-- The actor has started and is not restarting. -/
def Calm (s : PidState μ ρ) : Prop := s.starting = false ∧ s.restartPhase = none

/-- What leaves the lifecycle alone, or suspends or stops the actor. -/
theorem Calm.of_eq (h : s.Calm) (hstarting : next.starting = s.starting)
    (hphase : next.restartPhase = s.restartPhase) (hrunning : next.running = s.running)
    (hstopping : s.stopping = true → next.stopping = true)
    (hsuspended : s.suspended = true → next.suspended = true) :
    next.Calm ∧ (s.isRunning = false → next.isRunning = false) := by
  refine ⟨⟨hstarting.trans h.1, hphase.trans h.2⟩, fun hnot => ?_⟩
  simp only [isRunning, Bool.and_eq_false_iff, Bool.not_eq_false', or_assoc] at hnot ⊢
  rw [hrunning]
  exact hnot.imp_right fun hflags => hflags.imp hstopping hsuspended

theorem Calm.fed (h : s.Calm) (hfed : Fed s next) :
    next.Calm ∧ (s.isRunning = false → next.isRunning = false) := by
  obtain ⟨-, -, -, -, hstarting, hphase, -⟩ := hfed.fields
  exact ⟨⟨hstarting.trans h.1, hphase.trans h.2⟩, fun hnot => hfed.isRunning.trans hnot⟩

/-- The end of a loop wakes no restart. -/
theorem Calm.postReceive (h : s.Calm) (loop processed : ℕ) : (s.postReceive loop processed).Calm ∧
      (s.isRunning = false → (s.postReceive loop processed).isRunning = false) := by
  unfold PidState.postReceive
  split
  · exact h.of_eq rfl (by simp [leaveLoop, notifyIdle, h.2]) rfl id id
  · unfold continueLoop
    split <;> exact ⟨h, id⟩

theorem Calm.shutdown (h : s.Calm) (children : Bool) :
    (s.shutdown children).Calm ∧ (s.isRunning = false → (s.shutdown children).isRunning = false) := by
  unfold PidState.shutdown PidState.doShutdown
  split
  · exact ⟨h, id⟩
  split
  · exact ⟨h, id⟩
  split
  · exact h.of_eq rfl rfl rfl (fun _ => rfl) id
  · cases children <;> exact h.of_eq rfl rfl rfl (fun _ => rfl) id

theorem Calm.process (h : s.Calm) (loop processed : ℕ) (mail : Message μ ρ) :
    (s.process loop processed mail).Calm ∧
      (s.isRunning = false → (s.process loop processed mail).isRunning = false) := by
  cases mail with
  | requestReply index outcome => exact h.fed (fed_completeRequest s index outcome)
  | poisonPill => exact h.shutdown false
  | panicking => exact ⟨h, id⟩
  | user message =>
    dsimp only [PidState.process]
    split
    · unfold continueLoop
      split <;> exact ⟨h, id⟩
    · exact ⟨h, id⟩

/-- By itself an actor that is not restarting does not run again. -/
theorem Calm.step (h : s.Calm) (hinternal : event.internal = true)
    (hstep : s.step event = some next) :
    next.Calm ∧ (s.isRunning = false → next.isRunning = false) := by
  cases does_of_step hstep with
  | started | poisonPill | suspend | reinstate | restart | shutdown => cases hinternal
  | restartResumed hphase | restartChildrenStopped hphase | restartPostStopEnded hphase
  | restartCompleted hphase | restartFailed hphase => cases h.2.symm.trans hphase
  | tell | panicking | stash | unstash | unstashAll | request | outcome | cancel | onReply =>
    exact h.fed (fed_of_step rfl hstep)
  | dispatch | park => exact ⟨h, id⟩
  | @take _ index =>
    exact Calm.process (s := { s with mailbox := s.mailbox.eraseIdx index }) h _ _ _
  | drained => exact h.of_eq rfl (by simp [leaveLoop, notifyIdle, h.2]) rfl id id
  | returned | fulfilled => exact h.postReceive _ _
  | @threw _ _ _ resume | @rejected _ _ _ resume =>
    obtain ⟨hfault, hdown⟩ : (s.handleFault resume).Calm ∧
        (s.isRunning = false → (s.handleFault resume).isRunning = false) :=
      h.of_eq rfl rfl rfl id fun hsuspended => by simp [handleFault, hsuspended]
    obtain ⟨hcalm, hdown'⟩ := hfault.postReceive _ _
    exact ⟨hcalm, hdown' ∘ hdown⟩
  | @shutdownResumed children => cases children <;> exact ⟨h, id⟩
  | shutdownChildrenStopped => exact ⟨h, id⟩
  | shutdownPostStopEnded => exact ⟨h, fun _ => rfl⟩

end PidState

namespace Family

variable [DecidableEq ι] {supervisor : Supervisor} {children : List ι} {w next : Family μ ρ ι}

/-- The members of the group of a child find their last faults on one side of the window. -/
def Together (supervisor : Supervisor) (children : List ι) (w : Family μ ρ ι) (cid : ι)
    (now : ι → ℚ) : Prop :=
  ∀ member ∈ supervisor.supervisionGroup children cid,
    (w.histories member).Aged supervisor.window (now member) ↔
      (w.histories cid).Aged supervisor.window (now cid)

instance (w : Family μ ρ ι) (cid : ι) (now : ι → ℚ) :
    Decidable (w.Together supervisor children cid now) :=
  inferInstanceAs (Decidable (∀ member ∈ supervisor.supervisionGroup children cid, _))

/-- The counters of a group are reset together, a fault that finds the budget exhausted finds no
    restart of the group under way, and the faults after it come within the window. -/
def Unhurried (supervisor : Supervisor) (children : List ι) (w : Family μ ρ ι) :
    FamilyEvent μ ρ ι → Prop
  | .fault cid now _ => w.Together supervisor children cid now ∧
    (w.exhausted cid = true → now cid - (w.histories cid).lastAt ≤ supervisor.window) ∧
    (w.exceeds supervisor cid (now cid) → ∀ member ∈ supervisor.supervisionGroup children cid,
      (w.members member).restartPhase = none ∧ ∀ task ∈ w.tasks, task.member ≠ member)
  | _ => True

instance (w : Family μ ρ ι) (event) : Decidable (w.Unhurried supervisor children event) := by
  rcases event <;> dsimp only [Unhurried] <;> infer_instance

/-- The counters follow the log, which keeps to the budget; under the one-for-all strategy all
    children have the same counter. -/
structure Accounted (supervisor : Supervisor) (children : List ι) (w : Family μ ρ ι) : Prop where
  panics : ∀ member ∈ w.panics, member ∈ children
  shared : supervisor.strategy = .oneForAll → ∀ member ∈ children, ∀ other ∈ children,
    (w.histories member).consecutive = (w.histories other).consecutive
  counted : ∀ member, chain supervisor.window (w.log member) ≤ (w.histories member).consecutive
  last : ∀ member, ∀ fault ∈ (w.log member).head?, (w.histories member).lastAt = fault.1
  budgeted : ∀ member, Budgeted supervisor.maxRetries supervisor.window (w.log member)

omit [DecidableEq ι] in
theorem accounted_create (admits : ι → List (Message μ ρ) → Message μ ρ → Bool)
    (config : ι → Option (ReentrancyMode × ℚ)) : (create admits config).Accounted supervisor children
    where
  panics _ h := nomatch h
  shared _ _ _ _ _ := rfl
  counted _ := le_rfl
  last _ _ h := nomatch h
  budgeted _ := trivial

section

variable (h : w.Accounted supervisor children)
include h

omit [DecidableEq ι] in
theorem Accounted.of_eq
    (hpanics : ∀ member ∈ next.panics, member ∈ children) (hhistories : next.histories = w.histories)
    (hlog : next.log = w.log) : next.Accounted supervisor children := by
  refine ⟨hpanics, ?_, ?_, ?_, ?_⟩
  · rw [hhistories]
    exact h.shared
  · rw [hhistories, hlog]
    exact h.counted
  · rw [hhistories, hlog]
    exact h.last
  · rw [hlog]
    exact h.budgeted

omit [DecidableEq ι] in
theorem Accounted.restarts {group : List ι}
    (hframe : Restarts group w next) : next.Accounted supervisor children := by
  refine h.of_eq ?_ hframe.histories hframe.log
  rw [hframe.panics]
  exact h.panics

/-- The members of the group of a child count its fault as the child does. -/
theorem Accounted.same (hcid : cid ∈ children) {now : ι → ℚ}
    (htogether : w.Together supervisor children cid now)
    (hmember : member ∈ supervisor.supervisionGroup children cid) :
    ((w.histories member).recordFault supervisor.window (now member)).consecutive =
      ((w.histories cid).recordFault supervisor.window (now cid)).consecutive := by
  refine FaultHistory.consecutive_recordFault ?_ (htogether member hmember)
  rcases of_mem_supervisionGroup hmember with rfl | ⟨hall, hchild⟩
  · rfl
  · exact h.shared hall member hchild cid hcid

theorem Accounted.recordFaults (hcid : cid ∈ children) {now : ι → ℚ}
    (htogether : w.Together supervisor children cid now) (restarts : Bool) (hbudget : restarts = true →
      (((w.histories cid).recordFault supervisor.window (now cid)).consecutive : ℚ) ≤
        supervisor.maxRetries) :
    (w.recordFaults supervisor children cid now restarts).Accounted supervisor children := by
  refine ⟨h.panics, fun hall member hmember other hother => ?_, fun member => ?_, fun member => ?_,
    fun member => ?_⟩
  · have hgroup := mem_supervisionGroup_of_all cid hall hmember
    have hgroup' := mem_supervisionGroup_of_all cid hall hother
    simp only [Family.recordFaults, hgroup, hgroup', if_true]
    exact (h.same hcid htogether hgroup).trans (h.same hcid htogether hgroup').symm
  · simp only [Family.recordFaults]
    split
    · exact chain_recordFault (now member) restarts (h.counted member) (h.last member)
    · exact h.counted member
  · simp only [Family.recordFaults]
    split
    · rintro fault ⟨⟩
      rfl
    · exact h.last member
  · simp only [Family.recordFaults]
    split_ifs with hgroup
    · refine ⟨fun hrestarts => ?_, h.budgeted member⟩
      have hchain := chain_recordFault (now member) restarts (h.counted member) (h.last member)
      rw [h.same hcid htogether hgroup] at hchain
      exact (Nat.cast_le.mpr hchain).trans (hbudget hrestarts)
    · exact h.budgeted member

theorem Accounted.handleRestartDirective
    (hretries : 0 < supervisor.maxRetries) (hwindow : 0 < supervisor.window) (hcid : cid ∈ children)
    {now : ι → ℚ} (htogether : w.Together supervisor children cid now) (hasChildren : ι → Bool) :
    (w.handleRestartDirective supervisor children cid now hasChildren).Accounted supervisor
      children := by
  unfold Family.handleRestartDirective
  split_ifs with hexceeds
  · have hrecorded := h.recordFaults hcid htogether false nofun
    exact { hrecorded with }
  · have hbudget : (((w.histories cid).recordFault supervisor.window (now cid)).consecutive : ℚ) ≤
        supervisor.maxRetries := by
      by_contra hlt
      exact hexceeds ⟨hretries, hwindow, not_le.mp hlt⟩
    have hrecorded := h.recordFaults hcid htogether true fun _ => hbudget
    exact hrecorded.restarts (restarts_restartGroup supervisor _ hasChildren _ _ fun _ => id)

theorem Accounted.put (hmember : member ∈ children) (event : PidEvent μ ρ) (state : PidState μ ρ) :
    (w.put supervisor member event state).Accounted supervisor children := by
  refine h.of_eq (fun other hother => ?_) rfl rfl
  simp only [Family.put] at hother
  split at hother
  · rcases mem_append.mp hother with hold | hnew
    · exact h.panics other hold
    · exact mem_singleton.mp hnew ▸ hmember
  · exact h.panics other hother

theorem Accounted.step (hretries : 0 < supervisor.maxRetries)
    (hwindow : 0 < supervisor.window) {event : FamilyEvent μ ρ ι}
    (hcond : w.Unhurried supervisor children event)
    (hstep : w.step supervisor children event = some next) : next.Accounted supervisor children := by
  cases does_of_step hstep with
  | member hmember => exact h.put hmember _ _
  | @fault cid now hasChildren hpanic =>
    have herased : { w with panics := w.panics.erase cid }.Accounted supervisor children :=
      h.of_eq (fun member hmember => h.panics member (mem_of_mem_erase hmember)) rfl rfl
    exact herased.handleRestartDirective hretries hwindow (h.panics cid hpanic) hcond.1 hasChildren
  | @delayPassed task | @pausePassed task =>
    have herased : { w with tasks := w.tasks.eraseIdx task }.Accounted supervisor children := { h with }
    exact herased.restarts (restarts_tryRestart supervisor _ (mem_singleton_self _) _ _)
  | parentGone => exact { h with }
  | @outside member event state hmember =>
    have hput := h.put hmember event state
    exact { hput with }

end

/-! ### The exhausted budget -/

/-- Nothing is left to revive a child whose budget is exhausted. -/
structure Spent (supervisor : Supervisor) (children : List ι) (w : Family μ ρ ι) : Prop where
  started : ∀ member, (w.members member).starting = false
  shared : supervisor.strategy = .oneForAll → ∀ member ∈ children, ∀ other ∈ children,
    w.exhausted member = w.exhausted other
  idle : ∀ member, w.exhausted member = true → (w.members member).restartPhase = none ∧
    (∀ task ∈ w.tasks, task.member ≠ member) ∧
    supervisor.maxRetries < (w.histories member).consecutive

omit [DecidableEq ι] in
theorem spent_create (admits : ι → List (Message μ ρ) → Message μ ρ → Bool)
    (config : ι → Option (ReentrancyMode × ℚ)) : (create admits config).Spent supervisor children
    where
  started _ := rfl
  shared _ _ _ _ _ := rfl
  idle _ h := nomatch h

omit [DecidableEq ι] in
/-- A further fault of an exhausted group finds it exhausted. -/
theorem Spent.exceeds (h : w.Spent supervisor children) (hretries : 0 < supervisor.maxRetries)
    (hwindow : 0 < supervisor.window) {now : ℚ} (hexhausted : w.exhausted cid = true)
    (hnear : now - (w.histories cid).lastAt ≤ supervisor.window) :
    w.exceeds supervisor cid now := by
  refine ⟨hretries, hwindow, ?_⟩
  rw [FaultHistory.recordFault, if_neg fun hfar => absurd hfar.2.2 (not_lt.mpr hnear)]
  have hspent := (h.idle cid hexhausted).2.2
  push_cast
  linarith

/-- A member is suspended or left alone. -/
theorem exhaust_member (supervisor : Supervisor) (children : List ι) (w : Family μ ρ ι)
    (cid member : ι) :
    (w.exhaust supervisor children cid).members member = w.members member ∨
    (w.exhaust supervisor children cid).members member =
      { w.members member with suspended := true } := by
  unfold exhaust
  dsimp only
  split
  · exact Or.inr rfl
  · exact Or.inl rfl

section

variable (h : w.Spent supervisor children)
include h

theorem Spent.fault (haccounted : w.Accounted supervisor children)
    (hretries : 0 < supervisor.maxRetries) (hwindow : 0 < supervisor.window) {cid : ι} {now : ι → ℚ}
    (hcid : cid ∈ children) (hasChildren : ι → Bool)
    (hcond : w.Unhurried supervisor children (.fault cid now hasChildren)) :
    (w.handleRestartDirective supervisor children cid now hasChildren).Spent supervisor children ∧
    ∀ member, w.exhausted member = true → (w.members member).isRunning = false →
      ((w.handleRestartDirective supervisor children cid now hasChildren).members member).isRunning =
        false := by
  unfold handleRestartDirective
  split_ifs with hexceeds
  · have hmembers := exhaust_member supervisor children
      (w.recordFaults supervisor children cid now false) cid
    refine ⟨⟨fun member => ?_, fun hall member hmember other hother => ?_, fun member hmember => ?_⟩,
      fun member hmember hdown => ?_⟩
    · rcases hmembers member with hsame | hsuspended
      · exact hsame ▸ h.started member
      · exact hsuspended ▸ h.started member
    · simp only [exhaust, recordFaults, mem_supervisionGroup_of_all cid hall hmember,
        mem_supervisionGroup_of_all cid hall hother, decide_true, Bool.or_true]
    · by_cases hgroup : member ∈ supervisor.supervisionGroup children cid
      · have hquiet := hcond.2.2 hexceeds member hgroup
        refine ⟨?_, hquiet.2, ?_⟩
        · rcases hmembers member with hsame | hsuspended
          · exact hsame ▸ hquiet.1
          · exact hsuspended ▸ hquiet.1
        · simp only [exhaust, recordFaults, hgroup, if_true, haccounted.same hcid hcond.1 hgroup]
          exact hexceeds.2.2
      · have hold : w.exhausted member = true := by
          simpa [exhaust, recordFaults, hgroup] using hmember
        have hidle := h.idle member hold
        simpa [exhaust, recordFaults, hgroup] using hidle
    · rcases hmembers member with hsame | hsuspended
      · exact hsame ▸ hdown
      · rw [hsuspended]
        simp [PidState.isRunning]
  · -- an exhausted child is not in a group with budget left
    have hout : ∀ member, w.exhausted member = true →
        member ∉ supervisor.supervisionGroup children cid := by
      intro member hmember hgroup
      have hexhausted : w.exhausted cid = true := by
        rcases of_mem_supervisionGroup hgroup with rfl | ⟨hall, hchild⟩
        · exact hmember
        · exact (h.shared hall cid hcid member hchild).trans hmember
      exact hexceeds (h.exceeds hretries hwindow hexhausted (hcond.2.1 hexhausted))
    have hframe := restarts_restartGroup supervisor
      (backoffDelay ((w.histories cid).recordFault supervisor.window (now cid)).consecutive
        supervisor.initialDelay supervisor.maxDelay) hasChildren _
      (w.recordFaults supervisor children cid now true)
      fun (_ : ι) (hmember : _ ∈ supervisor.supervisionGroup children cid) => hmember
    refine ⟨⟨fun member => ?_, ?_, fun member hmember => ?_⟩, fun member hmember hdown => ?_⟩
    · exact (hframe.starting member).trans (h.started member)
    · rw [hframe.exhausted]
      exact h.shared
    · have hold : w.exhausted member = true := by
        rw [hframe.exhausted] at hmember
        exact hmember
      obtain ⟨hphase, htasks, hspent⟩ := h.idle member hold
      refine ⟨?_, fun task htask heq => ?_, ?_⟩
      · rw [hframe.members member (hout member hold)]
        exact hphase
      · rcases hframe.tasks task htask with hold' | hgroup
        · exact htasks task hold' heq
        · exact hout member hold (heq ▸ hgroup)
      · rw [hframe.histories]
        simpa [recordFaults, hout member hold] using hspent
    · rw [hframe.members member (hout member hmember)]
      exact hdown

omit [DecidableEq ι] in
/-- An attempt to restart another child. -/
theorem Spent.restarts {other : ι}
    (hother : w.exhausted other = false) (hframe : Restarts [other] w next) :
    next.Spent supervisor children ∧
    ∀ member, w.exhausted member = true → (w.members member).isRunning = false →
      (next.members member).isRunning = false := by
  have hne : ∀ member, w.exhausted member = true → member ∉ [other] := by
    intro member hmember hmem
    rw [mem_singleton.mp hmem] at hmember
    cases hother.symm.trans hmember
  refine ⟨⟨fun member => ?_, ?_, fun member hmember => ?_⟩, fun member hmember hdown => ?_⟩
  · exact (hframe.starting member).trans (h.started member)
  · rw [hframe.exhausted]
    exact h.shared
  · rw [hframe.exhausted] at hmember
    obtain ⟨hphase, htasks, hspent⟩ := h.idle member hmember
    refine ⟨?_, fun task htask heq => ?_, ?_⟩
    · rw [hframe.members member (hne member hmember)]
      exact hphase
    · rcases hframe.tasks task htask with hold | hgroup
      · exact htasks task hold heq
      · exact hne member hmember (heq ▸ hgroup)
    · rw [hframe.histories]
      exact hspent
  · rw [hframe.members member (hne member hmember)]
    exact hdown

omit [DecidableEq ι] in
/-- The task of a child whose budget is not exhausted. -/
theorem Spent.task {index : ℕ} {task : RestartTask ι}
    (htask : w.tasks[index]? = some task) : w.exhausted task.member = false := by
  by_contra hexhausted
  exact (h.idle task.member (by simpa using hexhausted)).2.1 task (mem_of_getElem? htask) rfl

omit [DecidableEq ι] in
theorem Spent.eraseIdx (index : ℕ) :
    { w with tasks := w.tasks.eraseIdx index }.Spent supervisor children :=
  ⟨h.started, h.shared, fun member hmember => ⟨(h.idle member hmember).1,
    fun task htask => (h.idle member hmember).2.1 task (mem_of_mem_eraseIdx htask),
    (h.idle member hmember).2.2⟩⟩

theorem Spent.put {state : PidState μ ρ}
    (hinternal : event.internal = true) (hstep : (w.members member).step event = some state) :
    (w.put supervisor member event state).Spent supervisor children ∧
    ∀ other, w.exhausted other = true → (w.members other).isRunning = false →
      ((w.put supervisor member event state).members other).isRunning = false := by
  have hstarting := (PidState.still_of_step hstep).1 (h.started member)
  have hcalm : w.exhausted member = true → state.Calm ∧
      ((w.members member).isRunning = false → state.isRunning = false) := by
    intro hmember
    have hbefore : (w.members member).Calm := ⟨h.started member, (h.idle member hmember).1⟩
    exact hbefore.step hinternal hstep
  refine ⟨⟨fun other => ?_, h.shared, fun other hother => ⟨?_, fun task htask heq => ?_, ?_⟩⟩,
    fun other hother hdown => ?_⟩
  · by_cases heq : other = member
    · subst heq
      simpa [Family.put] using hstarting
    · simpa [Family.put, heq] using h.started other
  · by_cases heq : other = member
    · subst heq
      simpa [Family.put] using (hcalm hother).1.2
    · simpa [Family.put, heq] using (h.idle other hother).1
  · obtain ⟨old, hold, hmember⟩ := put_tasks htask
    exact (h.idle other hother).2.1 old hold (hmember.trans heq)
  · exact (h.idle other hother).2.2
  · by_cases heq : other = member
    · subst heq
      simpa [Family.put] using (hcalm hother).2 hdown
    · simpa [Family.put, heq] using hdown

theorem Spent.call {state : PidState μ ρ}
    (hmember : member ∈ children) (hstep : (w.members member).step event = some state) :
    (w.call supervisor children member event state).Spent supervisor children ∧
    ∀ other, (w.call supervisor children member event state).exhausted other = true →
      ((w.call supervisor children member event state).members other) = w.members other := by
  have hstarting := (PidState.still_of_step hstep).1 (h.started member)
  have hout : ∀ other, (w.call supervisor children member event state).exhausted other = true →
      w.exhausted other = true ∧ other ≠ member := by
    intro other hother
    simp only [Family.call, Bool.and_eq_true, decide_eq_true_eq] at hother
    exact ⟨hother.1, fun heq => hother.2 (heq ▸ by unfold Supervisor.supervisionGroup; split <;> simp)⟩
  have hmembers : ∀ other, (w.call supervisor children member event state).exhausted other = true →
      ((w.call supervisor children member event state).members other) = w.members other := by
    intro other hother
    simp [Family.call, Family.put, (hout other hother).2]
  refine ⟨⟨fun other => ?_, fun hall other hother another hanother => ?_, fun other hother =>
    ⟨?_, fun task htask heq => ?_, ?_⟩⟩, hmembers⟩
  · by_cases heq : other = member
    · subst heq
      simpa [Family.call, Family.put] using hstarting
    · simpa [Family.call, Family.put, heq] using h.started other
  · simp only [Family.call, h.shared hall other hother another hanother,
      mem_supervisionGroup_of_all member hall hother, mem_supervisionGroup_of_all member hall hanother]
  · rw [hmembers other hother]
    exact (h.idle other (hout other hother).1).1
  · have hput : task ∈ (w.put supervisor member event state).tasks := htask
    obtain ⟨old, hold, heq'⟩ := put_tasks hput
    exact (h.idle other (hout other hother).1).2.1 old hold (heq'.trans heq)
  · exact (h.idle other (hout other hother).1).2.2

theorem Spent.step (haccounted : w.Accounted supervisor children)
    (hretries : 0 < supervisor.maxRetries) (hwindow : 0 < supervisor.window)
    {event : FamilyEvent μ ρ ι} (hcond : w.Unhurried supervisor children event)
    (hnext : w.step supervisor children event = some next) :
    next.Spent supervisor children ∧
    ∀ member, w.exhausted member = true → next.exhausted member = true →
      (w.members member).isRunning = false → (next.members member).isRunning = false := by
  cases does_of_step hnext with
  | member hmember hinternal hstep =>
    obtain ⟨hspent, hdown⟩ := h.put hinternal hstep
    exact ⟨hspent, fun member hexhausted _ => hdown member hexhausted⟩
  | @fault cid now hasChildren hpanic =>
    have herased : { w with panics := w.panics.erase cid }.Accounted supervisor children :=
      haccounted.of_eq (fun member hmember => haccounted.panics member
        (mem_of_mem_erase hmember)) rfl rfl
    have hsame : { w with panics := w.panics.erase cid }.Spent supervisor children :=
      ⟨h.started, h.shared, h.idle⟩
    obtain ⟨hspent, hdown⟩ := hsame.fault herased hretries hwindow
      (haccounted.panics cid hpanic) hasChildren hcond
    exact ⟨hspent, fun member hexhausted _ => hdown member hexhausted⟩
  | @delayPassed task _ _ htask | @pausePassed task _ _ _ htask =>
    obtain ⟨hspent, hdown⟩ := (h.eraseIdx task).restarts (h.task htask)
      (restarts_tryRestart supervisor _ (mem_singleton_self _) _ _)
    exact ⟨hspent, fun member hexhausted _ => hdown member hexhausted⟩
  | parentGone => exact ⟨h.eraseIdx _, fun _ _ _ => id⟩
  | outside hmember hrevival hstep =>
    obtain ⟨hspent, hmembers⟩ := h.call hmember hstep
    refine ⟨hspent, fun member _ hexhausted hdown => ?_⟩
    rw [hmembers member hexhausted]
    exact hdown

end

/-- In a run that meets the conditions: of the faults recorded in a group whose successive times
    differ by at most the window, at most `maxRetries` led to a restart; and after the budget was
    found exhausted, until someone outside supervision calls restart or reinstate, no event makes a
    member of the group run that does not. -/
theorem exhausted_budget_final {admits : ι → List (Message μ ρ) → Message μ ρ → Bool}
    {config : ι → Option (ReentrancyMode × ℚ)} {events : List (FamilyEvent μ ρ ι)}
    {event : FamilyEvent μ ρ ι} (hretries : 1 ≤ supervisor.maxRetries)
    (hwindow : 0 < supervisor.window)
    (hmeets : Meets (step supervisor children) (Unhurried supervisor children)
      (create admits config) (events ++ [event]))
    (hrun : run (step supervisor children) (create admits config) events = some w)
    (hstep : w.step supervisor children event = some next) :
    (∀ member segment, segment <:+: next.log member → Close supervisor.window segment →
      (segment.countP (·.2) : ℚ) ≤ supervisor.maxRetries) ∧
    ∀ member, w.exhausted member = true → next.exhausted member = true →
      (w.members member).isRunning = false → (next.members member).isRunning = false := by
  have hpos : 0 < supervisor.maxRetries := by linarith
  obtain ⟨hmeets, hcond⟩ := hmeets.of_append hrun
  have hkept : w.Accounted supervisor children ∧ w.Spent supervisor children :=
    run_preserves (P := fun w => w.Accounted supervisor children ∧ w.Spent supervisor children)
      (fun _ _ _ h hcond hstep => ⟨h.1.step hpos hwindow hcond hstep,
        (h.2.step h.1 hpos hwindow hcond hstep).1⟩)
      ⟨accounted_create admits config, spent_create admits config⟩ hmeets hrun
  refine ⟨fun member segment hsegment hclose => ?_, ?_⟩
  · have hnext := hkept.1.step hpos hwindow hcond.1 hstep
    exact (hnext.budgeted member).restarts_le hpos.le hsegment hclose
  · exact (hkept.2.step hkept.1 hpos hwindow hcond.1 hstep).2

/-- One restart in a window of a second, for all children. -/
def oneRetry (initialDelay : Option ℚ) : Supervisor :=
  .create ⟨some .oneForAll, some 1, some 1000, initialDelay, none, none⟩

/-- A message on which a child fails. -/
def failing (member message : ℕ) : List (FamilyEvent ℕ ℕ ℕ) :=
  [.member member (.tell message), .member member (.dispatch 0), .member member (.take 0 0),
    .member member (.threw 0 false)]

/-- Child 0 fails, both children are restarted, it fails again within the window: a message does not
    make it run. -/
theorem exhausted_child_stays_down :
    ∃ w ∈ run (step (oneRetry none) [0, 1]) (create (fun _ => unbounded) (fun _ => none))
      (failing 0 5 ++ [.fault 0 (fun _ => 1000) fun _ => false, .member 0 (.restartPreStartEnded true),
        .member 1 .restartPostStopEnded, .member 1 (.restartPreStartEnded true)] ++ failing 0 6 ++
        [.fault 0 (fun _ => 1500) fun _ => false]),
    ∃ next ∈ w.step (oneRetry none) [0, 1] (.member 0 (.tell 7)),
      w.log 0 = [(1500, false), (1000, true)] ∧ w.exhausted 0 = true ∧
      (next.members 0).isRunning = false := by
  refine ends_imp (P := fun w => ∃ next ∈ w.step (oneRetry none) [0, 1] (.member 0 (.tell 7)),
      w.log 0 = [(1500, false), (1000, true)] ∧ w.exhausted 0 = true ∧ next.exhausted 0 = true ∧
      (w.members 0).isRunning = false) (by decide +kernel) ?_
  rintro w hrun ⟨next, hstep, hlog, hexhausted, hexhausted', hdown⟩
  have hfinal := exhausted_budget_final (by decide +kernel) (by decide +kernel)
    (by decide +kernel) hrun hstep
  exact ⟨next, hstep, hlog, hexhausted, hfinal.2 0 hexhausted hexhausted' hdown⟩

/-- Child 0 fails and the restarts of both children wait out their backoff; child 1 fails before,
    and the budget is found exhausted. Then the delay passes, and child 0 is restarted. -/
theorem delayed_restart_revives :
    ∃ w ∈ run (step (oneRetry (some 100)) [0, 1]) (create (fun _ => unbounded) (fun _ => none))
      (failing 0 5 ++ [.fault 0 (fun _ => 1000) fun _ => false] ++ failing 1 6 ++
        [.fault 1 (fun _ => 1050) fun _ => false, .delayPassed 0 true false]),
    ∃ next ∈ w.step (oneRetry (some 100)) [0, 1] (.member 0 (.restartPreStartEnded true)),
      w.log 0 = [(1050, false), (1000, true)] ∧ w.exhausted 0 = true ∧ next.exhausted 0 = true ∧
      (w.members 0).isRunning = false ∧ (next.members 0).isRunning = true := by
  decide +kernel

end Family

end Nodeakt.Actor
