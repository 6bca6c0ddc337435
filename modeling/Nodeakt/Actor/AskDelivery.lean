import Nodeakt.Actor.AskSharing

/-! What asks deliver.

    Since a held context carries its ask, a behavior sees the message the ask was sent with and
    answers no other ask. Deliveries are counted for each ask and actor: what entered a mailbox left
    it once, for a behavior or for the stash of a paused actor, or still waits there. -/

namespace Nodeakt.Actor
open Schemes List

variable {μ : Type}
variable {next : World μ} {event : AskEvent μ}

namespace World

/-- Every behavior saw the message and the sender of the ask it was given, and every response
    settled that ask. -/
structure Faithful (world : World μ) : Prop where
  read : ∀ r ∈ world.reads, ∃ ask, world.asks[r.ask]? = some ask ∧
    r.message = some ask.message ∧ r.sender = ask.sender
  settled : ∀ pair ∈ world.settled, pair.2 = pair.1

/-- How often an ask itself put its message into the mailbox of an actor. -/
def sentTo (world : World μ) (id : AskId) (pid : Pid) : ℕ := match world.asks[id]? with
  | some ask => if ask.accepted ∧ ask.target = pid then 1 else 0
  | none => 0

/-- How often a behavior of an actor was given an ask. -/
def readBy (world : World μ) (id : AskId) (pid : Pid) : ℕ :=
  world.reads.countP fun r => r.ask = id ∧ r.pid = pid

/-- How often an ask waits in the mailbox of an actor. -/
def queuedAt (world : World μ) (id : AskId) (pid : Pid) : ℕ :=
  (world.queue (.mailbox pid)).countP fun d => d.ask = id

/-- Every time a message entered a mailbox, a behavior read it once, a paused loop stashed it once,
    or it is still there. -/
def Balanced (world : World μ) : Prop :=
  ∀ id pid, world.readBy id pid + world.held.count (id, pid) + world.queuedAt id pid =
    world.sentTo id pid + world.redelivered.count (id, pid)

variable {world : World μ} {context : ContextId} {pid : Pid} {delivery : Delivery}

section

variable (h : world.Faithful)
include h

theorem Faithful.respond (hsound : world.Sound)
    (hrun : world.running pid = some delivery) : (world.respond delivery).Faithful := by
  unfold World.respond
  split
  · exact h
  · rename_i ask hask
    refine ⟨h.read, fun pair hpair => ?_⟩
    rcases mem_append.mp hpair with hold | hnew
    · exact h.settled pair hold
    · rw [mem_singleton.mp hnew]
      exact (hsound.carried pid delivery (Or.inl hrun)).channel ask hask

theorem Faithful.enter (hsound : world.Sound) {index : ℕ}
    (hitem : (world.queue (.mailbox pid))[index]? = some delivery) :
    (world.enter pid index delivery).Faithful := by
  refine ⟨fun r hr => ?_, h.settled⟩
  rcases mem_append.mp hr with hold | hnew
  · exact h.read r hold
  · rw [mem_singleton.mp hnew]
    exact (hsound.item hitem).2.1.sent

theorem Faithful.ask (sender target : Pid) (message : μ) (accepted : Bool) :
    (world.ask sender target message accepted).Faithful := by
  rw [ask_eq]
  refine ⟨fun r hr => ?_, h.settled⟩
  obtain ⟨ask, hask, hseen⟩ := h.read r hr
  exact ⟨ask, getElem?_append_ask hask _, hseen⟩

theorem Faithful.recycle (context : ContextId) : (world.recycle context).Faithful := by
  rw [recycle_eq]
  exact { h with }

theorem Faithful.doReceive (pid : Pid) (delivery : Delivery)
    (accepted : Bool) : (world.doReceive pid delivery accepted).Faithful := by
  cases accepted <;> exact { h with }

theorem Faithful.step (hsound : world.Sound)
    (hstep : world.step event = some next) : next.Faithful := by
  cases does_of_step hstep with
  | ask sender target message accepted => exact h.ask sender target message accepted
  | expire | cancel | hold | stash | halt => exact { h with }
  | dispatch _ hitem => exact h.enter hsound hitem
  | response hrun | reject hrun => exact h.respond hsound hrun
  | unstash =>
    refine Faithful.doReceive ?_ ..
    exact { h with }
  | finish =>
    refine Faithful.recycle ?_ _
    exact { h with }
  | forward =>
    refine (Faithful.doReceive ?_ ..).recycle _
    exact { h with }

end

theorem Balanced.of_eq (h : world.Balanced) (hasks : next.asks = world.asks)
    (hreads : next.reads = world.reads) (hheld : next.held = world.held)
    (hqueue : ∀ p, next.queue (.mailbox p) = world.queue (.mailbox p))
    (hredelivered : next.redelivered = world.redelivered) : next.Balanced := by
  intro id pid
  have hbalance := h id pid
  unfold readBy queuedAt sentTo at hbalance ⊢
  rw [hasks, hreads, hheld, hqueue, hredelivered]
  exact hbalance

/-- One entry of a mailbox, a stash or a log counts for one ask and one actor. -/
def one (ask : AskId) (pid : Pid) (id : AskId) (q : Pid) : ℕ := if ask = id ∧ pid = q then 1 else 0

theorem queuedAt_push (next : World μ) (id : AskId) (q : Pid)
    (hqueue : next.queue = push world.queue (.mailbox pid) delivery) :
    next.queuedAt id q = world.queuedAt id q + one delivery.ask pid id q := by
  unfold queuedAt one
  rw [hqueue, countP_push]
  simp [and_comm, eq_comm]

theorem queuedAt_removeAt (next : World μ) (id : AskId) (q : Pid) {index : ℕ}
    (hitem : (world.queue (.mailbox pid))[index]? = some delivery)
    (hqueue : next.queue = removeAt world.queue (.mailbox pid) index) :
    next.queuedAt id q + one delivery.ask pid id q = world.queuedAt id q := by
  unfold queuedAt one
  rw [hqueue, ← countP_removeAt (j := .mailbox q) _ hitem]
  simp [and_comm, eq_comm]

/-- Stashing leaves the mailboxes alone. -/
theorem push_stash (queues : Place → List Delivery) (owner p : Pid) (delivery : Delivery) :
    push queues (.stash owner) delivery (.mailbox p) = queues (.mailbox p) := push_of_ne (by simp)

theorem count_concat (log : List (AskId × Pid)) (ask : AskId) (pid : Pid) (id : AskId) (q : Pid) :
    (log ++ [(ask, pid)]).count (id, q) = log.count (id, q) + one ask pid id q := by
  simp [one, count_singleton]

theorem Balanced.enter (h : world.Balanced) {index : ℕ}
    (hitem : (world.queue (.mailbox pid))[index]? = some delivery) :
    (world.enter pid index delivery).Balanced := by
  intro id q
  have hqueued := queuedAt_removeAt (world.enter pid index delivery) id q hitem rfl
  have hread : (world.enter pid index delivery).readBy id q =
      world.readBy id q + one delivery.ask pid id q := by
    simp [readBy, World.enter, one, countP_singleton]
  have hbalance := h id q
  change _ = world.sentTo id q + world.redelivered.count (id, q)
  change _ + world.held.count (id, q) + _ = _
  omega

theorem Balanced.hold (h : world.Balanced) {index : ℕ}
    (hitem : (world.queue (.mailbox pid))[index]? = some delivery) :
    (world.hold pid index delivery).Balanced := by
  intro id q
  obtain ⟨taken, htaken⟩ : ∃ taken, taken = removeAt world.queue (.mailbox pid) index := ⟨_, rfl⟩
  have hpop := queuedAt_removeAt { world with queue := taken } id q hitem htaken
  have hqueued : (world.hold pid index delivery).queuedAt id q =
      { world with queue := taken }.queuedAt id q := by
    rw [htaken]
    unfold queuedAt
    exact congrArg _ (push_stash (removeAt world.queue (.mailbox pid) index) pid q delivery)
  have hheld := count_concat world.held delivery.ask pid id q
  have hbalance := h id q
  change _ = world.sentTo id q + world.redelivered.count (id, q)
  change world.readBy id q + (world.held ++ [(delivery.ask, pid)]).count (id, q) + _ = _
  omega

theorem Balanced.doReceive (h : world.Balanced) (pid : Pid) (delivery : Delivery)
    (accepted : Bool) : (world.doReceive pid delivery accepted).Balanced := by
  cases accepted with
  | false => exact h
  | true =>
    intro id q
    have hqueued := queuedAt_push (world.doReceive pid delivery true) id q rfl
    have hredelivered := count_concat world.redelivered delivery.ask pid id q
    have hbalance := h id q
    change _ = world.sentTo id q + (world.redelivered ++ [(delivery.ask, pid)]).count (id, q)
    change world.readBy id q + world.held.count (id, q) + _ = _
    omega

theorem sentTo_concat (next : World μ) {ask : Ask μ} (id : AskId) (q : Pid)
    (hasks : next.asks = world.asks ++ [ask]) : next.sentTo id q = world.sentTo id q +
      if ask.accepted then one world.asks.length ask.target id q else 0 := by
  unfold sentTo one
  rw [hasks]
  rcases Nat.lt_trichotomy id world.asks.length with hlt | rfl | hgt
  · rw [getElem?_append_left hlt]
    simp [hlt.ne']
  · rw [getElem?_concat_length, getElem?_eq_none le_rfl]
    simp only [true_and, Nat.zero_add]
    exact ite_and ..
  · rw [getElem?_eq_none hgt.le, getElem?_eq_none (by simpa using hgt)]
    simp [hgt.ne]

theorem Balanced.ask (h : world.Balanced) (sender target : Pid) (message : μ) (accepted : Bool) :
    (world.ask sender target message accepted).Balanced := by
  rw [ask_eq]
  intro id q
  let sent : World μ := { world with
    asks := world.asks ++ [⟨sender, target, message, accepted⟩]
    queue := if accepted then
      push world.queue (.mailbox target) ⟨world.acquire.1, world.asks.length⟩ else world.queue }
  change world.readBy id q + world.held.count (id, q) + sent.queuedAt id q =
    sent.sentTo id q + world.redelivered.count (id, q)
  have hbalance := h id q
  have hsent : sent.sentTo id q = _ := sentTo_concat sent id q rfl
  cases accepted with
  | false =>
    change _ + world.queuedAt id q = _
    simp only [Bool.false_eq_true, if_false] at hsent
    omega
  | true =>
    have hqueued : sent.queuedAt id q = world.queuedAt id q + one world.asks.length target id q :=
      queuedAt_push sent id q rfl
    simp only [if_true] at hsent
    omega

theorem Balanced.recycle (h : world.Balanced) (context : ContextId) :
    (world.recycle context).Balanced := by
  rw [recycle_eq]
  exact h

theorem Balanced.step (h : world.Balanced) (hstep : world.step event = some next) :
    next.Balanced := by
  cases does_of_step hstep with
  | ask sender target message accepted => exact h.ask sender target message accepted
  | expire | cancel | halt => exact h
  | dispatch _ hitem => exact h.enter hitem
  | hold _ hitem => exact h.hold hitem
  | response | reject =>
    unfold World.respond
    split
    · exact h
    · exact h
  | @stash pid d =>
    have hmailbox := push_stash world.queue (world.contexts d.context).self
    exact h.of_eq rfl rfl rfl (fun p => hmailbox p d) rfl
  | @unstash pid d accepted =>
    have hmailbox : ∀ p, pop world.queue (.stash pid) (.mailbox p) = world.queue (.mailbox p) :=
      fun p => removeAt_of_ne (by simp)
    refine Balanced.doReceive ?_ pid d accepted
    exact h.of_eq rfl rfl rfl hmailbox rfl
  | finish =>
    refine Balanced.recycle ?_ _
    exact h
  | @forward pid routee d accepted =>
    refine Balanced.recycle (Balanced.doReceive ?_ routee d accepted) _
    exact h

/-! ### Runs -/

/-- Everything a run keeps. -/
structure Kept (world : World μ) : Prop where
  sound : world.Sound
  faithful : world.Faithful
  balanced : world.Balanced

theorem kept_empty : (empty : World μ).Kept := by
  have hholds : ∀ pid d, ¬ (empty : World μ).Holds pid d := by
    rintro pid d (hrun | ⟨place, -, hd⟩)
    · cases hrun
    · cases hd
  refine ⟨⟨nodup_nil, ?_, ⟨?_, ?_⟩, ?_, ?_, ?_, ?_⟩, ⟨?_, ?_⟩, ?_⟩
  · intro context hcontext
    cases hcontext
  · exact fun place => nodup_nil
  · intro i j a b ha
    cases ha
  · intro p q d e hd
    cases hd
  · intro pid d place e hd
    cases hd
  · intro context hset
    cases hset
  · exact fun pid d hd => absurd hd (hholds pid d)
  · intro r hr
    cases hr
  · intro pair hpair
    cases hpair
  · exact fun id pid => rfl

theorem Kept.step (h : world.Kept) (horderly : world.Orderly event)
    (hstep : world.step event = some next) : next.Kept :=
  ⟨h.sound.step horderly hstep, h.faithful.step h.sound hstep, h.balanced.step hstep⟩

/-- In an orderly run a pooled context is pooled once, in no pending generation, and held by no
    mailbox, stash or running behavior. So every behavior sees its ask unchanged, every delivery is
    read, stashed by the paused loop or still queued exactly once, and every response settles the
    ask whose message is being processed. -/
theorem contexts_never_shared {events : List (AskEvent μ)}
    (hmeets : Meets step Orderly empty events) (hrun : run step empty events = some world) :
    world.pool.Nodup ∧
    (∀ context ∈ world.pool, (world.contexts context).gen = false ∧
      ∀ pid delivery, world.Holds pid delivery → delivery.context ≠ context) ∧
    (∀ r ∈ world.reads, ∃ ask, world.asks[r.ask]? = some ask ∧
      r.message = some ask.message ∧ r.sender = ask.sender) ∧
    (∀ id pid, world.readBy id pid + world.held.count (id, pid) + world.queuedAt id pid =
      world.sentTo id pid + world.redelivered.count (id, pid)) ∧
    ∀ pair ∈ world.settled, pair.2 = pair.1 := by
  have hkept : world.Kept :=
    run_preserves (P := Kept) (fun _ _ _ h hcond hstep => h.step hcond hstep) kept_empty hmeets hrun
  refine ⟨hkept.sound.once, fun context hcontext => ?_, hkept.faithful.read, hkept.balanced,
    hkept.faithful.settled⟩
  obtain ⟨-, hrecyclable, hidle⟩ := hkept.sound.pooled context hcontext
  refine ⟨?_, hidle⟩
  simpa using (Bool.and_eq_true_iff.mp hrecyclable).2

/-- A stashed ask is read twice, answered once, and only then pooled. -/
theorem stashed_ask_pooled : ∃ world : World ℕ,
    run step empty [.ask 0 1 10 true, .dispatch 1 0, .stash 1, .finish 1, .unstash 1 true,
      .dispatch 1 0, .response 1, .finish 1] = some world ∧
    world.pool = [0] ∧ world.readBy 0 1 = 2 ∧ world.settled = [(0, 0)] ∧
    ∀ pid delivery, world.Holds pid delivery → delivery.context ≠ 0 := by
  refine ends_imp (P := fun world => world.pool = [0] ∧ world.readBy 0 1 = 2 ∧
      world.settled = [(0, 0)]) (by decide +kernel) ?_
  rintro world hrun ⟨hpool, hread, hsettled⟩
  have hsafe := contexts_never_shared (by decide +kernel) hrun
  exact ⟨hpool, hread, hsettled, (hsafe.2.1 0 (by simp [hpool])).2⟩

/-- An ask that expires in the mailbox and is then stashed is pooled while it is stashed; the next
    ask takes its context, and the stashed delivery reads and answers that ask instead. -/
theorem expired_ask_shared : ∃ pooled shared : World ℕ,
    run step empty [.ask 0 1 10 true, .expire 0, .dispatch 1 0, .stash 1, .finish 1] = some pooled ∧
    0 ∈ pooled.pool ∧ ⟨0, 0⟩ ∈ pooled.queue (.stash 1) ∧
    run step pooled [.ask 2 3 20 true, .unstash 1 true, .dispatch 1 0, .response 1] = some shared ∧
    ⟨0, 1, some 20, 2⟩ ∈ shared.reads ∧ (0, 1) ∈ shared.settled := by
  obtain ⟨pooled, hrun, hpool, hstash, shared, hshared⟩ : ∃ w ∈ run step (empty : World ℕ)
      [.ask 0 1 10 true, .expire 0, .dispatch 1 0, .stash 1, .finish 1],
      0 ∈ w.pool ∧ ⟨0, 0⟩ ∈ w.queue (.stash 1) ∧
      ∃ v ∈ run step w [.ask 2 3 20 true, .unstash 1 true, .dispatch 1 0, .response 1],
        ⟨0, 1, some 20, 2⟩ ∈ v.reads ∧ (0, 1) ∈ v.settled := by decide +kernel
  exact ⟨pooled, shared, hrun, hpool, hstash, hshared⟩

end World

end Nodeakt.Actor
