import Nodeakt.Actor.AskContext

/-! Who holds an ask context.

    A pooled context is held by nobody, and a context that is held carries the ask its holder took
    it for. Both rest on one condition: the end of a turn pools a context by its reply channel
    alone, so a context that was stashed or forwarded must still have its channel open then. -/

namespace Nodeakt.Actor
open Schemes List Function

variable {μ : Type}

namespace World

/-- The actor's mailbox, stash or running behavior holds this delivery. -/
def Holds (world : World μ) (pid : Pid) (delivery : Delivery) : Prop :=
  world.running pid = some delivery ∨
    ∃ place : Place, place.pid = pid ∧ delivery ∈ world.queue place

/-- Nobody holds the context. -/
def Idle (world : World μ) (context : ContextId) : Prop :=
  ∀ pid delivery, world.Holds pid delivery → delivery.context ≠ context

/-- The context of a delivery still carries its ask: the message and the sender, attached to the
    holder, with no other reply channel than that of the ask. -/
structure Carries (world : World μ) (pid : Pid) (delivery : Delivery) : Prop where
  sent : ∃ ask, world.asks[delivery.ask]? = some ask ∧
    (world.contexts delivery.context).message = some ask.message ∧
    (world.contexts delivery.context).sender = ask.sender
  attached : (world.contexts delivery.context).self = pid
  channel : ∀ ask, (world.contexts delivery.context).reply = some ask → ask = delivery.ask
  known : delivery.context < world.allocated

/-- A pooled context is there once and idle; a held one waits once, runs once, and does both only
    with the actor that stashed it in the running turn, while its ask is pending. -/
structure Sound (world : World μ) : Prop where
  once : world.pool.Nodup
  pooled : ∀ context ∈ world.pool, context < world.allocated ∧
    (world.contexts context).recyclable = true ∧ world.Idle context
  distinct : Distinct Delivery.context world.queue
  alone : ∀ p q d e, world.running p = some d → world.running q = some e →
    d.context = e.context → p = q
  aside : ∀ pid d place e, world.running pid = some d → e ∈ world.queue place →
    e.context = d.context → place.pid = pid ∧ (world.contexts d.context).setAside = true
  pending : ∀ context, (world.contexts context).setAside = true →
    (world.contexts context).reply.isSome = true
  carried : ∀ pid d, world.Holds pid d → world.Carries pid d

variable {world : World μ} {context : ContextId} {pid : Pid} {delivery : Delivery}
  {f : AskContext μ → AskContext μ}

@[simp] theorem modify_self :
    (world.modify context f).contexts context = f (world.contexts context) :=
  update_self ..

@[simp] theorem modify_of_ne {other : ContextId} (h : other ≠ context) :
    (world.modify context f).contexts other = world.contexts other := update_of_ne h ..

theorem leave_self : (world.leave pid context).contexts context =
    { world.contexts context with setAside := false } := update_self ..

/-- Only the pool and the count of contexts change when a context is taken. -/
theorem acquire_eq (world : World μ) : world.acquire.2 =
    { world with allocated := world.acquire.2.allocated, pool := world.acquire.2.pool } := by
  unfold acquire
  split <;> rfl

theorem ask_eq (world : World μ) (sender target : Pid) (message : μ) (accepted : Bool) :
    world.ask sender target message accepted = { world with
        contexts := (world.ask sender target message accepted).contexts
        allocated := (world.ask sender target message accepted).allocated
        pool := (world.ask sender target message accepted).pool
        queue := if accepted then
          push world.queue (.mailbox target) ⟨world.acquire.1, world.asks.length⟩ else world.queue
        asks := world.asks ++ [⟨sender, target, message, accepted⟩] } := by
  unfold ask
  rw [acquire_eq]
  cases accepted <;> rfl

theorem recycle_eq (world : World μ) (context : ContextId) :
    world.recycle context = { world with pool := (world.recycle context).pool } := by
  unfold recycle
  split <;> rfl

theorem doReceive_contexts (accepted : Bool) :
    (world.doReceive pid delivery accepted).contexts = world.contexts := by
  unfold doReceive
  split <;> rfl

theorem running_update {running : Pid → Option Delivery} {server : Pid} {served : Option Delivery}
    (h : Function.update running server served pid = some delivery) :
    pid = server ∧ served = some delivery ∨ pid ≠ server ∧ running pid = some delivery := by
  by_cases hpid : pid = server
  · subst hpid
    exact Or.inl ⟨rfl, by rwa [update_self] at h⟩
  · exact Or.inr ⟨hpid, by rwa [update_of_ne hpid] at h⟩

theorem Idle.not_waiting (h : world.Idle context) :
    ¬ Waiting Delivery.context world.queue context := by
  rintro ⟨place, d, hd, hcontext⟩
  exact h place.pid d (Or.inr ⟨place, rfl, hd⟩) hcontext

theorem Carries.modify_of_ne (h : world.Carries pid delivery) (hne : delivery.context ≠ context) :
    (world.modify context f).Carries pid delivery := by
  obtain ⟨hsent, hself, hchannel, hknown⟩ := h
  refine ⟨?_, ?_, ?_, hknown⟩
  · rwa [World.modify_of_ne hne]
  · rwa [World.modify_of_ne hne]
  · rwa [World.modify_of_ne hne]

/-- What a change of a held context must keep. -/
structure Gentle (f : AskContext μ → AskContext μ) : Prop where
  message : ∀ ctx, (f ctx).message = ctx.message
  sender : ∀ ctx, (f ctx).sender = ctx.sender
  self : ∀ ctx, (f ctx).self = ctx.self
  reply : ∀ ctx ask, (f ctx).reply = some ask → ctx.reply = some ask

theorem gentle_settle : Gentle (AskContext.settle (μ := μ)) :=
  ⟨fun _ => rfl, fun _ => rfl, fun _ => rfl, fun _ _ h => nomatch h⟩

theorem gentle_setAside (b : Bool) : Gentle fun ctx : AskContext μ => { ctx with setAside := b } :=
  ⟨fun _ => rfl, fun _ => rfl, fun _ => rfl, fun _ _ h => h⟩

theorem Carries.modify (h : world.Carries pid delivery) (hf : Gentle f) :
    (world.modify context f).Carries pid delivery := by
  by_cases heq : delivery.context = context
  · subst heq
    obtain ⟨⟨ask, hask, hmessage, hsender⟩, hself, hchannel, hknown⟩ := h
    refine ⟨⟨ask, hask, ?_, ?_⟩, ?_, ?_, hknown⟩
    · rw [modify_self, hf.message, hmessage]
    · rw [modify_self, hf.sender, hsender]
    · rw [modify_self, hf.self, hself]
    · rw [modify_self]
      exact fun id hid => hchannel id (hf.reply _ id hid)
  · exact h.modify_of_ne heq

/-! ### What the parts of a step keep -/

/-- A context may change as long as its holders still find their ask in it. -/
theorem Sound.modify (h : world.Sound)
    (hpool : context ∈ world.pool → (f (world.contexts context)).recyclable = true)
    (hpending : (f (world.contexts context)).setAside = true →
      (f (world.contexts context)).reply.isSome = true)
    (haside : ∀ pid d, world.running pid = some d → d.context = context →
      Waiting Delivery.context world.queue context → (f (world.contexts context)).setAside = true)
    (hcarried : ∀ pid d, world.Holds pid d → d.context = context →
      (world.modify context f).Carries pid d) : (world.modify context f).Sound := by
  refine ⟨h.once, ?_, h.distinct, h.alone, ?_, ?_, ?_⟩
  · intro c hc
    obtain ⟨hknown, hrecyclable, hidle⟩ := h.pooled c hc
    refine ⟨hknown, ?_, hidle⟩
    by_cases heq : c = context
    · subst heq
      rw [modify_self]
      exact hpool hc
    · rwa [modify_of_ne heq]
  · intro pid d place e hrun he hkey
    obtain ⟨hplace, hset⟩ := h.aside pid d place e hrun he hkey
    refine ⟨hplace, ?_⟩
    by_cases heq : d.context = context
    · subst heq
      rw [modify_self]
      exact haside pid d hrun rfl ⟨place, e, he, hkey⟩
    · rwa [modify_of_ne heq]
  · intro c
    by_cases heq : c = context
    · subst heq
      rw [modify_self]
      exact hpending
    · rw [modify_of_ne heq]
      exact h.pending c
  · intro pid d hd
    by_cases heq : d.context = context
    · exact hcarried pid d hd heq
    · exact (h.carried pid d hd).modify_of_ne heq

/-- An idle context that is not pooled may change at will. -/
theorem Sound.modify_idle (h : world.Sound) (hidle : world.Idle context)
    (hpool : context ∉ world.pool)
    (hpending : (f (world.contexts context)).setAside = true →
      (f (world.contexts context)).reply.isSome = true) : (world.modify context f).Sound :=
  h.modify (fun hc => absurd hc hpool) hpending
    (fun pid d hrun hc _ => absurd hc (hidle pid d (Or.inl hrun)))
    (fun pid d hd hc => absurd hc (hidle pid d hd))

/-- An ask may be settled while its context is not set aside. -/
theorem Sound.settle (h : world.Sound) (hset : (world.contexts context).setAside = false) :
    (world.modify context AskContext.settle).Sound := by
  refine h.modify (fun _ => rfl) ?_ ?_ (fun pid d hd _ => (h.carried pid d hd).modify gentle_settle)
  · intro hset'
    cases hset.symm.trans hset'
  · rintro pid d hrun rfl ⟨place, e, he, hkey⟩
    exact (h.aside pid d place e hrun he hkey).2

theorem Sound.enqueue (h : world.Sound) (place : Place)
    (hnot : ¬ Waiting Delivery.context world.queue delivery.context)
    (hpool : delivery.context ∉ world.pool) (hcarries : world.Carries place.pid delivery)
    (haside : ∀ pid d, world.running pid = some d → d.context = delivery.context →
      place.pid = pid ∧ (world.contexts delivery.context).setAside = true) :
    { world with queue := push world.queue place delivery }.Sound := by
  refine ⟨h.once, ?_, h.distinct.push hnot, h.alone, ?_, h.pending, ?_⟩
  · intro c hc
    obtain ⟨hknown, hrecyclable, hidle⟩ := h.pooled c hc
    refine ⟨hknown, hrecyclable, ?_⟩
    rintro pid d (hrun | ⟨other, hother, hd⟩)
    · exact hidle pid d (Or.inl hrun)
    · rcases mem_push.mp hd with hold | ⟨-, rfl⟩
      · exact hidle pid d (Or.inr ⟨other, hother, hold⟩)
      · rintro rfl
        exact hpool hc
  · intro pid d other e hrun he hkey
    rcases mem_push.mp he with hold | ⟨rfl, rfl⟩
    · exact h.aside pid d other e hrun hold hkey
    · rw [← hkey]
      exact haside pid d hrun hkey.symm
  · rintro pid d (hrun | ⟨other, rfl, hd⟩)
    · exact { h.carried pid d (Or.inl hrun) with }
    · rcases mem_push.mp hd with hold | ⟨rfl, rfl⟩
      · exact { h.carried _ d (Or.inr ⟨other, rfl, hold⟩) with }
      · exact { hcarries with }

theorem Holds.of_removeAt {place : Place} {index : ℕ}
    (h : { world with queue := removeAt world.queue place index }.Holds pid delivery) :
    world.Holds pid delivery := by
  rcases h with hrun | ⟨other, hother, hd⟩
  · exact Or.inl hrun
  · exact Or.inr ⟨other, hother, mem_of_mem_removeAt hd⟩

theorem Sound.dequeue (h : world.Sound) (place : Place) (index : ℕ) :
    { world with queue := removeAt world.queue place index }.Sound := by
  refine ⟨h.once, ?_, h.distinct.removeAt, h.alone, ?_, h.pending, ?_⟩
  · intro c hc
    obtain ⟨hknown, hrecyclable, hidle⟩ := h.pooled c hc
    exact ⟨hknown, hrecyclable, fun pid d hd => hidle pid d hd.of_removeAt⟩
  · exact fun pid d other e hrun he hkey =>
      h.aside pid d other e hrun (mem_of_mem_removeAt he) hkey
  · exact fun pid d hd => { h.carried pid d hd.of_removeAt with }

theorem Holds.of_update {served : Option Delivery} {server : Pid}
    (h : { world with running := update world.running server served }.Holds pid delivery) :
    world.Holds pid delivery ∨ pid = server ∧ served = some delivery := by
  rcases h with hrun | hqueued
  · rcases running_update hrun with hserved | ⟨-, hrun⟩
    · exact Or.inr hserved
    · exact Or.inl (Or.inl hrun)
  · exact Or.inl (Or.inr hqueued)

/-- A behavior may be given a context that is idle and not pooled. -/
theorem Sound.serve (h : world.Sound) (hidle : world.Idle delivery.context)
    (hpool : delivery.context ∉ world.pool) (hcarries : world.Carries pid delivery) :
    { world with running := update world.running pid (some delivery) }.Sound := by
  refine ⟨h.once, ?_, h.distinct, ?_, ?_, h.pending, ?_⟩
  · intro c hc
    obtain ⟨hknown, hrecyclable, hidle'⟩ := h.pooled c hc
    refine ⟨hknown, hrecyclable, fun q e he => ?_⟩
    rcases he.of_update with hold | ⟨-, hserved⟩
    · exact hidle' q e hold
    · cases hserved
      rintro rfl
      exact hpool hc
  · intro p q d e hd he hkey
    rcases running_update hd with ⟨rfl, hserved⟩ | ⟨-, hold⟩
    · cases hserved
      rcases running_update he with ⟨rfl, -⟩ | ⟨-, hold⟩
      · rfl
      · exact absurd hkey.symm (hidle q e (Or.inl hold))
    · rcases running_update he with ⟨rfl, hserved⟩ | ⟨-, hold'⟩
      · cases hserved
        exact absurd hkey (hidle p d (Or.inl hold))
      · exact h.alone p q d e hold hold' hkey
  · intro q d place e hd he hkey
    rcases running_update hd with ⟨rfl, hserved⟩ | ⟨-, hold⟩
    · cases hserved
      exact absurd hkey (hidle place.pid e (Or.inr ⟨place, rfl, he⟩))
    · exact h.aside q d place e hold he hkey
  · intro q d hd
    rcases hd.of_update with hold | ⟨rfl, hserved⟩
    · exact { h.carried q d hold with }
    · cases hserved
      exact { hcarries with }

theorem running_of_update_none {running : Pid → Option Delivery} {server : Pid}
    (h : Function.update running server none pid = some delivery) :
    pid ≠ server ∧ running pid = some delivery := by
  rcases running_update h with ⟨-, hserved⟩ | hold
  · cases hserved
  · exact hold

theorem Holds.of_update_none {server : Pid}
    (h : { world with running := update world.running server none }.Holds pid delivery) :
    world.Holds pid delivery := by
  rcases h.of_update with hold | ⟨-, hserved⟩
  · exact hold
  · cases hserved

theorem Sound.stop (h : world.Sound) (pid : Pid) :
    { world with running := update world.running pid none }.Sound := by
  refine ⟨h.once, ?_, h.distinct, ?_, ?_, h.pending, ?_⟩
  · intro c hc
    obtain ⟨hknown, hrecyclable, hidle⟩ := h.pooled c hc
    exact ⟨hknown, hrecyclable, fun q e he => hidle q e he.of_update_none⟩
  · exact fun p q d e hd he hkey => h.alone p q d e (running_of_update_none hd).2
      (running_of_update_none he).2 hkey
  · exact fun q d place e hd he hkey => h.aside q d place e (running_of_update_none hd).2 he hkey
  · exact fun q d hd => { h.carried q d hd.of_update_none with }

theorem Sound.leave (h : world.Sound) (hrun : world.running pid = some delivery) :
    (world.leave pid delivery.context).Sound := by
  have hstopped := h.stop pid
  refine hstopped.modify (fun hc => (h.pooled _ hc).2.1) ?_ ?_
    (fun q d hd _ => (hstopped.carried q d hd).modify (gentle_setAside false))
  · intro hset
    cases hset
  · intro q d hd hkey
    -- no other actor runs the context that was just left
    obtain ⟨hq, hold⟩ := running_of_update_none hd
    exact absurd (h.alone q pid d delivery hold hrun hkey) hq

/-- A turn that did not stash its context leaves it idle. -/
theorem Sound.idle_leave (h : world.Sound) (hrun : world.running pid = some delivery)
    (hset : (world.contexts delivery.context).setAside = false) :
    (world.leave pid delivery.context).Idle delivery.context := by
  rintro q d (hd | ⟨place, -, hd⟩) hkey
  · obtain ⟨hq, hold⟩ := running_of_update_none hd
    exact hq (h.alone q pid d delivery hold hrun hkey)
  · have haside := (h.aside pid delivery place d hrun hd hkey).2
    cases hset.symm.trans haside

theorem Sound.not_pooled (h : world.Sound) (hd : world.Holds pid delivery) :
    delivery.context ∉ world.pool :=
  fun hc => (h.pooled _ hc).2.2 pid delivery hd rfl

theorem Sound.recycle (h : world.Sound) (hpool : context ∉ world.pool)
    (hknown : context < world.allocated) (hidle : world.Idle context) :
    (world.recycle context).Sound := by
  unfold World.recycle
  split_ifs with hrecycled
  · refine
      { h with
        once := nodup_cons.mpr ⟨hpool, h.once⟩
        pooled := ?_
        carried := fun pid d hd => { h.carried pid d hd with } }
    intro c hc
    rcases mem_cons.mp hc with rfl | hc
    · exact ⟨hknown, hrecycled.1, hidle⟩
    · exact h.pooled c hc
  · exact h

/-- A context with an open channel stays out of the pool. -/
theorem recycle_of_pending (h : (world.contexts context).reply.isSome = true) :
    world.recycle context = world := by
  refine if_neg fun hrecycled => ?_
  obtain ⟨ask, hask⟩ := Option.isSome_iff_exists.mp h
  simp [AskContext.recyclable, hask] at hrecycled

/-- A context taken for a new ask is held by nobody. -/
theorem Sound.acquire (h : world.Sound) : world.acquire.2.Sound ∧
    world.acquire.2.Idle world.acquire.1 ∧ world.acquire.1 ∉ world.acquire.2.pool ∧
      world.acquire.1 < world.acquire.2.allocated := by
  unfold World.acquire
  split
  · rename_i hpool
    have hnone : ∀ c, c ∉ world.pool := by simp [hpool]
    refine ⟨⟨h.once, fun c hc => absurd hc (hnone c), h.distinct, h.alone, h.aside, h.pending, ?_⟩,
      ?_, hnone _, Nat.lt_succ_self _⟩
    · intro pid d hd
      obtain ⟨hsent, hself, hchannel, hknown⟩ := h.carried pid d hd
      exact ⟨hsent, hself, hchannel, Nat.lt_succ_of_lt hknown⟩
    · exact fun pid d hd => (h.carried pid d hd).known.ne
  · rename_i context rest hpool
    have honce := h.once
    rw [hpool, nodup_cons] at honce
    obtain ⟨hknown, -, hidle⟩ := h.pooled context (by simp [hpool])
    refine ⟨⟨honce.2, fun c hc => h.pooled c ?_, h.distinct, h.alone, h.aside, h.pending,
      fun pid d hd => { h.carried pid d hd with }⟩, hidle, honce.1, hknown⟩
    rw [hpool]
    exact mem_cons_of_mem _ hc

/-- An ask keeps its number. -/
theorem getElem?_append_ask {asks : List (Ask μ)} {id : AskId} {sent : Ask μ}
    (h : asks[id]? = some sent) (ask : Ask μ) : (asks ++ [ask])[id]? = some sent :=
  (List.getElem?_append_left (List.getElem?_eq_some_iff.mp h).1).trans h

theorem Sound.append (h : world.Sound) {asks : List (Ask μ)} {ask : Ask μ}
    (hasks : asks = world.asks ++ [ask]) : { world with asks }.Sound := by
  refine { h with carried := fun pid d hd => ?_ }
  obtain ⟨⟨sent, hsent, hrest⟩, hself, hchannel, hknown⟩ := h.carried pid d hd
  subst hasks
  exact ⟨⟨sent, getElem?_append_ask hsent ask, hrest⟩, hself, hchannel, hknown⟩

/-- What was read, held, redelivered and settled does not matter. -/
theorem Sound.with_history (h : world.Sound) (redelivered held : List (AskId × Pid))
    (reads : List (Read μ)) (settled : List (AskId × AskId)) :
    { world with redelivered, held, reads, settled }.Sound :=
  { h with carried := fun pid d hd => { h.carried pid d hd with } }

/-! ### One event -/

/-- A behavior stashes its context at most once in a turn, and a router forwards it, only while the
    ask is pending; from the stash to the end of the turn the ask is not settled. -/
def Orderly (world : World μ) : AskEvent μ → Prop
  | .stash pid => ∀ d ∈ world.running pid,
      (world.contexts d.context).reply.isSome = true ∧ (world.contexts d.context).setAside = false
  | .forward pid _ _ => ∀ d ∈ world.running pid,
      (world.contexts d.context).reply.isSome = true ∧ (world.contexts d.context).setAside = false
  | .response pid => ∀ d ∈ world.running pid, (world.contexts d.context).setAside = false
  | .reject pid => ∀ d ∈ world.running pid, (world.contexts d.context).setAside = false
  | .expire context => (world.contexts context).setAside = false
  | .cancel context => (world.contexts context).setAside = false
  | _ => True

instance (world : World μ) (event) : Decidable (world.Orderly event) := by
  rcases event <;> dsimp only [Orderly] <;> infer_instance

section

variable (h : world.Sound)
include h

theorem Sound.ask (sender target : Pid) (message : μ) (accepted : Bool) :
    (world.ask sender target message accepted).Sound := by
  obtain ⟨hacquired, hidle, hpool, hknown⟩ := h.acquire
  have harmed := hacquired.modify_idle (f := fun _ => .rearm sender target message world.asks.length)
    hidle hpool (fun hset => absurd hset Bool.false_ne_true)
  have hasked := harmed.append
    (congrArg (· ++ [⟨sender, target, message, accepted⟩]) (congrArg asks world.acquire_eq).symm)
  cases accepted with
  | true =>
    refine hasked.enqueue (.mailbox target) hidle.not_waiting hpool ?_
      (fun q d hrun hkey => absurd hkey (hidle q d (Or.inl hrun)))
    refine ⟨⟨_, getElem?_concat_length, ?_, ?_⟩, ?_, ?_, hknown⟩
    all_goals dsimp only
    all_goals rw [modify_self]
    · rfl
    · rfl
    · rfl
    · exact fun ask hask => (Option.some.inj hask).symm
  | false =>
    refine hasked.modify_idle hidle hpool (fun hset => ?_)
    rw [show _ = _ from modify_self] at hset
    cases hset

theorem Sound.respond (hset : (world.contexts delivery.context).setAside = false) :
    (world.respond delivery).Sound := by
  unfold World.respond
  split
  · exact h
  · exact (h.settle hset).with_history ..

/-- What an item of a queue leaves behind. -/
theorem Sound.item {place : Place} {index : ℕ}
    (hitem : (world.queue place)[index]? = some delivery) :
    delivery ∈ world.queue place ∧ world.Carries place.pid delivery ∧ delivery.context ∉ world.pool ∧
      ¬ Waiting Delivery.context (removeAt world.queue place index) delivery.context := by
  have hmem : delivery ∈ world.queue place := mem_of_getElem? hitem
  have hholds : world.Holds place.pid delivery := Or.inr ⟨place, rfl, hmem⟩
  exact ⟨hmem, h.carried _ _ hholds, h.not_pooled hholds, h.distinct.not_waiting_removeAt hitem⟩

theorem Sound.enter {index : ℕ} (hidle : world.running pid = none)
    (hitem : (world.queue (.mailbox pid))[index]? = some delivery) :
    (world.enter pid index delivery).Sound := by
  obtain ⟨hmem, hcarries, hpool, hnot⟩ := h.item hitem
  refine ((h.dequeue (.mailbox pid) index).serve ?_ hpool { hcarries with }).with_history ..
  rintro q d (hrun | ⟨place, -, hd⟩) hkey
  · obtain ⟨rfl, -⟩ := h.aside q d _ delivery hrun hmem hkey.symm
    cases hidle.symm.trans hrun
  · exact hnot ⟨place, d, hd, hkey⟩

/-- An item of a queue may move to another queue of the same actor. -/
theorem Sound.move (place other : Place) {index : ℕ} (hpid : other.pid = place.pid)
    (hitem : (world.queue place)[index]? = some delivery) :
    { world with queue := push (removeAt world.queue place index) other delivery }.Sound := by
  obtain ⟨hmem, hcarries, hpool, hnot⟩ := h.item hitem
  refine (h.dequeue place index).enqueue other hnot hpool ?_ ?_
  · rw [hpid]
    exact { hcarries with }
  · intro q d hrun hkey
    obtain ⟨hplace, hset⟩ := h.aside q d place delivery hrun hmem hkey.symm
    exact ⟨hpid.trans hplace, hkey ▸ hset⟩

theorem Sound.stash (hrun : world.running pid = some delivery)
    (hreply : (world.contexts delivery.context).reply.isSome = true)
    (hset : (world.contexts delivery.context).setAside = false) : (world.stash delivery).Sound := by
  have hholds : world.Holds pid delivery := Or.inl hrun
  have hself := (h.carried pid delivery hholds).attached
  have hmarked : (world.modify delivery.context fun ctx => { ctx with setAside := true }).Sound :=
    h.modify (fun hc => absurd hc (h.not_pooled hholds)) (fun _ => hreply) (fun _ _ _ _ _ => rfl)
      (fun q d hd _ => (h.carried q d hd).modify (gentle_setAside true))
  refine hmarked.enqueue (.stash (world.contexts delivery.context).self) ?_
    (h.not_pooled hholds) ?_ ?_
  · rintro ⟨place, e, he, hkey⟩
    have haside := (h.aside pid delivery place e hrun he hkey).2
    cases hset.symm.trans haside
  · change (World.modify _ _ _).Carries (world.contexts delivery.context).self delivery
    rw [hself]
    exact hmarked.carried pid delivery hholds
  · intro q d hd hkey
    rw [modify_self]
    exact ⟨hself.trans (h.alone pid q delivery d hrun hd hkey.symm), rfl⟩

theorem Sound.finish (hrun : world.running pid = some delivery) :
    ((world.leave pid delivery.context).recycle delivery.context).Sound := by
  have hholds : world.Holds pid delivery := Or.inl hrun
  cases hset : (world.contexts delivery.context).setAside with
  | true =>
    rw [recycle_of_pending (by rw [leave_self]; exact h.pending _ hset)]
    exact h.leave hrun
  | false =>
    exact (h.leave hrun).recycle (h.not_pooled hholds) (h.carried _ _ hholds).known
      (h.idle_leave hrun hset)

/-- A context that nobody holds may join a mailbox. -/
theorem Sound.doReceive (hidle : world.Idle delivery.context)
    (hpool : delivery.context ∉ world.pool) (hcarries : world.Carries pid delivery)
    (accepted : Bool) : (world.doReceive pid delivery accepted).Sound := by
  unfold World.doReceive
  split
  · exact (h.enqueue (.mailbox pid) hidle.not_waiting hpool hcarries
      (fun q d hd hkey => absurd hkey (hidle q d (Or.inl hd)))).with_history ..
  · exact h

theorem Sound.redeliver (hrun : world.running pid = some delivery)
    (hreply : (world.contexts delivery.context).reply.isSome = true)
    (hset : (world.contexts delivery.context).setAside = false) (routee : Pid) (accepted : Bool) :
    (world.redeliver pid routee delivery accepted).Sound := by
  have hholds : world.Holds pid delivery := Or.inl hrun
  have hidle := h.idle_leave hrun hset
  have hknown := (h.carried _ _ hholds).known
  have hpool := h.not_pooled hholds
  have htarget := (h.leave hrun).modify_idle (f := fun ctx => ctx.retarget routee) hidle hpool
    (fun hset' => (h.leave hrun).pending _ hset')
  have hcontext : ((world.leave pid delivery.context).modify delivery.context
      fun ctx => ctx.retarget routee).contexts delivery.context =
      { world.contexts delivery.context with setAside := false, self := routee } := by
    rw [modify_self, leave_self]
    rfl
  unfold World.redeliver
  rw [recycle_of_pending (by rw [doReceive_contexts, hcontext]; exact hreply)]
  refine htarget.doReceive hidle hpool ?_ accepted
  obtain ⟨hsent, -, hchannel, hknown⟩ := h.carried pid delivery hholds
  refine ⟨?_, ?_, ?_, hknown⟩
  · rw [hcontext]
    exact hsent
  · rw [hcontext]
  · rw [hcontext]
    exact hchannel

theorem Sound.step {event : AskEvent μ} {next : World μ}
    (horderly : world.Orderly event) (hstep : world.step event = some next) : next.Sound := by
  cases does_of_step hstep with
  | ask sender target message accepted => exact h.ask sender target message accepted
  | expire | cancel => exact h.settle horderly
  | dispatch hnone hitem => exact h.enter hnone hitem
  | hold _ hitem => exact (h.move (.mailbox _) (.stash _) rfl hitem).with_history ..
  | response hrun | reject hrun => exact h.respond (horderly _ hrun)
  | stash hrun => exact h.stash hrun (horderly _ hrun).1 (horderly _ hrun).2
  | @unstash pid d accepted hitem =>
    cases accepted with
    | false => exact h.dequeue ..
    | true => exact (h.move (.stash pid) (.mailbox pid) rfl hitem).with_history ..
  | finish hrun => exact h.finish hrun
  | halt hrun => exact h.leave hrun
  | forward hrun => exact h.redeliver hrun (horderly _ hrun).1 (horderly _ hrun).2 _ _

end

end World

end Nodeakt.Actor
