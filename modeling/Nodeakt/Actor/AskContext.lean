import Nodeakt.Schemes.Run
import Nodeakt.Schemes.Queues

/-! Ask contexts and their reuse (`receive.context.ts`, with the receive loop, the stash and the
    redelivery of `pid.ts` and the forwarding of `router.ts`).

    An ask travels in a context that carries its message and its reply channel; a context whose
    reply was settled is pooled at the end of a turn and armed again for a later ask. A context is
    known by its number, so that two holders of one context see each other's changes, as they do in
    the source. Next to it every holder keeps the ask it took the context for; that, the asks, and
    what was read, held, redelivered and settled are history, which no step looks at. -/

namespace Nodeakt.Actor
open Schemes

abbrev Pid := ℕ
abbrev ContextId := ℕ
abbrev AskId := ℕ

/-- Upper bound on pooled contexts. -/
def ASK_POOL_LIMIT : ℕ := 256

/-- The context of one ask delivery: `reply` and `fail` are the channel of one ask and are nulled
    together, and `gen` says whether the context is in a pending generation. `setAside` is history:
    the context was stashed in the turn that is still running. -/
structure AskContext (μ : Type) where
  message : Option μ
  self : Pid
  sender : Pid
  reply : Option AskId
  gen : Bool
  setAside : Bool

/-- A context as a mailbox, a stash or a behavior holds it, and the ask it holds it for. -/
structure Delivery where
  context : ContextId
  ask : AskId
  deriving DecidableEq

/-- What an ask was sent with, and whether the mailbox of its target took it. -/
structure Ask (μ : Type) where
  sender : Pid
  target : Pid
  message : μ
  accepted : Bool

/-- Where deliveries wait. -/
inductive Place where
  | mailbox (pid : Pid)
  | stash (pid : Pid)
  deriving DecidableEq

/-- The actor a place belongs to. -/
def Place.pid : Place → Pid
  | .mailbox pid => pid
  | .stash pid => pid

/-- A delivery a behavior was given, with the message and the sender it saw. -/
structure Read (μ : Type) where
  ask : AskId
  pid : Pid
  message : Option μ
  sender : Pid
  deriving DecidableEq

/-- The actors of a system, as far as asks go. The last five fields are history. -/
structure World (μ : Type) where
  contexts : ContextId → AskContext μ
  allocated : ℕ
  pool : List ContextId
  queue : Place → List Delivery
  running : Pid → Option Delivery
  asks : List (Ask μ)
  redelivered : List (AskId × Pid)
  held : List (AskId × Pid)
  reads : List (Read μ)
  settled : List (AskId × AskId)

/-- What happens. An ask, an unstash or a forward may be refused by the mailbox. -/
inductive AskEvent (μ : Type) where
  | ask (sender target : Pid) (message : μ) (accepted : Bool)
  | expire (context : ContextId)
  | cancel (context : ContextId)
  | dispatch (pid : Pid) (index : ℕ)
  | hold (pid : Pid) (index : ℕ)
  | response (pid : Pid)
  | reject (pid : Pid)
  | stash (pid : Pid)
  | unstash (pid : Pid) (accepted : Bool)
  | finish (pid : Pid)
  | halt (pid : Pid)
  | forward (pid routee : Pid) (accepted : Bool)

variable {μ : Type}

namespace AskContext

/-- Re-attaches a context to a fresh ask and enlists it. -/
def rearm (sender target : Pid) (message : μ) (ask : AskId) : AskContext μ :=
  ⟨some message, target, sender, some ask, true, false⟩

/-- Severs the reply channel and leaves the pending generation. -/
def settle (ctx : AskContext μ) : AskContext μ := { ctx with reply := none, gen := false }

/-- Re-attaches the delivery to a new receiving actor. -/
def retarget (ctx : AskContext μ) (self : Pid) : AskContext μ := { ctx with self := self }

/-- Whether the end of a turn returns the context to the pool. -/
def recyclable (ctx : AskContext μ) : Bool := ctx.reply.isNone && !ctx.gen

end AskContext

namespace World

/-- A system without asks. -/
def empty : World μ where
  contexts := fun _ => ⟨none, 0, 0, none, false, false⟩
  allocated := 0
  pool := []
  queue := fun _ => []
  running := fun _ => none
  asks := []
  redelivered := []
  held := []
  reads := []
  settled := []

section

variable (world : World μ)

/-- Changes one context. -/
def modify (context : ContextId) (f : AskContext μ → AskContext μ) : World μ :=
  { world with contexts := Function.update world.contexts context (f (world.contexts context)) }

/-- Enqueues a context in the mailbox again, unless it is refused. -/
def doReceive (pid : Pid) (delivery : Delivery) (accepted : Bool) : World μ :=
  if accepted then
    { world with
      queue := push world.queue (.mailbox pid) delivery
      redelivered := world.redelivered ++ [(delivery.ask, pid)] }
  else world

/-- Takes a context from the pool, or makes a new one. -/
def acquire : ContextId × World μ := match world.pool with
  | [] => (world.allocated, { world with allocated := world.allocated + 1 })
  | context :: rest => (context, { world with pool := rest })

/-- Sends an ask; one the mailbox refuses is cancelled. -/
def ask (sender target : Pid) (message : μ) (accepted : Bool) : World μ :=
  let id := world.asks.length
  let context := world.acquire.1
  let armed : World μ := world.acquire.2.modify context fun _ => .rearm sender target message id
  let asked : World μ := { armed with asks := world.asks ++ [⟨sender, target, message, accepted⟩] }
  if accepted then { asked with queue := push asked.queue (.mailbox target) ⟨context, id⟩ }
  else asked.modify context AskContext.settle

/-- Answers or rejects the ask whose channel the context carries, if it is open. -/
def respond (delivery : Delivery) : World μ :=
  match (world.contexts delivery.context).reply with
  | none => world
  | some ask =>
    { world.modify delivery.context AskContext.settle with
      settled := world.settled ++ [(delivery.ask, ask)] }

/-- Returns a context whose reply was settled to the pool. -/
def recycle (context : ContextId) : World μ :=
  if (world.contexts context).recyclable ∧ world.pool.length < ASK_POOL_LIMIT then
    { world with pool := context :: world.pool }
  else world

/-- Hands a message of a mailbox to the behavior. -/
def enter (pid : Pid) (index : ℕ) (delivery : Delivery) : World μ :=
  let ctx := world.contexts delivery.context
  { world with
    queue := removeAt world.queue (.mailbox pid) index
    running := Function.update world.running pid (some delivery)
    reads := world.reads ++ [⟨delivery.ask, pid, ctx.message, ctx.sender⟩] }

/-- Ends the turn of an actor. -/
def leave (pid : Pid) (context : ContextId) : World μ :=
  { world.modify context (fun ctx => { ctx with setAside := false }) with
    running := Function.update world.running pid none }

/-- Stashes a message of a mailbox, as the loop of a paused actor does. -/
def hold (pid : Pid) (index : ℕ) (delivery : Delivery) : World μ :=
  { world with
    queue := push (removeAt world.queue (.mailbox pid) index) (.stash pid) delivery
    held := world.held ++ [(delivery.ask, pid)] }

/-- Stashes the context of the running behavior with the actor it is attached to. -/
def stash (delivery : Delivery) : World μ :=
  { world.modify delivery.context (fun ctx => { ctx with setAside := true }) with
    queue := push world.queue (.stash (world.contexts delivery.context).self) delivery }

/-- Re-delivers the oldest stashed message. -/
def unstash (pid : Pid) (delivery : Delivery) (accepted : Bool) : World μ :=
  { world with queue := pop world.queue (.stash pid) }.doReceive pid delivery accepted

/-- Forwards the context of a router's turn to a routee, which ends the turn. -/
def redeliver (pid routee : Pid) (delivery : Delivery) (accepted : Bool) : World μ :=
  let left := world.leave pid delivery.context
  let target := left.modify delivery.context fun ctx => ctx.retarget routee
  (target.doReceive routee delivery accepted).recycle delivery.context

/-- One event. A loop takes a message when no behavior of its actor runs, from whichever place of
    the mailbox its kind serves next. -/
def step : AskEvent μ → Option (World μ)
  | .ask sender target message accepted => some (world.ask sender target message accepted)
  | .expire context =>
    if (world.contexts context).gen then some (world.modify context AskContext.settle) else none
  | .cancel context =>
    if (world.contexts context).reply.isSome then some (world.modify context AskContext.settle)
    else none
  | .dispatch pid index =>
    if world.running pid = none then
      (world.queue (.mailbox pid))[index]?.map (world.enter pid index)
    else none
  | .hold pid index =>
    if world.running pid = none then
      (world.queue (.mailbox pid))[index]?.map (world.hold pid index)
    else none
  | .response pid => (world.running pid).map world.respond
  | .reject pid => (world.running pid).map world.respond
  | .stash pid => (world.running pid).map world.stash
  | .unstash pid accepted =>
    (world.queue (.stash pid))[0]?.map fun delivery => world.unstash pid delivery accepted
  | .finish pid => (world.running pid).map fun delivery =>
      (world.leave pid delivery.context).recycle delivery.context
  | .halt pid => (world.running pid).map fun delivery => world.leave pid delivery.context
  | .forward pid routee accepted =>
    (world.running pid).map fun delivery => world.redeliver pid routee delivery accepted

end

/-- What an event does, with what it found. -/
inductive Does (world : World μ) : AskEvent μ → World μ → Prop
  | ask (sender target : Pid) (message : μ) (accepted : Bool) :
    Does world (.ask sender target message accepted) (world.ask sender target message accepted)
  | expire {context : ContextId} (hgen : (world.contexts context).gen = true) :
    Does world (.expire context) (world.modify context AskContext.settle)
  | cancel {context : ContextId} (hreply : (world.contexts context).reply.isSome = true) :
    Does world (.cancel context) (world.modify context AskContext.settle)
  | dispatch {pid : Pid} {index : ℕ} {d : Delivery} (hnone : world.running pid = none)
    (hitem : (world.queue (.mailbox pid))[index]? = some d) :
    Does world (.dispatch pid index) (world.enter pid index d)
  | hold {pid : Pid} {index : ℕ} {d : Delivery} (hnone : world.running pid = none)
    (hitem : (world.queue (.mailbox pid))[index]? = some d) :
    Does world (.hold pid index) (world.hold pid index d)
  | response {pid : Pid} {d : Delivery} (hrun : world.running pid = some d) :
    Does world (.response pid) (world.respond d)
  | reject {pid : Pid} {d : Delivery} (hrun : world.running pid = some d) :
    Does world (.reject pid) (world.respond d)
  | stash {pid : Pid} {d : Delivery} (hrun : world.running pid = some d) :
    Does world (.stash pid) (world.stash d)
  | unstash {pid : Pid} {d : Delivery} {accepted : Bool}
    (hitem : (world.queue (.stash pid))[0]? = some d) :
    Does world (.unstash pid accepted) (world.unstash pid d accepted)
  | finish {pid : Pid} {d : Delivery} (hrun : world.running pid = some d) :
    Does world (.finish pid) ((world.leave pid d.context).recycle d.context)
  | halt {pid : Pid} {d : Delivery} (hrun : world.running pid = some d) :
    Does world (.halt pid) (world.leave pid d.context)
  | forward {pid routee : Pid} {d : Delivery} {accepted : Bool}
    (hrun : world.running pid = some d) :
    Does world (.forward pid routee accepted) (world.redeliver pid routee d accepted)

theorem does_of_step {world : World μ} {event : AskEvent μ} {next : World μ}
    (h : world.step event = some next) : Does world event next := by
  cases event with
  | ask => exact Option.some.inj h ▸ .ask ..
  | expire | cancel =>
    obtain ⟨hopen, rfl⟩ := of_guarded h
    constructor
    exact hopen
  | dispatch | hold =>
    obtain ⟨hnone, hnext⟩ := Option.ite_none_right_eq_some.mp h
    obtain ⟨d, hd, rfl⟩ := Option.map_eq_some_iff.mp hnext
    constructor
    · exact hnone
    · exact hd
  | response | reject | stash | unstash | finish | halt | forward =>
    obtain ⟨d, hd, rfl⟩ := Option.map_eq_some_iff.mp h
    constructor
    exact hd

end World

end Nodeakt.Actor
