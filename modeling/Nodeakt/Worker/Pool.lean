import Nodeakt.Schemes.Queues
import Nodeakt.Schemes.Run
import Nodeakt.Worker.ControlPlane

/-! Top-level spawns over a pool of isolates (`worker.pool.ts`, `worker.runtime.ts`, and the spawns
    of `actor.system.ts`).

    The main isolate and each worker exchange control messages over two FIFO ports. An incarnation is
    numbered when its spawn is called, and its number stands for the sequence numbers and the recipes
    of the messages about it. One event is what an isolate does up to its next await: a call, the
    handling of one message, the outcome of an import or of a preStart, the rest of a spawn once its
    actor is there. A worker dies at any time; the pool learns of it later, and the messages it had
    posted may arrive before that.

    The replicated name tables of the workers are only read by lookups; a Props spawn on a worker is
    a call of `place` when its request arrives. -/

namespace Nodeakt.Worker
open Schemes

/-- Where a spawn is: ordered from a worker, called, waiting for its claim, starting, and then the
    life of the actor. -/
inductive SpawnStage where
  | absent
  | ordered
  | called
  | claiming
  | starting
  | live
  | stopping
  | stopped
  | failed
  deriving DecidableEq

/-- One spawn of a top-level actor. `listeners` counts what its stop will run, `returned` says that
    the call of a recipe's spawn is over. -/
structure Incarnation (ν : Type) where
  isolate : ℕ
  name : ν
  placed : Bool
  stage : SpawnStage
  listeners : ℕ
  returned : Bool

/-- What a worker posts to the pool. -/
inductive WorkerMessage (ν : Type) where
  | claim (pid : ℕ) (name : ν)
  | actorStopped (name : ν)
  | spawned (pid : ℕ)
  | spawnFailed (pid : ℕ)
  deriving DecidableEq

/-- What the pool sends to a worker. -/
inductive ControlMessage (ν : Type) where
  | spawn (pid : ℕ)
  | claimed (pid : ℕ) (won : Bool)
  | nameAdded (name : ν) (workerId : ℕ)
  | nameFreed (name : ν)
  deriving DecidableEq

/-- The promise a placement waits for. -/
inductive Flight where
  | idle
  | awaiting
  | resolved
  | rejected
  deriving DecidableEq

/-- `placing` and `flight` are the pool's, `ordering`, `table` and `tree` are those of each isolate. -/
structure Pool (ν : Type) where
  plane : ControlPlane ν
  placing : ν → Bool
  flight : ℕ → Flight
  workers : List ℕ
  alive : ℕ → Bool
  inbox : ℕ → List (ControlMessage ν)
  outbox : ℕ → List (WorkerMessage ν)
  ordering : ℕ → ν → Bool
  table : ℕ → ν → Option ℕ
  tree : ℕ → ν → Option ℕ
  actors : ℕ → Incarnation ν
  count : ℕ

inductive PoolEvent (ν : Type) where
  | place (name : ν)
  | spawn (isolate : ℕ) (name : ν)
  | imported (pid : ℕ) (ok : Bool)
  | started (pid : ℕ) (ok : Bool)
  | returned (pid : ℕ)
  | settled (pid : ℕ)
  | stop (pid : ℕ)
  | stopped (pid : ℕ)
  | receive (workerId : ℕ)
  | deliver (workerId : ℕ)
  | die (workerId : ℕ)
  | exit (workerId : ℕ)

namespace Pool

variable {ν : Type} [DecidableEq ν]

/-- A pool of `size` workers that have announced ready. An incarnation that is not there yet has some
    name. -/
def create (size : ℕ) (name : ν) : Pool ν where
  plane := .create ((List.range size).map (· + 1))
  placing _ := false
  flight _ := .idle
  workers := (List.range size).map (· + 1)
  alive id := id ≤ size
  inbox _ := []
  outbox _ := []
  ordering _ _ := false
  table _ _ := none
  tree _ _ := none
  actors _ := ⟨mainWorkerId, name, false, .absent, 0, false⟩
  count := 0

variable (p : Pool ν)

def isolate (pid : ℕ) : ℕ := (p.actors pid).isolate

def name (pid : ℕ) : ν := (p.actors pid).name

def stage (pid : ℕ) : SpawnStage := (p.actors pid).stage

/-- Changes one incarnation. -/
def change (pid : ℕ) (f : Incarnation ν → Incarnation ν) : Pool ν :=
  { p with actors := Function.update p.actors pid (f (p.actors pid)) }

def setStage (pid : ℕ) (stage : SpawnStage) : Pool ν := p.change pid ({ · with stage })

/-- A worker begins or ends the spawn of a name on the pool's order. -/
def setOrdering (id : ℕ) (name : ν) (ordering : Bool) : Pool ν :=
  { p with ordering :=
      Function.update p.ordering id (Function.update (p.ordering id) name ordering) }

/-- Sends a control message to a worker, unless it has exited. -/
def send (workerId : ℕ) (message : ControlMessage ν) : Pool ν :=
  if workerId ∈ p.workers then { p with inbox := push p.inbox workerId message } else p

/-- Sends a control message to every worker. -/
def broadcast (message : ControlMessage ν) : Pool ν :=
  { p with inbox := fun id => if id ∈ p.workers then p.inbox id ++ [message] else p.inbox id }

/-- A worker posts a message to the pool. -/
def post (workerId : ℕ) (message : WorkerMessage ν) : Pool ν :=
  { p with outbox := push p.outbox workerId message }

/-- Claims a name for an isolate; a name that is being placed is waved through. -/
def claim (name : ν) (workerId : ℕ) : Pool ν × Bool :=
  if p.placing name then (p, true)
  else match p.plane.register name workerId with
    | none => (p, false)
    | some plane => ({ p with plane }.broadcast (.nameAdded name workerId), true)

/-- Releases a name everywhere. -/
def release (name : ν) : Pool ν :=
  { p with plane := p.plane.free name }.broadcast (.nameFreed name)

/-- Frees a name, as the placement of an isolate does it. -/
def free (id : ℕ) (name : ν) : Pool ν :=
  if id = mainWorkerId then p.release name else p.post id (.actorStopped name)

/-- Frees a name once for each listener. -/
def freeAll (id : ℕ) (name : ν) : ℕ → Pool ν → Pool ν
  | 0, p => p
  | listeners + 1, p => freeAll id name listeners (p.free id name)

/-- The actor or the route the main system finds under a name. -/
def actorOf (name : ν) : Bool :=
  (match p.tree mainWorkerId name with
    | none => false
    | some pid => p.stage pid = .live) ||
  match p.plane.resolve name with
    | none => false
    | some id => id ≠ mainWorkerId

/-- A new incarnation. -/
def enlist (isolate : ℕ) (name : ν) (placed : Bool) (stage : SpawnStage) : Pool ν :=
  { p with
    actors := Function.update p.actors p.count ⟨isolate, name, placed, stage, 0, false⟩
    count := p.count + 1 }

/-- The spawn of an instance on its isolate: the name must be free in the tree, and then it is
    claimed, on a worker by a message unless the worker is spawning it on the pool's order. -/
def spawnHere (pid : ℕ) : Pool ν :=
  let id := p.isolate pid
  let name := p.name pid
  if p.tree id name ≠ none then p.setStage pid .failed
  else if id = mainWorkerId then
    match p.claim name mainWorkerId with
    | (p, true) => p.setStage pid .starting
    | (p, false) => p.setStage pid .failed
  else if p.ordering id name then p.setStage pid .starting
  else (p.setStage pid .claiming).post id (.claim pid name)

/-- Places a recipe: claims the name and has it spawned on the isolate the plane chooses. -/
def place (name : ν) : Pool ν :=
  if p.actorOf name then p
  else match p.plane.register name p.plane.place with
    | none => p
    | some plane =>
      let id := p.plane.place
      let next := { p with
        plane
        placing := Function.update p.placing name true
        flight := Function.update p.flight p.count .awaiting }
      if id = mainWorkerId then next.enlist id name true .called
      else (next.enlist id name true .ordered).send id (.spawn p.count)

/-- The end of a placement: the name is no longer being placed. -/
def land (pid : ℕ) : Pool ν :=
  { p with
    placing := Function.update p.placing (p.name pid) false
    flight := Function.update p.flight pid .idle }

/-- The rest of a recipe's spawn on its isolate, once its actor has started or failed. -/
def finishSpawn (pid : ℕ) : Pool ν :=
  let id := p.isolate pid
  let name := p.name pid
  if p.stage pid = .failed then
    let ended := p.change pid ({ · with returned := true })
    if id = mainWorkerId then (ended.release name).land pid
    else (ended.post id (.spawnFailed pid)).setOrdering id name false
  else
    let ended := p.change pid fun a => { a with listeners := a.listeners + 1, returned := true }
    if id = mainWorkerId then (ended.broadcast (.nameAdded name id)).land pid
    else (ended.post id (.spawned pid)).setOrdering id name false

/-- The rest of a placement on another isolate, once its reply has come. -/
def finishPlace (pid : ℕ) : Pool ν :=
  let name := p.name pid
  match p.flight pid with
  | .resolved => (p.broadcast (.nameAdded name (p.isolate pid))).land pid
  | _ => (p.release name).land pid

/-- The outcome of a preStart. -/
def finishStart (pid : ℕ) (ok : Bool) : Pool ν :=
  let id := p.isolate pid
  let name := p.name pid
  if ok then
    { p.change pid fun a => { a with stage := .live, listeners := a.listeners + 1 } with
      tree := Function.update p.tree id (Function.update (p.tree id) name (some pid)) }
  else (p.setStage pid .failed).free id name

/-- The end of a stop: the actor leaves the tree, and its listeners run. -/
def finishStop (pid : ℕ) : Pool ν :=
  let id := p.isolate pid
  let name := p.name pid
  let gone := { p.setStage pid .stopped with
    tree := if p.tree id name = some pid then
      Function.update p.tree id (Function.update (p.tree id) name none) else p.tree }
  freeAll id name (p.actors pid).listeners gone

/-- A worker handles a control message. -/
def handle (workerId : ℕ) : ControlMessage ν → Pool ν
  | .spawn pid =>
    let next := p.setOrdering workerId (p.name pid) true
    if p.stage pid = .ordered ∧ p.isolate pid = workerId then next.setStage pid .called else next
  | .claimed pid won =>
    if p.stage pid = .claiming ∧ p.isolate pid = workerId then
      p.setStage pid (if won then .starting else .failed)
    else p
  | .nameAdded name owner =>
    { p with table :=
        Function.update p.table workerId (Function.update (p.table workerId) name (some owner)) }
  | .nameFreed name =>
    { p with table :=
        Function.update p.table workerId (Function.update (p.table workerId) name none) }

/-- The pool settles the placement a reply is for. -/
def settle (workerId pid : ℕ) (flight : Flight) : Pool ν :=
  if p.flight pid = .awaiting ∧ p.isolate pid = workerId then
    { p with flight := Function.update p.flight pid flight }
  else p

/-- The pool handles a message of a worker. -/
def onMessage (workerId : ℕ) : WorkerMessage ν → Pool ν
  | .claim pid name =>
    match p.claim name workerId with
    | (p, won) => p.send workerId (.claimed pid won)
  | .actorStopped name => p.release name
  | .spawned pid => p.settle workerId pid .resolved
  | .spawnFailed pid => p.settle workerId pid .rejected

/-- Tells the workers that names are free again. -/
def broadcastFreed (p : Pool ν) : List ν → Pool ν
  | [] => p
  | name :: rest => (p.broadcast (.nameFreed name)).broadcastFreed rest

/-- The promise of a placement once the death of a worker is known. -/
def rejectPending (workerId pid : ℕ) : Flight :=
  if p.flight pid = .awaiting ∧ p.isolate pid = workerId then .rejected else p.flight pid

/-- The pool runs the death sequence of a worker. -/
def onExit (workerId : ℕ) : Pool ν :=
  let evicted := p.plane.evict workerId
  { p with
    workers := p.workers.filter (· ≠ workerId)
    plane := evicted.1
    outbox := Function.update p.outbox workerId []
    flight := p.rejectPending workerId }.broadcastFreed evicted.2

/-- One event. -/
def step (p : Pool ν) : PoolEvent ν → Option (Pool ν)
  | .place name => some (p.place name)
  | .spawn id name =>
    if p.alive id then some ((p.enlist id name false .called).spawnHere p.count) else none
  | .imported pid ok =>
    if p.alive (p.isolate pid) ∧ p.stage pid = .called then
      some (if ok then p.spawnHere pid else p.setStage pid .failed)
    else none
  | .started pid ok =>
    if p.alive (p.isolate pid) ∧ p.stage pid = .starting then some (p.finishStart pid ok) else none
  | .returned pid =>
    if p.alive (p.isolate pid) ∧ (p.actors pid).placed ∧ (p.actors pid).returned = false ∧
      p.stage pid ∈ [.live, .stopping, .stopped, .failed] then some (p.finishSpawn pid) else none
  | .settled pid =>
    if p.flight pid ∈ [.resolved, .rejected] then some (p.finishPlace pid) else none
  | .stop pid =>
    if p.alive (p.isolate pid) ∧ p.stage pid = .live then some (p.setStage pid .stopping) else none
  | .stopped pid =>
    if p.alive (p.isolate pid) ∧ p.stage pid = .stopping then some (p.finishStop pid) else none
  | .receive id =>
    match p.inbox id with
    | [] => none
    | message :: _ =>
      if p.alive id then some { p.handle id message with inbox := pop p.inbox id } else none
  | .deliver id =>
    match p.outbox id with
    | [] => none
    | message :: _ => some { p.onMessage id message with outbox := pop p.outbox id }
  | .die id =>
    if id ∈ p.workers then some { p with alive := Function.update p.alive id false } else none
  | .exit id => if id ∈ p.workers ∧ p.alive id = false then some (p.onExit id) else none

end Pool

end Nodeakt.Worker
