import Nodeakt.Schemes.Run

/-! Placement over the cluster registry (`clustering.placement.ts`, with the registry calls of
    `clustering.registry.ts`).

    A world is the placement records and, for each node, what its `ClusterPlacement` is doing: every
    spawn, placement, recreation and free is a call, numbered as they are made. A registry read or
    write happens at one moment, some time after it was sent; the node goes on when the answer is
    back. The worker pool of a node is seen through what it does to a call: it refuses, builds or
    fails it, and it notifies every release of a name, once for each listener of a stop and once for
    each release of a failed build; a release reaches the placement some time after it was made, as
    one made on a worker does. What a worker spawns or places is claimed in the pool only. A departed
    node does nothing more, but what it has sent to the registry may still happen. Companions are
    records of their own and are left out. -/

namespace Nodeakt.Clustering
open Schemes

/-- What a call is for: `spawn` of an instance and `place` on the main isolate, the same two made by
    a worker, the recreation of a departed node's actor, and the free of its name. -/
inductive CallKind (ι : Type) where
  | spawn
  | place
  | workerSpawn
  | workerPlace
  | recreate (deadOwner : ι)
  | free (deadOwner : ι)

/-- Where a call is. -/
inductive CallStage where
  | claiming
  | won
  | lost
  | booting
  | writing
  | building
  | failing
  | starting
  | live
  | stopping
  | restoring
  | over
  deriving DecidableEq

/-- A call on a node. `listeners` counts the releases its stop will notify, `owed` those still to
    come, and `deletes` the deletes of the record that have been sent and have not happened. -/
structure PlacementCall (ν ι : Type) where
  node : ι
  name : ν
  kind : CallKind ι
  stage : CallStage
  listeners : ℕ
  owed : ℕ
  deletes : ℕ

/-- How the pool ends a placement: built, refused before it owns the name, or failed with some
    releases. -/
inductive BuildOutcome where
  | built
  | refused
  | failed (releases : ℕ)

structure PlacementWorld (ν ι : Type) where
  registry : ν → Option ι
  departed : ι → Bool
  stopped : ι → Bool
  booted : ι → Bool
  placing : ι → ν → Bool
  recreating : ι → ν → Bool
  calls : ℕ → PlacementCall ν ι
  count : ℕ

inductive PlacementEvent (ν ι : Type) where
  | call (node : ι) (name : ν) (kind : CallKind ι)
  | applied (id : ℕ)
  | returned (id : ℕ) (claimed : Bool)
  | gaveUp (id : ℕ)
  | bootEnded (id : ℕ) (ok : Bool)
  | companionWritten (id : ℕ) (ok : Bool)
  | placed (id : ℕ) (outcome : BuildOutcome)
  | rejected (id : ℕ)
  | started (id : ℕ) (ok : Bool)
  | stop (id : ℕ)
  | stopped (id : ℕ)
  | workerDied (id : ℕ)
  | released (id : ℕ)
  | deleted (id : ℕ) (reached : Bool)
  | restored (id : ℕ) (reached : Bool)
  | shutdown (node : ι)
  | tornDown (node : ι)
  | depart (node : ι)

namespace PlacementWorld

variable {ν ι : Type} [DecidableEq ν] [DecidableEq ι]

/-- Nodes that have booted nothing, and no record. A call not made yet has some node and name. -/
def create (node : ι) (name : ν) : PlacementWorld ν ι where
  registry _ := none
  departed _ := false
  stopped _ := false
  booted _ := false
  placing _ _ := false
  recreating _ _ := false
  calls _ := ⟨node, name, .spawn, .over, 0, 0, 0⟩
  count := 0

variable (w : PlacementWorld ν ι)

def node (id : ℕ) : ι := (w.calls id).node

def name (id : ℕ) : ν := (w.calls id).name

def stage (id : ℕ) : CallStage := (w.calls id).stage

/-- Changes one call. -/
def change (id : ℕ) (f : PlacementCall ν ι → PlacementCall ν ι) : PlacementWorld ν ι :=
  { w with calls := Function.update w.calls id (f (w.calls id)) }

def setStage (id : ℕ) (stage : CallStage) : PlacementWorld ν ι :=
  w.change id fun call => { call with stage }

def setRecord (name : ν) (owner : Option ι) : PlacementWorld ν ι :=
  { w with registry := Function.update w.registry name owner }

def setPlacing (id : ℕ) (placing : Bool) : PlacementWorld ν ι :=
  let names := Function.update (w.placing (w.node id)) (w.name id) placing
  { w with placing := Function.update w.placing (w.node id) names }

def setRecreating (id : ℕ) (recreating : Bool) : PlacementWorld ν ι :=
  let names := Function.update (w.recreating (w.node id)) (w.name id) recreating
  { w with recreating := Function.update w.recreating (w.node id) names }

/-- Sends the delete of a record, unless the placement was stopped or is recreating the name. -/
def removeRecord (id : ℕ) : PlacementWorld ν ι :=
  if w.stopped (w.node id) ∨ w.recreating (w.node id) (w.name id) then w
  else w.change id fun call => { call with deletes := call.deletes + 1 }

/-- A running actor of the node gets one more listener to its stop. -/
def listen (node : ι) (call : PlacementCall ν ι) : PlacementCall ν ι :=
  if call.node = node ∧ call.stage = .live then { call with listeners := call.listeners + 1 }
  else call

/-- The boot of a node's pool, which listens to the stops of the actors running by then. -/
def boot (node : ι) : PlacementWorld ν ι :=
  if w.booted node then w
  else { w with
    booted := Function.update w.booted node true
    calls := fun id => listen node (w.calls id) }

/-- The pool's placement has settled: the name is no longer being built. -/
def endPlacing (id : ℕ) : PlacementWorld ν ι :=
  match (w.calls id).kind with
  | .workerPlace => w
  | _ => w.setPlacing id false

/-- A recreation has settled. -/
def endRecreating (id : ℕ) : PlacementWorld ν ι :=
  match (w.calls id).kind with
  | .recreate _ => w.setRecreating id false
  | _ => w

/-- A placement has failed: it is over, and a recreation returns its record to the dead owner. -/
def fail (id : ℕ) : PlacementWorld ν ι :=
  match (w.calls id).kind with
  | .recreate _ => w.setStage id .restoring
  | _ => w.setStage id .over

def add (call : PlacementCall ν ι) : PlacementWorld ν ι :=
  { w with
    calls := Function.update w.calls w.count call
    count := w.count + 1 }

/-- Workers exist once the pool is booted, and names are freed of departed nodes only. -/
def mayCall (node : ι) : CallKind ι → Bool
  | .workerSpawn | .workerPlace => w.booted node
  | .free deadOwner => w.departed deadOwner
  | _ => true

/-- A new call. A spawn of a name the node is building claims nothing, and nothing a worker makes is
    claimed in the cluster. -/
def enlist (node : ι) (name : ν) (kind : CallKind ι) : PlacementWorld ν ι :=
  let stage := match kind with
    | .spawn => if w.placing node name then .starting else .claiming
    | .workerSpawn => .starting
    | .workerPlace => .building
    | _ => .claiming
  w.add ⟨node, name, kind, stage, 0, 0, 0⟩

/-- The registry applies the claim, the compare-and-set or the read of a call. -/
def apply (id : ℕ) : PlacementWorld ν ι :=
  let name := w.name id
  match (w.calls id).kind with
  | .recreate deadOwner =>
    if w.registry name = some deadOwner then
      (w.setRecord name (some (w.node id))).setStage id .won
    else w.setStage id .lost
  | .free deadOwner =>
    if w.registry name = some deadOwner then
      w.change id fun call => { call with stage := .over, deletes := call.deletes + 1 }
    else w.setStage id .over
  | .workerSpawn | .workerPlace => w
  | _ =>
    if w.registry name = none then (w.setRecord name (some (w.node id))).setStage id .won
    else w.setStage id .lost

/-- The answer to a won claim is back: an instance goes on to its pool and its preStart, a placement
    to the boot of its pool. -/
def goOn (id : ℕ) (claimed : Bool) : PlacementWorld ν ι :=
  match (w.calls id).kind with
  | .recreate _ => (w.setRecreating id true).setStage id .booting
  | .place => w.setStage id .booting
  | _ =>
    if w.booted (w.node id) ∧ claimed = false then (w.removeRecord id).setStage id .over
    else w.setStage id .starting

/-- The compare-and-set that returns a record to the dead owner. -/
def restore (id : ℕ) : PlacementWorld ν ι :=
  match (w.calls id).kind with
  | .recreate deadOwner =>
    if w.registry (w.name id) = some (w.node id) then w.setRecord (w.name id) (some deadOwner)
    else w
  | _ => w

/-- One event. -/
def step (w : PlacementWorld ν ι) : PlacementEvent ν ι → Option (PlacementWorld ν ι)
  | .call node name kind =>
    if w.departed node = false ∧ w.mayCall node kind then some (w.enlist node name kind) else none
  | .applied id => if w.stage id = .claiming then some (w.apply id) else none
  | .returned id claimed =>
    if w.departed (w.node id) then none
    else if w.stage id = .won then some (w.goOn id claimed)
    else if w.stage id = .lost then some (w.setStage id .over)
    else none
  | .gaveUp id =>
    if w.departed (w.node id) = false ∧ w.stage id ∈ [.claiming, .won, .lost] then
      some (w.setStage id .over)
    else none
  | .bootEnded id ok =>
    if w.departed (w.node id) = false ∧ w.stage id = .booting then
      some (if ok then (w.boot (w.node id)).setStage id .writing else (w.removeRecord id).fail id)
    else none
  | .companionWritten id ok =>
    if w.departed (w.node id) = false ∧ w.stage id = .writing then
      some (if ok then (w.setPlacing id true).setStage id .building
        else (w.removeRecord id).fail id)
    else none
  | .placed id outcome =>
    if w.departed (w.node id) = false ∧ w.stage id = .building then
      some (match outcome with
        | .built => ((w.endPlacing id).endRecreating id).change id fun call =>
            { call with stage := .live, listeners := 2 }
        | .refused => (w.endPlacing id).fail id
        | .failed releases => w.change id fun call =>
            { call with stage := .failing, owed := releases })
    else none
  | .rejected id =>
    if w.departed (w.node id) = false ∧ w.stage id = .failing ∧ (w.calls id).owed = 0 then
      some ((w.endPlacing id).fail id)
    else none
  | .started id ok =>
    if w.departed (w.node id) = false ∧ w.stage id = .starting then
      some (if ok then w.change id fun call => { call with stage := .live, listeners := 1 }
        else w.change id fun call => { call with stage := .over, owed := 1 })
    else none
  | .stop id =>
    if w.departed (w.node id) = false ∧ w.stage id = .live then some (w.setStage id .stopping)
    else none
  | .stopped id =>
    if w.departed (w.node id) = false ∧ w.stage id = .stopping then
      some (w.change id fun call => { call with stage := .over, owed := call.listeners })
    else none
  | .workerDied id =>
    if w.departed (w.node id) = false ∧ w.stage id ∈ [.live, .stopping] then
      some (w.change id fun call => { call with stage := .over, owed := 1 })
    else none
  | .released id =>
    if w.departed (w.node id) = false ∧ 0 < (w.calls id).owed then
      some ((w.change id fun call => { call with owed := call.owed - 1 }).removeRecord id)
    else none
  | .deleted id reached =>
    if 0 < (w.calls id).deletes then
      some ((if reached then w.setRecord (w.name id) none else w).change id fun call =>
        { call with deletes := call.deletes - 1 })
    else none
  | .restored id reached =>
    if w.stage id = .restoring then
      some (((if reached then w.restore id else w).setRecreating id false).setStage id .over)
    else none
  | .shutdown node => some { w with stopped := Function.update w.stopped node true }
  | .tornDown node =>
    if w.stopped node then some { w with booted := Function.update w.booted node false } else none
  | .depart node => some { w with departed := Function.update w.departed node true }

end PlacementWorld

end Nodeakt.Clustering
