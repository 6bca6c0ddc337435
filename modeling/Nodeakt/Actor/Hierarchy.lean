import Nodeakt.Schemes.OrderedMap
import Nodeakt.Schemes.Run

/-! The actor hierarchy (`pid.tree.ts`, with the spawns and shutdowns of `pid.ts` and
    `actor.system.ts`).

    A spawn looks for the name in the tree, waits for preStart (and, in a pool, for the claim of the
    name), and enters the actor into the tree when it has started. A shutdown waits for the receive
    loop, asks the tree for the children, waits for theirs, runs postStop and leaves the tree. Actor 0
    is the guardian that top-level actors are spawned under.

    `one_actor_per_name` needs that no two spawns of a name under one parent overlap, that no spawn
    under an actor is pending when its shutdown asks for the children, and that the system spawns
    nothing once the guardian has asked for its own. -/

namespace Nodeakt.Actor
open Schemes Function

variable {ν : Type}

/-- Where an actor is between its creation and the end of its shutdown. `waiting` has the children
    whose shutdown it waits for. -/
inductive Stage where
  | absent
  | pending
  | failed
  | live
  | stopping
  | waiting (children : List ℕ)
  | postStop
  | stopped
  deriving DecidableEq

/-- The actor has started and has not finished stopping. -/
def Stage.running : Stage → Bool
  | .live | .stopping | .waiting _ | .postStop => true
  | .absent | .pending | .failed | .stopped => false

structure Node (ν : Type) where
  parent : Option ℕ
  name : ν
  path : List ν
  stage : Stage
  inTree : Bool

/-- The actors, numbered as they were created, and the tree: the children of each actor by name, and
    the actors without a registered parent. -/
structure Hierarchy (ν : Type) where
  nodes : ℕ → Node ν
  count : ℕ
  childrenOf : ℕ → OrderedMap ν ℕ
  forest : List ℕ

inductive HierarchyEvent (ν : Type) where
  | spawnChild (parent : ℕ) (name : ν)
  | spawn (name : ν)
  | started (pid : ℕ)
  | startFailed (pid : ℕ)
  | shutdown (pid : ℕ)
  | idle (pid : ℕ)
  | childrenStopped (pid : ℕ)
  | postStopEnded (pid : ℕ)

namespace Hierarchy

/-- The guardian alone. -/
def create (guardian : ν) : Hierarchy ν where
  nodes pid := ⟨none, guardian, [], if pid = 0 then .live else .absent, pid = 0⟩
  count := 1
  childrenOf _ := .empty
  forest := [0]

variable (h : Hierarchy ν)

def stage (pid : ℕ) : Stage := (h.nodes pid).stage

/-- Moves an actor to another stage. -/
def setStage (pid : ℕ) (stage : Stage) : Hierarchy ν :=
  { h with nodes := Function.update h.nodes pid { h.nodes pid with stage } }

def setInTree (pid : ℕ) (inTree : Bool) : Hierarchy ν :=
  { h with nodes := Function.update h.nodes pid { h.nodes pid with inTree } }

def setChildren (pid : ℕ) (children : OrderedMap ν ℕ) : Hierarchy ν :=
  { h with childrenOf := Function.update h.childrenOf pid children }

/-- A new actor, whose preStart is awaited. -/
def begin (parent : ℕ) (name : ν) : Hierarchy ν :=
  { h with
    nodes := Function.update h.nodes h.count
      ⟨some parent, name, (h.nodes parent).path ++ [name], .pending, false⟩
    count := h.count + 1 }

def kids (pid : ℕ) : List ℕ := (h.childrenOf pid).values

section

variable {h}

theorem stage_setStage (pid q : ℕ) (st : Stage) :
    (h.setStage pid st).stage q = if q = pid then st else h.stage q := by
  simp only [stage, setStage, update_apply]
  split <;> rfl

@[simp] theorem parent_setStage (pid q : ℕ) (st : Stage) :
    ((h.setStage pid st).nodes q).parent = (h.nodes q).parent :=
  read_update Node.parent (by rfl) q

@[simp] theorem name_setStage (pid q : ℕ) (st : Stage) :
    ((h.setStage pid st).nodes q).name = (h.nodes q).name :=
  read_update Node.name (by rfl) q

@[simp] theorem inTree_setStage (pid q : ℕ) (st : Stage) :
    ((h.setStage pid st).nodes q).inTree = (h.nodes q).inTree :=
  read_update Node.inTree (by rfl) q

/-- Who runs does not change when an actor moves to a stage in which it runs as before. -/
theorem running_setStage {pid : ℕ} {st : Stage} (hsame : st.running = (h.stage pid).running)
    (q : ℕ) : ((h.setStage pid st).stage q).running = (h.stage q).running := by
  rw [stage_setStage]
  split
  · subst q; exact hsame
  · rfl

theorem pending_setStage {pid : ℕ} {st : Stage} (hst : st ≠ .pending) {q : ℕ}
    (hq : (h.setStage pid st).stage q = .pending) : h.stage q = .pending ∧ q ≠ pid := by
  rw [stage_setStage] at hq
  split at hq
  · exact absurd hq hst
  · exact ⟨hq, ‹_›⟩

@[simp] theorem stage_setInTree (pid q : ℕ) (b : Bool) :
    (h.setInTree pid b).stage q = h.stage q :=
  read_update Node.stage (by rfl) q

@[simp] theorem parent_setInTree (pid q : ℕ) (b : Bool) :
    ((h.setInTree pid b).nodes q).parent = (h.nodes q).parent :=
  read_update Node.parent (by rfl) q

@[simp] theorem name_setInTree (pid q : ℕ) (b : Bool) :
    ((h.setInTree pid b).nodes q).name = (h.nodes q).name :=
  read_update Node.name (by rfl) q

theorem inTree_setInTree (pid q : ℕ) (b : Bool) :
    ((h.setInTree pid b).nodes q).inTree = if q = pid then b else (h.nodes q).inTree := by
  simp only [setInTree, update_apply]
  split <;> simp_all

theorem stage_create (guardian : ν) (pid : ℕ) :
    (create guardian).stage pid = if pid = 0 then .live else .absent := rfl

theorem begin_old (parent : ℕ) (name : ν) {q : ℕ} (hq : q ≠ h.count) :
    (h.begin parent name).nodes q = h.nodes q := update_of_ne hq ..

theorem begin_new (parent : ℕ) (name : ν) : (h.begin parent name).nodes h.count =
    ⟨some parent, name, (h.nodes parent).path ++ [name], .pending, false⟩ :=
  update_self ..

end

variable [DecidableEq ν]

def namedChild (parent : ℕ) (name : ν) : Option ℕ := (h.childrenOf parent).get name

/-- The child of an actor registered under a name. -/
def child (parent : ℕ) (name : ν) : Option ℕ :=
  if (h.nodes parent).inTree then h.namedChild parent name else none

/-- The direct children of an actor. -/
def children (pid : ℕ) : List ℕ := if (h.nodes pid).inTree then h.kids pid else []

def dropFromParent (pid : ℕ) : Hierarchy ν :=
  let name := (h.nodes pid).name
  match (h.nodes pid).parent with
  | none => { h with forest := h.forest.erase pid }
  | some parent =>
    if h.namedChild parent name = some pid then
      h.setChildren parent ((h.childrenOf parent).delete name)
    else { h with forest := h.forest.erase pid }

/-- Unlinks an actor that is being replaced; its children stay. -/
def detach (pid : ℕ) : Hierarchy ν := (h.dropFromParent pid).setInTree pid false

/-- Removes one actor. -/
def unlink (pid : ℕ) : Hierarchy ν := ((h.setChildren pid .empty).dropFromParent pid).setInTree pid false

/-- Detaches whoever holds the place of a new actor. -/
def detachExisting (existing : Option ℕ) : Hierarchy ν :=
  match existing with
  | none => h
  | some pid => h.detach pid

/-- Registers an actor under its parent, or in the forest if the parent is not registered. -/
def addNode (pid : ℕ) : Hierarchy ν :=
  let node := h.nodes pid
  let inForest :=
    let detached := h.detachExisting (h.forest.find? fun root => (h.nodes root).path = node.path)
    { detached with forest := detached.forest ++ [pid] }
  let placed := match node.parent with
    | none => inForest
    | some parent =>
      if (h.nodes parent).inTree then
        let detached := h.detachExisting (h.namedChild parent node.name)
        detached.setChildren parent ((detached.childrenOf parent).set node.name pid)
      else inForest
  placed.setInTree pid true

/-- An actor and its descendants; `depth` bounds how far down they are looked for. -/
def subtree : ℕ → ℕ → List ℕ
  | 0, pid => [pid]
  | depth + 1, pid => pid :: (h.kids pid).reverse.flatMap (subtree depth)

/-- Removes an actor and its entire subtree. A child is newer than its parent, so no branch is
    longer than the number of actors. -/
def deleteNode (pid : ℕ) : Hierarchy ν :=
  if (h.nodes pid).inTree then (h.subtree h.count pid).foldr (fun pid h => h.unlink pid) h else h

/-- Spawns a child; a name that is taken, or a parent that does not run, spawns none. -/
def spawnChild (parent : ℕ) (name : ν) : Hierarchy ν :=
  if h.stage parent ≠ .live then h
  else if h.child parent name ≠ none then h
  else h.begin parent name

/-- The system spawns a top-level actor. It checks that it runs itself, but not the guardian. -/
def spawn (name : ν) : Hierarchy ν := if h.child 0 name ≠ none then h else h.begin 0 name

/-- Stops an actor; an actor that does not run or is stopping is left alone. -/
def shutdown (pid : ℕ) : Hierarchy ν :=
  if h.stage pid = .live then h.setStage pid .stopping else h

/-- Stops the given actors. -/
def shutdownAll (h : Hierarchy ν) : List ℕ → Hierarchy ν
  | [] => h
  | pid :: rest => (h.shutdown pid).shutdownAll rest

/-- One event. -/
def step (h : Hierarchy ν) : HierarchyEvent ν → Option (Hierarchy ν)
  | .spawnChild parent name => some (h.spawnChild parent name)
  | .spawn name => some (h.spawn name)
  | .started pid =>
    if h.stage pid = .pending then some ((h.setStage pid .live).addNode pid) else none
  | .startFailed pid => if h.stage pid = .pending then some (h.setStage pid .failed) else none
  | .shutdown pid => some (h.shutdown pid)
  | .idle pid =>
    if h.stage pid = .stopping then
      some ((h.setStage pid (.waiting (h.children pid))).shutdownAll (h.children pid))
    else none
  | .childrenStopped pid =>
    match h.stage pid with
    | .waiting children =>
      if ∀ child ∈ children, (h.stage child).running = false then some (h.setStage pid .postStop)
      else none
    | _ => none
  | .postStopEnded pid =>
    if h.stage pid = .postStop then some ((h.deleteNode pid).setStage pid .stopped) else none

/-! ### What the operations change -/

section

variable {h}

@[simp] theorem namedChild_setStage (pid parent : ℕ) (st : Stage) (name : ν) :
    (h.setStage pid st).namedChild parent name = h.namedChild parent name := rfl

theorem namedChild_setChildren (pid q : ℕ) (children : OrderedMap ν ℕ) (name : ν) :
    (h.setChildren pid children).namedChild q name =
      if q = pid then children.get name else h.namedChild q name := by
  simp only [namedChild, setChildren, update_apply]
  split <;> rfl

@[simp] theorem nodes_dropFromParent (pid : ℕ) : (h.dropFromParent pid).nodes = h.nodes := by
  unfold dropFromParent
  dsimp only
  split
  · rfl
  · split <;> rfl

@[simp] theorem count_dropFromParent (pid : ℕ) : (h.dropFromParent pid).count = h.count := by
  unfold dropFromParent
  dsimp only
  split
  · rfl
  · split <;> rfl

/-- Dropping an actor takes the entry of its name from its parent, if the entry is its own. -/
theorem namedChild_dropFromParent (pid q : ℕ) (name : ν) :
    (h.dropFromParent pid).namedChild q name =
      if (h.nodes pid).parent = some q ∧ (h.nodes pid).name = name ∧
        h.namedChild q name = some pid then none else h.namedChild q name := by
  unfold dropFromParent
  dsimp only
  split
  · rename_i hparent
    rw [hparent, if_neg (fun hown => nomatch hown.1)]
    rfl
  · rename_i parent hparent
    rw [hparent]
    split
    · rename_i hown
      rw [namedChild_setChildren, OrderedMap.get_delete]
      by_cases hq : q = parent
      · subst q
        by_cases hname : name = (h.nodes pid).name
        · subst name
          rw [if_pos rfl, if_pos rfl, if_pos ⟨rfl, rfl, hown⟩]
        · rw [if_pos rfl, if_neg hname, if_neg (fun hall => hname hall.2.1.symm)]
          rfl
      · rw [if_neg hq, if_neg (fun hall => hq (Option.some.inj hall.1).symm)]
    · rename_i hown
      rw [if_neg]
      · rfl
      · rintro ⟨hq, hname, hnamed⟩
        exact hown (Option.some.inj hq ▸ hname ▸ hnamed)

/-- The subtree of an actor without children is the actor. -/
theorem deleteNode_eq {pid : ℕ} (hinTree : (h.nodes pid).inTree = true)
    (hnone : h.childrenOf pid = .empty) : h.deleteNode pid = h.detach pid := by
  have hsubtree : ∀ depth, h.subtree depth pid = [pid]
    | 0 => rfl
    | _ + 1 => by rw [subtree, kids, hnone]; rfl
  have hsame : h.setChildren pid .empty = h := by
    rw [setChildren, ← hnone, update_eq_self]
  rw [deleteNode, if_pos hinTree, hsubtree]
  simp only [List.foldr_cons, List.foldr_nil, unlink, hsame, detach]

/-- The tree once a started actor has been entered under its parent. -/
def enter (h : Hierarchy ν) (pid parent : ℕ) : Hierarchy ν :=
  ((h.setStage pid .live).setChildren parent
    ((h.childrenOf parent).set (h.nodes pid).name pid)).setInTree pid true

theorem stage_enter (pid parent q : ℕ) :
    (h.enter pid parent).stage q = if q = pid then .live else h.stage q := by
  rw [enter, stage_setInTree]
  exact stage_setStage pid q .live

@[simp] theorem parent_enter (pid parent q : ℕ) :
    ((h.enter pid parent).nodes q).parent = (h.nodes q).parent := by
  rw [enter, parent_setInTree]
  exact parent_setStage pid q .live

@[simp] theorem name_enter (pid parent q : ℕ) :
    ((h.enter pid parent).nodes q).name = (h.nodes q).name := by
  rw [enter, name_setInTree]
  exact name_setStage pid q .live

theorem inTree_enter (pid parent q : ℕ) :
    ((h.enter pid parent).nodes q).inTree = if q = pid then true else (h.nodes q).inTree := by
  rw [enter, inTree_setInTree]
  congr 1
  exact inTree_setStage pid q .live

theorem namedChild_enter (pid parent q : ℕ) (name : ν) :
    (h.enter pid parent).namedChild q name =
      if q = parent ∧ name = (h.nodes pid).name then some pid else h.namedChild q name := by
  change Hierarchy.namedChild (Hierarchy.setChildren _ parent _) q name = _
  rw [namedChild_setChildren, OrderedMap.get_set]
  by_cases hq : q = parent
  · subst q
    simp only [if_true, true_and]
    rfl
  · simp only [hq, if_false, false_and]
    rfl

/-- The tree once a stopped actor has left it. -/
def leave (h : Hierarchy ν) (pid : ℕ) : Hierarchy ν := (h.detach pid).setStage pid .stopped

theorem stage_leave (pid q : ℕ) :
    (h.leave pid).stage q = if q = pid then .stopped else h.stage q := by
  rw [leave, stage_setStage, detach, stage_setInTree, stage, nodes_dropFromParent]
  rfl

@[simp] theorem parent_leave (pid q : ℕ) :
    ((h.leave pid).nodes q).parent = (h.nodes q).parent := by
  rw [leave, parent_setStage, detach, parent_setInTree, nodes_dropFromParent]

@[simp] theorem name_leave (pid q : ℕ) :
    ((h.leave pid).nodes q).name = (h.nodes q).name := by
  rw [leave, name_setStage, detach, name_setInTree, nodes_dropFromParent]

theorem inTree_leave {pid q : ℕ} (hq : q ≠ pid) :
    ((h.leave pid).nodes q).inTree = (h.nodes q).inTree := by
  rw [leave, inTree_setStage, detach, inTree_setInTree, if_neg hq, nodes_dropFromParent]

theorem namedChild_leave (pid q : ℕ) (name : ν) : (h.leave pid).namedChild q name =
    if (h.nodes pid).parent = some q ∧ (h.nodes pid).name = name ∧
      h.namedChild q name = some pid then none else h.namedChild q name :=
  namedChild_dropFromParent pid q name

end

end Hierarchy

end Nodeakt.Actor
