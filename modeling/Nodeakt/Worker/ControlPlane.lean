import Nodeakt.Schemes.OrderedMap

/-! The control plane (`control.plane.ts`): which top-level name lives on which isolate, and where
    the next placed actor goes.

    Isolate 0 is the main one. A load that is not recorded counts as zero. -/

namespace Nodeakt.Worker
open Schemes

variable {ν : Type}

/-- The main isolate. -/
def mainWorkerId : ℕ := 0

structure ControlPlane (ν : Type) where
  pool : List ℕ
  names : OrderedMap ν ℕ
  loads : ℕ → ℕ

namespace ControlPlane

/-- A pool of workers that own no name. -/
def create (poolIds : List ℕ) : ControlPlane ν := ⟨poolIds, .empty, fun _ => 0⟩

variable (plane : ControlPlane ν)

/-- The least-occupied live pool worker, ties broken in pool order, or the main isolate. -/
def place : ℕ :=
  match plane.pool with
  | [] => mainWorkerId
  | first :: rest =>
    rest.foldl (fun chosen id => if plane.loads id < plane.loads chosen then id else chosen) first

/-- Evicts a dead worker and gives the names it owned. -/
def evict (workerId : ℕ) : ControlPlane ν × List ν :=
  ({ pool := plane.pool.filter (· ≠ workerId)
     names := plane.names.filter fun _ owner => owner ≠ workerId
     loads := Function.update plane.loads workerId 0 },
   (plane.names.filter fun _ owner => owner = workerId).keys)

variable [DecidableEq ν]

/-- The isolate that owns a name. -/
def resolve (name : ν) : Option ℕ := plane.names.get name

/-- Records a name as living on a worker; nothing if the name is taken. -/
def register (name : ν) (workerId : ℕ) : Option (ControlPlane ν) :=
  if plane.resolve name = none then
    some { plane with
      names := plane.names.set name workerId
      loads := Function.update plane.loads workerId (plane.loads workerId + 1) }
  else none

/-- Frees a name. -/
def free (name : ν) : ControlPlane ν :=
  match plane.resolve name with
  | none => plane
  | some owner => { plane with
      names := plane.names.delete name
      loads := Function.update plane.loads owner (plane.loads owner - 1) }

variable {plane}

theorem register_eq_some {next : ControlPlane ν} {name : ν} {workerId : ℕ}
    (h : plane.register name workerId = some next) : plane.resolve name = none ∧
      ∀ other, next.resolve other = if other = name then some workerId else plane.resolve other := by
  simp only [register, Option.ite_none_right_eq_some, Option.some.injEq] at h
  obtain ⟨hnone, rfl⟩ := h
  exact ⟨hnone, fun other => OrderedMap.get_set ..⟩

theorem resolve_free (name other : ν) :
    (plane.free name).resolve other = if other = name then none else plane.resolve other := by
  unfold free
  split
  · rename_i hnone
    split
    · subst other; exact hnone
    · rfl
  · exact OrderedMap.get_delete ..

theorem resolve_evict {workerId owner : ℕ} {name : ν} :
    (plane.evict workerId).1.resolve name = some owner ↔
      plane.resolve name = some owner ∧ owner ≠ workerId := by
  refine OrderedMap.get_filter_eq_some_iff.trans ?_
  rw [decide_eq_true_iff]
  rfl

end ControlPlane

end Nodeakt.Worker
