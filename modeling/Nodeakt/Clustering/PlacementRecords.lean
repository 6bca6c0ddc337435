import Nodeakt.Clustering.Holding

/-! What a delete of a placement record removes.

    Deletes are unconditional: `#removeRecord` deletes whatever record the name has when the delete
    happens, and `removeActorIf` reads first but deletes later. So a delete is harmless only while
    nobody else holds the name, which is so when every claim is won with nothing else of the name under
    way. A placed actor's stop is notified twice, so the first release lets the name be claimed again
    and the second takes the new record. -/

namespace Nodeakt.Clustering
open Schemes Option

namespace PlacementWorld

variable {ν ι : Type} [DecidableEq ν] [DecidableEq ι]

section
variable (w : PlacementWorld ν ι)

/-- The registry is about to grant the name to the call. -/
def Wins (id : ℕ) : Prop := match (w.calls id).kind with
  | .spawn | .place => w.registry (w.name id) = none
  | .recreate deadOwner => w.registry (w.name id) = some deadOwner
  | _ => False

/-- A node hosts a name while an actor of that name runs on it. -/
def Hosts (node : ι) (name : ν) : Prop :=
  ∃ id, w.node id = node ∧ w.name id = name ∧ w.departed node = false ∧
    w.stage id ∈ [.live, .stopping]

/-- Names are granted, and started on workers, while nothing else of them is under way anywhere, and
    no instance is spawned under a name its node is building. -/
def Orderly : PlacementEvent ν ι → Prop
  | .call node name .spawn => w.placing node name = false
  | .call _ name .workerSpawn | .call _ name .workerPlace =>
    w.Quiet w.count name ∧ w.registry name = none
  | .applied id => w.Wins id → w.Quiet id (w.name id)
  | _ => True

end

instance (w : PlacementWorld ν ι) (id : ℕ) : Decidable (w.Wins id) := by
  unfold Wins
  split <;> infer_instance

instance decidableOrderly (w : PlacementWorld ν ι) (event) : Decidable (w.Orderly event) := by
  rcases event <;> unfold Orderly <;> split <;> infer_instance

section
variable {w next : PlacementWorld ν ι} {id : ℕ}

/-! ### Runs -/

omit [DecidableEq ν] [DecidableEq ι] in
theorem Sound.enlist (hs : w.Sound) {node : ι} {name : ν} {kind : CallKind ι}
    (hmay : w.mayCall node kind = true) (horderly : w.Orderly (.call node name kind)) :
    (w.enlist node name kind).Sound := by
  cases kind with
  | spawn =>
    have hplacing : w.placing node name = false := horderly
    refine hs.add ⟨rfl, rfl⟩ nofun (.inl ?_)
    simp [hplacing]
  | place => exact hs.add ⟨rfl, rfl⟩ nofun (.inl rfl)
  | workerSpawn | workerPlace => exact hs.add ⟨rfl, rfl⟩ nofun (.inr ⟨rfl, horderly⟩)
  | recreate deadOwner => exact hs.add ⟨rfl, rfl⟩ nofun (.inl rfl)
  | free deadOwner =>
    refine hs.add ⟨rfl, rfl⟩ ?_ (.inl rfl)
    rintro _ ⟨⟩
    exact hmay

theorem Sound.apply (hs : w.Sound) (hstage : w.stage id = .claiming)
    (horderly : w.Orderly (.applied id)) : (w.apply id).Sound := by
  have hmade : w.stage id ≠ .over := by
    rw [hstage]
    nofun
  have hquiet (hw : w.Wins id) : w.Quiet id (w.name id) := horderly hw
  unfold PlacementWorld.apply
  cases hkind : (w.calls id).kind with
  | spawn | place =>
    dsimp only
    split_ifs with hnone
    · exact hs.win hstage (by rw [hkind]; rfl) (hquiet (by rw [Wins, hkind]; exact hnone))
    · exact hs.keeps (keeps_setStage hmade nofun nofun nofun)
  | workerSpawn | workerPlace => exact hs
  | recreate deadOwner =>
    dsimp only
    split_ifs with hdead
    · exact hs.win hstage (by rw [hkind]; rfl) (hquiet (by rw [Wins, hkind]; exact hdead))
    · exact hs.keeps (keeps_setStage hmade nofun nofun nofun)
  | free deadOwner =>
    dsimp only
    split_ifs with hread
    · exact hs.read hstage hkind hread
    · exact hs.keeps (keeps_setStage hmade nofun nofun nofun)

omit [DecidableEq ν] [DecidableEq ι] in
/-- A call that holds its name moves on, or lets go. -/
theorem keeps_setStage_of_holding {stage : CallStage} (h : (w.stage id).holding = true)
    (hclaim : stage ≠ .claiming) : Keeps w (w.setStage id stage) := by
  refine keeps_setStage ?_ (fun _ => h) (fun _ => CallStage.engaged_of_holding h) hclaim
  intro hover
  rw [hover] at h
  cases h

omit [DecidableEq ν] [DecidableEq ι] in
theorem busy_of_holding (h : (w.stage id).holding = true) : (w.calls id).Busy :=
  .inl (CallStage.engaged_of_holding h)

section

variable (hgone : w.departed (w.node id) = false)
include hgone

theorem keeps_goOn (hhold : (w.stage id).holding = true)
    (claimed : Bool) : Keeps w (w.goOn id claimed) := by
  unfold goOn
  split
  · have hflag : Keeps w (w.setRecreating id true) := .of_calls rfl rfl rfl rfl
    exact hflag.trans (keeps_setStage_of_holding hhold nofun)
  · exact keeps_setStage_of_holding hhold nofun
  · split
    · exact keeps_removeRecord_setStage hgone (busy_of_holding hhold) nofun rfl
    · exact keeps_setStage_of_holding hhold nofun

omit [DecidableEq ν] in
theorem keeps_bootEnded (hhold : (w.stage id).holding = true) (ok : Bool) :
    Keeps w (if ok then (w.boot (w.node id)).setStage id .writing
      else (w.removeRecord id).fail id) := by
  split
  · refine (keeps_boot w (w.node id)).trans (keeps_setStage_of_holding ?_ nofun)
    rw [stage_boot]
    exact hhold
  · exact keeps_removeRecord_fail hgone (busy_of_holding hhold)

theorem keeps_companionWritten (hhold : (w.stage id).holding = true) (ok : Bool) :
    Keeps w (if ok then (w.setPlacing id true).setStage id .building
      else (w.removeRecord id).fail id) := by
  split
  · have hflag : Keeps w (w.setPlacing id true) := .of_calls rfl rfl rfl rfl
    exact hflag.trans (keeps_setStage_of_holding hhold nofun)
  · exact keeps_removeRecord_fail hgone (busy_of_holding hhold)

/-- The pool's placement has failed. -/
theorem keeps_endPlacing_fail
    (hbusy : (w.calls id).Busy) : Keeps w ((w.endPlacing id).fail id) := by
  have hend := keeps_endPlacing w id
  refine hend.trans (keeps_fail ?_ ?_)
  · rw [hend.departed, hend.node]
    exact hgone
  · rw [calls_endPlacing]
    exact hbusy

end

omit [DecidableEq ν] [DecidableEq ι] in
/-- An actor starts to run, with its listeners. -/
theorem keeps_live (hhold : (w.stage id).holding = true) (listeners : ℕ) :
    Keeps w (w.change id fun call => { call with stage := .live, listeners }) :=
  .change {
    same := ⟨rfl, rfl, rfl⟩
    hold := fun _ => hhold
    fresh := fun _ => ⟨.inr hhold, Nat.le_refl _, Nat.le_refl _⟩
    busy := fun _ => busy_of_holding hhold
    deletes := .inl
    rests := fun h => by
      rw [show w.stage id = .over from h.1] at hhold
      cases hhold }

section

variable (hgone : w.departed (w.node id) = false)
include hgone

omit [DecidableEq ν] [DecidableEq ι] in
/-- A call lets go of its name and owes some releases. -/
theorem keeps_owes (hhold : (w.stage id).holding = true) (stage : CallStage)
    (hclaim : stage ≠ .claiming) (hstage : stage.holding = false) (owed : PlacementCall ν ι → ℕ) :
    Keeps w (w.change id fun call => { call with stage, owed := owed call }) :=
  keeps_change_of_busy hgone (busy_of_holding hhold) ⟨rfl, rfl, rfl⟩
    (not_fresh_of_stage rfl hclaim hstage)

omit [DecidableEq ν] [DecidableEq ι] in
theorem keeps_released (hs : w.Sound) (howed : 0 < (w.calls id).owed) :
    Keeps w ((w.change id fun call => { call with owed := call.owed - 1 }).removeRecord id) := by
  obtain ⟨sent, h⟩ := exists_removeRecord_eq
    (w.change id fun call => { call with owed := call.owed - 1 }) id
  rw [h, change_change]
  refine keeps_change_of_busy hgone (.inr howed) ⟨rfl, rfl, rfl⟩ ?_
  intro hf
  have := (hs.clean id hf).1
  omega

theorem keeps_placed (hhold : (w.stage id).holding = true)
    : ∀ outcome : BuildOutcome, Keeps w (match outcome with
      | .built => ((w.endPlacing id).endRecreating id).change id fun call =>
          { call with stage := .live, listeners := 2 }
      | .refused => (w.endPlacing id).fail id
      | .failed releases => w.change id fun call =>
          { call with stage := .failing, owed := releases })
  | .built => by
    have hends := (keeps_endPlacing w id).trans (keeps_endRecreating (w.endPlacing id) id)
    refine hends.trans (keeps_live ?_ 2)
    simpa [stage] using hhold
  | .refused => keeps_endPlacing_fail hgone (busy_of_holding hhold)
  | .failed releases => keeps_owes hgone hhold .failing nofun rfl fun _ => releases

end

theorem Sound.restored (hs : w.Sound) (hstage : w.stage id = .restoring) (reached : Bool) :
    (((if reached then w.restore id else w).setRecreating id false).setStage id .over).Sound := by
  have hs' : (if reached then w.restore id else w).Sound := by
    split
    · exact hs.restore hstage
    · exact hs
  have hstage' : (if reached then w.restore id else w).stage id = .restoring := by
    split
    · rw [stage, calls_restore]
      exact hstage
    · exact hstage
  have hflag : Keeps (if reached then w.restore id else w)
      ((if reached then w.restore id else w).setRecreating id false) := .of_calls rfl rfl rfl rfl
  refine hs'.keeps (hflag.trans
    (keeps_setStage ?_ (fun h => by cases h) (fun h => by cases h) (by decide)))
  rw [show ((if reached then w.restore id else w).setRecreating id false).stage id = .restoring
    from hstage']
  decide

omit [DecidableEq ι] in
theorem Sound.deleted (hs : w.Sound) (hsent : 0 < (w.calls id).deletes) (reached : Bool) :
    ((if reached then w.setRecord (w.name id) none else w).change id fun call =>
      { call with deletes := call.deletes - 1 }).Sound := by
  cases reached with
  | true => exact hs.delete hsent
  | false =>
    refine hs.keeps (.change ⟨⟨rfl, rfl, rfl⟩, fun h => h, ?_, fun h => h, fun _ => .inl hsent, ?_⟩)
    · exact fun h => ⟨h, Nat.le_refl _, Nat.sub_le _ _⟩
    · rintro ⟨-, -, hd⟩
      omega

theorem Sound.step (hs : w.Sound) {e : PlacementEvent ν ι} (horderly : w.Orderly e)
    (hstep : next ∈ w.step e) : next.Sound := by
  -- an event that finds the call in a stage in which it has its name
  have hhold {id : ℕ} {stage : CallStage} (h : w.stage id = stage) (hs : stage.holding = true) :
      (w.stage id).holding = true := h ▸ hs
  cases e <;> simp only [PlacementWorld.step, mem_def, ite_none_right_eq_some,
    some.injEq] at hstep
  case call node name kind =>
    obtain ⟨⟨-, hmay⟩, rfl⟩ := hstep
    exact hs.enlist hmay horderly
  case applied id =>
    obtain ⟨hstage, rfl⟩ := hstep
    exact hs.apply hstage horderly
  case returned id claimed =>
    split at hstep
    · cases hstep
    · rename_i hgone
      simp only [Bool.not_eq_true] at hgone
      split at hstep
      · rename_i hstage
        cases hstep
        exact hs.keeps (keeps_goOn hgone (hhold hstage rfl) claimed)
      · obtain ⟨hstage, rfl⟩ := ite_none_right_eq_some.mp hstep |>.imp_right some.inj
        exact hs.keeps (keeps_setStage (by rw [hstage]; nofun) nofun nofun nofun)
  case gaveUp id =>
    obtain ⟨⟨-, hstage⟩, rfl⟩ := hstep
    refine hs.keeps (keeps_setStage ?_ nofun nofun nofun)
    intro hover
    rw [hover] at hstage
    simp at hstage
  case bootEnded id ok =>
    obtain ⟨⟨hgone, hstage⟩, rfl⟩ := hstep
    exact hs.keeps (keeps_bootEnded hgone (hhold hstage rfl) ok)
  case companionWritten id ok =>
    obtain ⟨⟨hgone, hstage⟩, rfl⟩ := hstep
    exact hs.keeps (keeps_companionWritten hgone (hhold hstage rfl) ok)
  case placed id outcome =>
    obtain ⟨⟨hgone, hstage⟩, rfl⟩ := hstep
    exact hs.keeps (keeps_placed hgone (hhold hstage rfl) outcome)
  case rejected id =>
    obtain ⟨⟨hgone, hstage, -⟩, rfl⟩ := hstep
    refine hs.keeps (keeps_endPlacing_fail hgone (.inl ?_))
    rw [show (w.calls id).stage = .failing from hstage]
    rfl
  case started id ok =>
    obtain ⟨⟨hgone, hstage⟩, rfl⟩ := hstep
    split
    · exact hs.keeps (keeps_live (hhold hstage rfl) 1)
    · exact hs.keeps (keeps_owes hgone (hhold hstage rfl) .over nofun rfl fun _ => 1)
  case stop id =>
    obtain ⟨⟨-, hstage⟩, rfl⟩ := hstep
    exact hs.keeps (keeps_setStage_of_holding (hhold hstage rfl) nofun)
  case stopped id =>
    obtain ⟨⟨hgone, hstage⟩, rfl⟩ := hstep
    exact hs.keeps (keeps_owes hgone (hhold hstage rfl) .over nofun rfl (·.listeners))
  case workerDied id =>
    obtain ⟨⟨hgone, hstage⟩, rfl⟩ := hstep
    have hholding : (w.stage id).holding = true := by
      rcases List.mem_pair.mp hstage with h | h <;> rw [h] <;> rfl
    exact hs.keeps (keeps_owes hgone hholding .over nofun rfl fun _ => 1)
  case released id =>
    obtain ⟨⟨hgone, howed⟩, rfl⟩ := hstep
    exact hs.keeps (keeps_released hgone hs howed)
  case deleted id reached =>
    obtain ⟨hsent, rfl⟩ := hstep
    exact hs.deleted hsent reached
  case restored id reached =>
    obtain ⟨hstage, rfl⟩ := hstep
    exact hs.restored hstage reached
  case shutdown node =>
    subst hstep
    exact hs.keeps (.of_calls rfl rfl rfl rfl)
  case tornDown node =>
    obtain ⟨-, rfl⟩ := hstep
    exact hs.keeps (.of_calls rfl rfl rfl rfl)
  case depart node =>
    subst hstep
    exact hs.depart node

/-- In every run in which names are granted and started on workers only while nothing else of them is
    under way, a delete that happens never finds the record of a node that hosts the name. -/
theorem deletes_spare_hosts {node : ι} {name : ν} {es : List (PlacementEvent ν ι)}
    (horderly : Meets step Orderly (create node name) es)
    (hrun : w ∈ run step (create node name) es) (hdelete : next ∈ w.step (.deleted id true)) :
    ∀ owner, w.registry (w.name id) = some owner → ¬w.Hosts owner (w.name id) := by
  rintro owner - ⟨holder, rfl, hname, hpresent, hlive⟩
  have hs : w.Sound := run_preserves (fun _ _ _ hs h hstep => hs.step h hstep) (.create node name)
    horderly hrun
  obtain ⟨hsent, -⟩ := Option.ite_none_right_eq_some.mp hdelete
  have hholds : w.Holds holder := by
    refine ⟨hpresent, ?_⟩
    rcases List.mem_pair.mp hlive with h | h <;> rw [h] <;> rfl
  by_cases he : id = holder
  · subst he
    have := (hs.clean id hholds.fresh).2
    omega
  · exact hs.alone holder hholds id he hname.symm (.inl hsent)

/-- A placement of a name on a node, up to the running actor. -/
def placeEvents (node name id : ℕ) : List (PlacementEvent ℕ ℕ) :=
  [.call node name .place, .applied id, .returned id true, .bootEnded id true,
    .companionWritten id true, .placed id .built]

/-- Both releases of a stop reach the registry before the name is placed again, on another node. -/
theorem moved_name_deleted_once_stopped :
    ∃ w ∈ run step (create 0 0) (placeEvents 0 5 0 ++ [.stop 0, .stopped 0, .released 0, .released 0,
        .deleted 0 true, .deleted 0 true] ++ placeEvents 1 5 1 ++ [.stop 1, .stopped 1, .released 1]),
      w.registry 5 = some 1 ∧ ¬w.Hosts 1 5 := by
  refine ends_imp (P := fun w => w.registry 5 = some 1 ∧ w.name 1 = 5 ∧
      (w.step (.deleted 1 true)).isSome = true) (by decide +kernel) ?_
  rintro w hrun ⟨hrecord, hname, hdelete⟩
  obtain ⟨next, hnext⟩ := Option.isSome_iff_exists.mp hdelete
  have hspared := deletes_spare_hosts (by decide +kernel) hrun hnext 1
  rw [hname] at hspared
  exact ⟨hrecord, hspared hrecord⟩

/-- A placed actor stops and its first release deletes the record. Another node places the name, and
    the second release deletes the record of the actor that runs there. -/
theorem second_release_deletes_successor :
    ∃ w ∈ run step (create 0 0) (placeEvents 0 5 0 ++ [.stop 0, .stopped 0, .released 0,
        .deleted 0 true] ++ placeEvents 1 5 1 ++ [.released 0]),
      w.name 0 = 5 ∧ w.registry 5 = some 1 ∧ w.Hosts 1 5 ∧
        ∃ next ∈ w.step (.deleted 0 true), next.registry 5 = none := by
  refine ends_imp (P := fun w => w.name 0 = 5 ∧ w.registry 5 = some 1 ∧ (w.node 1 = 1 ∧
      w.name 1 = 5 ∧ w.departed 1 = false ∧ w.stage 1 ∈ [.live, .stopping]) ∧
      ∃ next ∈ w.step (.deleted 0 true), next.registry 5 = none) (by decide +kernel) ?_
  rintro w hrun ⟨hname, hrecord, hhosts, hdelete⟩
  exact ⟨hname, hrecord, ⟨1, hhosts⟩, hdelete⟩

end

end PlacementWorld

end Nodeakt.Clustering
