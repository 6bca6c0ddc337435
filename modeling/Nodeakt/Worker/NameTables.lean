import Nodeakt.Worker.Pool

/-! The replicated name tables of a pool's workers.

    `replica` is the table a worker will have once it has handled what waits in its port. Every
    operation of the pool that changes the control plane tells the workers at once (`Mirrors`), except
    a placement, which registers its name first and tells them when it ends. If the plane still has the
    name then, the tables agree with the plane whenever the ports are empty (`tables_replicate`). -/

namespace Nodeakt.Worker
open Schemes ControlPlane Function

namespace Pool

variable {ν : Type} [DecidableEq ν] {p q r : Pool ν}
variable {name : ν} {id pid : ℕ}

/-- A name table after a control message. -/
def heard (table : ν → Option ℕ) : ControlMessage ν → ν → Option ℕ
  | .nameAdded name owner => Function.update table name (some owner)
  | .nameFreed name => Function.update table name none
  | .spawn _ | .claimed _ _ => table

/-- The table a worker will have once its port is empty. -/
def replica (p : Pool ν) (id : ℕ) : ν → Option ℕ := (p.inbox id).foldl heard (p.table id)

/-- No placement of the name is under way. -/
def Unplaced (p : Pool ν) (name : ν) : Prop := ∀ pid, p.flight pid ≠ .idle → p.name pid ≠ name

/-- The workers will know of a name what the plane does, unless it is being placed. -/
structure Replicated (p : Pool ν) : Prop where
  current : ∀ name, p.Unplaced name → ∀ id ∈ p.workers, p.replica id name = p.plane.resolve name
  fresh : ∀ pid, p.count ≤ pid → p.flight pid = .idle

/-- Placements go on, and a name that changes, changes for the plane and the workers alike. -/
structure Mirrors (p q : Pool ν) : Prop where
  flight : ∀ pid, q.flight pid = .idle ↔ p.flight pid = .idle
  name : ∀ pid, p.flight pid ≠ .idle → q.name pid = p.name pid
  workers : ∀ id ∈ q.workers, id ∈ p.workers
  count : p.count ≤ q.count
  names : ∀ name, (∀ id ∈ q.workers, q.replica id name = q.plane.resolve name) ∨
    q.plane.resolve name = p.plane.resolve name ∧
      ∀ id ∈ q.workers, q.replica id name = p.replica id name

theorem Mirrors.trans (h : p.Mirrors q) (h' : q.Mirrors r) : p.Mirrors r where
  flight pid := (h'.flight pid).trans (h.flight pid)
  name pid hpid := (h'.name pid (mt (h.flight pid).mp hpid)).trans (h.name pid hpid)
  workers id hid := h.workers id (h'.workers id hid)
  count := h.count.trans h'.count
  names name := by
    rcases h'.names name with hboth | ⟨hplane, hreplica⟩
    · exact .inl hboth
    · rcases h.names name with hboth | ⟨hplane', hreplica'⟩
      · refine .inl fun id hid => ?_
        rw [hreplica id hid, hplane, hboth id (h'.workers id hid)]
      · exact .inr ⟨hplane.trans hplane', fun id hid =>
          (hreplica id hid).trans (hreplica' id (h'.workers id hid))⟩

theorem Replicated.mirrors (h : p.Replicated) (hm : p.Mirrors q) : q.Replicated where
  current name hname id hid := by
    rcases hm.names name with hboth | ⟨hplane, hreplica⟩
    · exact hboth id hid
    · rw [hplane, hreplica id hid]
      refine h.current name (fun pid hpid hsame => ?_) id (hm.workers id hid)
      exact hname pid (mt (hm.flight pid).mp hpid) ((hm.name pid hpid).trans hsame)
  fresh pid hpid := (hm.flight pid).mpr (h.fresh pid (hm.count.trans hpid))

/-! ### The operations of the pool -/

/-- An operation that touches neither the plane nor what the workers will know. -/
theorem mirrors_of_same (hflight : ∀ pid, q.flight pid = .idle ↔ p.flight pid = .idle)
    (hname : ∀ pid, q.name pid = p.name pid) (hworkers : q.workers = p.workers)
    (hcount : q.count = p.count) (hplane : q.plane = p.plane)
    (hreplica : ∀ id, q.replica id = p.replica id) : p.Mirrors q where
  flight := hflight
  name pid _ := hname pid
  workers id hid := hworkers ▸ hid
  count := hcount.ge
  names name := .inr ⟨by rw [hplane], fun id _ => by rw [hreplica]⟩

/-- What is none of the workers' business. -/
theorem mirrors_frame (p : Pool ν) (tree : ℕ → ν → Option ℕ) (ordering : ℕ → ν → Bool)
    (outbox : ℕ → List (WorkerMessage ν)) (alive : ℕ → Bool) :
    p.Mirrors { p with tree, ordering, outbox, alive } :=
  mirrors_of_same (fun _ => .rfl) (fun _ => rfl) rfl rfl rfl fun _ => rfl

theorem Mirrors.refl (p : Pool ν) : p.Mirrors p := mirrors_frame p ..

omit [DecidableEq ν] in
theorem name_change {f : Incarnation ν → Incarnation ν} (hf : ∀ a, (f a).name = a.name) (other : ℕ) :
    (p.change pid f).name other = p.name other := by
  by_cases hother : other = pid
  · subst hother
    simp [Pool.name, change, hf]
  · simp [Pool.name, change, hother]

theorem mirrors_change {f : Incarnation ν → Incarnation ν} (hf : ∀ a, (f a).name = a.name) :
    p.Mirrors (p.change pid f) :=
  mirrors_of_same (fun _ => .rfl) (name_change hf) rfl rfl rfl fun _ => rfl

theorem mirrors_setStage (pid : ℕ) (stage : SpawnStage) : p.Mirrors (p.setStage pid stage) :=
  mirrors_change fun _ => rfl

theorem replica_broadcast (message : ControlMessage ν) (hid : id ∈ p.workers) :
    (p.broadcast message).replica id = heard (p.replica id) message := by
  simp [replica, broadcast, hid]

/-- A message that is not about names changes no replica. -/
theorem mirrors_send {message : ControlMessage ν} (hmessage : ∀ table, heard table message = table) :
    p.Mirrors (p.send id message) := by
  unfold send
  split_ifs
  · refine mirrors_of_same (fun _ => .rfl) (fun _ => rfl) rfl rfl rfl fun other => ?_
    by_cases hother : other = id
    · subst hother
      simp [replica, push, hmessage]
    · simp [replica, push, hother]
  · exact .refl p

section Told

variable {plane : ControlPlane ν} {message : ControlMessage ν}
  (hmessage : ∀ table, heard table message = Function.update table name (plane.resolve name))

include hmessage in
theorem replica_told (p : Pool ν) (hid : id ∈ p.workers) :
    ({ p with plane }.broadcast message).replica id =
      Function.update (p.replica id) name (plane.resolve name) := by
  rw [← hmessage]
  exact @replica_broadcast _ _ { p with plane } id message hid

include hmessage in
/-- A change of the plane at one name that the workers are told of. -/
theorem mirrors_told (hplane : ∀ other, other ≠ name → plane.resolve other = p.plane.resolve other) :
    p.Mirrors ({ p with plane }.broadcast message) where
  flight _ := .rfl
  name _ _ := rfl
  workers _ hid := hid
  count := le_rfl
  names other := by
    by_cases hname : other = name
    · subst hname
      refine .inl fun id hid => ?_
      rw [replica_told hmessage p hid, Function.update_self]
      rfl
    · refine .inr ⟨hplane other hname, fun id hid => ?_⟩
      rw [replica_told hmessage p hid, Function.update_of_ne hname]

end Told

theorem heard_freed (p : Pool ν) (name : ν) (table : ν → Option ℕ) : heard table (.nameFreed name) =
    Function.update table name ((p.plane.free name).resolve name) := by
  rw [heard, resolve_free, if_pos rfl]

theorem mirrors_release (p : Pool ν) (name : ν) : p.Mirrors (p.release name) :=
  mirrors_told (heard_freed p name) fun _ hne => (resolve_free ..).trans (if_neg hne)

theorem mirrors_claim (p : Pool ν) (name : ν) (id : ℕ) : p.Mirrors (p.claim name id).1 := by
  unfold claim
  split
  · exact .refl p
  · cases hregister : p.plane.register name id with
    | none => exact .refl p
    | some plane =>
      have hplane := (register_eq_some hregister).2
      refine @mirrors_told _ _ p name plane _ (fun _ => ?_) fun other hne => ?_
      · rw [heard, hplane, if_pos rfl]
      · rw [hplane, if_neg hne]

theorem mirrors_free (p : Pool ν) (id : ℕ) (name : ν) : p.Mirrors (p.free id name) := by
  unfold free
  split
  · exact mirrors_release p name
  · exact mirrors_frame ..

theorem mirrors_freeAll : ∀ (listeners : ℕ) (p : Pool ν), p.Mirrors (freeAll id name listeners p)
  | 0, p => .refl p
  | listeners + 1, p => (mirrors_free p id name).trans (mirrors_freeAll listeners _)

/-- A new incarnation is not being placed yet. -/
theorem Replicated.mirrors_enlist (h : p.Replicated) (id : ℕ) (name : ν) (placed : Bool)
    (stage : SpawnStage) : p.Mirrors (p.enlist id name placed stage) where
  flight _ := .rfl
  name pid hpid := by
    have hne : pid ≠ p.count := fun heq => hpid (h.fresh pid heq.ge)
    simp [Pool.name, enlist, hne]
  workers _ hid := hid
  count := Nat.le_succ _
  names _ := .inr ⟨rfl, fun _ _ => rfl⟩

theorem mirrors_spawnHere (p : Pool ν) (pid : ℕ) : p.Mirrors (p.spawnHere pid) := by
  unfold spawnHere
  simp only
  split_ifs
  · exact mirrors_setStage ..
  · have hclaim := mirrors_claim p (p.name pid) mainWorkerId
    generalize p.claim (p.name pid) mainWorkerId = outcome at hclaim ⊢
    obtain ⟨claimed, won⟩ := outcome
    cases won with
    | true => exact hclaim.trans (@mirrors_setStage _ _ claimed pid .starting)
    | false => exact hclaim.trans (@mirrors_setStage _ _ claimed pid .failed)
  · exact mirrors_setStage ..
  · exact (mirrors_setStage ..).trans (mirrors_frame ..)

theorem mirrors_finishStart (p : Pool ν) (pid : ℕ) (ok : Bool) : p.Mirrors (p.finishStart pid ok) := by
  unfold finishStart
  simp only
  split
  · refine Mirrors.trans (mirrors_change ?_) (mirrors_frame (p.change pid _) ..)
    exact fun _ => rfl
  · exact (mirrors_setStage ..).trans (mirrors_free ..)

/-- What a worker changes when it handles a message. -/
theorem handle_spec (p : Pool ν) (id : ℕ) (message : ControlMessage ν) :
    (p.handle id message).flight = p.flight ∧ (∀ pid, (p.handle id message).name pid = p.name pid) ∧
    (p.handle id message).workers = p.workers ∧ (p.handle id message).count = p.count ∧
    (p.handle id message).plane = p.plane ∧
    (p.handle id message).table = Function.update p.table id (heard (p.table id) message) := by
  have hstage : ∀ (q : Pool ν) (pid : ℕ) (stage : SpawnStage) (other : ℕ),
      (q.setStage pid stage).name other = q.name other := fun _ _ _ => name_change fun _ => rfl
  cases message with
  | spawn pid =>
    rw [handle]
    split
    · exact ⟨rfl, fun other => hstage .., rfl, rfl, rfl, (update_eq_self ..).symm⟩
    · exact ⟨rfl, fun _ => rfl, rfl, rfl, rfl, (update_eq_self ..).symm⟩
  | claimed pid won =>
    rw [handle]
    split
    · exact ⟨rfl, fun other => hstage .., rfl, rfl, rfl, (update_eq_self ..).symm⟩
    · exact ⟨rfl, fun _ => rfl, rfl, rfl, rfl, (update_eq_self ..).symm⟩
  | nameAdded | nameFreed => exact ⟨rfl, fun _ => rfl, rfl, rfl, rfl, rfl⟩

/-- A worker that handles the head of its port has it in its table. -/
theorem mirrors_handle {message : ControlMessage ν} {rest : List (ControlMessage ν)}
    (hinbox : p.inbox id = message :: rest) :
    p.Mirrors { p.handle id message with inbox := pop p.inbox id } := by
  obtain ⟨hflight, hname, hworkers, hcount, hplane, htable⟩ := handle_spec p id message
  refine mirrors_of_same (fun pid => by rw [hflight]) hname hworkers hcount hplane fun other => ?_
  simp only [replica, htable]
  by_cases hother : other = id
  · subst hother
    simp [pop, removeAt, hinbox]
  · simp [pop, removeAt, hother]

theorem mirrors_onMessage (p : Pool ν) (id : ℕ) (message : WorkerMessage ν) :
    p.Mirrors { p.onMessage id message with outbox := pop p.outbox id } := by
  refine Mirrors.trans ?_ (mirrors_frame (p.onMessage id message) ..)
  have hsettle : ∀ pid flight, flight ≠ .idle → p.Mirrors (p.settle id pid flight) := by
    intro pid flight hflight
    unfold settle
    split
    · rename_i hwaits
      refine mirrors_of_same (fun other => ?_) (fun _ => rfl) rfl rfl rfl fun _ => rfl
      by_cases hother : other = pid
      · subst hother
        simp [hflight, hwaits.1]
      · simp [hother]
    · exact .refl p
  cases message with
  | claim pid name => exact (mirrors_claim p name id).trans (mirrors_send fun _ => rfl)
  | actorStopped name => exact mirrors_release p name
  | spawned pid => exact hsettle pid .resolved nofun
  | spawnFailed pid => exact hsettle pid .rejected nofun

/-- Telling the workers that names are free changes only what they will know. -/
theorem broadcastFreed_spec : ∀ (names : List ν) (p : Pool ν), ∃ inbox,
    p.broadcastFreed names = { p with inbox } ∧ ∀ id ∈ p.workers, ∀ name,
      { p with inbox }.replica id name = if name ∈ names then none else p.replica id name
  | [], p => ⟨p.inbox, rfl, fun _ _ _ => (if_neg List.not_mem_nil).symm⟩
  | first :: names, p => by
      obtain ⟨inbox, heq, hreplica⟩ := broadcastFreed_spec names (p.broadcast (.nameFreed first))
      refine ⟨inbox, heq, fun id hid name => ?_⟩
      have hrest := hreplica id hid name
      rw [replica_broadcast _ hid] at hrest
      refine hrest.trans ?_
      by_cases hfirst : name = first
      · simp [heard, hfirst]
      · simp [heard, hfirst]

theorem mem_evict_iff {plane : ControlPlane ν} :
    name ∈ (plane.evict id).2 ↔ plane.resolve name = some id := by
  simp [evict, OrderedMap.mem_keys_iff, OrderedMap.get_filter_eq_some_iff, resolve]

theorem mirrors_onExit (p : Pool ν) (id : ℕ) : p.Mirrors (p.onExit id) := by
  obtain ⟨inbox, heq, hreplica⟩ := broadcastFreed_spec (p.plane.evict id).2 { p with
      workers := p.workers.filter (· ≠ id)
      plane := (p.plane.evict id).1
      outbox := update p.outbox id []
      flight := p.rejectPending id }
  rw [onExit, heq]
  have hworkers : ∀ other ∈ p.workers.filter (· ≠ id), other ∈ p.workers :=
    fun _ hmem => List.mem_of_mem_filter hmem
  refine ⟨fun pid => ?_, fun _ _ => rfl, hworkers, le_rfl, fun name => ?_⟩
  · change p.rejectPending id pid = .idle ↔ _
    unfold rejectPending
    split
    · rename_i hwaits
      simp [hwaits.1]
    · rfl
  · by_cases hname : p.plane.resolve name = some id
    · refine .inl fun other hother => ?_
      rw [hreplica other hother, if_pos (mem_evict_iff.mpr hname)]
      refine (Option.eq_none_iff_forall_ne_some.mpr fun owner howner => ?_).symm
      obtain ⟨howner, hne⟩ := resolve_evict.mp howner
      exact hne (Option.some.inj (howner.symm.trans hname))
    · refine .inr ⟨Option.ext fun owner => ?_, fun other hother => ?_⟩
      · refine resolve_evict.trans (and_iff_left_of_imp fun howner hsame => ?_)
        exact hname (hsame ▸ howner)
      · rw [hreplica other hother, if_neg (mt mem_evict_iff.mp hname)]
        rfl

/-! ### Placements -/

/-- A placement ends with news of its name that agrees with the plane. -/
theorem Replicated.land {plane : ControlPlane ν} {message : ControlMessage ν} (h : p.Replicated)
    (hmessage : ∀ table, heard table message =
      Function.update table (p.name pid) (plane.resolve (p.name pid)))
    (hplane : ∀ other, other ≠ p.name pid → plane.resolve other = p.plane.resolve other) :
    (({ p with plane }.broadcast message).land pid).Replicated := by
  have hq := h.mirrors (mirrors_told hmessage hplane)
  constructor
  · intro name hname id hid
    by_cases hself : name = p.name pid
    · subst hself
      exact (congrFun (replica_told hmessage p hid) _).trans (update_self ..)
    · refine hq.current name (fun other hother hsame => ?_) id hid
      have hne : other ≠ pid := fun heq => hself (hsame.symm.trans (by rw [heq]; rfl))
      exact hname other ((update_of_ne hne ..).trans_ne hother) hsame
  · intro other hother
    by_cases hsame : other = pid
    · rw [hsame]
      exact update_self ..
    · exact (update_of_ne hsame ..).trans (hq.fresh other hother)

theorem Replicated.land_release (h : p.Replicated) :
    ((p.release (p.name pid)).land pid).Replicated :=
  h.land (heard_freed p _) fun _ hne => (resolve_free ..).trans (if_neg hne)

theorem Replicated.land_added (h : p.Replicated) (hplane : p.plane.resolve (p.name pid) = some id) :
    ((p.broadcast (.nameAdded (p.name pid) id)).land pid).Replicated :=
  h.land (fun _ => by rw [heard, hplane]) fun _ _ => rfl

/-- A placement that ends well finds its name still registered for its isolate. -/
def Standing (p : Pool ν) : PoolEvent ν → Prop
  | .settled pid => p.flight pid = .resolved → p.plane.resolve (p.name pid) = some (p.isolate pid)
  | .returned pid => p.isolate pid = mainWorkerId → p.stage pid ≠ .failed →
      p.plane.resolve (p.name pid) = some mainWorkerId
  | _ => True

instance (p : Pool ν) (event) : Decidable (p.Standing event) := by
  rcases event <;> dsimp only [Standing] <;> infer_instance

section

variable (h : p.Replicated)
include h

/-- A placement registers a name that the workers hear of when it ends. -/
theorem Replicated.launch {plane : ControlPlane ν} {placing : ν → Bool} {stage : SpawnStage}
    (hplane : ∀ other, other ≠ name → plane.resolve other = p.plane.resolve other) :
    ({ p with plane, placing, flight := update p.flight p.count .awaiting }.enlist id name true
      stage).Replicated := by
  constructor
  · intro other hother worker hworker
    have hne : other ≠ name := by
      rintro rfl
      refine hother p.count ?_ ?_
      · simp [enlist]
      · simp [Pool.name, enlist]
    refine (h.current other (fun pid hpid hsame => ?_) worker hworker).trans (hplane other hne).symm
    have hold : pid ≠ p.count := fun heq => hpid (h.fresh pid heq.ge)
    refine hother pid ?_ ?_
    · simpa [enlist, hold] using hpid
    · simpa [Pool.name, enlist, hold] using hsame
  · intro pid hpid
    have hpid : p.count + 1 ≤ pid := hpid
    exact (update_of_ne (by omega) ..).trans (h.fresh pid (by omega))

theorem Replicated.place (name : ν) : (p.place name).Replicated := by
  unfold Pool.place
  split
  · exact h
  · cases hregister : p.plane.register name p.plane.place with
    | none => exact h
    | some plane =>
      have hplane : ∀ other, other ≠ name → plane.resolve other = p.plane.resolve other :=
        fun other hne => ((register_eq_some hregister).2 other).trans (if_neg hne)
      simp only
      split
      · exact h.launch hplane
      · exact (h.launch hplane).mirrors (mirrors_send fun _ => rfl)

theorem Replicated.finishSpawn (hstanding : p.Standing (.returned pid)) :
    (p.finishSpawn pid).Replicated := by
  have hended : ∀ f : Incarnation ν → Incarnation ν, (∀ a, (f a).name = a.name) →
      (p.change pid f).Replicated ∧ (p.change pid f).name pid = p.name pid :=
    fun f hf => ⟨h.mirrors (mirrors_change hf), name_change hf pid⟩
  unfold Pool.finishSpawn
  simp only
  split
  · obtain ⟨hq, hname⟩ := hended ({ · with returned := true }) fun _ => rfl
    split
    · rw [← hname]
      exact hq.land_release
    · exact hq.mirrors (mirrors_frame ..)
  · rename_i hfailed
    obtain ⟨hq, hname⟩ := hended (fun a => { a with listeners := a.listeners + 1, returned := true })
      fun _ => rfl
    split
    · rename_i hmain
      rw [← hname, hmain]
      refine hq.land_added ?_
      rw [hname]
      exact hstanding hmain hfailed
    · exact hq.mirrors (mirrors_frame ..)

theorem Replicated.finishPlace (hstanding : p.Standing (.settled pid)) :
    (p.finishPlace pid).Replicated := by
  unfold Pool.finishPlace
  cases hflight : p.flight pid with
  | resolved => exact h.land_added (hstanding hflight)
  | idle | awaiting | rejected => exact h.land_release

theorem Replicated.step {event : PoolEvent ν} (hstanding : p.Standing event)
    (hstep : Pool.step p event = some q) : q.Replicated := by
  cases event with
  | place name => exact Option.some.inj hstep ▸ h.place name
  | spawn id name =>
    obtain ⟨-, rfl⟩ := of_guarded hstep
    exact (h.mirrors (h.mirrors_enlist id name false .called)).mirrors (mirrors_spawnHere ..)
  | imported pid ok =>
    obtain ⟨-, rfl⟩ := of_guarded hstep
    split
    · exact h.mirrors (mirrors_spawnHere p pid)
    · exact h.mirrors (mirrors_setStage ..)
  | started pid ok =>
    obtain ⟨-, rfl⟩ := of_guarded hstep
    exact h.mirrors (mirrors_finishStart p pid ok)
  | returned pid =>
    obtain ⟨-, rfl⟩ := of_guarded hstep
    exact h.finishSpawn hstanding
  | settled pid =>
    obtain ⟨-, rfl⟩ := of_guarded hstep
    exact h.finishPlace hstanding
  | stop pid =>
    obtain ⟨-, rfl⟩ := of_guarded hstep
    exact h.mirrors (mirrors_setStage ..)
  | stopped pid =>
    obtain ⟨-, rfl⟩ := of_guarded hstep
    exact h.mirrors (((mirrors_setStage ..).trans (mirrors_frame (p.setStage pid .stopped) ..)).trans
      (mirrors_freeAll _ _))
  | receive id =>
    rw [Pool.step] at hstep
    split at hstep
    · cases hstep
    · rename_i message rest hinbox
      obtain ⟨-, rfl⟩ := of_guarded hstep
      exact h.mirrors (mirrors_handle hinbox)
  | deliver id =>
    rw [Pool.step] at hstep
    split at hstep
    · cases hstep
    · cases hstep
      exact h.mirrors (mirrors_onMessage ..)
  | die id =>
    obtain ⟨-, rfl⟩ := of_guarded hstep
    exact h.mirrors (mirrors_frame p ..)
  | exit id =>
    obtain ⟨-, rfl⟩ := of_guarded hstep
    exact h.mirrors (mirrors_onExit p id)

end

theorem create_replicated (size : ℕ) (name : ν) : (create size name).Replicated :=
  ⟨fun _ _ _ _ => rfl, fun _ _ => rfl⟩

/-- Every message that was posted has been handled, and no placement is under way. -/
def Quiet (p : Pool ν) : Prop :=
  (∀ id ∈ p.workers, p.inbox id = [] ∧ p.outbox id = []) ∧ ∀ pid < p.count, p.flight pid = .idle

instance (p : Pool ν) : Decidable p.Quiet := inferInstanceAs (Decidable (_ ∧ _))

/-- In every run of a pool of any size in which a placement that ends well finds its name still
    registered: once everything is handled, the name tables are the table of the control plane. -/
theorem tables_replicate {size : ℕ} {name : ν} {es : List (PoolEvent ν)}
    (hmeets : Meets Pool.step Standing (create size name) es)
    (hrun : run Pool.step (create size name) es = some p) (hquiet : p.Quiet) :
    ∀ id ∈ p.workers, ∀ name, p.table id name = p.plane.resolve name := by
  have h : p.Replicated := run_preserves (fun _ _ _ h hcond hstep => h.step hcond hstep)
    (create_replicated size name) hmeets hrun
  intro id hid name
  have hreplica : p.replica id = p.table id := by rw [replica, (hquiet.1 id hid).1, List.foldl_nil]
  rw [← hreplica]
  refine h.current name (fun pid hpid => absurd ?_ hpid) id hid
  rcases lt_or_ge pid p.count with hlt | hge
  · exact hquiet.2 pid hlt
  · exact h.fresh pid hge

/-- An actor placed on the worker stops before the answer to its spawn is posted: the name is freed
    and then announced. -/
theorem stale_name_kept :
    ∃ p ∈ run Pool.step (create 1 0) [.place 7, .receive 1, .imported 0 true, .started 0 true, .stop 0,
      .stopped 0, .returned 0, .deliver 1, .deliver 1, .settled 0, .receive 1, .receive 1],
      p.Quiet ∧ 1 ∈ p.workers ∧ p.alive 1 = true ∧ p.table 1 7 = some 1 ∧ p.plane.resolve 7 = none := by
  decide +kernel

/-- The worker's actor stops after its placement has ended. -/
def stopAfterwards : List (PoolEvent ℕ) :=
  [.place 7, .receive 1, .imported 0 true, .started 0 true, .returned 0, .deliver 1, .settled 0,
    .stop 0, .stopped 0, .deliver 1, .deliver 1, .receive 1, .receive 1, .receive 1]

/-- An actor that stops afterwards is forgotten everywhere. -/
theorem stopped_name_forgotten : ∃ p ∈ run Pool.step (create 1 0) stopAfterwards,
    p.plane.resolve 7 = none ∧ p.table 1 7 = none := by
  obtain ⟨p, hrun, hquiet, hworker, hfree⟩ : ∃ p ∈ run Pool.step (create 1 0) stopAfterwards,
      p.Quiet ∧ 1 ∈ p.workers ∧ p.plane.resolve 7 = none := by decide +kernel
  have htable := tables_replicate (by decide +kernel) hrun hquiet 1 hworker 7
  exact ⟨p, hrun, hfree, htable.trans hfree⟩

end Pool

end Nodeakt.Worker
