import Nodeakt.Worker.Pool

/-! Who holds a top-level name.

    A spawn holds its name from the moment the control plane has granted it until its actor has
    stopped or its start has failed. `Sound` says that a held name is registered for its holder and
    that nobody else is about to release it. `Keeps` collects what an operation does that grants no
    name and ends no placement; it composes, and keeps a sound pool sound. -/

namespace Nodeakt.Worker
open Schemes Function List

variable {pid : ℕ}

/-- The stages in which a spawn has been granted its name. -/
def SpawnStage.granted : SpawnStage → Bool
  | .ordered | .called | .starting | .live | .stopping => true
  | .absent | .claiming | .stopped | .failed => false

/-- The stages in which a recipe's spawn has not reached the isolate's own spawn. -/
def SpawnStage.early : SpawnStage → Bool
  | .ordered | .called => true
  | _ => false

namespace Pool

variable {ν : Type} [DecidableEq ν]
variable {id : ℕ} {name : ν}

/-! ### The invariant -/

/-- A spawn holds its name: it was granted, or the grant is on its way to the worker that waits for
    it. -/
def Holds (p : Pool ν) (pid : ℕ) : Prop :=
  p.alive (p.isolate pid) = true ∧ ((p.stage pid).granted = true ∨
    p.stage pid = .claiming ∧ .claimed pid true ∈ p.inbox (p.isolate pid))

/-- What a message in a worker's port says is so. -/
def Backed (p : Pool ν) (id : ℕ) : WorkerMessage ν → Prop
  | .claim pid name => p.isolate pid = id ∧ p.name pid = name ∧ pid < p.count
  | .actorStopped name => ∀ pid, p.Holds pid → p.name pid ≠ name
  | .spawned pid => (p.actors pid).returned = true
  | .spawnFailed pid => (p.actors pid).returned = true ∧ p.stage pid = .failed

/-- A held name is registered for the isolate of its one holder and nobody else will release it; a
    placement in flight is the only one of its name and nobody else holds the name. -/
structure Sound (p : Pool ν) : Prop where
  registered : ∀ pid, p.Holds pid → p.plane.resolve (p.name pid) = some (p.isolate pid)
  unique : ∀ pid other, p.Holds pid → p.Holds other → p.name pid = p.name other → pid = other
  backed : ∀ id message, message ∈ p.outbox id → id ∈ p.workers ∧ p.Backed id message
  placing : ∀ pid, p.flight pid ≠ .idle → p.placing (p.name pid) = true
  single : ∀ pid other, p.flight pid ≠ .idle → p.flight other ≠ .idle →
    p.name pid = p.name other → pid = other
  placer : ∀ pid other, p.flight pid ≠ .idle → p.Holds other → p.name pid = p.name other →
    pid = other
  rejected : ∀ pid, p.flight pid = .rejected → ¬ p.Holds pid
  unreturned : ∀ pid, (p.actors pid).placed = true → (p.actors pid).returned = false →
    p.alive (p.isolate pid) = true → p.flight pid = .awaiting
  early : ∀ pid, (p.stage pid).early = true →
    (p.actors pid).placed = true ∧ (p.actors pid).returned = false
  ordering : ∀ pid, p.stage pid = .called → p.isolate pid ≠ mainWorkerId →
    p.alive (p.isolate pid) = true → p.ordering (p.isolate pid) (p.name pid) = true
  fresh : ∀ pid, p.count ≤ pid → p.stage pid = .absent ∧ (p.actors pid).placed = false ∧
    (p.actors pid).returned = false ∧ p.flight pid = .idle ∧
      ∀ id won, .claimed pid won ∉ p.inbox id
  main : p.alive mainWorkerId = true ∧ mainWorkerId ∉ p.workers
  workers : ∀ id, p.alive id = true → id = mainWorkerId ∨ id ∈ p.workers

/-- A pool changes without granting a name or ending a placement. -/
structure Keeps (p q : Pool ν) : Prop where
  isolate : ∀ pid, q.isolate pid = p.isolate pid
  name : ∀ pid, q.name pid = p.name pid
  placed : ∀ pid, (q.actors pid).placed = (p.actors pid).placed
  holds : ∀ pid, q.Holds pid → p.Holds pid
  resolve : ∀ pid, q.Holds pid → q.plane.resolve (p.name pid) = p.plane.resolve (p.name pid)
  outbox : ∀ id message, message ∈ q.outbox id →
    message ∈ p.outbox id ∨ id ∈ q.workers ∧ q.Backed id message
  returned : ∀ pid, (p.actors pid).returned = true → (q.actors pid).returned = true
  failed : ∀ pid, p.stage pid = .failed → q.stage pid = .failed
  early : ∀ pid, (q.stage pid).early = true → (p.stage pid).early = true ∧
    (q.actors pid).returned = (p.actors pid).returned
  ordering : ∀ pid, q.stage pid = .called → q.ordering (p.isolate pid) (p.name pid) = true ∨
    p.stage pid = .called ∧ (p.ordering (p.isolate pid) (p.name pid) = true →
      q.ordering (p.isolate pid) (p.name pid) = true)
  inbox : ∀ id pid won, .claimed pid won ∈ q.inbox id → .claimed pid won ∈ p.inbox id
  fresh : ∀ pid, p.count ≤ pid → q.actors pid = p.actors pid
  flight : q.flight = p.flight
  placing : q.placing = p.placing
  alive : q.alive = p.alive
  workers : q.workers = p.workers
  count : q.count = p.count

variable {p q r : Pool ν}

theorem Backed.keeps (h : p.Keeps q) :
    ∀ {message : WorkerMessage ν}, p.Backed id message → q.Backed id message
  | .claim pid name, hb => by
      obtain ⟨hid, hname, hlt⟩ := hb
      exact ⟨(h.isolate pid).trans hid, (h.name pid).trans hname, h.count ▸ hlt⟩
  | .actorStopped name, hb => fun pid hpid => by
      rw [h.name pid]
      exact hb pid (h.holds pid hpid)
  | .spawned pid, hb => h.returned pid hb
  | .spawnFailed pid, hb => ⟨h.returned pid hb.1, h.failed pid hb.2⟩

theorem Keeps.trans (h : p.Keeps q) (h' : q.Keeps r) : p.Keeps r where
  isolate pid := (h'.isolate pid).trans (h.isolate pid)
  name pid := (h'.name pid).trans (h.name pid)
  placed pid := (h'.placed pid).trans (h.placed pid)
  holds pid hpid := h.holds pid (h'.holds pid hpid)
  resolve pid hpid := by
    have hq := h'.resolve pid hpid
    rw [h.name pid] at hq
    exact hq.trans (h.resolve pid (h'.holds pid hpid))
  outbox id message hmem := by
    rcases h'.outbox id message hmem with hmem | hnew
    · rcases h.outbox id message hmem with hmem | ⟨hid, hb⟩
      · exact .inl hmem
      · exact .inr ⟨h'.workers ▸ hid, hb.keeps h'⟩
    · exact .inr hnew
  returned pid hpid := h'.returned pid (h.returned pid hpid)
  failed pid hpid := h'.failed pid (h.failed pid hpid)
  early pid hpid := by
    obtain ⟨hearly, hreturned⟩ := h'.early pid hpid
    obtain ⟨hearly', hreturned'⟩ := h.early pid hearly
    exact ⟨hearly', hreturned.trans hreturned'⟩
  ordering pid hpid := by
    have hkept := h'.ordering pid hpid
    rw [h.isolate pid, h.name pid] at hkept
    rcases hkept with hset | ⟨hq, hkept⟩
    · exact .inl hset
    · rcases h.ordering pid hq with hset | ⟨hp, hkept'⟩
      · exact .inl (hkept hset)
      · exact .inr ⟨hp, fun hordering => hkept (hkept' hordering)⟩
  inbox id pid won hmem := h.inbox id pid won (h'.inbox id pid won hmem)
  fresh pid hpid := (h'.fresh pid (h.count ▸ hpid)).trans (h.fresh pid hpid)
  flight := h'.flight.trans h.flight
  placing := h'.placing.trans h.placing
  alive := h'.alive.trans h.alive
  workers := h'.workers.trans h.workers
  count := h'.count.trans h.count

theorem Sound.keeps (hs : p.Sound) (h : p.Keeps q) : q.Sound where
  registered pid hpid := by
    rw [h.name, h.isolate, h.resolve pid hpid]
    exact hs.registered pid (h.holds pid hpid)
  unique pid other hpid hother hname := by
    rw [h.name, h.name] at hname
    exact hs.unique pid other (h.holds pid hpid) (h.holds other hother) hname
  backed id message hmem := by
    rcases h.outbox id message hmem with hmem | hnew
    · obtain ⟨hid, hb⟩ := hs.backed id message hmem
      exact ⟨h.workers ▸ hid, hb.keeps h⟩
    · exact hnew
  placing pid hpid := by
    rw [h.placing, h.name]
    rw [h.flight] at hpid
    exact hs.placing pid hpid
  single pid other hpid hother hname := by
    rw [h.flight] at hpid hother
    rw [h.name, h.name] at hname
    exact hs.single pid other hpid hother hname
  placer pid other hpid hother hname := by
    rw [h.flight] at hpid
    rw [h.name, h.name] at hname
    exact hs.placer pid other hpid (h.holds other hother) hname
  rejected pid hpid hholds := by
    rw [h.flight] at hpid
    exact hs.rejected pid hpid (h.holds pid hholds)
  unreturned pid hplaced hreturned halive := by
    rw [h.placed] at hplaced
    rw [h.alive, h.isolate] at halive
    rw [h.flight]
    refine hs.unreturned pid hplaced ?_ halive
    by_contra htrue
    rw [Bool.not_eq_false] at htrue
    rw [h.returned pid htrue] at hreturned
    nomatch hreturned
  early pid hpid := by
    obtain ⟨hearly, hreturned⟩ := h.early pid hpid
    obtain ⟨hplaced, hreturned'⟩ := hs.early pid hearly
    exact ⟨(h.placed pid).trans hplaced, hreturned.trans hreturned'⟩
  ordering pid hpid hmain halive := by
    rw [h.isolate] at hmain halive ⊢
    rw [h.alive] at halive
    rw [h.name]
    rcases h.ordering pid hpid with hset | ⟨hp, hkept⟩
    · exact hset
    · exact hkept (hs.ordering pid hp hmain halive)
  fresh pid hpid := by
    rw [h.count] at hpid
    obtain ⟨hstage, hplaced, hreturned, hflight, hinbox⟩ := hs.fresh pid hpid
    have hsame := h.fresh pid hpid
    rw [stage, hsame, h.flight]
    exact ⟨hstage, hplaced, hreturned, hflight, fun id won hmem => hinbox id won (h.inbox _ _ _ hmem)⟩
  main := by
    rw [h.alive, h.workers]
    exact hs.main
  workers id hid := by
    rw [h.alive] at hid
    rw [h.workers]
    exact hs.workers id hid

/-! ### What the operations keep -/

theorem Keeps.refl (p : Pool ν) : p.Keeps p where
  isolate _ := rfl
  name _ := rfl
  placed _ := rfl
  holds _ := id
  resolve _ _ := rfl
  outbox _ _ := .inl
  returned _ := id
  failed _ := id
  early _ h := ⟨h, rfl⟩
  ordering _ h := .inr ⟨h, id⟩
  inbox _ _ _ := id
  fresh _ _ := rfl
  flight := rfl
  placing := rfl
  alive := rfl
  workers := rfl
  count := rfl

omit [DecidableEq ν] in
theorem change_of_ne {other : ℕ} (f : Incarnation ν → Incarnation ν) (hne : other ≠ pid) :
    (p.change pid f).actors other = p.actors other := update_of_ne hne ..

omit [DecidableEq ν] in
theorem change_self (pid : ℕ) (f : Incarnation ν → Incarnation ν) :
    (p.change pid f).actors pid = f (p.actors pid) := update_self ..

/-- An incarnation moves on: it is early only if it was, is called only if its worker has the order,
    and holds its name only if it did before. -/
theorem keeps_change {f : Incarnation ν → Incarnation ν} (hlt : pid < p.count)
    (hisolate : (f (p.actors pid)).isolate = p.isolate pid)
    (hname : (f (p.actors pid)).name = p.name pid)
    (hplaced : (f (p.actors pid)).placed = (p.actors pid).placed)
    (hreturned : (p.actors pid).returned = true → (f (p.actors pid)).returned = true)
    (hfailed : p.stage pid = .failed → (f (p.actors pid)).stage = .failed)
    (hearly : (f (p.actors pid)).stage.early = true → (p.stage pid).early = true ∧
      (f (p.actors pid)).returned = (p.actors pid).returned)
    (hordering : (f (p.actors pid)).stage = .called →
      p.ordering (p.isolate pid) (p.name pid) = true)
    (hholds : p.alive (p.isolate pid) = true → (f (p.actors pid)).stage.granted = true ∨
      (f (p.actors pid)).stage = .claiming ∧ .claimed pid true ∈ p.inbox (p.isolate pid) →
      p.Holds pid) : p.Keeps (p.change pid f) := by
  have hcases {P : ℕ → Incarnation ν → Prop} (hpid : P pid (f (p.actors pid)))
      (hothers : ∀ other, P other (p.actors other)) :
      ∀ other, P other ((p.change pid f).actors other) :=
    (forall_update_iff _ _).mpr ⟨hpid, fun other _ => hothers other⟩
  have hid : ∀ other, (p.change pid f).isolate other = p.isolate other :=
    hcases (P := fun other a => a.isolate = p.isolate other) hisolate fun _ => rfl
  refine
    { Keeps.refl p with
      isolate := hid
      name := hcases (P := fun other a => a.name = p.name other) hname fun _ => rfl
      placed := hcases (P := fun other a => a.placed = _) hplaced fun _ => rfl
      holds := ?_
      resolve := fun _ _ => rfl
      outbox := fun _ _ => .inl
      returned := hcases (P := fun other a => (p.actors other).returned = true → a.returned = true)
        hreturned fun _ => id
      failed := hcases (P := fun other a => p.stage other = .failed → a.stage = .failed)
        hfailed fun _ => id
      early := hcases (P := fun other a => a.stage.early = true → (p.stage other).early = true ∧
        a.returned = (p.actors other).returned) hearly fun _ h => ⟨h, rfl⟩
      ordering := hcases (P := fun other a => a.stage = .called →
        p.ordering (p.isolate other) (p.name other) = true ∨ p.stage other = .called ∧ (_ → _))
        (fun h => .inl (hordering h)) fun _ h => .inr ⟨h, id⟩
      fresh := fun other hother => change_of_ne f (Nat.ne_of_gt (Nat.lt_of_lt_of_le hlt hother)) }
  · intro other hother
    rw [Holds, hid] at hother
    by_cases hne : other = pid
    · subst other
      rw [stage, change_self] at hother
      exact hholds hother.1 hother.2
    · rw [stage, change_of_ne f hne] at hother
      exact hother

/-- A spawn moves to another stage. -/
theorem keeps_setStage {st : SpawnStage} (hlt : pid < p.count) (hfailed : p.stage pid ≠ .failed)
    (hearly : st.early = false) (hholds : p.alive (p.isolate pid) = true → st.granted = true ∨
      st = .claiming ∧ .claimed pid true ∈ p.inbox (p.isolate pid) → p.Holds pid) :
    p.Keeps (p.setStage pid st) :=
  keeps_change hlt rfl rfl rfl id (fun h => absurd h hfailed)
    (fun h => absurd (h.symm.trans hearly) nofun) (by rintro rfl; nomatch hearly) hholds

/-- A spawn that holds its name may move on. -/
theorem Holds.keeps_setStage {st : SpawnStage} (hpid : p.Holds pid) (hlt : pid < p.count)
    (hfailed : p.stage pid ≠ .failed) (hearly : st.early = false) :
    p.Keeps (p.setStage pid st) := Pool.keeps_setStage hlt hfailed hearly fun _ _ => hpid

/-- The ports and the plane change: no claim is granted, the held names stay registered, and what is
    posted is so. -/
theorem keeps_ports {inbox : ℕ → List (ControlMessage ν)} {outbox : ℕ → List (WorkerMessage ν)}
    {plane : ControlPlane ν}
    (hinbox : ∀ id pid won, .claimed pid won ∈ inbox id → .claimed pid won ∈ p.inbox id)
    (hresolve : ∀ pid, p.Holds pid → plane.resolve (p.name pid) = p.plane.resolve (p.name pid))
    (houtbox : ∀ id message, message ∈ outbox id → message ∈ p.outbox id ∨
      id ∈ p.workers ∧ Backed { p with inbox, outbox, plane } id message) :
    p.Keeps { p with inbox, outbox, plane } := by
  have hholds : ∀ pid, Holds { p with inbox, outbox, plane } pid → p.Holds pid :=
    fun pid hpid => ⟨hpid.1, hpid.2.imp_right fun h => ⟨h.1, hinbox _ _ _ h.2⟩⟩
  exact
    { Keeps.refl p with
      holds := hholds
      resolve := fun pid hpid => hresolve pid (hholds pid hpid)
      outbox := houtbox
      inbox := hinbox }

theorem keeps_broadcast {message : ControlMessage ν}
    (hmessage : ∀ pid won, message ≠ .claimed pid won) : p.Keeps (p.broadcast message) := by
  refine keeps_ports ?_ (fun _ _ => rfl) fun _ _ => .inl
  intro id pid won hmem
  change _ ∈ (if id ∈ p.workers then p.inbox id ++ [message] else p.inbox id) at hmem
  split at hmem
  · rcases mem_append.mp hmem with hmem | hmem
    · exact hmem
    · exact absurd (mem_singleton.mp hmem).symm (hmessage pid won)
  · exact hmem

theorem keeps_send {message : ControlMessage ν} (hmessage : ∀ pid won, message ≠ .claimed pid won) :
    p.Keeps (p.send id message) := by
  unfold send
  split
  · refine keeps_ports ?_ (fun _ _ => rfl) fun _ _ => .inl
    intro other pid won hmem
    rcases mem_push.mp hmem with hmem | ⟨-, heq⟩
    · exact hmem
    · exact absurd heq.symm (hmessage pid won)
  · exact .refl p

theorem keeps_nameAdded (name : ν) (owner : ℕ) : p.Keeps (p.broadcast (.nameAdded name owner)) :=
  keeps_broadcast nofun

theorem keeps_nameFreed (name : ν) : p.Keeps (p.broadcast (.nameFreed name)) :=
  keeps_broadcast nofun

theorem keeps_tree (tree : ℕ → ν → Option ℕ) : p.Keeps { p with tree } := { Keeps.refl p with }

theorem keeps_table (table : ℕ → ν → Option ℕ) : p.Keeps { p with table } := { Keeps.refl p with }

theorem keeps_broadcastFreed : ∀ {names : List ν} {p : Pool ν}, p.Keeps (p.broadcastFreed names)
  | [], p => .refl p
  | name :: _, _ => (keeps_nameFreed name).trans keeps_broadcastFreed

/-- A name nobody holds is released. -/
theorem keeps_release (hnone : ∀ pid, p.Holds pid → p.name pid ≠ name) :
    p.Keeps (p.release name) := by
  have hfreed : p.Keeps { p with plane := p.plane.free name } := by
    refine keeps_ports (fun _ _ _ => id) ?_ fun _ _ => .inl
    intro pid hpid
    rw [ControlPlane.resolve_free, if_neg (hnone pid hpid)]
  exact hfreed.trans (keeps_nameFreed name)

/-- A worker posts a message that is so. -/
theorem keeps_post (message : WorkerMessage ν) (hid : id ∈ p.workers)
    (hbacked : p.Backed id message) : p.Keeps (p.post id message) := by
  have hold : p.Backed id message → (p.post id message).Backed id message := by
    cases message <;> exact fun h => h
  refine keeps_ports (fun _ _ _ hmem => hmem) (fun _ _ => rfl) ?_
  intro other message' hmem
  rcases mem_push.mp hmem with hmem | ⟨rfl, rfl⟩
  · exact .inl hmem
  · exact .inr ⟨hid, hold hbacked⟩

/-- A name nobody holds is freed on a live isolate. -/
theorem Sound.keeps_free (hs : p.Sound) (hid : p.alive id = true)
    (hnone : ∀ pid, p.Holds pid → p.name pid ≠ name) : p.Keeps (p.free id name) := by
  unfold free
  split_ifs with hmain
  · exact keeps_release hnone
  · exact keeps_post _ ((hs.workers id hid).resolve_left hmain) hnone

theorem Sound.keeps_freeAll : ∀ {listeners : ℕ} {p : Pool ν}, p.Sound →
    p.alive id = true → (∀ pid, p.Holds pid → p.name pid ≠ name) →
    p.Keeps (freeAll id name listeners p)
  | 0, p, _, _, _ => .refl p
  | listeners + 1, p, hs, hid, hnone => by
      have hfree := hs.keeps_free hid hnone
      refine hfree.trans ((hs.keeps hfree).keeps_freeAll (hfree.alive ▸ hid) fun pid hpid => ?_)
      rw [hfree.name]
      exact hnone pid (hfree.holds pid hpid)

/-! ### Spawns and stops -/

theorem Sound.lt_count (hs : p.Sound) (hpid : p.stage pid ≠ .absent) : pid < p.count := by
  by_contra hcount
  exact hpid (hs.fresh pid (Nat.le_of_not_lt hcount)).1

omit [DecidableEq ν] in
theorem stage_setStage (pid : ℕ) (st : SpawnStage) : (p.setStage pid st).stage pid = st := by
  rw [stage, setStage, change_self]

omit [DecidableEq ν] in
theorem not_holds (hgranted : (p.stage pid).granted = false) (hclaiming : p.stage pid ≠ .claiming) :
    ¬ p.Holds pid := by
  rintro ⟨-, hstage | hstage⟩
  · rw [hgranted] at hstage
    nomatch hstage
  · exact hclaiming hstage.1

/-- When the holder of a name has let go of it, nobody holds it. -/
theorem Sound.none_holds (hs : p.Sound) (hpid : p.Holds pid) (h : p.Keeps q) (hnot : ¬ q.Holds pid)
    (other : ℕ) (hother : q.Holds other) : q.name other ≠ p.name pid := by
  intro hname
  rw [h.name] at hname
  obtain rfl := hs.unique other pid (h.holds other hother) hpid hname
  exact hnot hother

/-- The holder of a name lets go of it. -/
theorem Sound.lets_go (hs : p.Sound) (st : SpawnStage) (hpid : p.Holds pid)
    (hstage : p.stage pid ≠ .absent) (hfailed : p.stage pid ≠ .failed)
    (hgranted : st.granted = false) (hclaiming : st ≠ .claiming) :
    p.Keeps (p.setStage pid st) ∧
      ∀ other, (p.setStage pid st).Holds other → (p.setStage pid st).name other ≠ p.name pid := by
  have hkeeps := hpid.keeps_setStage (hs.lt_count hstage) hfailed
    (by cases st <;> first | rfl | nomatch hgranted : st.early = false)
  refine ⟨hkeeps, hs.none_holds hpid hkeeps (not_holds ?_ ?_)⟩
  · rwa [stage_setStage]
  · rwa [stage_setStage]

theorem Sound.finishStart (hs : p.Sound) {ok : Bool} (halive : p.alive (p.isolate pid) = true)
    (hstage : p.stage pid = .starting) :
    (p.finishStart pid ok).Sound := by
  have hpid : p.Holds pid := ⟨halive, .inl (by rw [hstage]; rfl)⟩
  have hpresent : p.stage pid ≠ .absent := by rw [hstage]; nofun
  have hfailed : p.stage pid ≠ .failed := by rw [hstage]; nofun
  unfold Pool.finishStart
  dsimp only
  split
  · have hlive : p.Keeps (p.change pid fun a => { a with
        stage := .live, listeners := a.listeners + 1 }) :=
      keeps_change (hs.lt_count hpresent) rfl rfl rfl id (fun h => absurd h hfailed) nofun nofun
        fun _ _ => hpid
    exact hs.keeps (hlive.trans (keeps_tree _))
  · obtain ⟨hkeeps, hnone⟩ := hs.lets_go .failed hpid hpresent hfailed rfl nofun
    exact (hs.keeps hkeeps).keeps ((hs.keeps hkeeps).keeps_free halive hnone)

theorem Sound.finishStop (hs : p.Sound) (halive : p.alive (p.isolate pid) = true)
    (hstage : p.stage pid = .stopping) : (p.finishStop pid).Sound := by
  have hpid : p.Holds pid := ⟨halive, .inl (by rw [hstage]; rfl)⟩
  obtain ⟨hkeeps, hnone⟩ := hs.lets_go .stopped hpid (by rw [hstage]; nofun)
    (by rw [hstage]; nofun) rfl nofun
  have hgone : ∀ tree, Sound { p.setStage pid .stopped with tree } :=
    fun tree => (hs.keeps hkeeps).keeps (keeps_tree tree)
  exact (hgone _).keeps ((hgone _).keeps_freeAll halive hnone)

/-! ### Placements -/

/-- A placement whose recipe's spawn is over comes to its end. -/
theorem Sound.land (hs : p.Sound) (hflight : p.flight pid ≠ .idle)
    (hreturned : (p.actors pid).placed = true → (p.actors pid).returned = false →
      p.alive (p.isolate pid) = false) : (p.land pid).Sound := by
  have hother : ∀ other, (p.land pid).flight other ≠ .idle →
      p.flight other ≠ .idle ∧ other ≠ pid := by
    intro other hother
    change update p.flight pid .idle other ≠ .idle at hother
    by_cases hne : other = pid
    · subst other
      rw [update_self] at hother
      exact absurd rfl hother
    · rw [update_of_ne hne] at hother
      exact ⟨hother, hne⟩
  exact
    { hs with
      backed := fun id message hmem => by
        obtain ⟨hid, hb⟩ := hs.backed id message hmem
        refine ⟨hid, ?_⟩
        cases message <;> exact hb
      placing := fun other h => by
        obtain ⟨h, hne⟩ := hother other h
        change update p.placing (p.name pid) false (p.name other) = true
        rw [update_of_ne]
        · exact hs.placing other h
        · exact fun hname => hne (hs.single other pid h hflight hname)
      single := fun one other h h' => hs.single one other (hother one h).1 (hother other h').1
      placer := fun one other h => hs.placer one other (hother one h).1
      rejected := fun other h => by
        have hidle : (p.land pid).flight other ≠ .idle := by rw [h]; nofun
        change update p.flight pid .idle other = .rejected at h
        rw [update_of_ne (hother other hidle).2] at h
        exact hs.rejected other h
      unreturned := fun other hplaced hret halive => by
        have hne : other ≠ pid := by
          rintro rfl
          rw [show p.alive (p.isolate other) = true from halive] at hreturned
          exact nomatch hreturned hplaced hret
        change update p.flight pid .idle other = .awaiting
        rw [update_of_ne hne]
        exact hs.unreturned other hplaced hret halive
      fresh := fun other h => by
        obtain ⟨hstage, hplaced, hret, hidle, hinbox⟩ := hs.fresh other h
        refine ⟨hstage, hplaced, hret, ?_, hinbox⟩
        by_contra hfl
        exact (hother other hfl).1 hidle }

theorem Sound.finishPlace (hs : p.Sound) (hflight : p.flight pid ∈ [.resolved, .rejected]) :
    (p.finishPlace pid).Sound := by
  have hidle : p.flight pid ≠ .idle := by rintro h; rw [h] at hflight; simp at hflight
  have hreturned : (p.actors pid).placed = true → (p.actors pid).returned = false →
      p.alive (p.isolate pid) = false := by
    intro hplaced hret
    by_contra halive
    rw [hs.unreturned pid hplaced hret (Bool.not_eq_false _ ▸ halive)] at hflight
    simp at hflight
  unfold Pool.finishPlace
  dsimp only
  split
  · exact (hs.keeps (keeps_nameAdded ..)).land hidle hreturned
  · rename_i hresolved
    have hrejected : p.flight pid = .rejected := by
      simpa [show p.flight pid ≠ .resolved from hresolved] using hflight
    refine (hs.keeps (keeps_release ?_)).land hidle hreturned
    intro other hother hname
    obtain rfl := hs.placer pid other hidle hother hname.symm
    exact hs.rejected pid hrejected hother

theorem ordering_setOrdering (id other : ℕ) (name name' : ν) (b : Bool) :
    (p.setOrdering id name b).ordering other name' =
      if other = id ∧ name' = name then b else p.ordering other name' := by
  change update p.ordering id (update (p.ordering id) name b) other name' = _
  by_cases hid : other = id
  · subst other
    rw [update_self, update_apply]
    simp
  · rw [update_of_ne hid, if_neg fun h => hid h.1]

/-- A worker begins an order, or ends one and has no other for the name. -/
theorem keeps_setOrdering {b : Bool}
    (hother : b = false → ∀ other, p.stage other = .called → p.isolate other = id →
      p.name other ≠ name) : p.Keeps (p.setOrdering id name b) := by
  refine { Keeps.refl p with ordering := fun other hcalled => .inr ⟨hcalled, fun hordering => ?_⟩ }
  rw [ordering_setOrdering]
  split_ifs with hsame
  · by_contra hb
    rw [Bool.not_eq_true] at hb
    exact hother hb other hcalled hsame.1 hsame.2
  · exact hordering

section

variable (hs : p.Sound)
include hs

/-- What is left of a recipe's spawn changes the incarnation, but not its stage. -/
theorem Sound.keeps_returned {f : Incarnation ν → Incarnation ν} (hpresent : p.stage pid ≠ .absent)
    (hearly : (p.stage pid).early = false)
    (hf : ∀ a, ∃ listeners, f a = { a with listeners, returned := true }) :
    p.Keeps (p.change pid f) ∧ ((p.change pid f).actors pid).returned = true ∧
      (p.change pid f).stage pid = p.stage pid := by
  obtain ⟨listeners, hfa⟩ := hf (p.actors pid)
  refine ⟨keeps_change (hs.lt_count hpresent) ?_ ?_ ?_ ?_ ?_ ?_ ?_ ?_, ?_, ?_⟩
  · rw [hfa]; rfl
  · rw [hfa]; rfl
  · rw [hfa]
  · rw [hfa]; exact fun _ => rfl
  · rw [hfa]; exact fun h => h
  · rw [hfa]; exact fun h => absurd (h.symm.trans hearly) nofun
  · rw [hfa]; intro h; rw [show p.stage pid = .called from h] at hearly; nomatch hearly
  · rw [hfa]; exact fun halive hstage => ⟨halive, hstage⟩
  · rw [change_self, hfa]
  · rw [stage, change_self, hfa]; rfl

theorem Sound.finishSpawn (halive : p.alive (p.isolate pid) = true)
    (hplaced : (p.actors pid).placed = true) (hreturned : (p.actors pid).returned = false)
    (hstage : p.stage pid ∈ [.live, .stopping, .stopped, .failed]) : (p.finishSpawn pid).Sound := by
  have hawaiting := hs.unreturned pid hplaced hreturned halive
  have hidle : p.flight pid ≠ .idle := by rw [hawaiting]; nofun
  have hpresent : p.stage pid ≠ .absent := by rintro h; rw [h] at hstage; simp at hstage
  have hearly : (p.stage pid).early = false := by
    revert hstage
    cases p.stage pid <;> simp [SpawnStage.early]
  -- no other order of the name is under way on this isolate
  have hother : ∀ other, (p.stage other).early = true → p.isolate other = p.isolate pid →
      p.name other ≠ p.name pid := by
    intro other hoc hid hname
    obtain ⟨hop, hor⟩ := hs.early other hoc
    have hoa := hs.unreturned other hop hor (hid ▸ halive)
    obtain rfl := hs.single other pid (by rw [hoa]; nofun) hidle hname
    rw [hoc] at hearly
    nomatch hearly
  unfold Pool.finishSpawn
  dsimp only
  split
  · rename_i hfailed
    obtain ⟨hended, htrue, hsame⟩ := hs.keeps_returned (f := ({ · with returned := true }))
      hpresent hearly fun a => ⟨a.listeners, rfl⟩
    have hs' := hs.keeps hended
    split
    · refine (hs'.keeps (keeps_release fun other ho hname => ?_)).land hidle fun _ hfalse => ?_
      · rw [hended.name] at hname
        obtain rfl := hs.placer pid other hidle (hended.holds other ho) hname.symm
        exact not_holds (by rw [hfailed]; rfl) (by rw [hfailed]; nofun) (hended.holds pid ho)
      · cases htrue.symm.trans hfalse
    · rename_i hmain
      have hpost := hended.trans (keeps_post (.spawnFailed pid)
        ((hs.workers _ halive).resolve_left hmain) ⟨htrue, hsame.trans hfailed⟩)
      exact (hs.keeps hpost).keeps (keeps_setOrdering fun _ other hoc => by
        rw [hpost.isolate, hpost.name]
        exact hother other (hpost.early other (by rw [hoc]; rfl)).1)
  · obtain ⟨hended, htrue, -⟩ := hs.keeps_returned
      (f := fun a => { a with listeners := a.listeners + 1, returned := true })
      hpresent hearly fun a => ⟨a.listeners + 1, rfl⟩
    split
    · refine ((hs.keeps hended).keeps (keeps_nameAdded ..)).land hidle fun _ hfalse => ?_
      cases htrue.symm.trans hfalse
    · rename_i hmain
      have hpost := hended.trans (keeps_post (.spawned pid)
        ((hs.workers _ halive).resolve_left hmain) htrue)
      exact (hs.keeps hpost).keeps (keeps_setOrdering fun _ other hoc => by
        rw [hpost.isolate, hpost.name]
        exact hother other (hpost.early other (by rw [hoc]; rfl)).1)

/-- The pool settles a placement whose spawn is over, or whose worker is dead. -/
theorem Sound.setFlight {flight : ℕ → Flight}
    (hflight : ∀ pid, flight pid = p.flight pid ∨ p.flight pid ≠ .idle ∧ flight pid ≠ .idle ∧
      (flight pid = .rejected → ¬ p.Holds pid) ∧ ((p.actors pid).placed = true →
        (p.actors pid).returned = false → p.alive (p.isolate pid) = false)) :
    Sound { p with flight } := by
  have hidle : ∀ pid, flight pid ≠ .idle → p.flight pid ≠ .idle := by
    intro pid hpid
    rcases hflight pid with hsame | hnew
    · rwa [hsame] at hpid
    · exact hnew.1
  exact
    { hs with
      backed := fun id message hmem => by
        obtain ⟨hid, hb⟩ := hs.backed id message hmem
        refine ⟨hid, ?_⟩
        cases message <;> exact hb
      placing := fun pid hpid => hs.placing pid (hidle pid hpid)
      single := fun pid other hpid hother => hs.single pid other (hidle pid hpid) (hidle other hother)
      placer := fun pid other hpid => hs.placer pid other (hidle pid hpid)
      rejected := fun pid hpid => by
        rcases hflight pid with hsame | hnew
        · exact hs.rejected pid (hsame.symm.trans hpid)
        · exact hnew.2.2.1 hpid
      unreturned := fun pid hplaced hreturned halive => by
        rcases hflight pid with hsame | hnew
        · exact hsame.trans (hs.unreturned pid hplaced hreturned halive)
        · cases halive.symm.trans (hnew.2.2.2 hplaced hreturned)
      fresh := fun pid hpid => by
        obtain ⟨hstage, hplaced, hreturned, hfl, hinbox⟩ := hs.fresh pid hpid
        refine ⟨hstage, hplaced, hreturned, ?_, hinbox⟩
        by_contra hnot
        exact hidle pid hnot hfl }

theorem Sound.settle {id pid : ℕ} {flight : Flight} (hidle : flight ≠ .idle)
    (hreturned : (p.actors pid).returned = true)
    (hrejected : flight = .rejected → p.stage pid = .failed) : (p.settle id pid flight).Sound := by
  unfold Pool.settle
  split_ifs with hawaiting
  · refine hs.setFlight fun other => ?_
    by_cases hne : other = pid
    · subst other
      rw [update_self]
      refine .inr ⟨by rw [hawaiting.1]; nofun, hidle, fun hrej => ?_, fun _ hfalse => ?_⟩
      · have hfailed := hrejected hrej
        exact not_holds (by rw [hfailed]; rfl) (by rw [hfailed]; nofun)
      · cases hreturned.symm.trans hfalse
    · exact .inl (update_of_ne hne ..)
  · exact hs

/-- A dead worker leaves the pool with its names and its port. -/
theorem Sound.retire (halive : p.alive id = false) : Sound { p with
      workers := p.workers.filter (· ≠ id)
      plane := (p.plane.evict id).1
      outbox := update p.outbox id [] } := by
  have hne : ∀ {other}, p.alive other = true → other ≠ id := by
    rintro other hother rfl
    cases hother.symm.trans halive
  exact
    { hs with
      registered := fun pid hpid =>
        ControlPlane.resolve_evict.mpr ⟨hs.registered pid hpid, hne hpid.1⟩
      backed := fun other message hmem => by
        change message ∈ update p.outbox id [] other at hmem
        by_cases hne : other = id
        · subst other
          rw [update_self] at hmem
          nomatch hmem
        · rw [update_of_ne hne] at hmem
          obtain ⟨hid, hb⟩ := hs.backed other message hmem
          refine ⟨mem_filter.mpr ⟨hid, decide_eq_true hne⟩, ?_⟩
          cases message <;> exact hb
      main := ⟨hs.main.1, fun hmem => hs.main.2 (mem_filter.mp hmem).1⟩
      workers := fun other hother => (hs.workers other hother).imp_right fun hmem =>
        mem_filter.mpr ⟨hmem, decide_eq_true (hne hother)⟩ }

/-- The pool runs the death sequence of a worker that is dead. -/
theorem Sound.onExit (halive : p.alive id = false) : (p.onExit id).Sound := by
  have hflight : Sound { p with flight := p.rejectPending id } := by
    refine hs.setFlight fun pid => ?_
    rw [rejectPending]
    by_cases hpid : p.flight pid = .awaiting ∧ p.isolate pid = id
    · have hdead : p.alive (p.isolate pid) = false := hpid.2 ▸ halive
      rw [if_pos hpid]
      refine .inr ⟨by rw [hpid.1]; nofun, nofun, fun _ hholds => ?_, fun _ _ => hdead⟩
      cases hholds.1.symm.trans hdead
    · exact .inl (if_neg hpid)
  exact (hflight.retire halive).keeps keeps_broadcastFreed

theorem Sound.die (hid : id ∈ p.workers) : Sound { p with alive := update p.alive id false } := by
  have halive : ∀ other, update p.alive id false other = true → p.alive other = true := by
    intro other hother
    by_cases hne : other = id
    · subst other
      rw [update_self] at hother
      nomatch hother
    · rwa [update_of_ne hne] at hother
  have hholds : ∀ pid, Holds { p with alive := update p.alive id false } pid → p.Holds pid :=
    fun pid hpid => ⟨halive _ hpid.1, hpid.2⟩
  exact
    { hs with
      registered := fun pid hpid => hs.registered pid (hholds pid hpid)
      unique := fun pid other hpid hother => hs.unique pid other (hholds pid hpid) (hholds other hother)
      backed := fun other message hmem => by
        obtain ⟨hother, hb⟩ := hs.backed other message hmem
        refine ⟨hother, ?_⟩
        cases message with
        | actorStopped name => exact fun pid hpid => hb pid (hholds pid hpid)
        | _ => exact hb
      placer := fun pid other hpid hother => hs.placer pid other hpid (hholds other hother)
      rejected := fun pid hpid hother => hs.rejected pid hpid (hholds pid hother)
      unreturned := fun pid hplaced hreturned hup => hs.unreturned pid hplaced hreturned (halive _ hup)
      ordering := fun pid hpid hmain hup => hs.ordering pid hpid hmain (halive _ hup)
      main := by
        refine ⟨?_, hs.main.2⟩
        change update p.alive id false mainWorkerId = true
        rw [update_of_ne]
        · exact hs.main.1
        · rintro rfl
          exact hs.main.2 hid
      workers := fun other hother => hs.workers other (halive other hother) }

end

end Pool

end Nodeakt.Worker
