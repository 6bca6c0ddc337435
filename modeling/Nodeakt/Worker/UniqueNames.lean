import Nodeakt.Worker.Ownership

/-! Top-level names are unique across a pool.

    `Clear` asks that a name is claimed or placed only when nothing of an earlier spawn of it is under
    way: no placement in flight, and no announcement of a stop in a port. Then every grant finds the
    name `Open`, the pool stays sound, and `names_unique` follows for every run. -/

namespace Nodeakt.Worker
open Schemes Function Option

namespace Pool

variable {ν : Type} [DecidableEq ν] {p q : Pool ν}
variable {name : ν} {id pid : ℕ} {st : SpawnStage}

/-! ### The condition -/

/-- A name can be claimed: it is not being placed, and if it is free, no worker has announced a stop
    of it that has not arrived. -/
def Free (p : Pool ν) (name : ν) : Prop :=
  p.placing name = false ∧
    (p.plane.resolve name = none → ∀ id ∈ p.workers, .actorStopped name ∉ p.outbox id)

/-- A claim that arrives is for a name that can be claimed. -/
def ClearMessage (p : Pool ν) : Option (WorkerMessage ν) → Prop
  | some (.claim _ name) => p.Free name
  | _ => True

/-- A free name is placed, a name is claimed on the main isolate, and a worker's claim arrives, only
    when the name can be claimed; and an instance is spawned on a worker only when the worker is not
    spawning its name on the pool's order. -/
def Clear (p : Pool ν) : PoolEvent ν → Prop
  | .place name => p.plane.resolve name = none → p.Free name
  | .spawn id name =>
    p.tree id name = none → if id = mainWorkerId then p.Free name else p.ordering id name = false
  | .deliver id => p.ClearMessage (p.outbox id).head?
  | _ => True

/-! ### Grants -/

/-- A name nobody holds is registered for the isolate that claims it. -/
theorem Sound.register (hs : p.Sound) {plane : ControlPlane ν}
    (hregister : p.plane.register name id = some plane) :
    (∀ pid, p.Holds pid → p.name pid ≠ name) ∧ Sound { p with plane } := by
  obtain ⟨hnone, hresolve⟩ := ControlPlane.register_eq_some hregister
  have hfree : ∀ pid, p.Holds pid → p.name pid ≠ name := by
    intro pid hpid hname
    rw [← hname, hs.registered pid hpid] at hnone
    nomatch hnone
  refine ⟨hfree, hs.keeps (keeps_ports (fun _ _ _ hmem => hmem) ?_ fun _ _ => .inl)⟩
  intro pid hpid
  rw [hresolve, if_neg (hfree pid hpid)]

/-- Nothing of an earlier spawn of the name is under way, and it is registered for the isolate. -/
structure Open (p : Pool ν) (name : ν) (id : ℕ) : Prop where
  unheld : ∀ pid, p.Holds pid → p.name pid ≠ name
  grounded : ∀ pid, p.flight pid ≠ .idle → p.name pid ≠ name
  quiet : ∀ other, .actorStopped name ∉ p.outbox other
  resolve : p.plane.resolve name = some id

/-- A name that can be claimed is open once it is registered. -/
theorem Sound.register_open (hs : p.Sound) {plane : ControlPlane ν} (hfree : p.Free name)
    (hregister : p.plane.register name id = some plane) :
    Sound { p with plane } ∧ Open { p with plane } name id := by
  obtain ⟨hunheld, hs'⟩ := hs.register hregister
  obtain ⟨hnone, hresolve⟩ := ControlPlane.register_eq_some hregister
  refine ⟨hs', hunheld, ?_, ?_, ?_⟩
  · intro pid hpid hname
    have hplacing := hs.placing pid hpid
    rw [show p.name pid = name from hname, hfree.1] at hplacing
    nomatch hplacing
  · intro other hmem
    exact hfree.2 hnone other (hs.backed other _ hmem).1 hmem
  · exact (hresolve name).trans (if_pos rfl)

theorem Open.keeps (ho : p.Open name id) (h : p.Keeps q) (hplane : q.plane = p.plane)
    (houtbox : q.outbox = p.outbox) : q.Open name id where
  unheld pid hpid := by
    rw [h.name]
    exact ho.unheld pid (h.holds pid hpid)
  grounded pid hpid := by
    rw [h.name]
    exact ho.grounded pid (h.flight ▸ hpid)
  quiet := by
    rw [houtbox]
    exact ho.quiet
  resolve := by
    rw [hplane]
    exact ho.resolve

omit [DecidableEq ν] in
theorem enlist_self (id : ℕ) (name : ν) (placed : Bool) (st : SpawnStage) :
    (p.enlist id name placed st).actors p.count = ⟨id, name, placed, st, 0, false⟩ :=
  update_self ..

omit [DecidableEq ν] in
theorem enlist_setStage (id : ℕ) (name : ν) (placed : Bool) (st st' : SpawnStage) :
    (p.enlist id name placed st).setStage p.count st' = p.enlist id name placed st' := by
  simp only [setStage, change, enlist_self]
  simp only [enlist, update_idem]

/-- A new incarnation, placed or not: it holds its name only if that is open. -/
theorem Sound.enlist (hs : p.Sound) {placed : Bool} {fl : Flight} {placing : ν → Bool}
    (hplacing : ∀ n, p.placing n = true → placing n = true)
    (hflight : fl ≠ .idle → placing name = true ∧ p.Open name id) (hrejected : fl ≠ .rejected)
    (hplaced : placed = true → fl = .awaiting) (hearly : st.early = true → placed = true)
    (hcalled : st = .called → id = mainWorkerId) (hopen : st.granted = true → p.Open name id) :
    Sound ({ p with placing, flight := update p.flight p.count fl }.enlist
      id name placed st) := by
  obtain ⟨-, -, hunreturned, -, hunclaimed⟩ := hs.fresh _ le_rfl
  let q := { p with placing, flight := update p.flight p.count fl }.enlist id name placed st
  change q.Sound
  have hself : q.actors p.count = ⟨id, name, placed, st, 0, false⟩ := update_self ..
  have hold : ∀ pid, pid ≠ p.count → q.actors pid = p.actors pid :=
    fun pid hne => update_of_ne hne ..
  have hstart : q.flight p.count = fl := update_self ..
  have hkept : ∀ pid, pid ≠ p.count → q.flight pid = p.flight pid :=
    fun pid hne => update_of_ne hne ..
  have hholds : ∀ pid, q.Holds pid → pid = p.count ∧ p.Open name id ∨ pid ≠ p.count ∧ p.Holds pid := by
    intro pid hpid
    by_cases hne : pid = p.count
    · subst hne
      rw [Holds, stage, isolate, hself] at hpid
      rcases hpid.2 with hgranted | ⟨-, hmem⟩
      · exact .inl ⟨rfl, hopen hgranted⟩
      · exact absurd hmem (hunclaimed _ _)
    · rw [Holds, stage, isolate, hold pid hne] at hpid
      exact .inr ⟨hne, hpid⟩
  have hfly : ∀ pid, q.flight pid ≠ .idle →
      pid = p.count ∧ placing name = true ∧ p.Open name id ∨ pid ≠ p.count ∧ p.flight pid ≠ .idle := by
    intro pid hpid
    by_cases hne : pid = p.count
    · subst hne
      rw [hstart] at hpid
      exact .inl ⟨rfl, hflight hpid⟩
    · rw [hkept pid hne] at hpid
      exact .inr ⟨hne, hpid⟩
  constructor
  case registered =>
    intro pid hpid
    rcases hholds pid hpid with ⟨rfl, ho⟩ | ⟨hne, hpid⟩
    · rw [Pool.name, isolate, hself]
      exact ho.resolve
    · rw [Pool.name, isolate, hold pid hne]
      exact hs.registered pid hpid
  case unique =>
    intro pid other hpid hother hname
    rw [Pool.name, Pool.name] at hname
    rcases hholds pid hpid with ⟨rfl, ho⟩ | ⟨hne, hpid⟩ <;>
      rcases hholds other hother with ⟨rfl, ho'⟩ | ⟨hne', hother⟩
    · rfl
    · rw [hself, hold other hne'] at hname
      exact absurd hname.symm (ho.unheld other hother)
    · rw [hself, hold pid hne] at hname
      exact absurd hname (ho'.unheld pid hpid)
    · rw [hold pid hne, hold other hne'] at hname
      exact hs.unique pid other hpid hother hname
  case backed =>
    intro other message hmem
    obtain ⟨hid, hb⟩ := hs.backed other message hmem
    refine ⟨hid, ?_⟩
    cases message with
    | claim pid n =>
      obtain ⟨hisolate, hname, hlt⟩ := hb
      rw [Backed, isolate, Pool.name, hold pid (Nat.ne_of_lt hlt)]
      exact ⟨hisolate, hname, Nat.lt_succ_of_lt hlt⟩
    | actorStopped n =>
      intro pid hpid
      rcases hholds pid hpid with ⟨rfl, ho⟩ | ⟨hne, hpid⟩
      · rw [Pool.name, hself]
        rintro rfl
        exact ho.quiet other hmem
      · rw [Pool.name, hold pid hne]
        exact hb pid hpid
    | spawned pid =>
      rw [Backed, hold pid]
      · exact hb
      · rintro rfl
        cases hunreturned.symm.trans hb
    | spawnFailed pid =>
      rw [Backed, stage, hold pid]
      · exact hb
      · rintro rfl
        cases hunreturned.symm.trans hb.1
  case placing =>
    intro pid hpid
    rcases hfly pid hpid with ⟨rfl, hpl, -⟩ | ⟨hne, hpid⟩
    · rw [Pool.name, hself]
      exact hpl
    · rw [Pool.name, hold pid hne]
      exact hplacing _ (hs.placing pid hpid)
  case single =>
    intro pid other hpid hother hname
    rw [Pool.name, Pool.name] at hname
    rcases hfly pid hpid with ⟨rfl, -, ho⟩ | ⟨hne, hpid⟩ <;>
      rcases hfly other hother with ⟨rfl, -, ho'⟩ | ⟨hne', hother⟩
    · rfl
    · rw [hself, hold other hne'] at hname
      exact absurd hname.symm (ho.grounded other hother)
    · rw [hself, hold pid hne] at hname
      exact absurd hname (ho'.grounded pid hpid)
    · rw [hold pid hne, hold other hne'] at hname
      exact hs.single pid other hpid hother hname
  case placer =>
    intro pid other hpid hother hname
    rw [Pool.name, Pool.name] at hname
    rcases hfly pid hpid with ⟨rfl, -, ho⟩ | ⟨hne, hpid⟩ <;>
      rcases hholds other hother with ⟨rfl, ho'⟩ | ⟨hne', hother⟩
    · rfl
    · rw [hself, hold other hne'] at hname
      exact absurd hname.symm (ho.unheld other hother)
    · rw [hself, hold pid hne] at hname
      exact absurd hname (ho'.grounded pid hpid)
    · rw [hold pid hne, hold other hne'] at hname
      exact hs.placer pid other hpid hother hname
  case rejected =>
    intro pid hpid hpid'
    rcases hholds pid hpid' with ⟨rfl, -⟩ | ⟨hne, hpid'⟩
    · exact hrejected (hstart.symm.trans hpid)
    · exact hs.rejected pid ((hkept pid hne).symm.trans hpid) hpid'
  case unreturned =>
    intro pid hpl hreturned halive
    by_cases hne : pid = p.count
    · subst hne
      rw [hself] at hpl
      exact hstart.trans (hplaced hpl)
    · rw [hold pid hne] at hpl hreturned
      rw [isolate, hold pid hne] at halive
      exact (hkept pid hne).trans (hs.unreturned pid hpl hreturned halive)
  case early =>
    intro pid hpid
    by_cases hne : pid = p.count
    · subst hne
      rw [stage, hself] at hpid
      rw [hself]
      exact ⟨hearly hpid, rfl⟩
    · rw [stage, hold pid hne] at hpid
      rw [hold pid hne]
      exact hs.early pid hpid
  case ordering =>
    intro pid hpid hmain halive
    by_cases hne : pid = p.count
    · subst hne
      rw [stage, hself] at hpid
      rw [isolate, hself] at hmain
      exact absurd (hcalled hpid) hmain
    · rw [stage, hold pid hne] at hpid
      rw [isolate, hold pid hne] at hmain halive ⊢
      rw [Pool.name, hold pid hne]
      exact hs.ordering pid hpid hmain halive
  case fresh =>
    intro pid hpid
    have hlt : p.count < pid := hpid
    rw [stage, hold pid hlt.ne', hkept pid hlt.ne']
    exact hs.fresh pid hlt.le
  case main => exact hs.main
  case workers => exact hs.workers

/-- A new incarnation of an instance. -/
theorem Sound.enlist_instance (hs : p.Sound) (hearly : st.early = false)
    (hopen : st.granted = true → p.Open name id) :
    (p.enlist id name false st).Sound := by
  have hidle : update p.flight p.count .idle = p.flight :=
    update_eq_self_iff.mpr (hs.fresh _ le_rfl).2.2.2.1.symm
  have hcalled : st = .called → id = mainWorkerId := by
    rintro rfl
    nomatch hearly
  have hnew : Sound ({ p with placing := p.placing, flight := update p.flight p.count .idle
      }.enlist id name false st) :=
    hs.enlist (fun _ hplacing => hplacing) (absurd rfl) nofun nofun
      (fun htrue => absurd (htrue.symm.trans hearly) nofun) hcalled hopen
  rwa [hidle] at hnew

/-- A claim of a name that is not being placed registers it or is refused. -/
theorem claim_cases (id : ℕ) (hplacing : p.placing name = false) :
    p.claim name id = (p, false) ∨ ∃ plane, p.plane.register name id = some plane ∧
      p.claim name id = ({ p with plane }.broadcast (.nameAdded name id), true) := by
  unfold claim
  rw [hplacing]
  cases hregister : p.plane.register name id with
  | none => exact .inl rfl
  | some plane => exact .inr ⟨plane, rfl, rfl⟩

/-- An instance is spawned on an isolate. -/
theorem Sound.spawn (hs : p.Sound) (halive : p.alive id = true) (hcond : p.tree id name = none →
      if id = mainWorkerId then p.Free name else p.ordering id name = false) :
    ((p.enlist id name false .called).spawnHere p.count).Sound := by
  have hfailed : (p.enlist id name false .failed).Sound := hs.enlist_instance rfl (fun h => by cases h)
  unfold spawnHere
  rw [isolate, Pool.name, enlist_self]
  dsimp only
  split
  · rw [enlist_setStage]
    exact hfailed
  · rename_i htree
    have hcond := hcond (not_not.mp htree)
    split
    · rename_i hmain
      subst id
      rw [if_pos rfl] at hcond
      rcases claim_cases (p := p.enlist mainWorkerId name false .called) mainWorkerId hcond.1 with
        hclaim | ⟨plane, hregister, hclaim⟩ <;> rw [hclaim]
      · dsimp only
        rw [enlist_setStage]
        exact hfailed
      · obtain ⟨hs', hopen⟩ := hs.register_open hcond hregister
        have hkeeps := keeps_nameAdded (p := { p with plane }) name mainWorkerId
        have hstarting : (({ p with plane }.broadcast (.nameAdded name mainWorkerId)).enlist
            mainWorkerId name false .starting).Sound :=
          (hs'.keeps hkeeps).enlist_instance rfl fun _ => hopen.keeps hkeeps rfl rfl
        rw [← enlist_setStage] at hstarting
        exact hstarting
    · rename_i hmain
      rw [if_neg hmain] at hcond
      have hordering : (p.enlist id name false .called).ordering id name = false := hcond
      rw [hordering, if_neg Bool.false_ne_true, enlist_setStage]
      have hclaiming : (p.enlist id name false .claiming).Sound :=
        hs.enlist_instance rfl (fun h => by cases h)
      refine hclaiming.keeps (keeps_post _ ((hs.workers id halive).resolve_left hmain) ?_)
      rw [Backed, isolate, Pool.name, enlist_self]
      exact ⟨rfl, rfl, Nat.lt_succ_self _⟩

/-- A recipe that has been imported is spawned on the isolate of its placement. -/
theorem Sound.imported (hs : p.Sound) (halive : p.alive (p.isolate pid) = true)
    (hstage : p.stage pid = .called) : (p.spawnHere pid).Sound := by
  have hpid : p.Holds pid := ⟨halive, .inl (by rw [hstage]; rfl)⟩
  have hmoves : ∀ {st : SpawnStage}, st.early = false → (p.setStage pid st).Sound := fun hearly =>
    hs.keeps (hpid.keeps_setStage (hs.lt_count (by rw [hstage]; nofun)) (by rw [hstage]; nofun) hearly)
  obtain ⟨hplaced, hreturned⟩ := hs.early pid (by rw [hstage]; rfl)
  have hawaiting := hs.unreturned pid hplaced hreturned halive
  have hplacing := hs.placing pid (by rw [hawaiting]; nofun)
  unfold spawnHere
  dsimp only
  split
  · exact hmoves rfl
  · split
    · rw [claim, if_pos hplacing]
      exact hmoves rfl
    · rename_i hmain
      rw [if_pos (hs.ordering pid hstage hmain halive)]
      exact hmoves rfl

theorem Sound.place (hs : p.Sound) (hcond : p.plane.resolve name = none → p.Free name) :
    (p.place name).Sound := by
  unfold Pool.place
  split
  · exact hs
  split
  · exact hs
  · rename_i plane hregister
    obtain ⟨hs', hopen⟩ := hs.register_open
      (hcond (ControlPlane.register_eq_some hregister).1) hregister
    have hplacing : ∀ n, p.placing n = true → update p.placing name true n = true := by
      intro n hn
      rw [update_apply]
      split
      · rfl
      · exact hn
    dsimp only
    split_ifs with hmain
    · exact hs'.enlist hplacing (fun _ => ⟨update_self .., hopen⟩) (by decide) (fun _ => rfl)
        (fun _ => rfl) (fun _ => hmain) fun _ => hopen
    · have hordered : Sound ({ p with
          plane
          placing := update p.placing name true
          flight := update p.flight p.count .awaiting }.enlist p.plane.place name true
            .ordered) :=
        hs'.enlist hplacing (fun _ => ⟨update_self .., hopen⟩) (by decide) (fun _ => rfl)
          (fun _ => rfl) (fun h => by cases h) fun _ => hopen
      exact hordered.keeps (keeps_send (by simp))

/-- The answer to a claim is sent; a grant opens the name to the claim. -/
theorem Sound.send_claimed (hs : p.Sound) {won : Bool} (hid : p.isolate pid = id)
    (hlt : pid < p.count) (hopen : won = true → p.Open (p.name pid) id) :
    (p.send id (.claimed pid won)).Sound := by
  unfold send
  split
  swap
  · exact hs
  have hinbox : ∀ {other other' : ℕ} {won' : Bool},
      .claimed other' won' ∈ push p.inbox id (.claimed pid won) other →
      .claimed other' won' ∈ p.inbox other ∨ other' = pid ∧ won' = won := by
    intro other other' won' hmem
    rcases mem_push.mp hmem with hmem | ⟨-, heq⟩
    · exact .inl hmem
    · exact .inr (ControlMessage.claimed.inj heq)
  have hholds : ∀ other, Holds { p with inbox := push p.inbox id (.claimed pid won) } other →
      p.Holds other ∨ other = pid ∧ p.Open (p.name pid) id := by
    rintro other ⟨halive, hgranted | ⟨hclaiming, hmem⟩⟩
    · exact .inl ⟨halive, .inl hgranted⟩
    · rcases hinbox hmem with hmem | ⟨rfl, rfl⟩
      · exact .inl ⟨halive, .inr ⟨hclaiming, hmem⟩⟩
      · exact .inr ⟨rfl, hopen rfl⟩
  exact
    { hs with
      registered := fun other hother => by
        rcases hholds other hother with hother | ⟨rfl, ho⟩
        · exact hs.registered other hother
        · exact ho.resolve.trans (congrArg some hid.symm)
      unique := fun one other hone hother hname => by
        rcases hholds one hone with hold | ⟨rfl, ho⟩ <;>
          rcases hholds other hother with hold' | ⟨rfl, ho'⟩
        · exact hs.unique one other hold hold' hname
        · exact absurd hname (ho'.unheld one hold)
        · exact absurd hname.symm (ho.unheld other hold')
        · rfl
      backed := fun other message hmem => by
        obtain ⟨hother, hb⟩ := hs.backed other message hmem
        refine ⟨hother, ?_⟩
        cases message with
        | actorStopped name =>
          intro one hone
          rcases hholds one hone with hone | ⟨rfl, ho⟩
          · exact hb one hone
          · rintro rfl
            exact ho.quiet other hmem
        | _ => exact hb
      placer := fun one other hone hother hname => by
        rcases hholds other hother with hother | ⟨rfl, ho⟩
        · exact hs.placer one other hone hother hname
        · exact absurd hname (ho.grounded one hone)
      rejected := fun one hone hholds' => by
        rcases hholds one hholds' with hold | ⟨rfl, ho⟩
        · exact hs.rejected one hone hold
        · exact ho.grounded one (by simp [show p.flight one = .rejected from hone]) rfl
      fresh := fun other hother => by
        obtain ⟨hstage, hplaced, hreturned, hidle, hnone⟩ := hs.fresh other hother
        refine ⟨hstage, hplaced, hreturned, hidle, fun id' won' hmem => ?_⟩
        rcases hinbox hmem with hmem | ⟨rfl, -⟩
        · exact hnone id' won' hmem
        · exact Nat.lt_irrefl _ (Nat.lt_of_lt_of_le hlt hother) }

/-- A worker handles a control message. -/
theorem Sound.handle (hs : p.Sound) {message : ControlMessage ν} (hmem : message ∈ p.inbox id) :
    (p.handle id message).Sound := by
  cases message with
  | spawn pid =>
    have hnext : (p.setOrdering id (p.name pid) true).Sound := hs.keeps (keeps_setOrdering (by simp))
    unfold Pool.handle
    dsimp only
    split
    · rename_i hordered
      obtain ⟨hstage, hid⟩ := hordered
      have hstage' : (p.setOrdering id (p.name pid) true).stage pid = .ordered := hstage
      refine hnext.keeps (keeps_change (hnext.lt_count (by simp [hstage'])) rfl rfl rfl
        (fun h => h) (fun h => absurd (hstage'.symm.trans h) (by decide)) (fun _ => ⟨?_, rfl⟩)
        (fun _ => ?_) fun halive _ => ⟨halive, .inl ?_⟩)
      · rw [hstage']; rfl
      · exact (ordering_setOrdering ..).trans (if_pos ⟨hid, rfl⟩)
      · rw [hstage']; rfl
    · exact hnext
  | claimed pid won =>
    unfold Pool.handle
    dsimp only
    split
    · rename_i hclaiming
      refine hs.keeps (keeps_setStage (hs.lt_count (by simp [hclaiming.1]))
        (by simp [hclaiming.1]) ?_ ?_)
      · cases won <;> rfl
      · intro halive hgranted
        cases won with
        | true => exact ⟨halive, .inr ⟨hclaiming.1, hclaiming.2 ▸ hmem⟩⟩
        | false =>
          rcases hgranted with hgranted | ⟨⟨⟩, -⟩
          cases hgranted
    · exact hs
  | nameAdded name owner | nameFreed name => exact hs.keeps (keeps_table _)

/-- The pool handles a message of a worker. -/
theorem Sound.onMessage (hs : p.Sound) {message : WorkerMessage ν} (hmem : message ∈ p.outbox id)
    (hclear : ∀ pid name, message = .claim pid name → p.Free name) :
    (p.onMessage id message).Sound := by
  obtain ⟨-, hb⟩ := hs.backed id message hmem
  cases message with
  | claim pid name =>
    obtain ⟨hid, rfl, hlt⟩ := hb
    have hfree := hclear pid _ rfl
    rcases claim_cases id hfree.1 with hclaim | ⟨plane, hregister, hclaim⟩ <;>
      rw [Pool.onMessage, hclaim]
    · exact hs.send_claimed hid hlt nofun
    · obtain ⟨hs', hopen⟩ := hs.register_open hfree hregister
      have hkeeps := keeps_nameAdded (p := { p with plane }) (p.name pid) id
      exact (hs'.keeps hkeeps).send_claimed hid hlt fun _ => hopen.keeps hkeeps rfl rfl
  | actorStopped name => exact hs.keeps (keeps_release hb)
  | spawned pid => exact hs.settle nofun hb nofun
  | spawnFailed pid => exact hs.settle nofun hb.1 fun _ => hb.2

omit [DecidableEq ν] in
theorem outbox_send (id : ℕ) (message : ControlMessage ν) :
    (p.send id message).outbox = p.outbox := by
  unfold send
  split <;> rfl

omit [DecidableEq ν] in
theorem outbox_settle (id pid : ℕ) (flight : Flight) :
    (p.settle id pid flight).outbox = p.outbox := by
  unfold settle
  split <;> rfl

theorem outbox_claim (name : ν) (id : ℕ) : (p.claim name id).1.outbox = p.outbox := by
  unfold claim
  split
  · rfl
  · split <;> rfl

theorem outbox_onMessage (id : ℕ) : ∀ message : WorkerMessage ν,
    (p.onMessage id message).outbox = p.outbox
  | .claim _ name => (outbox_send ..).trans (outbox_claim name id)
  | .actorStopped _ => rfl
  | .spawned _ | .spawnFailed _ => outbox_settle ..

theorem inbox_handle (id : ℕ) (message : ControlMessage ν) :
    (p.handle id message).inbox = p.inbox := by
  cases message with
  | spawn pid =>
    unfold handle
    dsimp only
    split <;> rfl
  | claimed pid won =>
    unfold handle
    dsimp only
    split <;> rfl
  | nameAdded name owner | nameFreed name => rfl

theorem Sound.step (hs : p.Sound) {e : PoolEvent ν} (hcond : p.Clear e)
    (hstep : p.step e = some q) : q.Sound := by
  cases e with
  | place name =>
    cases hstep
    exact hs.place hcond
  | spawn id name =>
    obtain ⟨halive, rfl⟩ := of_guarded hstep
    exact hs.spawn halive hcond
  | imported pid ok =>
    obtain ⟨⟨halive, hstage⟩, rfl⟩ := of_guarded hstep
    split
    · exact hs.imported halive hstage
    · have hpid : p.Holds pid := ⟨halive, .inl (by rw [hstage]; rfl)⟩
      exact hs.keeps (hpid.keeps_setStage (hs.lt_count (by simp [hstage]))
        (by simp [hstage]) rfl)
  | started pid ok =>
    obtain ⟨⟨halive, hstage⟩, rfl⟩ := of_guarded hstep
    exact hs.finishStart halive hstage
  | returned pid =>
    obtain ⟨⟨halive, hplaced, hreturned, hstage⟩, rfl⟩ := of_guarded hstep
    exact hs.finishSpawn halive hplaced hreturned hstage
  | settled pid =>
    obtain ⟨hflight, rfl⟩ := of_guarded hstep
    exact hs.finishPlace hflight
  | stop pid =>
    obtain ⟨⟨halive, hstage⟩, rfl⟩ := of_guarded hstep
    have hpid : p.Holds pid := ⟨halive, .inl (by rw [hstage]; rfl)⟩
    exact hs.keeps (hpid.keeps_setStage (hs.lt_count (by simp [hstage]))
      (by simp [hstage]) rfl)
  | stopped pid =>
    obtain ⟨⟨halive, hstage⟩, rfl⟩ := of_guarded hstep
    exact hs.finishStop halive hstage
  | receive id =>
    simp only [Pool.step] at hstep
    split at hstep
    · cases hstep
    · rename_i message rest hinbox
      simp only [ite_none_right_eq_some, some.injEq] at hstep
      obtain ⟨-, rfl⟩ := hstep
      have hnext : (p.handle id message).Sound := hs.handle (hinbox ▸ List.mem_cons_self ..)
      rw [← inbox_handle id message]
      exact hnext.keeps (keeps_ports (fun _ _ _ => mem_of_mem_removeAt) (fun _ _ => rfl) fun _ _ => .inl)
  | deliver id =>
    simp only [Pool.step] at hstep
    split at hstep
    · cases hstep
    · rename_i message rest houtbox
      cases hstep
      have hclear : ∀ pid name, message = .claim pid name → p.Free name := by
        rintro pid name rfl
        rw [Clear, houtbox] at hcond
        exact hcond
      have hnext : (p.onMessage id message).Sound :=
        hs.onMessage (houtbox ▸ List.mem_cons_self ..) hclear
      rw [← outbox_onMessage id message]
      exact hnext.keeps (keeps_ports (fun _ _ _ hmem => hmem) (fun _ _ => rfl)
        fun _ _ hmem => .inl (mem_of_mem_removeAt hmem))
  | die id =>
    obtain ⟨hid, rfl⟩ := of_guarded hstep
    exact hs.die hid
  | exit id =>
    obtain ⟨⟨-, halive⟩, rfl⟩ := of_guarded hstep
    exact hs.onExit halive

theorem create_sound (size : ℕ) (name : ν) : (create size name).Sound := by
  have hnone : ∀ pid, ¬ (create size name).Holds pid := fun pid => not_holds rfl nofun
  exact
    { registered := fun pid hpid => absurd hpid (hnone pid)
      unique := fun pid _ hpid => absurd hpid (hnone pid)
      backed := fun _ _ hmem => nomatch hmem
      placing := fun _ hpid => absurd rfl hpid
      single := fun _ _ hpid => absurd rfl hpid
      placer := fun _ _ hpid => absurd rfl hpid
      rejected := fun _ hpid => nomatch hpid
      unreturned := fun _ hplaced => nomatch hplaced
      early := fun _ hpid => nomatch hpid
      ordering := fun _ hpid => nomatch hpid
      fresh := fun _ _ => ⟨rfl, rfl, rfl, rfl, fun _ _ hmem => nomatch hmem⟩
      main := by simp [create, mainWorkerId]
      workers := fun id hid => by
        have hle : id ≤ size := of_decide_eq_true hid
        rcases Nat.eq_zero_or_pos id with hzero | hpos
        · exact .inl hzero
        · refine .inr (List.mem_map.mpr ⟨id - 1, List.mem_range.mpr (by omega), by omega⟩) }

/-! ### Runs -/

instance (p : Pool ν) (name : ν) : Decidable (p.Free name) := inferInstanceAs (Decidable (_ ∧ _))

instance decidableClearMessage (p : Pool ν) : ∀ message, Decidable (p.ClearMessage message)
  | some (.claim _ name) => inferInstanceAs (Decidable (p.Free name))
  | none | some (.actorStopped _) | some (.spawned _) | some (.spawnFailed _) => isTrue trivial

instance decidableClear (p : Pool ν) (e) : Decidable (p.Clear e) := by
  rcases e <;> dsimp only [Clear] <;> infer_instance

/-- The actor of a spawn has started and has not finished stopping. -/
def Alive (p : Pool ν) (pid : ℕ) : Prop :=
  p.alive (p.isolate pid) = true ∧ (p.stage pid = .live ∨ p.stage pid = .stopping)

omit [DecidableEq ν] in
theorem Alive.holds (h : p.Alive pid) : p.Holds pid := by
  refine ⟨h.1, .inl ?_⟩
  rcases h.2 with hstage | hstage <;> rw [hstage] <;> rfl

/-- In every run of a pool of any size in which names are claimed and placed only when they can be:
    two live actors of one name are on one isolate, and the control plane resolves the name of a live
    actor to its isolate. -/
theorem names_unique {size : ℕ} {name : ν} {es : List (PoolEvent ν)}
    (hmeets : Meets step Clear (create size name) es) (hrun : run step (create size name) es = some p) :
    (∀ pid other, p.Alive pid → p.Alive other → p.name pid = p.name other →
      p.isolate pid = p.isolate other) ∧
    ∀ pid, p.Alive pid → p.plane.resolve (p.name pid) = some (p.isolate pid) := by
  have hs : p.Sound := run_preserves (fun _ _ _ hs hcond hstep => hs.step hcond hstep)
    (create_sound size name) hmeets hrun
  refine ⟨fun pid other hpid hother hname => ?_, fun pid hpid => hs.registered pid hpid.holds⟩
  rw [hs.unique pid other hpid.holds hother.holds hname]

/-- A name is placed on the worker, and an instance of it is spawned on the main isolate before the
    worker has answered: its claim is waved through, and both actors start. -/
theorem claim_waved_through :
    ∃ p ∈ run step (create 1 0) [.place 7, .spawn 0 7, .started 1 true, .receive 1,
      .imported 0 true, .started 0 true, .returned 0, .deliver 1, .settled 0],
      p.Alive 0 ∧ p.Alive 1 ∧ p.name 0 = 7 ∧ p.name 1 = 7 ∧ p.isolate 0 = 1 ∧ p.isolate 1 = 0 ∧
      p.plane.resolve 7 = some 1 := by
  unfold Alive
  decide +kernel

/-- A placed actor stops, both announcements of its stop arrive, and an instance of its name is
    spawned on the other worker. -/
theorem name_moves_on :
    ∃ p ∈ run step (create 2 0) [.place 7, .receive 1, .imported 0 true, .started 0 true, .returned 0,
      .deliver 1, .settled 0, .stop 0, .stopped 0, .deliver 1, .deliver 1, .spawn 2 7, .deliver 2,
      .receive 2, .receive 2, .receive 2, .receive 2, .receive 2, .started 1 true],
      p.stage 1 = .live ∧ p.plane.resolve 7 = some 2 := by
  obtain ⟨p, hrun, hstage, halive, hname, hisolate⟩ :
      ∃ p ∈ run step (create 2 0) [.place 7, .receive 1, .imported 0 true, .started 0 true,
        .returned 0, .deliver 1, .settled 0, .stop 0, .stopped 0, .deliver 1, .deliver 1, .spawn 2 7,
        .deliver 2, .receive 2, .receive 2, .receive 2, .receive 2, .receive 2, .started 1 true],
        p.stage 1 = .live ∧ p.alive (p.isolate 1) = true ∧ p.name 1 = 7 ∧ p.isolate 1 = 2 := by
    decide +kernel
  have hresolve := (names_unique (by decide +kernel) hrun).2 1 ⟨halive, .inl hstage⟩
  rw [hname, hisolate] at hresolve
  exact ⟨p, hrun, hstage, hresolve⟩

end Pool

end Nodeakt.Worker
