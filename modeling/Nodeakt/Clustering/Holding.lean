import Nodeakt.Clustering.Placement

/-! Who has a name. A call holds its name from the won claim to the stop; it is under way as long as
    it holds, or as a release or a delete of it is still to come. A world is sound when every holder
    has its name to itself: nothing else of the name is under way, and the record is its own. -/

namespace Nodeakt.Clustering
open Schemes Function

variable {stage : CallStage} {other : ℕ}

namespace CallStage

/-- The stages in which a call has its name. -/
def holding : CallStage → Bool
  | won | booting | writing | building | starting | live | stopping => true
  | _ => false

/-- The stages in which a call has its name or is still giving it back. -/
def engaged : CallStage → Bool
  | failing | restoring => true
  | stage => stage.holding

theorem engaged_of_holding (h : stage.holding = true) : stage.engaged = true := by
  cases stage <;> first | rfl | cases h

end CallStage

/-- What a worker spawns or places. -/
def CallKind.onWorker {ι : Type} : CallKind ι → Bool
  | workerSpawn | workerPlace => true
  | _ => false

namespace PlacementCall

variable {ν ι : Type}

/-- A call that still acts, or has a release to come. -/
def Busy (call : PlacementCall ν ι) : Prop := call.stage.engaged = true ∨ 0 < call.owed

/-- A call that has released nothing yet. -/
def Fresh (call : PlacementCall ν ι) : Prop := call.stage = .claiming ∨ call.stage.holding = true

def Rests (call : PlacementCall ν ι) : Prop := call.stage = .over ∧ call.owed = 0 ∧ call.deletes = 0

instance (call : PlacementCall ν ι) : Decidable call.Busy := inferInstanceAs (Decidable (_ ∨ _))

/-- What becomes of a call in a step that wins nothing; `gone` says whether its node has departed. -/
structure Later (gone : Bool) (call next : PlacementCall ν ι) : Prop where
  same : next.node = call.node ∧ next.name = call.name ∧ next.kind = call.kind
  hold : next.stage.holding = true → call.stage.holding = true
  fresh : next.Fresh → call.Fresh ∧ next.owed ≤ call.owed ∧ next.deletes ≤ call.deletes
  busy : next.Busy → call.Busy
  deletes : 0 < next.deletes → 0 < call.deletes ∨ gone = false ∧ call.Busy
  rests : call.Rests → next.Rests

namespace Later

variable {gone : Bool} {call next last : PlacementCall ν ι}

theorem refl (gone : Bool) (call : PlacementCall ν ι) : Later gone call call where
  same := ⟨rfl, rfl, rfl⟩
  hold := fun h => h
  fresh := fun h => ⟨h, Nat.le_refl _, Nat.le_refl _⟩
  busy := fun h => h
  deletes := Or.inl
  rests := fun h => h

theorem trans (h : Later gone call next) (h' : Later gone next last) : Later gone call last where
  same := ⟨h'.same.1.trans h.same.1, h'.same.2.1.trans h.same.2.1, h'.same.2.2.trans h.same.2.2⟩
  hold hl := h.hold (h'.hold hl)
  fresh hl := by
    obtain ⟨hf', ho', hd'⟩ := h'.fresh hl
    obtain ⟨hf, ho, hd⟩ := h.fresh hf'
    exact ⟨hf, ho'.trans ho, hd'.trans hd⟩
  busy hl := h.busy (h'.busy hl)
  deletes hl := by
    rcases h'.deletes hl with hd | ⟨hg, hb⟩
    · exact h.deletes hd
    · exact .inr ⟨hg, h.busy hb⟩
  rests hl := h'.rests (h.rests hl)

/-- A call of a present node that lets go of its name, whatever it still sends. -/
theorem ends (hgone : gone = false) (hbusy : call.Busy)
    (same : next.node = call.node ∧ next.name = call.name ∧ next.kind = call.kind)
    (hnext : ¬next.Fresh) : Later gone call next where
  same
  hold := fun h => absurd (.inr h) hnext
  fresh := fun h => absurd h hnext
  busy _ := hbusy
  deletes _ := .inr ⟨hgone, hbusy⟩
  rests := by
    rintro ⟨hover, howed, -⟩
    rcases hbusy with h | h
    · rw [hover] at h
      cases h
    · omega

/-- A call that only moves on to another stage. -/
theorem moves (hmade : call.stage ≠ .over)
    (hhold : stage.holding = true → call.stage.holding = true)
    (hengaged : stage.engaged = true → call.stage.engaged = true) (hclaim : stage ≠ .claiming) :
    Later gone call { call with stage } where
  same := ⟨rfl, rfl, rfl⟩
  hold := hhold
  fresh := by
    rintro (h | h)
    · exact absurd h hclaim
    · exact ⟨.inr (hhold h), Nat.le_refl _, Nat.le_refl _⟩
  busy := Or.imp_left hengaged
  deletes := Or.inl
  rests h := absurd h.1 hmade

end Later

end PlacementCall

namespace PlacementWorld

variable {ν ι : Type}
variable {call : PlacementCall ν ι}

section
variable (w : PlacementWorld ν ι)

/-- A present node has the name of the call. -/
def Holds (id : ℕ) : Prop := w.departed (w.node id) = false ∧ (w.stage id).holding = true

/-- The call has its name, or a release or a delete of it is still to come. -/
def UnderWay (id : ℕ) : Prop :=
  0 < (w.calls id).deletes ∨ w.departed (w.node id) = false ∧ (w.calls id).Busy

/-- Nothing else of the name is under way. -/
def Quiet (id : ℕ) (name : ν) : Prop :=
  ∀ other < w.count, other ≠ id → w.name other = name → ¬w.UnderWay other

end

instance (w : PlacementWorld ν ι) (id : ℕ) : Decidable (w.UnderWay id) :=
  inferInstanceAs (Decidable (_ ∨ _))

instance [DecidableEq ν] (w : PlacementWorld ν ι) (id : ℕ) (name : ν) :
    Decidable (w.Quiet id name) :=
  inferInstanceAs (Decidable (∀ other < w.count, other ≠ id → w.name other = name → ¬w.UnderWay other))

/-! ### The invariant -/

/-- A holder has its name to itself and the record names it, unless it is a worker's own. -/
structure Sound (w : PlacementWorld ν ι) : Prop where
  alone : ∀ id, w.Holds id → ∀ other, other ≠ id → w.name other = w.name id → ¬w.UnderWay other
  record : ∀ id, w.Holds id →
    w.registry (w.name id) = if (w.calls id).kind.onWorker then none else some (w.node id)
  clean : ∀ id, (w.calls id).Fresh → (w.calls id).owed = 0 ∧ (w.calls id).deletes = 0
  frees : ∀ id deadOwner, (w.calls id).kind = .free deadOwner → w.departed deadOwner = true
  unmade : ∀ id, w.count ≤ id → (w.calls id).Rests

section
variable {w next last : PlacementWorld ν ι} {id : ℕ}

theorem Holds.underWay (h : w.Holds id) : w.UnderWay id :=
  .inr ⟨h.1, .inl (CallStage.engaged_of_holding h.2)⟩

theorem not_underWay_of_rests (h : (w.calls id).Rests) : ¬w.UnderWay id := by
  obtain ⟨hover, howed, hdeletes⟩ := h
  rintro (hd | ⟨-, hb | ho⟩)
  · omega
  · rw [hover] at hb
    cases hb
  · omega

/-- Calls beyond the count are not under way, so a quiet name is quiet everywhere. -/
theorem Sound.quiet (hs : w.Sound) {name : ν} (hq : w.Quiet id name) (hne : other ≠ id)
    (hname : w.name other = name) : ¬w.UnderWay other := by
  by_cases hlt : other < w.count
  · exact hq other hlt hne hname
  · exact not_underWay_of_rests (hs.unmade other (Nat.le_of_not_lt hlt))

/-- The records, the departed nodes and the number of calls stay; every call only moves on. -/
structure Keeps (w next : PlacementWorld ν ι) : Prop where
  registry : next.registry = w.registry
  departed : next.departed = w.departed
  count : next.count = w.count
  later : ∀ id, (w.calls id).Later (w.departed (w.node id)) (next.calls id)

namespace Keeps

theorem of_calls (hr : next.registry = w.registry) (hd : next.departed = w.departed)
    (hn : next.count = w.count) (hc : next.calls = w.calls) : Keeps w next where
  registry := hr
  departed := hd
  count := hn
  later _ := hc ▸ .refl _ _

section

variable (h : Keeps w next)
include h

theorem node (id : ℕ) : next.node id = w.node id := (h.later id).same.1

theorem name (id : ℕ) : next.name id = w.name id := (h.later id).same.2.1

theorem trans (h' : Keeps next last) : Keeps w last where
  registry := h'.registry.trans h.registry
  departed := h'.departed.trans h.departed
  count := h'.count.trans h.count
  later id := by
    refine (h.later id).trans ?_
    have hl := h'.later id
    rw [h.departed, h.node] at hl
    exact hl

theorem holds (hh : next.Holds id) : w.Holds id := by
  obtain ⟨hd, hstage⟩ := hh
  rw [h.departed, h.node] at hd
  exact ⟨hd, (h.later id).hold hstage⟩

theorem underWay (hu : next.UnderWay id) : w.UnderWay id := by
  rcases hu with hd | ⟨hd, hb⟩
  · exact (h.later id).deletes hd
  · rw [h.departed, h.node] at hd
    exact .inr ⟨hd, (h.later id).busy hb⟩

end

/-- Only one call changes. -/
theorem change {f : PlacementCall ν ι → PlacementCall ν ι}
    (h : (w.calls id).Later (w.departed (w.node id)) (f (w.calls id))) :
    Keeps w (w.change id f) where
  registry := rfl
  departed := rfl
  count := rfl
  later other := by
    unfold PlacementWorld.change
    by_cases he : other = id
    · subst he
      simpa using h
    · simpa [update_of_ne he] using .refl _ _

end Keeps

theorem Sound.keeps (hs : w.Sound) (h : Keeps w next) : next.Sound where
  alone id hh other hne hname hu := by
    rw [h.name, h.name] at hname
    exact hs.alone id (h.holds hh) other hne hname (h.underWay hu)
  record id hh := by
    rw [h.registry, h.name, h.node, (h.later id).same.2.2]
    exact hs.record id (h.holds hh)
  clean id hf := by
    obtain ⟨hf', ho, hd⟩ := (h.later id).fresh hf
    obtain ⟨ho', hd'⟩ := hs.clean id hf'
    exact ⟨by omega, by omega⟩
  frees id deadOwner hk := by
    rw [h.departed]
    exact hs.frees id deadOwner ((h.later id).same.2.2 ▸ hk)
  unmade id hid := (h.later id).rests (hs.unmade id (h.count ▸ hid))

theorem Sound.made (hs : w.Sound) (h : ¬(w.calls id).Rests) : id < w.count :=
  Nat.lt_of_not_le fun hle => h (hs.unmade id hle)

theorem Sound.made_of_stage (hs : w.Sound) (h : w.stage id ≠ .over) : id < w.count :=
  hs.made fun hr => h hr.1

/-! ### What keeps the records -/

@[simp]
theorem calls_endPlacing [DecidableEq ν] [DecidableEq ι] (w : PlacementWorld ν ι) (id : ℕ) :
    (w.endPlacing id).calls = w.calls := by
  unfold endPlacing
  split <;> rfl

@[simp]
theorem calls_endRecreating [DecidableEq ν] [DecidableEq ι] (w : PlacementWorld ν ι) (id : ℕ) :
    (w.endRecreating id).calls = w.calls := by
  unfold endRecreating
  split <;> rfl

theorem keeps_endPlacing [DecidableEq ν] [DecidableEq ι] (w : PlacementWorld ν ι) (id : ℕ) :
    Keeps w (w.endPlacing id) := by
  unfold endPlacing
  split <;> exact .of_calls rfl rfl rfl rfl

theorem keeps_endRecreating [DecidableEq ν] [DecidableEq ι] (w : PlacementWorld ν ι) (id : ℕ) :
    Keeps w (w.endRecreating id) := by
  unfold endRecreating
  split <;> exact .of_calls rfl rfl rfl rfl

theorem later_listen [DecidableEq ι] (gone : Bool) (node : ι) (call : PlacementCall ν ι) :
    call.Later gone (listen node call) := by
  unfold listen
  split
  · exact ⟨⟨rfl, rfl, rfl⟩, fun h => h, fun h => ⟨h, Nat.le_refl _, Nat.le_refl _⟩, fun h => h, .inl,
      fun h => h⟩
  · exact .refl _ _

section

variable (w)

theorem keeps_boot [DecidableEq ι] (node : ι) : Keeps w (w.boot node) := by
  unfold boot
  split
  · exact .of_calls rfl rfl rfl rfl
  · exact ⟨rfl, rfl, rfl, fun id => later_listen _ node (w.calls id)⟩

theorem stage_boot [DecidableEq ι] (node : ι) (id : ℕ) : (w.boot node).stage id = w.stage id := by
  unfold boot stage listen
  split
  · rfl
  · dsimp only
    split <;> rfl

theorem change_change (id : ℕ) (f g : PlacementCall ν ι → PlacementCall ν ι) :
    (w.change id f).change id g = w.change id fun call => g (f call) := by
  simp [change]

/-- Whatever a removal sends, it changes nothing but the deletes of its call. -/
theorem exists_removeRecord_eq (id : ℕ) : ∃ sent, w.removeRecord id =
    w.change id fun call => { call with deletes := call.deletes + sent } := by
  unfold removeRecord
  split
  · exact ⟨0, by simp [change]⟩
  · exact ⟨1, rfl⟩

theorem exists_fail_eq (id : ℕ) :
    w.fail id = w.setStage id .restoring ∨ w.fail id = w.setStage id .over := by
  unfold fail
  split
  · exact .inl rfl
  · exact .inr rfl

end

/-- A call moves on to another stage. -/
theorem keeps_setStage (hmade : w.stage id ≠ .over)
    (hhold : stage.holding = true → (w.stage id).holding = true)
    (hengaged : stage.engaged = true → (w.stage id).engaged = true) (hclaim : stage ≠ .claiming) :
    Keeps w (w.setStage id stage) :=
  .change (.moves hmade hhold hengaged hclaim)

/-- A call of a present node ends holding its name. -/
theorem keeps_change_of_busy {f : PlacementCall ν ι → PlacementCall ν ι}
    (hgone : w.departed (w.node id) = false) (hbusy : (w.calls id).Busy)
    (same : (f (w.calls id)).node = (w.calls id).node ∧ (f (w.calls id)).name = (w.calls id).name ∧
      (f (w.calls id)).kind = (w.calls id).kind)
    (hnext : ¬(f (w.calls id)).Fresh) : Keeps w (w.change id f) :=
  .change (.ends hgone hbusy same hnext)

theorem not_fresh_of_stage (h : call.stage = stage) (hclaim : stage ≠ .claiming)
    (hhold : stage.holding = false) : ¬call.Fresh := by
  rintro (hc | hh)
  · exact hclaim (h.symm.trans hc)
  · rw [h, hhold] at hh
    cases hh

section

variable (hgone : w.departed (w.node id) = false)
include hgone

theorem keeps_fail (hbusy : (w.calls id).Busy) : Keeps w (w.fail id) := by
  rcases exists_fail_eq w id with h | h <;> rw [h]
  · exact keeps_change_of_busy hgone hbusy ⟨rfl, rfl, rfl⟩ (not_fresh_of_stage rfl nofun rfl)
  · exact keeps_change_of_busy hgone hbusy ⟨rfl, rfl, rfl⟩ (not_fresh_of_stage rfl nofun rfl)

theorem keeps_removeRecord_setStage
    (hbusy : (w.calls id).Busy) (hclaim : stage ≠ .claiming) (hhold : stage.holding = false) :
    Keeps w ((w.removeRecord id).setStage id stage) := by
  obtain ⟨sent, h⟩ := exists_removeRecord_eq w id
  rw [h, setStage, change_change]
  exact keeps_change_of_busy hgone hbusy ⟨rfl, rfl, rfl⟩ (not_fresh_of_stage rfl hclaim hhold)

theorem keeps_removeRecord_fail
    (hbusy : (w.calls id).Busy) : Keeps w ((w.removeRecord id).fail id) := by
  rcases exists_fail_eq (w.removeRecord id) id with h | h <;> rw [h]
  · exact keeps_removeRecord_setStage hgone hbusy nofun rfl
  · exact keeps_removeRecord_setStage hgone hbusy nofun rfl

end

/-! ### What changes a record -/

/-- A step that changes one call and at most the record of its name. It must not harm a holder: if
    the call holds the name it has it to itself, and if another call does, this one is not under way
    and leaves the record. -/
theorem Sound.of_change [DecidableEq ν] (hs : w.Sound) (hmade : id < w.count)
    (hdeparted : next.departed = w.departed) (hcount : next.count = w.count)
    (hothers : ∀ other ≠ id, next.calls other = w.calls other)
    (hsame : next.node id = w.node id ∧ next.name id = w.name id ∧
      (next.calls id).kind = (w.calls id).kind)
    (hregistry : ∀ name ≠ w.name id, next.registry name = w.registry name)
    (hclean : (next.calls id).Fresh → (next.calls id).owed = 0 ∧ (next.calls id).deletes = 0)
    (hself : next.Holds id → w.Quiet id (w.name id) ∧ next.registry (w.name id) =
      if (w.calls id).kind.onWorker then none else some (w.node id))
    (hholder : ∀ holder ≠ id, w.Holds holder → w.name holder = w.name id →
      ¬next.UnderWay id ∧ next.registry (w.name id) = w.registry (w.name id)) : next.Sound := by
  obtain ⟨hnode, hname, hkind⟩ := hsame
  have hnames (other : ℕ) : next.name other = w.name other := by
    by_cases he : other = id
    · exact he ▸ hname
    · exact congrArg _ (hothers other he)
  have hholds {other : ℕ} (he : other ≠ id) (hh : next.Holds other) : w.Holds other := by
    unfold Holds node stage at hh ⊢
    rwa [hothers other he, hdeparted] at hh
  have hunder {other : ℕ} (he : other ≠ id) (hu : next.UnderWay other) : w.UnderWay other := by
    unfold UnderWay node at hu ⊢
    rwa [hothers other he, hdeparted] at hu
  refine ⟨?_, ?_, ?_, ?_, ?_⟩
  · intro holder hh other hne heq hu
    rw [hnames, hnames] at heq
    by_cases he : holder = id
    · subst he
      exact hs.quiet (hself hh).1 hne heq (hunder hne hu)
    · by_cases ho : other = id
      · subst ho
        exact (hholder holder he (hholds he hh) heq.symm).1 hu
      · exact hs.alone holder (hholds he hh) other hne heq (hunder ho hu)
  · intro holder hh
    rw [hnames]
    by_cases he : holder = id
    · subst he
      rw [hkind, hnode]
      exact (hself hh).2
    · have hold := hs.record holder (hholds he hh)
      have hcall : (next.calls holder) = w.calls holder := hothers holder he
      unfold node at hold ⊢
      rw [hcall, ← hold]
      by_cases heq : w.name holder = w.name id
      · rw [heq]
        exact (hholder holder he (hholds he hh) heq).2
      · exact hregistry _ heq
  · intro other hf
    by_cases he : other = id
    · subst he
      exact hclean hf
    · rw [hothers other he] at hf ⊢
      exact hs.clean other hf
  · intro other deadOwner hk
    rw [hdeparted]
    refine hs.frees other deadOwner ?_
    by_cases he : other = id
    · subst he
      exact hkind ▸ hk
    · exact hothers other he ▸ hk
  · intro other hle
    rw [hcount] at hle
    rw [hothers other (by omega)]
    exact hs.unmade other hle

theorem calls_change_of_ne (w : PlacementWorld ν ι) (f : PlacementCall ν ι → PlacementCall ν ι)
    (h : other ≠ id) : (w.change id f).calls other = w.calls other :=
  update_of_ne h _ _

@[simp]
theorem calls_change_self (w : PlacementWorld ν ι) (id : ℕ)
    (f : PlacementCall ν ι → PlacementCall ν ι) : (w.change id f).calls id = f (w.calls id) :=
  update_self id _ _

theorem Holds.fresh (h : w.Holds id) : (w.calls id).Fresh := .inr h.2

/-- The registry grants a name of which nothing else is under way. -/
theorem Sound.win [DecidableEq ν] (hs : w.Sound) (hstage : w.stage id = .claiming)
    (hkind : (w.calls id).kind.onWorker = false) (hquiet : w.Quiet id (w.name id)) :
    ((w.setRecord (w.name id) (some (w.node id))).setStage id .won).Sound := by
  refine hs.of_change (hs.made_of_stage (by rw [hstage]; nofun)) rfl rfl
    (fun other he => calls_change_of_ne _ _ he) ?_ ?_ ?_ ?_ ?_
  · simp [setStage, node, name, setRecord]
  · intro name hne
    exact update_of_ne hne _ _
  · intro _
    simpa [setStage, setRecord] using hs.clean id (.inl hstage)
  · intro _
    refine ⟨hquiet, ?_⟩
    rw [hkind]
    exact update_self _ _ _
  · intro holder hne hholds hname
    exact absurd hholds.underWay (hs.quiet hquiet hne hname)

/-- A free has read a departed owner, so no present node holds the name. -/
theorem Sound.read [DecidableEq ν] (hs : w.Sound) {deadOwner : ι} (hstage : w.stage id = .claiming)
    (hkind : (w.calls id).kind = .free deadOwner) (hread : w.registry (w.name id) = some deadOwner) :
    (w.change id fun call => { call with stage := .over, deletes := call.deletes + 1 }).Sound := by
  have hover : ¬((w.change id fun call =>
      { call with stage := .over, deletes := call.deletes + 1 }).calls id).Fresh :=
    not_fresh_of_stage (by simp : _ = CallStage.over) nofun rfl
  refine hs.of_change (hs.made_of_stage (by rw [hstage]; nofun)) rfl rfl
    (fun other he => calls_change_of_ne _ _ he) ?_ (fun _ _ => rfl) (fun hf => absurd hf hover)
    (fun hh => absurd hh.fresh hover) ?_
  · simp [node, name]
  · intro holder _ hholds hname
    have hrecord := hs.record holder hholds
    rw [hname, hread] at hrecord
    split at hrecord
    · cases hrecord
    · have hgone := hs.frees id deadOwner hkind
      rw [Option.some.inj hrecord, hholds.1] at hgone
      cases hgone

/-- A delete happens: its call is under way, so no other call holds the name. -/
theorem Sound.delete [DecidableEq ν] (hs : w.Sound) (hsent : 0 < (w.calls id).deletes) :
    ((w.setRecord (w.name id) none).change id fun call =>
      { call with deletes := call.deletes - 1 }).Sound := by
  have hfresh : ¬(w.calls id).Fresh := fun hf => by
    have := (hs.clean id hf).2
    omega
  have hover : ¬(((w.setRecord (w.name id) none).change id fun call =>
      { call with deletes := call.deletes - 1 }).calls id).Fresh := by
    simpa [PlacementCall.Fresh, setRecord] using hfresh
  refine hs.of_change (hs.made fun hr => by have := hr.2.2; omega) rfl rfl
    (fun other he => calls_change_of_ne _ _ he) ?_ ?_ (fun hf => absurd hf hover)
    (fun hh => absurd hh.fresh hover) ?_
  · simp [node, name, setRecord]
  · intro name hne
    exact update_of_ne hne _ _
  · intro holder hne hholds hname
    exact absurd (.inl hsent) (hs.alone holder hholds id hne.symm hname.symm)

theorem calls_restore [DecidableEq ν] [DecidableEq ι] (w : PlacementWorld ν ι) (id : ℕ) :
    (w.restore id).calls = w.calls := by
  unfold restore
  split
  · split <;> rfl
  · rfl

/-- The return of a record touches only a record that names the node of the call. -/
theorem registry_restore_of_ne [DecidableEq ν] [DecidableEq ι] {name : ν}
    (h : name ≠ w.name id ∨ w.registry name ≠ some (w.node id)) :
    (w.restore id).registry name = w.registry name := by
  unfold restore
  split
  · split_ifs with hrecord
    · refine update_of_ne ?_ _ _
      rintro rfl
      exact h.elim (fun hne => hne rfl) (fun hne => hne hrecord)
    · rfl
  · rfl

/-- A recreation returns its record. If its node is present nobody else holds the name; if it has
    departed, a holder's record is not its own. -/
theorem Sound.restore [DecidableEq ν] [DecidableEq ι] (hs : w.Sound) (hstage : w.stage id = .restoring) :
    (w.restore id).Sound := by
  have hcalls := calls_restore w id
  have hdeparted : (w.restore id).departed = w.departed := by
    unfold PlacementWorld.restore
    split
    · split <;> rfl
    · rfl
  have hcount : (w.restore id).count = w.count := by
    unfold PlacementWorld.restore
    split
    · split <;> rfl
    · rfl
  have hnot : ¬(w.calls id).Fresh := not_fresh_of_stage hstage nofun rfl
  refine hs.of_change (hs.made_of_stage (by rw [hstage]; nofun)) hdeparted hcount
    (fun other _ => congrFun hcalls other) ?_ (fun name hne => registry_restore_of_ne (.inl hne)) ?_
    ?_ ?_
  · simp [node, name, hcalls]
  · rw [hcalls]
    exact fun hf => absurd hf hnot
  · intro hh
    have hf := hh.fresh
    rw [hcalls] at hf
    exact absurd hf hnot
  · intro holder hne hholds hname
    have hidle := hs.alone holder hholds id hne.symm hname.symm
    have hbusy : (w.calls id).Busy := .inl (by rw [show (w.calls id).stage = _ from hstage]; rfl)
    refine ⟨?_, registry_restore_of_ne (.inr fun hrecord => ?_)⟩
    · unfold UnderWay node
      rw [hcalls, hdeparted]
      exact hidle
    · have hown := hs.record holder hholds
      rw [hname, hrecord] at hown
      split at hown
      · cases hown
      · refine hidle (.inr ⟨?_, hbusy⟩)
        rw [Option.some.inj hown]
        exact hholds.1

/-- A departed node holds nothing and owes nothing. -/
theorem Sound.depart [DecidableEq ι] (hs : w.Sound) (node : ι) :
    Sound { w with departed := update w.departed node true } := by
  have hgone {other : ι} (h : update w.departed node true other = false) :
      w.departed other = false := by
    by_cases he : other = node
    · subst he
      simp at h
    · rwa [update_of_ne he] at h
  refine ⟨?_, fun id hh => hs.record id ⟨hgone hh.1, hh.2⟩, hs.clean, ?_, hs.unmade⟩
  · intro id hh other hne hname hu
    refine hs.alone id ⟨hgone hh.1, hh.2⟩ other hne hname ?_
    exact hu.imp_right fun h => ⟨hgone h.1, h.2⟩
  · intro id deadOwner hk
    have hdead := hs.frees id deadOwner hk
    by_cases he : deadOwner = node
    · subst he
      exact update_self _ _ _
    · exact (update_of_ne he _ _).trans hdead

@[simp]
theorem calls_add_self (w : PlacementWorld ν ι) (call : PlacementCall ν ι) :
    (w.add call).calls w.count = call :=
  update_self _ _ _

theorem calls_add_of_ne (w : PlacementWorld ν ι) (call : PlacementCall ν ι) (h : other ≠ w.count) :
    (w.add call).calls other = w.calls other :=
  update_of_ne h _ _

theorem holds_add_of_ne (h : other ≠ w.count) : (w.add call).Holds other ↔ w.Holds other := by
  simp only [Holds, node, stage, calls_add_of_ne w call h]
  rfl

theorem underWay_add_of_ne (h : other ≠ w.count) :
    (w.add call).UnderWay other ↔ w.UnderWay other := by
  simp only [UnderWay, node, calls_add_of_ne w call h]
  rfl

/-- A new call that waits for the registry, or one a worker starts under a quiet name. -/
theorem Sound.add (hs : w.Sound) (hclean : call.owed = 0 ∧ call.deletes = 0)
    (hfree : ∀ deadOwner, call.kind = .free deadOwner → w.departed deadOwner = true)
    (hstage : call.stage = .claiming ∨ call.kind.onWorker = true ∧ w.Quiet w.count call.name ∧
      w.registry call.name = none) : (w.add call).Sound := by
  -- only what a worker starts is under way at once
  have hworker (hu : (w.add call).UnderWay w.count) : call.kind.onWorker = true ∧
      w.Quiet w.count call.name ∧ w.registry call.name = none := by
    refine hstage.resolve_left fun hc => ?_
    simp [UnderWay, PlacementCall.Busy, hclean, hc, CallStage.engaged, CallStage.holding] at hu
  refine ⟨?_, ?_, ?_, ?_, ?_⟩
  · intro holder hh other hne hname hu
    unfold name at hname
    by_cases he : holder = w.count
    · subst he
      rw [calls_add_self, calls_add_of_ne w call hne] at hname
      exact hs.quiet (hworker hh.underWay).2.1 hne hname ((underWay_add_of_ne hne).mp hu)
    · have hholds := (holds_add_of_ne he).mp hh
      rw [calls_add_of_ne w call he] at hname
      by_cases ho : other = w.count
      · subst ho
        rw [calls_add_self] at hname
        exact hs.quiet (hworker hu).2.1 he hname.symm hholds.underWay
      · rw [calls_add_of_ne w call ho] at hname
        exact hs.alone holder hholds other hne hname ((underWay_add_of_ne ho).mp hu)
  · intro holder hh
    by_cases he : holder = w.count
    · subst he
      obtain ⟨hk, -, hr⟩ := hworker hh.underWay
      simp only [name, calls_add_self, hk]
      exact hr
    · have hrecord := hs.record holder ((holds_add_of_ne he).mp hh)
      simp only [name, node, calls_add_of_ne w call he]
      exact hrecord
  · intro other hf
    by_cases he : other = w.count
    · subst he
      simpa using hclean
    · rw [calls_add_of_ne w call he] at hf ⊢
      exact hs.clean other hf
  · intro other deadOwner hk
    by_cases he : other = w.count
    · subst he
      exact hfree deadOwner (by simpa using hk)
    · rw [calls_add_of_ne w call he] at hk
      exact hs.frees other deadOwner hk
  · intro other hle
    have hlt : w.count + 1 ≤ other := hle
    rw [calls_add_of_ne w call (by omega)]
    exact hs.unmade other (by omega)

theorem Sound.create (node : ι) (name : ν) : (create node name).Sound where
  alone := fun _ hh => nomatch hh.2
  record := fun _ hh => nomatch hh.2
  clean := fun _ _ => ⟨rfl, rfl⟩
  frees := nofun
  unmade := fun _ _ => ⟨rfl, rfl, rfl⟩

end

end PlacementWorld

end Nodeakt.Clustering
