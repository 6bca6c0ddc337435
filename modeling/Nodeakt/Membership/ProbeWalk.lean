import Nodeakt.Membership.View

/-! The walk over the members to probe (`Probe.#nextTarget` of `membership/probe.ts` and the shuffle
    of `membership/random.ts`).

    A pick first drops the pending names that are no longer eligible and inserts the eligible names
    that are not in the walk at random places; if nothing is pending, it starts a new walk with a
    shuffle of all of them. Then it takes the first pending name. The table may be any other at the
    next pick. `visited` is history: what was picked since the walk began. -/

namespace Nodeakt.Membership
open Schemes JsString List

/-- A source of random integers below a bound, with its state. -/
structure Random (ρ : Type) where
  integer : ℕ → ρ → ℕ × ρ
  integer_lt : ∀ bound seed, 0 < bound → (integer bound seed).1 < bound

namespace Random

variable {ρ α : Type} (random : Random ρ)

/-- Exchanges the values at two positions. -/
def exchange (values : List α) (i j : ℕ) : List α := match values[i]?, values[j]? with
  | some a, some b => (values.set i b).set j a
  | _, _ => values

/-- The loop of the shuffle from an index down to one. -/
def shuffleFrom : ℕ → List α → ρ → List α × ρ
  | 0, values, seed => (values, seed)
  | index + 1, values, seed =>
    let draw := random.integer (index + 2) seed
    shuffleFrom index (exchange values (index + 1) draw.1) draw.2

/-- A Fisher-Yates shuffle of a copy. -/
def shuffle (values : List α) (seed : ρ) : List α × ρ :=
  random.shuffleFrom (values.length - 1) values seed

theorem exchange_perm (values : List α) (i j : ℕ) : (exchange values i j).Perm values := by
  unfold exchange
  split
  · rename_i a b hi hj
    obtain ⟨hi', rfl⟩ := List.getElem?_eq_some_iff.mp hi
    obtain ⟨hj', rfl⟩ := List.getElem?_eq_some_iff.mp hj
    exact List.set_set_perm hi' hj'
  · exact .refl _

theorem shuffleFrom_perm (index : ℕ) (values : List α) (seed : ρ) :
    (random.shuffleFrom index values seed).1.Perm values := by
  induction index generalizing values seed with
  | zero => exact .refl _
  | succ index ih => exact (ih ..).trans (exchange_perm ..)

theorem shuffle_perm (values : List α) (seed : ρ) : (random.shuffle values seed).1.Perm values :=
  random.shuffleFrom_perm ..

end Random

/-! ### The seeded source -/

namespace SeededRandom

def UINT32_RANGE : ℕ := 0x100000000

/-- The state for the seed zero. -/
def ZERO_SEED_STATE : BitVec 32 := 0x6d2b79f5

/-- The first state of a seed. -/
def create (seed : BitVec 32) : BitVec 32 := if seed = 0 then ZERO_SEED_STATE else seed

/-- The next state, which is also the word drawn. -/
def uint32 (state : BitVec 32) : BitVec 32 :=
  let value := state ^^^ state <<< 13
  let value := value ^^^ value >>> 17
  value ^^^ value <<< 5

/-- Draws again while a word is rejected, so many times at most. -/
def accepted (rejectedBelow : ℕ) : ℕ → BitVec 32 → BitVec 32
  | 0, value => value
  | draws + 1, value =>
    if value.toNat < rejectedBelow then accepted rejectedBelow draws (uint32 value) else value

/-- The generator. A loop that has rejected as many words as there are states would never end. -/
def random : Random (BitVec 32) where
  integer maximumExclusive state :=
    let value := accepted (UINT32_RANGE % maximumExclusive) UINT32_RANGE (uint32 state)
    (value.toNat % maximumExclusive, value)
  integer_lt _ _ hpos := Nat.mod_lt _ hpos

end SeededRandom

/-! ### The walk -/

/-- The members other than the node itself that are alive or suspect. -/
def MembershipView.eligibleProbeNames (view : MembershipView) : List JsString :=
  (view.records.filter fun name record => name ≠ view.selfName && record.eligible).keys

/-- Pending names, the names admitted to the walk, and those picked since it began. -/
structure ProbeWalk where
  walk : List JsString
  walkMembers : List JsString
  visited : List JsString

namespace ProbeWalk

variable {ρ : Type} (random : Random ρ)

/-- Before the first pick. -/
def empty : ProbeWalk := ⟨[], [], []⟩

/-- Forgets the pending names that are not eligible any more. -/
def prune (probe : ProbeWalk) (eligible : List JsString) : ProbeWalk := { probe with
    walk := probe.walk.filter (· ∈ eligible)
    walkMembers := probe.walkMembers.filter fun name => name ∉ probe.walk ∨ name ∈ eligible }

/-- Inserts the names that are not in the walk. -/
def join : List JsString → ProbeWalk → ρ → ProbeWalk × ρ
  | [], probe, seed => (probe, seed)
  | name :: rest, probe, seed =>
    if name ∈ probe.walkMembers then join rest probe seed
    else
      let draw := random.integer (probe.walk.length + 1) seed
      join rest { probe with walk := probe.walk.insertIdx draw.1 name
                             walkMembers := name :: probe.walkMembers } draw.2

/-- The walk a pick takes its target from. -/
def prepare (eligible : List JsString) (probe : ProbeWalk) (seed : ρ) : ProbeWalk × ρ :=
  let admitted := join random eligible (probe.prune eligible) seed
  if admitted.1.walk = [] then
    let shuffled := random.shuffle eligible admitted.2
    (⟨shuffled.1, eligible, []⟩, shuffled.2)
  else admitted

/-- Takes pending names up to the first one the table still has as eligible. -/
def takeTarget (view : MembershipView) : List JsString → Option StoredRecord × List JsString
  | [] => (none, [])
  | target :: rest =>
    match view.get target with
    | some record => if record.eligible then (some record, rest) else takeTarget view rest
    | none => takeTarget view rest

/-- One pick. -/
def nextTarget (view : MembershipView) (probe : ProbeWalk) (seed : ρ) :
    Option StoredRecord × ProbeWalk × ρ :=
  let prepared := prepare random view.eligibleProbeNames probe seed
  let taken := takeTarget view prepared.1.walk
  (taken.1, { prepared.1 with
    walk := taken.2
    visited := prepared.1.visited ++ taken.1.toList.map (fun record => record.update.member) },
    prepared.2)

/-- The targets of a run of picks. -/
def picks : List MembershipView → ProbeWalk → ρ → List (Option StoredRecord)
  | [], _, _ => []
  | view :: views, probe, seed =>
    let picked := nextTarget random view probe seed
    picked.1 :: picks views picked.2.1 picked.2.2

/-- The walk after a run of picks. -/
def walkAfter : List MembershipView → ProbeWalk → ρ → ProbeWalk × ρ
  | [], probe, seed => (probe, seed)
  | view :: views, probe, seed =>
    let picked := nextTarget random view probe seed
    walkAfter views picked.2.1 picked.2.2

/-- Pending names and visited ones are different members of the walk. -/
structure Sound (probe : ProbeWalk) : Prop where
  pending : probe.walk.Nodup
  visited : probe.visited.Nodup
  member : ∀ name, name ∈ probe.walk ∨ name ∈ probe.visited → name ∈ probe.walkMembers
  apart : ∀ name ∈ probe.visited, name ∉ probe.walk

variable {random} {probe : ProbeWalk} {eligible : List JsString} {seed : ρ} {view : MembershipView}

theorem Sound.prune (h : probe.Sound) (eligible : List JsString) : (probe.prune eligible).Sound where
  pending := h.pending.filter _
  visited := h.visited
  member name hname := by
    simp only [ProbeWalk.prune, mem_filter, decide_eq_true_eq] at hname ⊢
    rcases hname with ⟨hwalk, heligible⟩ | hvisited
    · exact ⟨h.member name (.inl hwalk), .inr heligible⟩
    · exact ⟨h.member name (.inr hvisited), .inl (h.apart name hvisited)⟩
  apart name hname hmem := h.apart name hname (mem_of_mem_filter hmem)

/-- Inserts a name among the pending ones. -/
def insert (probe : ProbeWalk) (position : ℕ) (name : JsString) : ProbeWalk :=
  { probe with walk := probe.walk.insertIdx position name, walkMembers := name :: probe.walkMembers }

theorem mem_insert {position : ℕ} {name other : JsString} (hposition : position ≤ probe.walk.length) :
    other ∈ (probe.insert position name).walk ↔ other = name ∨ other ∈ probe.walk :=
  (perm_insertIdx name probe.walk hposition).mem_iff.trans mem_cons

theorem Sound.insert {position : ℕ} {name : JsString} (h : probe.Sound)
    (hposition : position ≤ probe.walk.length) (hnew : name ∉ probe.walkMembers) :
    (probe.insert position name).Sound where
  pending := (perm_insertIdx name probe.walk hposition).nodup_iff.mpr
    (nodup_cons.mpr ⟨fun hmem => hnew (h.member name (.inl hmem)), h.pending⟩)
  visited := h.visited
  member other hother := by
    rw [mem_insert hposition] at hother
    rcases hother with (rfl | hwalk) | hvisited
    · exact mem_cons_self
    · exact mem_cons_of_mem _ (h.member other (.inl hwalk))
    · exact mem_cons_of_mem _ (h.member other (.inr hvisited))
  apart other hother hmem := by
    rcases (mem_insert hposition).mp hmem with rfl | hwalk
    · exact hnew (h.member other (.inr hother))
    · exact h.apart other hother hwalk

/-- Admission keeps the walk sound, and afterwards every eligible name is in it. -/
theorem Sound.join (h : probe.Sound) (names : List JsString) (seed : ρ) :
    (ProbeWalk.join random names probe seed).1.Sound ∧
    (∀ name ∈ (ProbeWalk.join random names probe seed).1.walk, name ∈ probe.walk ∨ name ∈ names) ∧
    (∀ name, name ∈ probe.walkMembers ∨ name ∈ names →
      name ∈ (ProbeWalk.join random names probe seed).1.walkMembers) := by
  induction names generalizing probe seed with
  | nil => simp [ProbeWalk.join, h]
  | cons name rest ih =>
    rw [ProbeWalk.join]
    split_ifs with hmember
    · obtain ⟨hsound, hwalk, hmembers⟩ := ih h seed
      refine ⟨hsound, fun other hother => ?_, fun other hother => hmembers other ?_⟩
      · exact (hwalk other hother).imp_right (mem_cons_of_mem _)
      · rw [mem_cons] at hother
        rcases hother with hother | rfl | hother
        · exact .inl hother
        · exact .inl hmember
        · exact .inr hother
    · have hposition := Nat.le_of_lt_succ
        (random.integer_lt (probe.walk.length + 1) seed (Nat.succ_pos _))
      obtain ⟨hsound, hwalk, hmembers⟩ := ih (h.insert hposition hmember)
        (random.integer (probe.walk.length + 1) seed).2
      refine ⟨hsound, fun other hother => ?_, fun other hother => hmembers other ?_⟩
      · rw [mem_cons]
        rcases hwalk other hother with hother | hother
        · rcases (mem_insert hposition).mp hother with hother | hother
          · exact .inr (.inl hother)
          · exact .inl hother
        · exact .inr (.inr hother)
      · rw [mem_cons] at hother
        rcases hother with hother | rfl | hother
        · exact .inl (mem_cons_of_mem _ hother)
        · exact .inl mem_cons_self
        · exact .inr hother

/-- The pending names are eligible, and the eligible names are in the walk. -/
structure Covers (probe : ProbeWalk) (eligible : List JsString) : Prop where
  pending : ∀ name ∈ probe.walk, name ∈ eligible
  admitted : ∀ name ∈ eligible, name ∈ probe.walkMembers

/-- What a pick takes its target from is sound, covers the eligible names and is empty only if there
    are none. -/
theorem Sound.prepare (h : probe.Sound) (hnodup : eligible.Nodup) (seed : ρ) :
    (ProbeWalk.prepare random eligible probe seed).1.Sound ∧
    (ProbeWalk.prepare random eligible probe seed).1.Covers eligible ∧
    ((ProbeWalk.prepare random eligible probe seed).1.walk = [] → eligible = []) := by
  obtain ⟨hsound, hwalk, hmembers⟩ := @Sound.join _ random _ (h.prune eligible) eligible seed
  unfold ProbeWalk.prepare
  simp only
  split_ifs with hempty
  · have hperm := random.shuffle_perm eligible
      (ProbeWalk.join random eligible (probe.prune eligible) seed).2
    refine ⟨⟨hperm.nodup_iff.mpr hnodup, nodup_nil, fun name hname => ?_, nofun⟩,
      ⟨fun name hname => hperm.mem_iff.mp hname, fun _ hname => hname⟩, fun hnil => ?_⟩
    · exact hname.elim hperm.mem_iff.mp fun hmem => nomatch hmem
    · exact nil_perm.mp (hnil ▸ hperm)
  · refine ⟨hsound, ⟨fun name hname => ?_, fun name hname => hmembers name (.inr hname)⟩,
      fun hnil => absurd hnil hempty⟩
    rcases hwalk name hname with hmem | hmem
    · exact of_decide_eq_true (mem_filter.mp hmem).2
    · exact hmem

/-- Nothing is dropped from a walk that covers the eligible names, and nothing is admitted. -/
theorem Covers.join_prune (h : probe.Covers eligible) (seed : ρ) :
    ProbeWalk.join random eligible (probe.prune eligible) seed = (probe, seed) := by
  have hprune : probe.prune eligible = probe := by
    have hwalk : probe.walk.filter (· ∈ eligible) = probe.walk :=
      filter_eq_self.mpr fun name hname => decide_eq_true (h.pending name hname)
    have hmembers : probe.walkMembers.filter (fun name => name ∉ probe.walk ∨ name ∈ eligible) =
        probe.walkMembers := by
      refine filter_eq_self.mpr fun name _ => decide_eq_true ?_
      by_cases hname : name ∈ probe.walk
      · exact .inr (h.pending name hname)
      · exact .inl hname
    rw [prune, hwalk, hmembers]
  have hjoin : ∀ names : List JsString, (∀ name ∈ names, name ∈ probe.walkMembers) →
      ProbeWalk.join random names probe seed = (probe, seed) := by
    intro names hnames
    induction names with
    | nil => rfl
    | cons name rest ih =>
      rw [ProbeWalk.join, if_pos (hnames name mem_cons_self)]
      exact ih fun other hother => hnames other (mem_cons_of_mem _ hother)
  rw [hprune, hjoin eligible h.admitted]

theorem Covers.prepare_eq (h : probe.Covers eligible) (hne : probe.walk ≠ []) (seed : ρ) :
    ProbeWalk.prepare random eligible probe seed = (probe, seed) := by
  simp only [ProbeWalk.prepare, h.join_prune, if_neg hne]

/-- A pending name that is eligible is taken. -/
theorem takeTarget_cons {target : JsString} {rest : List JsString}
    (h : target ∈ view.eligibleProbeNames) : ∃ record : StoredRecord,
      record.update.member = target ∧ takeTarget view (target :: rest) = (some record, rest) := by
  simp only [MembershipView.eligibleProbeNames, OrderedMap.mem_keys_iff,
    OrderedMap.get_filter_eq_some_iff, Bool.and_eq_true] at h
  obtain ⟨record, hget, -, heligible⟩ := h
  refine ⟨record, MembershipView.member_of_get hget, ?_⟩
  simp only [takeTarget, MembershipView.get, hget, if_pos heligible]

/-- One pick: the walk stays sound, the target is eligible, and there is one if any member is. -/
theorem Sound.nextTarget (h : probe.Sound) (view : MembershipView) (seed : ρ) :
    (ProbeWalk.nextTarget random view probe seed).2.1.Sound ∧
    ((ProbeWalk.nextTarget random view probe seed).1 = none → view.eligibleProbeNames = []) ∧
    ∀ record ∈ (ProbeWalk.nextTarget random view probe seed).1,
      record.update.member ∈ view.eligibleProbeNames := by
  obtain ⟨hsound, hcovers, hempty⟩ :=
    @Sound.prepare _ random _ view.eligibleProbeNames h (OrderedMap.nodup _) seed
  unfold ProbeWalk.nextTarget
  simp only
  generalize ProbeWalk.prepare random view.eligibleProbeNames probe seed = prepared at *
  obtain ⟨⟨walk, members, visited⟩, seed⟩ := prepared
  cases walk with
  | nil => exact ⟨by simpa [takeTarget] using hsound, fun _ => hempty rfl, nofun⟩
  | cons target rest =>
    have htarget := hcovers.pending target mem_cons_self
    obtain ⟨record, rfl, htaken⟩ := @takeTarget_cons view _ rest htarget
    simp only [htaken, reduceCtorEq, false_imp_iff, true_and, Option.mem_some_iff, forall_eq']
    obtain ⟨hnew, hrest⟩ := nodup_cons.mp hsound.pending
    refine ⟨⟨hrest, ?_, fun name hname => hsound.member name ?_, fun name hname => ?_⟩, htarget⟩
    · exact hsound.visited.append (nodup_singleton _) (disjoint_singleton.mpr
        fun hmem => hsound.apart _ hmem mem_cons_self)
    · simp only [Option.toList_some, map_cons, map_nil, mem_append, mem_singleton] at hname
      rcases hname with hname | hname | rfl
      · exact .inl (mem_cons_of_mem _ hname)
      · exact .inr hname
      · exact .inl mem_cons_self
    · simp only [Option.toList_some, map_cons, map_nil, mem_append, mem_singleton] at hname
      rcases hname with hname | rfl
      · exact fun hmem => hsound.apart name hname (mem_cons_of_mem _ hmem)
      · exact hnew

theorem sound_walkAfter (views : List MembershipView) (h : probe.Sound) (seed : ρ) :
    (walkAfter random views probe seed).1.Sound := by
  induction views generalizing probe seed with
  | nil => exact h
  | cons view views ih => exact ih (h.nextTarget view seed).1 _

/-! ### Members that stay eligible -/

/-- The eligible members of a table are these. -/
def Keeps (eligible : List JsString) (view : MembershipView) : Prop :=
  ∀ name, name ∈ view.eligibleProbeNames ↔ name ∈ eligible

theorem Covers.congr (h : probe.Covers eligible) (hkeeps : Keeps eligible view) :
    probe.Covers view.eligibleProbeNames :=
  ⟨fun name hname => (hkeeps name).mpr (h.pending name hname),
    fun name hname => h.admitted name ((hkeeps name).mp hname)⟩

/-- A walk that covers the eligible names goes on with its first pending name. -/
theorem Covers.nextTarget_eq {target : JsString} {rest : List JsString} (h : probe.Covers eligible)
    (hkeeps : Keeps eligible view) (hwalk : probe.walk = target :: rest) (seed : ρ) :
    ∃ record : StoredRecord, record.update.member = target ∧
      ProbeWalk.nextTarget random view probe seed =
        (some record, { probe with walk := rest, visited := probe.visited ++ [target] }, seed) := by
  have htarget := (hkeeps target).mpr (h.pending target (hwalk ▸ mem_cons_self))
  obtain ⟨record, hmember, htaken⟩ := @takeTarget_cons view _ rest htarget
  refine ⟨record, hmember, ?_⟩
  simp [ProbeWalk.nextTarget, (h.congr hkeeps).prepare_eq (by rw [hwalk]; exact cons_ne_nil _ _),
    hwalk, htaken, hmember]

theorem Covers.tail {target : JsString} {rest : List JsString} (h : probe.Covers eligible)
    (hwalk : probe.walk = target :: rest) (visited : List JsString) :
    Covers { probe with walk := rest, visited := visited } eligible :=
  ⟨fun name hname => h.pending name (hwalk ▸ mem_cons_of_mem _ hname), h.admitted⟩

/-- A run of picks with a target of this name. -/
def Picked (name : JsString) (targets : List (Option StoredRecord)) : Prop :=
  ∃ record : StoredRecord, some record ∈ targets ∧ record.update.member = name

/-- Pending names are picked in turn. -/
theorem Covers.pending_picked {views : List MembershipView} {name : JsString}
    (h : probe.Covers eligible) (hkeeps : ∀ view ∈ views, Keeps eligible view)
    (hlong : probe.walk.length ≤ views.length) (hname : name ∈ probe.walk) (seed : ρ) :
    Picked name (picks random views probe seed) := by
  induction views generalizing probe seed with
  | nil => exact absurd hname (eq_nil_of_length_eq_zero (Nat.le_zero.mp hlong) ▸ not_mem_nil)
  | cons view views ih =>
    cases hwalk : probe.walk with
    | nil => exact absurd hname (hwalk ▸ not_mem_nil)
    | cons target rest =>
      obtain ⟨record, hmember, hpick⟩ :=
        @Covers.nextTarget_eq _ random _ _ view _ _ h (hkeeps view mem_cons_self) hwalk seed
      rw [hwalk] at hname hlong
      simp only [picks, hpick]
      rcases mem_cons.mp hname with rfl | hname
      · exact ⟨record, mem_cons_self, hmember⟩
      · obtain ⟨other, hother, hsame⟩ := ih (h.tail hwalk (probe.visited ++ [target]))
          (fun view hview => hkeeps view (mem_cons_of_mem _ hview))
          (Nat.le_of_succ_le_succ hlong) hname seed
        exact ⟨other, mem_cons_of_mem _ hother, hsame⟩

/-- A pick goes on from the walk it prepared. -/
theorem Sound.picks_prepare {views : List MembershipView} (h : probe.Sound)
    (hkeeps : Keeps eligible view) (hsome : eligible ≠ []) (seed : ρ) :
    ∃ prepared seed', prepared.Sound ∧ prepared.Covers eligible ∧
      (probe.Covers eligible → probe.walk = [] → ∀ name ∈ eligible, name ∈ prepared.walk) ∧
      picks random (view :: views) probe seed = picks random (view :: views) prepared seed' := by
  obtain ⟨hsound, hcovers, hempty⟩ :=
    @Sound.prepare _ random _ view.eligibleProbeNames h (OrderedMap.nodup _) seed
  have hne : (ProbeWalk.prepare random view.eligibleProbeNames probe seed).1.walk ≠ [] := by
    intro hnil
    obtain ⟨name, hname⟩ := exists_mem_of_ne_nil eligible hsome
    exact not_mem_nil (hempty hnil ▸ (hkeeps name).mpr hname)
  refine ⟨_, (ProbeWalk.prepare random view.eligibleProbeNames probe seed).2, hsound,
    ⟨fun name hname => (hkeeps name).mp (hcovers.pending name hname),
      fun name hname => hcovers.admitted name ((hkeeps name).mpr hname)⟩,
    fun hold hnil name hname => ?_, ?_⟩
  · simp only [ProbeWalk.prepare, (hold.congr hkeeps).join_prune, if_pos hnil]
    exact (random.shuffle_perm ..).mem_iff.mpr ((hkeeps name).mpr hname)
  · have hsame := @Covers.prepare_eq _ random _ _ hcovers hne
      (ProbeWalk.prepare random view.eligibleProbeNames probe seed).2
    simp only [picks, ProbeWalk.nextTarget, hsame]

/-- After the pending names everybody is picked. -/
theorem Covers.all_picked {views : List MembershipView} {name : JsString} (h : probe.Covers eligible)
    (hsound : probe.Sound) (hkeeps : ∀ view ∈ views, Keeps eligible view)
    (hlong : probe.walk.length + eligible.length ≤ views.length) (hname : name ∈ eligible) (seed : ρ) :
    Picked name (picks random views probe seed) := by
  have hpos := length_pos_of_mem hname
  induction views generalizing probe seed with
  | nil =>
    rw [length_nil] at hlong
    omega
  | cons view views ih =>
    have hview := hkeeps view mem_cons_self
    cases hwalk : probe.walk with
    | nil =>
      obtain ⟨prepared, seed', hprepared, hcovers, hall, hpicks⟩ := @Sound.picks_prepare _ random _
        eligible view views hsound hview (ne_nil_of_mem hname) seed
      have hlength := (subperm_of_subset hprepared.pending hcovers.pending).length_le
      rw [hpicks]
      exact hcovers.pending_picked hkeeps (by omega) (hall h hwalk name hname) seed'
    | cons target rest =>
      obtain ⟨record, -, hpick⟩ := @Covers.nextTarget_eq _ random _ _ view _ _ h hview hwalk seed
      have hnext : (ProbeWalk.nextTarget random view probe seed).2.1.Sound :=
        (hsound.nextTarget view seed).1
      rw [hpick] at hnext
      simp only [picks, hpick]
      rw [hwalk, length_cons, length_cons] at hlong
      obtain ⟨other, hother, hsame⟩ := ih (h.tail hwalk _) hnext
        (fun view hview => hkeeps view (mem_cons_of_mem _ hview)) (by simp only; omega) seed
      exact ⟨other, mem_cons_of_mem _ hother, hsame⟩

/-- Whatever the table is at each pick and whatever is drawn: the targets of one walk are distinct, a
    target is eligible and there is one if any member is, and while the same `n` members stay eligible
    any `2 n - 1` picks in a row include them all. -/
theorem walk_is_fair (random : Random ρ) (views : List MembershipView) (seed : ρ) :
    (walkAfter random views empty seed).1.visited.Nodup ∧
    (∀ view, (nextTarget random view (walkAfter random views empty seed).1
      (walkAfter random views empty seed).2).1 = none → view.eligibleProbeNames = []) ∧
    (∀ view, ∀ record ∈ (nextTarget random view (walkAfter random views empty seed).1
      (walkAfter random views empty seed).2).1, record.update.member ∈ view.eligibleProbeNames) ∧
    ∀ (eligible : List JsString) (fixed : List MembershipView), eligible.Nodup →
      (∀ view ∈ fixed, Keeps eligible view) → fixed.length = 2 * eligible.length - 1 →
      ∀ name ∈ eligible, Picked name (picks random fixed (walkAfter random views empty seed).1
        (walkAfter random views empty seed).2) := by
  have h := @sound_walkAfter _ random empty views ⟨nodup_nil, nodup_nil, by simp [empty], nofun⟩ seed
  generalize walkAfter random views empty seed = reached at h ⊢
  obtain ⟨probe, seed⟩ := reached
  refine ⟨h.visited, fun view => (h.nextTarget view seed).2.1, fun view => (h.nextTarget view seed).2.2,
    fun eligible fixed hnodup hkeeps hlong name hname => ?_⟩
  have hpos := length_pos_of_mem hname
  cases fixed with
  | nil =>
    rw [length_nil] at hlong
    omega
  | cons view fixed =>
    obtain ⟨prepared, seed', hprepared, hcovers, -, hpicks⟩ := @Sound.picks_prepare _ random _ eligible
      view fixed h (hkeeps view mem_cons_self) (ne_nil_of_mem hname) seed
    have hsub := subperm_of_subset hprepared.pending hcovers.pending
    rw [hpicks]
    rcases hsub.length_le.lt_or_eq with hfewer | hall
    · exact hcovers.all_picked hprepared hkeeps (by omega) hname seed'
    · have hmem := (hsub.perm_of_length_le hall.ge).mem_iff.mpr hname
      exact hcovers.pending_picked hkeeps (by omega) hmem seed'

/-- Node `a` with the members `b` and `c`. -/
def twoMembers : MembershipView :=
  ((MembershipView.create [97]).store ⟨.alive, true, 0, 0, [98], [], []⟩ 0).store
    ⟨.alive, true, 0, 0, [99], [], []⟩ 0

/-- Both are picked by three picks in the middle of a walk. -/
theorem both_members_picked :
    let reached := walkAfter SeededRandom.random [twoMembers] empty (SeededRandom.create 1)
    reached.1.walk ≠ [] ∧ ∀ name ∈ [[98], [99]],
      Picked name (picks SeededRandom.random (replicate 3 twoMembers) reached.1 reached.2) := by
  have hkeeps : ∀ view ∈ replicate 3 twoMembers, Keeps [[98], [99]] view := by
    intro view hview name
    rw [eq_of_mem_replicate hview, (by decide +kernel : twoMembers.eligibleProbeNames = [[98], [99]])]
  exact ⟨by decide +kernel, (walk_is_fair SeededRandom.random [twoMembers] (SeededRandom.create 1)).2.2.2
    [[98], [99]] (replicate 3 twoMembers) (by decide) hkeeps rfl⟩

end ProbeWalk

end Nodeakt.Membership
