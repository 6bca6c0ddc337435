import Nodeakt.Kv.Store

/-! The janitor's coverage (`kv/store.ts`, `sweep`).

    A sweep walks on from the cursor over the held fragments, which grow at their end between the
    sweeps and are never dropped. `Due` bounds how far the walk still has to go to a position, as the
    lap may get longer but never longer than at the last sweep. -/

namespace Nodeakt.Kv.Store
open Schemes List

variable {store : Store} {id : ℕ}

/-- Entries are merged, and then the store is swept. -/
structure SweepRound where
  entries : List Entry
  nowMs : Millis

/-- The store the sweep of a round finds. -/
def SweepRound.found (round : SweepRound) (store : Store) : Store :=
  round.entries.foldl Store.apply store

/-- The sweeps of consecutive rounds: the store each finds, and its clock. -/
def sweeps : Store → List SweepRound → List (Store × Millis)
  | _, [] => []
  | store, round :: rounds =>
    (round.found store, round.nowMs) :: sweeps ((round.found store).sweep round.nowMs) rounds

/-! ### The held fragments -/

theorem heldPartitions_sweep (store : Store) (nowMs : Millis) :
    (store.sweep nowMs).heldPartitions = store.heldPartitions := (sweep_spec store nowMs []).2.1

/-- New fragments come after the held ones. -/
theorem held_grows (round : SweepRound) (store : Store) :
    store.heldPartitions <+: (round.found store).heldPartitions := by
  unfold SweepRound.found
  induction round.entries generalizing store with
  | nil => exact prefix_rfl
  | cons entry entries ih =>
    refine List.IsPrefix.trans ?_ (ih (store.apply entry))
    rw [show (store.apply entry).heldPartitions = _ from OrderedMap.keys_set ..]
    split
    · exact prefix_rfl
    · exact prefix_append ..

/-- Later sweeps find no fewer fragments, and the last one finds the most. -/
theorem length_le_last : ∀ {rounds : List SweepRound} {store : Store} {last : Store × Millis},
    (sweeps store rounds).getLast? = some last →
      store.heldPartitions.length ≤ last.1.heldPartitions.length ∧
      ∀ found ∈ sweeps store rounds,
        found.1.heldPartitions.length ≤ last.1.heldPartitions.length
  | [round], store, last, h => by
      obtain rfl : (round.found store, round.nowMs) = last := Option.some.inj h
      exact ⟨(held_grows round store).length_le,
        forall_mem_singleton.mpr le_rfl⟩
  | round :: next :: rounds, store, last, h => by
      rw [sweeps, sweeps, getLast?_cons_cons] at h
      obtain ⟨hle, hall⟩ :=
        @length_le_last (next :: rounds) ((round.found store).sweep round.nowMs) last h
      rw [heldPartitions_sweep] at hle
      exact ⟨(held_grows round store).length_le.trans hle,
        forall_mem_cons.mpr ⟨hle, hall⟩⟩

theorem sweepCursor_found (round : SweepRound) (store : Store) :
    (round.found store).sweepCursor = store.sweepCursor := by
  unfold SweepRound.found
  induction round.entries generalizing store with
  | nil => rfl
  | cons entry entries ih => exact ih (store.apply entry)

/-! ### The walk -/

/-- From cursor `c` the walk comes to position `p` within `steps`, in laps of at most `lap`. -/
def Due (lap c p steps : ℕ) : Prop := c ≤ p ∧ p < c + steps ∨ p < c ∧ lap + p < c + steps

/-- A sweep visits the position or brings it nearer by its quota. -/
theorem Due.sweep {lap n c p quota steps : ℕ} (h : Due lap c p (quota + steps)) (hp : p < n)
    (hc : c < n) (hn : n ≤ lap) :
    (∃ step < min n quota, (c + step) % n = p) ∨ Due lap ((c + min n quota) % n) p steps := by
  by_cases hle : c ≤ p
  · by_cases hvisit : p - c < min n quota
    · exact Or.inl ⟨p - c, hvisit, by rw [Nat.add_sub_cancel' hle, Nat.mod_eq_of_lt hp]⟩
    · rw [min_eq_right (by omega), Nat.mod_eq_of_lt (by omega)]
      unfold Due at h ⊢
      omega
  · -- the position is behind the cursor, past the end of the lap
    by_cases hvisit : n - c + p < min n quota
    · refine Or.inl ⟨n - c + p, hvisit, ?_⟩
      rw [show c + (n - c + p) = p + n by omega, Nat.add_mod_right, Nat.mod_eq_of_lt hp]
    · rw [min_eq_right (by omega)]
      unfold Due at h ⊢
      by_cases hwrap : c + quota < n
      · rw [Nat.mod_eq_of_lt hwrap]
        omega
      · rw [Nat.mod_eq_sub_mod (by omega), Nat.mod_eq_of_lt (by omega)]
        omega

/-- Where the next sweep starts, as a position among the held fragments. -/
def start (store : Store) : ℕ := store.sweepCursor % store.heldPartitions.length

/-- A sweep visits a held fragment or brings its position nearer. -/
theorem mem_sweepIds_or_due {lap p steps : ℕ} (hp : store.heldPartitions[p]? = some id)
    (hlap : store.heldPartitions.length ≤ lap)
    (hdue : Due lap store.start p (JANITOR_PARTITIONS_PER_SWEEP + steps)) (nowMs : Millis) :
    id ∈ store.sweepIds ∨ (store.sweep nowMs).sweepCursor < store.heldPartitions.length ∧
      Due lap (store.sweep nowMs).sweepCursor p steps := by
  obtain ⟨hlt, -⟩ := List.getElem?_eq_some_iff.mp hp
  have hpos : 0 < store.heldPartitions.length := Nat.zero_lt_of_lt hlt
  have hcursor : (store.sweep nowMs).sweepCursor =
      (store.start + min store.heldPartitions.length JANITOR_PARTITIONS_PER_SWEEP) %
        store.heldPartitions.length := by
    rw [start, Nat.mod_add_mod, sweep]
    exact congrArg sweepCursor (if_neg hpos.ne')
  rcases hdue.sweep hlt (Nat.mod_lt _ hpos) hlap with ⟨step, hstep, hvisit⟩ | hnear
  · refine Or.inl (mem_map.mpr ⟨step, mem_range.mpr hstep, ?_⟩)
    rw [start, Nat.mod_add_mod] at hvisit
    rw [hvisit, getD_eq_getElem?_getD, hp]
    rfl
  · rw [hcursor]
    exact Or.inr ⟨Nat.mod_lt _ hpos, hnear⟩

/-- A position that is due within the quota of the sweeps is visited by one of them. -/
theorem visited_of_due {lap p : ℕ} : ∀ {rounds : List SweepRound} {round : SweepRound}
    {store : Store}, (∀ found ∈ sweeps store (round :: rounds),
      found.1.heldPartitions.length ≤ lap) → (round.found store).heldPartitions[p]? = some id →
    Due lap (round.found store).start p (JANITOR_PARTITIONS_PER_SWEEP * (rounds.length + 1)) →
    ∃ found ∈ sweeps store (round :: rounds), id ∈ found.1.sweepIds := by
  intro rounds
  induction rounds with
  | nil =>
    intro round store hlap hp hdue
    have hround := hlap _ (mem_cons_self ..)
    rw [length_nil, Nat.mul_succ, Nat.add_comm] at hdue
    rcases mem_sweepIds_or_due hp hround hdue round.nowMs with hvisit | ⟨hcursor, hdue⟩
    · exact ⟨_, mem_cons_self .., hvisit⟩
    · unfold Due at hdue
      dsimp only at hround
      omega
  | cons next rounds ih =>
    intro round store hlap hp hdue
    obtain ⟨hround, hrest⟩ := forall_mem_cons.mp hlap
    rw [length_cons, Nat.mul_succ, Nat.add_comm] at hdue
    rcases mem_sweepIds_or_due hp hround hdue round.nowMs with hvisit | ⟨hcursor, hdue⟩
    · exact ⟨_, mem_cons_self .., hvisit⟩
    · have hgrown := held_grows next ((round.found store).sweep round.nowMs)
      rw [heldPartitions_sweep] at hgrown
      have hstart : (next.found ((round.found store).sweep round.nowMs)).start =
          ((round.found store).sweep round.nowMs).sweepCursor := by
        rw [start, sweepCursor_found, Nat.mod_eq_of_lt (hcursor.trans_le hgrown.length_le)]
      have hp' : (next.found ((round.found store).sweep round.nowMs)).heldPartitions[p]? =
          some id := by
        obtain ⟨more, hmore⟩ := hgrown
        rw [← hmore, List.getElem?_append_left (List.getElem?_eq_some_iff.mp hp).1, hp]
      obtain ⟨found, hfound, hvisit⟩ := ih hrest hp' (hstart ▸ hdue)
      exact ⟨found, mem_cons_of_mem _ hfound, hvisit⟩

/-- A sweep visits no fragment twice. -/
theorem nodup_sweepIds (store : Store) : store.sweepIds.Nodup := by
  refine nodup_range.map_on fun a ha b hb heq => ?_
  have ha := (lt_min_iff.mp (mem_range.mp ha)).1
  have hb := (lt_min_iff.mp (mem_range.mp hb)).1
  have hpos : 0 < store.heldPartitions.length := Nat.zero_lt_of_lt ha
  have hnodup : store.heldPartitions.Nodup := store.partitions.nodup
  rw [getD_eq_getElem _ _ (Nat.mod_lt _ hpos), getD_eq_getElem _ _ (Nat.mod_lt _ hpos),
    hnodup.getElem_inj_iff] at heq
  have hsame : a ≡ b [MOD store.heldPartitions.length] := Nat.ModEq.add_left_cancel' _ heq
  rwa [Nat.ModEq, Nat.mod_eq_of_lt ha, Nat.mod_eq_of_lt hb] at hsame

/-- In every run of sweeps between which no fragment is dropped, a window of as many sweeps as the
    fragments held at its last sweep need reaps every fragment held at its first, and no sweep visits
    a fragment twice. -/
theorem window_reaps_all {store : Store} {rounds : List SweepRound} {first last : Store × Millis}
    (hfirst : (sweeps store rounds).head? = some first)
    (hlast : (sweeps store rounds).getLast? = some last)
    (hlength : rounds.length = last.1.heldPartitions.length ⌈/⌉ JANITOR_PARTITIONS_PER_SWEEP) :
    (∀ id ∈ first.1.heldPartitions, ∃ found ∈ sweeps store rounds, id ∈ found.1.sweepIds ∧
      ∀ key, found.1.partitionFor key = id → (found.1.sweep found.2).peek key =
        (found.1.peek key).filter (fun entry => !Partition.doomed found.2 entry)) ∧
      ∀ found ∈ sweeps store rounds, found.1.sweepIds.Nodup := by
  refine ⟨fun id hid => ?_, fun found _ => nodup_sweepIds found.1⟩
  cases rounds with
  | nil => cases hfirst
  | cons round rounds =>
    obtain rfl : (round.found store, round.nowMs) = first := Option.some.inj hfirst
    obtain ⟨p, hp⟩ := List.mem_iff_getElem?.mp hid
    obtain ⟨hlt, -⟩ := List.getElem?_eq_some_iff.mp hp
    have hall := (length_le_last hlast).2
    have hmost := hall _ (List.mem_cons_self ..)
    have hdue : Due last.1.heldPartitions.length (round.found store).start p
        (JANITOR_PARTITIONS_PER_SWEEP * (rounds.length + 1)) := by
      rw [List.length_cons, Nat.ceilDiv_eq_add_pred_div] at hlength
      rw [hlength]
      unfold Due JANITOR_PARTITIONS_PER_SWEEP
      dsimp only at hlt hmost
      omega
    obtain ⟨found, hfound, hvisit⟩ := visited_of_due hall hp hdue
    refine ⟨found, hfound, hvisit, fun key hkey => ?_⟩
    rw [(sweep_spec found.1 found.2 key).2.2, hkey, if_pos hvisit]

/-- An entry that expires at 5, under a key of one code unit. -/
def aging (unit : CodeUnit) : Entry := ⟨[unit], some [1], ⟨0, 0, [97]⟩, 1, some 5, false⟩

/-- A store of 65 fragments is swept, gets one more and is swept again. -/
def growingRounds : List SweepRound :=
  [⟨(List.finRange 65).map fun n => aging (n.castLE (by decide)), 9⟩, ⟨[aging 65], 9⟩]

/-- The first sweep leaves out the last fragment it finds, and the second comes to it. -/
theorem left_out_fragment_reaped : ∃ first ∈ (sweeps (create 65000 (by decide)) growingRounds).head?,
    first.1.heldPartitions.length = 65 ∧ ∃ id ∈ first.1.heldPartitions, id ∉ first.1.sweepIds ∧
      ∃ found ∈ sweeps (create 65000 (by decide)) growingRounds, id ∈ found.1.sweepIds := by
  refine ⟨_, rfl, by decide +kernel, partitionId [64] 65000, by decide +kernel, by decide +kernel, ?_⟩
  obtain ⟨found, hfound, hvisit, -⟩ := (@window_reaps_all (create 65000 (by decide)) growingRounds _ _
    rfl rfl (by decide +kernel)).1 (partitionId [64] 65000) (by decide +kernel)
  exact ⟨found, hfound, hvisit⟩

end Nodeakt.Kv.Store
