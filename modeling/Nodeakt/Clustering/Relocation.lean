import Mathlib

/-! Balanced fill (`clustering.relocation.ts`): which survivor takes which of a departed node's names.

    Names and addresses are ordered as their strings are. Each name goes to the leading survivor, the
    emptiest and among those the one of the lowest address, and no two survivors with distinct
    addresses lead together. So the plan is the same in any order of its inputs, and who takes a name
    is never more than one above anyone else, which no other plan can undercut (`fill_balanced`). -/

namespace Nodeakt.Clustering
open List

variable {ν α : Type} [LinearOrder ν] [LinearOrder α]

/-- A survivor and how many actors it owns. -/
structure FillTarget (α : Type) where
  id : α
  count : ℕ
  deriving DecidableEq

structure FillAssignment (ν α : Type) where
  name : ν
  owner : α

/-- The emptiest entry, ties broken by the lower address. -/
def emptiest (best : FillTarget α) (load : List (FillTarget α)) : FillTarget α :=
  load.foldl (fun best target =>
    if target.count < best.count ∨ target.count = best.count ∧ target.id < best.id then target
    else best) best

/-- Counts one more actor on the chosen entry. -/
def raise (target : FillTarget α) : List (FillTarget α) → List (FillTarget α)
  | [] => []
  | entry :: rest =>
    if entry = target then { entry with count := entry.count + 1 } :: rest
    else entry :: raise target rest

/-- Gives the names in turn to the emptiest survivor. -/
def assign : List ν → List (FillTarget α) → List (FillAssignment ν α)
  | [], _ => []
  | _, [] => []
  | name :: rest, first :: more =>
    let target := emptiest first (first :: more)
    ⟨name, target.id⟩ :: assign rest (raise target (first :: more))

/-- Distributes the orphans, in name order, across the survivors. -/
def planFill (orphans : List ν) (survivors : List (FillTarget α)) : List (FillAssignment ν α) :=
  assign (orphans.mergeSort (· ≤ ·)) survivors

/-! ### Balance -/

section Fill

omit [LinearOrder ν]
variable {names : List ν} {load : List (FillTarget α)} {target entry : FillTarget α}

/-- Survivors have distinct addresses. -/
def Apart (load : List (FillTarget α)) : Prop := (load.map FillTarget.id).Nodup

/-- The survivors a plan gives names to, once for each name. -/
def owners (plan : List (FillAssignment ν α)) : List α := plan.map FillAssignment.owner

/-- How many actors a survivor owns once a plan is carried out. -/
def FillTarget.after (entry : FillTarget α) (plan : List (FillAssignment ν α)) : ℕ :=
  entry.count + (owners plan).count entry.id

/-- The order in which survivors are filled. -/
def FillTarget.rank (entry : FillTarget α) : ℕ ×ₗ α := toLex (entry.count, entry.id)

theorem emptiest_leads : ∀ (load : List (FillTarget α)) (best : FillTarget α),
    emptiest best load ∈ best :: load ∧ ∀ entry ∈ best :: load, (emptiest best load).rank ≤ entry.rank
  | [], best => by simp [emptiest]
  | target :: load, best => by
      have hless : target.count < best.count ∨ target.count = best.count ∧ target.id < best.id ↔
          target.rank < best.rank := by
        rw [FillTarget.rank, FillTarget.rank, Prod.Lex.toLex_lt_toLex]
      have hrest := emptiest_leads load
      simp only [emptiest, foldl_cons, forall_mem_cons, hless] at hrest ⊢
      split_ifs with hlt
      · obtain ⟨hmem, hfirst, hleads⟩ := hrest target
        exact ⟨mem_cons_of_mem _ hmem, hfirst.trans hlt.le, hfirst, hleads⟩
      · obtain ⟨hmem, hfirst, hleads⟩ := hrest best
        refine ⟨?_, hfirst, hfirst.trans (not_lt.mp hlt), hleads⟩
        exact mem_cons.mpr ((mem_cons.mp hmem).imp_right (mem_cons_of_mem _))

/-- A name goes to the survivor that leads, and the rest of the plan finds it raised. -/
theorem assign_cons (hload : load ≠ []) (name : ν) (names : List ν) : ∃ target ∈ load,
    (∀ entry ∈ load, target.rank ≤ entry.rank) ∧
      assign (name :: names) load = ⟨name, target.id⟩ :: assign names (raise target load) := by
  obtain ⟨first, more, rfl⟩ := exists_cons_of_ne_nil hload
  obtain ⟨hmem, hleads⟩ := emptiest_leads (first :: more) first
  exact ⟨_, by simpa using hmem, (forall_mem_cons.mp hleads).2, rfl⟩

theorem raise_eq_map (happart : Apart load) : raise target load =
    load.map fun entry => if entry = target then ⟨entry.id, entry.count + 1⟩ else entry := by
  induction load with
  | nil => rfl
  | cons entry load ih =>
    obtain ⟨hnot, happart⟩ := nodup_cons.mp happart
    rw [raise, map_cons]
    split_ifs with heq
    · have hrest : ∀ other ∈ load, other ≠ target := by
        rintro other hother rfl
        exact hnot (heq ▸ mem_map_of_mem hother)
      rw [map_congr_left fun other hother => if_neg (hrest other hother), map_id']
    · rw [ih happart]

theorem raise_ids (happart : Apart load) :
    (raise target load).map FillTarget.id = load.map FillTarget.id := by
  rw [raise_eq_map happart, map_map]
  refine map_congr_left fun entry _ => ?_
  simp only [Function.comp_apply]
  split <;> rfl

theorem Apart.raise (happart : Apart load) : Apart (raise target load) := by
  rwa [Apart, raise_ids happart]

/-- A survivor is found in the raised load with the same count in the end. -/
theorem exists_raised (happart : Apart load) (name : ν) (plan : List (FillAssignment ν α))
    (htarget : target ∈ load) (hentry : entry ∈ load) : ∃ raised ∈ raise target load,
      raised.id = entry.id ∧ raised.after plan = entry.after (⟨name, target.id⟩ :: plan) := by
  rw [raise_eq_map happart]
  refine ⟨_, mem_map_of_mem hentry, ?_⟩
  split_ifs with heq
  · simp [heq, FillTarget.after, owners, add_assoc, add_comm]
  · have hne : target.id ≠ entry.id := fun hid =>
      heq (inj_on_of_nodup_map happart hentry htarget hid.symm)
    simp [FillTarget.after, owners, hne]

/-- Who takes a name ends at most one above anyone. -/
theorem assign_near : ∀ {names : List ν} {load : List (FillTarget α)}, Apart load →
    ∀ entry ∈ load, entry.id ∈ owners (assign names load) →
    ∀ other ∈ load, entry.after (assign names load) ≤ other.after (assign names load) + 1
  | [], _, _, _, _, htakes, _, _ => by simp [assign, owners] at htakes
  | name :: names, load, happart, entry, hentry, htakes, other, hother => by
      obtain ⟨target, htarget, hleads, heq⟩ := assign_cons (ne_nil_of_mem hentry) name names
      rw [heq] at htakes ⊢
      obtain ⟨raised, hraised, hid, hafter⟩ := exists_raised happart name
        (assign names (raise target load)) htarget hentry
      obtain ⟨raised', hraised', -, hafter'⟩ := exists_raised happart name
        (assign names (raise target load)) htarget hother
      by_cases hagain : raised.id ∈ owners (assign names (raise target load))
      · rw [← hafter, ← hafter']
        exact assign_near happart.raise raised hraised hagain raised' hraised'
      · -- its last name, and it led when it took it
        rw [hid] at hagain
        have hsame : entry.id = target.id := (mem_cons.mp htakes).resolve_right hagain
        obtain rfl := inj_on_of_nodup_map happart hentry htarget hsame
        have hle : entry.count ≤ other.count := Prod.Lex.monotone_fst _ _ (hleads other hother)
        have hzero := count_eq_zero_of_not_mem hagain
        simp only [FillTarget.after, owners, map_cons, count_cons_self] at hzero ⊢
        omega

theorem assign_names (happart : Apart load) (hload : load ≠ []) :
    (assign names load).map FillAssignment.name = names ∧
      ∀ owner ∈ owners (assign names load), owner ∈ load.map FillTarget.id := by
  induction names generalizing load with
  | nil => simp [assign, owners]
  | cons name names ih =>
    obtain ⟨target, htarget, -, heq⟩ := assign_cons hload name names
    have hids := @raise_ids _ _ _ target happart
    obtain ⟨hnames, howners⟩ := @ih (raise target load) happart.raise
      fun hnil => hload (by simpa [hnil] using hids)
    rw [hids] at howners
    rw [heq]
    exact ⟨by simp [hnames], forall_mem_cons.mpr ⟨mem_map_of_mem htarget, howners⟩⟩

/-- A plan raises the survivors by as much as it has names. -/
theorem sum_after {plan : List (FillAssignment ν α)} (happart : Apart load)
    (howners : ∀ owner ∈ owners plan, owner ∈ load.map FillTarget.id) :
    (load.map (·.after plan)).sum = (load.map FillTarget.count).sum + plan.length := by
  have hcard := @Multiset.sum_count_eq_card _ _ (load.map FillTarget.id).toFinset (owners plan)
    (by simpa using howners)
  rw [sum_toFinset _ happart, map_map] at hcard
  simp only [FillTarget.after, sum_map_add]
  simpa [owners, Function.comp_def] using hcard

/-- A plan whose takers stay within one of anyone has the smallest greatest count. -/
theorem near_optimal {plan other : List (FillAssignment ν α)} {bound : ℕ} (happart : Apart load)
    (howners : ∀ owner ∈ owners plan, owner ∈ load.map FillTarget.id)
    (hnear : ∀ entry ∈ load, entry.id ∈ owners plan →
      ∀ other ∈ load, entry.after plan ≤ other.after plan + 1)
    (howners' : ∀ owner ∈ owners other, owner ∈ load.map FillTarget.id)
    (hlength : plan.length = other.length) (hbound : ∀ entry ∈ load, entry.after other ≤ bound) :
    ∀ entry ∈ load, entry.after plan ≤ bound := by
  intro entry hentry
  by_contra! hover
  have htakes : entry.id ∈ owners plan := by
    by_contra hnot
    refine absurd (hbound entry hentry) (not_le.mpr (hover.trans_le ?_))
    simp [FillTarget.after, count_eq_zero_of_not_mem hnot]
  have hless : (load.map (·.after other)).sum < (load.map (·.after plan)).sum := by
    refine sum_lt_sum _ _ (fun each heach => ?_) ⟨entry, hentry, ?_⟩
    · have := hnear entry hentry htakes each heach
      have := hbound each heach
      omega
    · exact (hbound entry hentry).trans_lt hover
  rw [sum_after happart howners, sum_after happart howners', hlength] at hless
  exact lt_irrefl _ hless

/-- Only one survivor leads, in whatever order they are listed. -/
theorem assign_perm : ∀ {names : List ν} {load load' : List (FillTarget α)},
    Apart load → load.Perm load' → assign names load = assign names load'
  | [], _, _, _, _ => by simp [assign]
  | name :: names, load, load', happart, hperm => by
      rcases eq_or_ne load [] with rfl | hload
      · rw [hperm.nil_eq]
      · obtain ⟨target, htarget, hleads, heq⟩ := assign_cons hload name names
        obtain ⟨target', htarget', hleads', heq'⟩ :=
          assign_cons (fun h => hload (h ▸ hperm : load.Perm []).eq_nil) name names
        have hrank := (hleads target' (hperm.mem_iff.mpr htarget')).antisymm
          (hleads' target (hperm.mem_iff.mp htarget))
        obtain rfl : target = target' := inj_on_of_nodup_map happart htarget
          (hperm.mem_iff.mpr htarget') (congrArg (fun rank => (ofLex rank).2) hrank)
        have hraise : (raise target load).Perm (raise target load') := by
          rw [raise_eq_map happart, raise_eq_map ((hperm.map _).nodup_iff.mp happart)]
          exact hperm.map _
        rw [heq, heq', assign_perm happart.raise hraise]

end Fill

/-- The fill of survivors with distinct addresses assigns every name once, to a survivor; who takes a
    name ends at most one above anyone; no other assignment has a smaller greatest count; and the
    order of the inputs does not matter. -/
theorem fill_balanced {survivors : List (FillTarget α)} (hsurvivors : survivors ≠ [])
    (happart : Apart survivors) (orphans : List ν) :
    ((planFill orphans survivors).map FillAssignment.name).Perm orphans ∧
    (∀ owner ∈ owners (planFill orphans survivors), owner ∈ survivors.map FillTarget.id) ∧
    (∀ entry ∈ survivors, entry.id ∈ owners (planFill orphans survivors) →
      ∀ other ∈ survivors, entry.after (planFill orphans survivors) ≤
        other.after (planFill orphans survivors) + 1) ∧
    (∀ (plan : List (FillAssignment ν α)) (bound : ℕ), (plan.map FillAssignment.name).Perm orphans →
      (∀ owner ∈ owners plan, owner ∈ survivors.map FillTarget.id) →
      (∀ entry ∈ survivors, entry.after plan ≤ bound) →
      ∀ entry ∈ survivors, entry.after (planFill orphans survivors) ≤ bound) ∧
    ∀ orphans' survivors', orphans'.Perm orphans → survivors'.Perm survivors →
      planFill orphans' survivors' = planFill orphans survivors := by
  obtain ⟨hnames, howners⟩ := @assign_names _ _ _ (orphans.mergeSort (· ≤ ·)) _ happart hsurvivors
  have hperm : ((planFill orphans survivors).map FillAssignment.name).Perm orphans :=
    hnames ▸ List.mergeSort_perm ..
  refine ⟨hperm, howners, assign_near happart, fun plan bound hplan howners' hbound => ?_, ?_⟩
  · refine near_optimal happart howners (assign_near happart) howners' ?_ hbound
    simpa using (hperm.trans hplan.symm).length_eq
  · intro orphans' survivors' horphans hsurvivors
    have hsorted : orphans'.mergeSort (· ≤ ·) = orphans.mergeSort (· ≤ ·) :=
      ((List.mergeSort_perm ..).trans (horphans.trans (List.mergeSort_perm ..).symm)).eq_of_pairwise
        (fun _ _ _ _ => le_antisymm) (List.pairwise_mergeSort' _ _) (List.pairwise_mergeSort' _ _)
    rw [planFill, hsorted]
    exact (assign_perm happart hsurvivors.symm).symm

/-- Two survivors take three names and end with three actors each. -/
theorem three_names_filled :
    (⟨8, 2⟩ : FillTarget ℕ).after (planFill [3, 1, 2] [⟨8, 2⟩, ⟨9, 1⟩]) ≤ 3 ∧
      (⟨9, 1⟩ : FillTarget ℕ).after (planFill [3, 1, 2] [⟨8, 2⟩, ⟨9, 1⟩]) ≤ 3 := by
  have hall : ∀ entry ∈ [(⟨8, 2⟩ : FillTarget ℕ), ⟨9, 1⟩],
      entry.after (planFill [3, 1, 2] [⟨8, 2⟩, ⟨9, 1⟩]) ≤ 3 :=
    (fill_balanced (by decide) (by unfold Apart; decide) [3, 1, 2]).2.2.2.1
      [⟨3, 8⟩, ⟨1, 9⟩, ⟨2, 9⟩] 3 (List.Perm.refl _) (by decide) (by decide)
  exact ⟨hall _ (by simp), hall _ (by simp)⟩

end Nodeakt.Clustering
