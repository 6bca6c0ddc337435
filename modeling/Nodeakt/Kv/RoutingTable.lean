import Nodeakt.Kv.Ring

/-! The versioned partition-to-owners table (`kv/routing.table.ts`).

    A row lists the owners of one partition, the primary last; the others are previous owners that
    may still hold data. `evolve` makes the ring's primary the last owner and keeps a previous owner
    until it has left or its ownership report omits the partition. -/

namespace Nodeakt.Kv
open Schemes List

variable {id : ℕ}

/-- One node's list of the partitions it holds. -/
structure OwnershipReport where
  node : JsString
  partitions : List ℕ
  deriving DecidableEq

/-- Where one partition lives. -/
structure PartitionPlacement where
  owners : List JsString
  primary : JsString
  previousOwners : List JsString
  backups : List JsString
  deriving DecidableEq

/-- A table; every partition has at least one owner. -/
structure RoutingTable where
  version : ℕ
  rows : List (List JsString)
  owned : ∀ row ∈ rows, row ≠ []
  deriving DecidableEq

/-- Indexes the reports by node, merging several reports of one node. -/
def aggregateReports (reports : List OwnershipReport) : OrderedMap JsString (List ℕ) :=
  reports.foldl (fun held report =>
      held.set report.node ((held.get report.node).getD [] ++ report.partitions))
    OrderedMap.empty

/-- Whether a previous owner is kept: another node than the primary, still live, and not known to
    hold nothing. -/
def isRetained (owner primary : JsString) (held : OrderedMap JsString (List ℕ))
    (live : List JsString) (id : ℕ) : Bool :=
  if owner = primary then false
  else if owner ∉ live then false
  else
    match held.get owner with
    | none => true
    | some report => id ∈ report

namespace RoutingTable

/-- Number of partitions the table maps. -/
def partitionCount (table : RoutingTable) : ℕ := table.rows.length

/-- Owners of a partition, the primary last. -/
def owners (table : RoutingTable) (id : ℕ) : List JsString := table.rows.getD id []

/-- Current primary of a partition. -/
def primary (table : RoutingTable) (id : ℕ) : JsString := (table.owners id).getLastD []

/-- The owners before the primary. -/
def previousOwners (table : RoutingTable) (id : ℕ) : List JsString := (table.owners id).dropLast

/-- Whether this table is strictly newer. -/
def supersedes (table other : RoutingTable) : Bool := other.version < table.version

/-- Owners from the table, backups from the ring. -/
def placement (table : RoutingTable) (id : ℕ) (ring : PartitionRing) (replicaCount : ℕ) :
    PartitionPlacement where
  owners := table.owners id
  primary := table.primary id
  previousOwners := table.previousOwners id
  backups := ring.backups id replicaCount

/-- The next owners of one partition. -/
def evolveOwners (previous : Option RoutingTable) (ring : PartitionRing)
    (held : OrderedMap JsString (List ℕ)) (live : List JsString) (id : ℕ) : List JsString :=
  let primary := ring.primary id
  let retained := match previous with
    | some previous =>
      (previous.owners id).filter (fun owner => isRetained owner primary held live id)
    | none => []
  retained ++ [primary]

/-- The next table, once the partition counts are known to agree. -/
def evolved (previous : Option RoutingTable) (ring : PartitionRing)
    (reports : List OwnershipReport) (version : ℕ) (live : List JsString) : RoutingTable where
  version := version
  rows := (List.range ring.partitionCount).map
    (evolveOwners previous ring (aggregateReports reports) live)
  owned := by simp [evolveOwners]

/-- Evolves a table onto a ring, refusing a change of the partition count. -/
def evolve (previous : Option RoutingTable) (ring : PartitionRing)
    (reports : List OwnershipReport) (version : ℕ) (live : List JsString) :
    Except KvError RoutingTable :=
  match previous with
  | some table =>
    if table.partitionCount ≠ ring.partitionCount then
      .error (.rangeError "partition count must not change across table versions")
    else .ok (evolved (some table) ring reports version live)
  | none => .ok (evolved none ring reports version live)

end RoutingTable

/-! ### Reports -/

/-- The node reported, and no report of its lists the partition. -/
def Omits (reports : List OwnershipReport) (node : JsString) (id : ℕ) : Prop :=
  (∃ report ∈ reports, report.node = node) ∧
    ∀ report ∈ reports, report.node = node → id ∉ report.partitions

instance (reports : List OwnershipReport) (node : JsString) (id : ℕ) :
    Decidable (Omits reports node id) := inferInstanceAs (Decidable (_ ∧ _))

/-- The index knows a node exactly when it reported, with everything its reports list. -/
theorem get_aggregateReports (reports : List OwnershipReport) (node : JsString) :
    ((aggregateReports reports).get node = none ↔ ∀ report ∈ reports, report.node ≠ node) ∧
    ∀ id, id ∈ ((aggregateReports reports).get node).getD [] ↔
      ∃ report ∈ reports, report.node = node ∧ id ∈ report.partitions := by
  induction reports using reverseRecOn with
  | nil => simp [aggregateReports]
  | append_singleton reports report ih =>
    rw [aggregateReports, foldl_append, foldl_cons, foldl_nil, ← aggregateReports,
      OrderedMap.get_set]
    by_cases hnode : node = report.node
    · subst hnode
      rw [if_pos rfl]
      refine ⟨by simp, fun id => ?_⟩
      rw [Option.getD_some, mem_append, ih.2 id]
      constructor
      · rintro (⟨r, hr, hn, hid⟩ | hid)
        · exact ⟨r, by simp [hr], hn, hid⟩
        · exact ⟨report, by simp, rfl, hid⟩
      · rintro ⟨r, hr, hn, hid⟩
        rcases mem_append.mp hr with hr | hr
        · exact Or.inl ⟨r, hr, hn, hid⟩
        · rw [mem_singleton.mp hr] at hid
          exact Or.inr hid
    · have hne : report.node ≠ node := fun h => hnode h.symm
      rw [if_neg hnode, ih.1]
      refine ⟨?_, fun id => ?_⟩
      · constructor
        · intro h r hr
          rcases mem_append.mp hr with hr | hr
          · exact h r hr
          · rw [mem_singleton.mp hr]; exact hne
        · exact fun h r hr => h r (mem_append_left _ hr)
      · rw [ih.2 id]
        constructor
        · rintro ⟨r, hr, hrest⟩; exact ⟨r, mem_append_left _ hr, hrest⟩
        · rintro ⟨r, hr, hn, hid⟩
          rcases mem_append.mp hr with hr | hr
          · exact ⟨r, hr, hn, hid⟩
          · rw [mem_singleton.mp hr] at hn; exact absurd hn hne

/-- An owner is kept exactly when it is not the primary, is live and no report clears it. -/
theorem isRetained_iff {owner primary : JsString} {reports : List OwnershipReport}
    {live : List JsString} :
    isRetained owner primary (aggregateReports reports) live id = true ↔
      owner ≠ primary ∧ owner ∈ live ∧ ¬ Omits reports owner id := by
  obtain ⟨hnone, hmem⟩ := get_aggregateReports reports owner
  have hreport : (match (aggregateReports reports).get owner with
      | none => true
      | some report => decide (id ∈ report)) = true ↔ ¬ Omits reports owner id := by
    cases hget : (aggregateReports reports).get owner with
    | none =>
      have hsilent := hnone.mp hget
      simp only [Omits, true_iff, not_and]
      rintro ⟨r, hr, hn⟩
      exact absurd hn (hsilent r hr)
    | some held =>
      have hspoke : ∃ r ∈ reports, r.node = owner := by
        by_contra h
        push Not at h
        rw [hnone.mpr h] at hget
        cases hget
      have hid := hmem id
      rw [hget, Option.getD_some] at hid
      simp only [decide_eq_true_eq, hid, Omits, hspoke, true_and]
      push Not
      rfl
  unfold isRetained
  by_cases hp : owner = primary
  · simp [hp]
  · by_cases hl : owner ∈ live
    · simp only [hp, hl, if_false, not_true, ne_eq, not_false_eq_true, true_and]
      exact hreport
    · simp [hp, hl]

/-! ### Rows -/

namespace RoutingTable

theorem owners_ne_nil (table : RoutingTable) (h : id < table.partitionCount) :
    table.owners id ≠ [] := by
  rw [owners, getD_eq_getElem _ _ h]
  exact table.owned _ (getElem_mem h)

/-- A row is its previous owners and then its primary. -/
theorem owners_eq (table : RoutingTable) (h : id < table.partitionCount) :
    table.owners id = table.previousOwners id ++ [table.primary id] := by
  rw [previousOwners, primary, getLastD_eq_getLast?,
    getLast?_eq_some_getLast (table.owners_ne_nil h), Option.getD_some,
    dropLast_append_getLast]

theorem primary_mem_owners (table : RoutingTable) (h : id < table.partitionCount) :
    table.primary id ∈ table.owners id := by
  rw [table.owners_eq h]
  simp

/-- Tables with the same rows up to their common count are equal but for the version. -/
theorem mem_rows_of_lt {table : RoutingTable} (h : id < table.partitionCount) :
    table.owners id ∈ table.rows := by
  rw [owners, getD_eq_getElem _ _ h]
  exact getElem_mem h

theorem mem_rows_iff {table : RoutingTable} {row : List JsString} :
    row ∈ table.rows ↔ ∃ id < table.partitionCount, table.owners id = row := by
  constructor
  · intro h
    obtain ⟨id, hid : id < table.partitionCount, rfl⟩ := mem_iff_getElem.mp h
    exact ⟨id, hid, getD_eq_getElem _ _ hid⟩
  · rintro ⟨id, hid, rfl⟩
    exact mem_rows_of_lt hid

section Evolved

variable (previous : Option RoutingTable) (ring : PartitionRing) (reports : List OwnershipReport)
  (version : ℕ) (live : List JsString)

@[simp] theorem version_evolved :
    (evolved previous ring reports version live).version = version := rfl

@[simp] theorem partitionCount_evolved :
    (evolved previous ring reports version live).partitionCount = ring.partitionCount := by
  simp [evolved, partitionCount]

variable {previous ring reports version live}

theorem owners_evolved (h : id < ring.partitionCount) :
    (evolved previous ring reports version live).owners id =
      evolveOwners previous ring (aggregateReports reports) live id := by
  have hlen : id < ((range ring.partitionCount).map
      (evolveOwners previous ring (aggregateReports reports) live)).length := by simpa using h
  rw [owners, evolved, getD_eq_getElem _ _ hlen]
  simp

theorem primary_evolved (h : id < ring.partitionCount) :
    (evolved previous ring reports version live).primary id = ring.primary id := by
  rw [primary, owners_evolved h]
  exact getLastD_concat ..

/-- The owners after an evolve: the ring's primary and the previous owners it keeps. -/
theorem mem_owners_evolved {table : RoutingTable} (h : id < ring.partitionCount) {name : JsString} :
    name ∈ (evolved (some table) ring reports version live).owners id ↔ name = ring.primary id ∨
        name ∈ table.owners id ∧ name ∈ live ∧ ¬ Omits reports name id := by
  rw [owners_evolved h, evolveOwners, mem_append, mem_singleton, mem_filter, isRetained_iff]
  by_cases hp : name = ring.primary id
  · simp [hp]
  · simp [hp]

end Evolved

/-- Evolving succeeds on a ring of the same partition count. -/
theorem evolve_eq {previous : Option RoutingTable} {ring : PartitionRing}
    (h : ∀ table, previous = some table → table.partitionCount = ring.partitionCount)
    (reports : List OwnershipReport) (version : ℕ) (live : List JsString) :
    evolve previous ring reports version live =
      .ok (evolved previous ring reports version live) := by
  cases previous with
  | none => rfl
  | some table => rw [evolve, if_neg (not_not.mpr (h table rfl))]

end RoutingTable

/-- A table of one partition. -/
def soleOwner (version : ℕ) (owner : JsString) : RoutingTable := ⟨version, [[owner]], by simp⟩

end Nodeakt.Kv
