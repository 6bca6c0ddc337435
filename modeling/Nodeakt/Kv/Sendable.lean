import Nodeakt.Kv.Transferable

/-! Authored tables and the limits of the wire (`kv/routing.table.ts`, `kv/wire.ts`).

    A table evolves from step to step and keeps every demoted owner that is live and has not
    reported its partition drained; nothing bounds how many. The codec refuses more than
    `MAX_OWNERS_PER_PARTITION` owners of a partition. `authored_tables_sendable`: a table is well
    formed and can be pushed as long as each step keeps fewer previous owners than that. -/

namespace Nodeakt.Kv
open Schemes List

/-- One evolution: the ring of the members, the live set it is drawn from, the reports of the last
    push and the version of the next table. -/
structure Evolution where
  ring : PartitionRing
  live : List JsString
  reports : List OwnershipReport
  version : ℕ
  manned : ∀ member ∈ ring.members, member ∈ live

namespace RoutingTable

/-- Whether a push of the table can be encoded. -/
def Sendable (table : RoutingTable) : Prop :=
  (encodeMessage (.table table.toWire)).toOption.isSome = true

instance (table : RoutingTable) : Decidable table.Sendable := inferInstanceAs (Decidable (_ = true))

/-- The next table of an evolution, if it keeps the partition count. -/
def author (table : RoutingTable) (e : Evolution) : Option RoutingTable :=
  (evolve (some table) e.ring e.reports e.version e.live).toOption

/-- The previous owners of a partition that an evolution keeps. -/
def kept (table : RoutingTable) (e : Evolution) (id : ℕ) : List JsString :=
  (table.owners id).filter (fun owner =>
    isRetained owner (e.ring.primary id) (aggregateReports e.reports) e.live id)

/-- The version fits its field, the wire takes the primaries' names, and fewer previous owners are
    kept than the codec takes owners. -/
def Fits (table : RoutingTable) (e : Evolution) : Prop :=
  e.version < 256 ^ 8 ∧ ∀ id < e.ring.partitionCount,
    Writable MAX_NAME_BYTES (e.ring.primary id) ∧ (table.kept e id).length < MAX_OWNERS_PER_PARTITION

instance (table : RoutingTable) (e : Evolution) : Decidable (table.Fits e) :=
  inferInstanceAs (Decidable (_ ∧ ∀ _ < _, _))

/-- What is claimed of an authored table: owners are distinct and live, the ring's primary is the
    last of them, and the table can be pushed. -/
structure WellFormed (table : RoutingTable) (e : Evolution) : Prop where
  distinct : ∀ id < table.partitionCount, (table.owners id).Nodup
  primaryLast : ∀ id < table.partitionCount, (table.owners id).getLast? = some (e.ring.primary id)
  live : ∀ id < table.partitionCount, ∀ owner ∈ table.owners id, owner ∈ e.live
  sendable : table.Sendable

variable {table next : RoutingTable} {e : Evolution}

/-- The codec takes the owners of a partition exactly if it takes their number and names. -/
theorem writeOwners_total (owners : List JsString) : (∃ block, writeOwners owners = .ok block) ↔
      (owners.length ≠ 0 ∧ owners.length ≤ MAX_OWNERS_PER_PARTITION) ∧
        ∀ owner ∈ owners, Writable MAX_NAME_BYTES owner := by
  have hnames := @writeAll_total _ (fun owner => writeName owner "owner")
    (Writable MAX_NAME_BYTES) (fun _ => writeText_total) owners
  rw [← hnames]
  simp only [writeOwners, except_bind_eq_ok, except_pure_eq_ok, refuse_eq_ok, exists_const, not_or,
    not_lt]
  constructor
  · rintro ⟨_, hcount, block, hblock, rfl⟩
    exact ⟨hcount, block, hblock⟩
  · rintro ⟨hcount, block, hblock⟩
    exact ⟨_, hcount, block, hblock, rfl⟩

theorem writeTable_total {table : RoutingTableWire} :
    (∃ block, writeTable table = .ok block) ↔ table.version < 256 ^ 8 ∧
      table.partitions.length ≤ MAX_WIRE_PARTITIONS ∧ ∀ row ∈ table.partitions,
        (row.length ≠ 0 ∧ row.length ≤ MAX_OWNERS_PER_PARTITION) ∧
          ∀ owner ∈ row, Writable MAX_NAME_BYTES owner := by
  rw [← writeAll_total writeOwners_total]
  simp only [writeTable, writeList, except_bind_eq_ok, except_pure_eq_ok, assertU64_eq_ok,
    refuse_eq_ok, exists_const, not_lt]
  constructor
  · rintro ⟨_, hversion, _, ⟨hcount, block, hblock, rfl⟩, rfl⟩
    exact ⟨hversion, hcount, block, hblock⟩
  · rintro ⟨hversion, hcount, block, hblock⟩
    exact ⟨_, hversion, _, ⟨hcount, block, hblock, rfl⟩, rfl⟩

/-- A table can be pushed exactly if its version, its partitions and their owners are within the
    limits. -/
theorem sendable_iff : table.Sendable ↔ table.version < 256 ^ 8 ∧
    table.partitionCount ≤ MAX_WIRE_PARTITIONS ∧ ∀ row ∈ table.rows,
      row.length ≤ MAX_OWNERS_PER_PARTITION ∧ ∀ owner ∈ row, Writable MAX_NAME_BYTES owner := by
  have hok : table.Sendable ↔ ∃ bytes, encodeMessage (.table table.toWire) = .ok bytes := by
    unfold Sendable
    cases encodeMessage (.table table.toWire) <;> simp [Except.toOption]
  rw [hok, encodeMessage_total, encodeBody, writeTable_total]
  have hrows : ∀ row ∈ table.rows, row.length ≠ 0 := fun row hrow hzero =>
    table.owned row hrow (length_eq_zero_iff.mp hzero)
  refine and_congr_right' (and_congr_right' (forall₂_congr fun row hrow => ?_))
  simp [hrows row hrow]

/-- An evolution that keeps the partition count ends each row with the primary. -/
theorem author_eq_some (h : table.author e = some next) :
    table.partitionCount = e.ring.partitionCount ∧ next.version = e.version ∧
      next.partitionCount = e.ring.partitionCount ∧ ∀ id < e.ring.partitionCount,
        next.owners id = table.kept e id ++ [e.ring.primary id] := by
  unfold author evolve at h
  split at h
  · rename_i previous hprevious
    cases hprevious
    split_ifs at h with hcount
    · cases h
    · cases h
      refine ⟨not_ne_iff.mp hcount, rfl, partitionCount_evolved .., fun id hid => ?_⟩
      rw [owners_evolved hid]
      rfl
  · rename_i hnone
    cases hnone

/-- A step within the limits authors a well-formed table. -/
theorem WellFormed.author (hsendable : table.Sendable)
    (hdistinct : ∀ id < table.partitionCount, (table.owners id).Nodup) (hfits : table.Fits e)
    (h : table.author e = some next) : next.WellFormed e := by
  obtain ⟨hcount, hversion, hnext, howners⟩ := author_eq_some h
  obtain ⟨-, hpartitions, hrows⟩ := sendable_iff.mp hsendable
  have hkept : ∀ id, ∀ owner ∈ table.kept e id,
      owner ∈ table.owners id ∧ owner ≠ e.ring.primary id ∧ owner ∈ e.live := by
    intro id owner howner
    obtain ⟨hmem, hretained⟩ := mem_filter.mp howner
    obtain ⟨hne, hlive, -⟩ := isRetained_iff.mp hretained
    exact ⟨hmem, hne, hlive⟩
  refine ⟨fun id hid => ?_, fun id hid => ?_, fun id hid owner howner => ?_, ?_⟩
  · rw [howners id (hnext ▸ hid)]
    refine nodup_append.mpr ⟨(hdistinct id (by omega)).filter _, nodup_singleton _, ?_⟩
    rintro owner howner _ hprimary rfl
    exact (hkept id owner howner).2.1 (mem_singleton.mp hprimary)
  · rw [howners id (hnext ▸ hid), getLast?_concat]
  · rw [howners id (hnext ▸ hid), mem_append, mem_singleton] at howner
    rcases howner with hold | rfl
    · exact (hkept id owner hold).2.2
    · exact e.manned _ (e.ring.primary_mem (hnext ▸ hid))
  · refine sendable_iff.mpr ⟨hversion ▸ hfits.1, by omega, fun row hrow => ?_⟩
    obtain ⟨id, hid : id < next.partitionCount, rfl⟩ := mem_iff_getElem.mp hrow
    rw [← getD_eq_getElem _ [] hid]
    obtain ⟨hwritable, hfew⟩ := hfits.2 id (hnext ▸ hid)
    rw [← owners, howners id (hnext ▸ hid)]
    refine ⟨by simpa using hfew, fun owner howner => ?_⟩
    rcases mem_append.mp howner with hold | hprimary
    · have hid' : id < table.partitionCount := by omega
      exact (hrows _ (mem_rows_of_lt hid')).2 owner (hkept id owner hold).1
    · rw [mem_singleton.mp hprimary]
      exact hwritable

/-- From a table that can be pushed and has distinct owners, in every run of evolutions within the
    limits every authored table is well formed. -/
theorem authored_tables_sendable {initial : RoutingTable} {es : List Evolution}
    (hsendable : initial.Sendable)
    (hdistinct : ∀ id < initial.partitionCount, (initial.owners id).Nodup)
    (hfits : Meets RoutingTable.author Fits initial (es ++ [e]))
    (hrun : table ∈ run RoutingTable.author initial es) (hnext : next ∈ table.author e) :
    next.WellFormed e := by
  obtain ⟨hbefore, hlast, -⟩ := hfits.of_append hrun
  have htable := run_preserves
    (P := fun table => table.Sendable ∧ ∀ id < table.partitionCount, (table.owners id).Nodup)
    (fun _ _ _ h hf hs =>
      have hwell := WellFormed.author h.1 h.2 hf hs
      ⟨hwell.sendable, hwell.distinct⟩)
    ⟨hsendable, hdistinct⟩ hbefore hrun
  exact WellFormed.author htable.1 htable.2 hlast hnext

/-- The evolution onto the ring of one member, the others draining, with no report. -/
def onto (member : JsString) (others : List JsString) (version : ℕ) (named : member.length ≠ 0) :
    Evolution :=
  ⟨⟨[member], 1, Nat.one_pos, by simp, by simpa using named, by simp⟩, member :: others, [], version,
    by simp⟩

/-- The primary moves twice, and both earlier owners are kept. -/
theorem demoted_owners_sent :
    ∃ table ∈ run RoutingTable.author ⟨1, [[[1]]], by decide⟩ [onto [2] [[1]] 2 (by decide)],
      ∃ next ∈ table.author (onto [3] [[1], [2]] 3 (by decide)),
        next.rows = [[[1], [2], [3]]] ∧ next.WellFormed (onto [3] [[1], [2]] 3 (by decide)) := by
  refine ends_imp (P := fun table : RoutingTable =>
    ∃ next ∈ table.author (onto [3] [[1], [2]] 3 (by decide)), next.rows = [[[1], [2], [3]]])
    (by decide +kernel) ?_
  rintro table hrun ⟨next, hnext, hrows⟩
  exact ⟨next, hnext, hrows, authored_tables_sendable (by decide +kernel)
    (by decide +kernel) (by decide +kernel) hrun hnext⟩

/-- Sixteen moves of the primary among seventeen live members: the table lists seventeen owners, and
    its push cannot be encoded. -/
theorem seventeen_owners_refused : ∃ table ∈ run RoutingTable.author ⟨1, [[[0x61]]], by decide⟩
        ((List.range 16).map (fun i => onto [Fin.ofNat _ (0x62 + i)]
          ((List.range 17).map (fun j => [Fin.ofNat _ (0x61 + j)])) (i + 2) (by simp))),
      (⟨1, [[[0x61]]], by decide⟩ : RoutingTable).Sendable ∧ ¬table.Sendable := by
  decide +kernel

end RoutingTable

end Nodeakt.Kv
