import Nodeakt.Kv.Custody

/-! At most one put-if-absent of a key.

    A put-if-absent is judged against the store of the node that runs it, so the key stays unique as
    long as that node holds whatever was put before. The rebalance gate is checked by the sender and
    again by the receiver, but a receiver does not check that it is still the primary, and nobody
    checks the gate again when the write leaves the pipeline: a request that was forwarded under an
    old table and arrives after the partition has moved is judged against an empty fragment.
    `at_most_one_put`: for a key without a byte order mark, when each put-if-absent runs at the newest
    table's only owner, every table keeps the owners that hold the partition and a drain drops a
    fragment only under its own table, at most one put-if-absent applies. Keys that differ from it by leading marks only may arrive as the key, so
    they are not deleted or given an expiry either. -/

namespace Nodeakt.Kv
open Schemes List Engine JsString

variable {entry : Entry} {engine engine' : Engine} {op asked : WriteOp} {nowMs physical : Millis}
  {name : JsString}

/-- A put of the key on condition that it is absent. -/
def putsIfAbsent (key : JsString) : WriteOp → Bool
  | .put put _ condition _ => put = key ∧ condition = .ifAbsent
  | _ => false

/-- An operation that neither deletes nor sets an expiry. -/
def lasting : WriteOp → Bool
  | .put _ _ _ ttlMs => ttlMs.isNone
  | .delete _ => false
  | .increment _ _ => true
  | .compareAndSet _ _ _ => true

/-- Neither a tombstone nor subject to expiry. -/
def Entry.Plain (entry : Entry) : Prop := entry.deleted = false ∧ entry.expiresAt = none

/-- A text without its leading byte order marks. -/
def bare (text : JsString) : JsString := text.dropWhile (· = byteOrderMark)

theorem bare_arriving (text : JsString) : bare (arriving text) = bare text := by
  cases text with
  | nil => rfl
  | cons unit rest =>
    have harriving : arriving (unit :: rest) = if unit = byteOrderMark then rest else unit :: rest :=
      rfl
    rw [harriving]
    split_ifs with hmark
    · simp [bare, hmark]
    · rfl

theorem bare_eq_self {key : JsString} (h : arriving key = key) : bare key = key := by
  cases key with
  | nil => rfl
  | cons unit rest =>
    have hhead : (unit :: rest).head? ≠ some byteOrderMark := stripBom_eq_self_iff.mp h
    have hmark : ¬ unit = byteOrderMark := by simpa using hhead
    simp [bare, hmark]

theorem Entry.Plain.live (h : entry.Plain) (nowMs : Millis) : isLiveValue entry nowMs = true := by
  simp [isLiveValue, isExpired, h.1, h.2]

namespace Engine

/-- What a write stores is its entry or was stored before. -/
theorem peek_write_cases {key : JsString}
    (hpeek : (engine.write op nowMs physical).2.peek key = some entry) :
    engine.peek key = some entry ∨ (engine.write op nowMs physical).1 = .ok (.applied entry) := by
  rcases hwrite : engine.write op nowMs physical with ⟨error | written | reason, engine'⟩
  · rw [hwrite, write_unapplied hwrite nofun] at hpeek
    exact Or.inl hpeek
  · rw [hwrite] at hpeek
    obtain ⟨value, expiresAt, -, rfl, rfl⟩ := write_applied hwrite
    exact (peek_commit_cases hpeek).imp_right fun hentry => by rw [hentry]
  · rw [hwrite, write_unapplied hwrite nofun] at hpeek
    exact Or.inl hpeek

/-- A lasting operation commits a value, with an expiry only if the current entry has one. -/
theorem decideOp_lasting {current : Option Entry} {value : Option Bytes} {expiresAt : Option Millis}
    (h : decideOp op current nowMs = .ok (.inl (value, expiresAt))) (hlasting : lasting op = true)
    (hcurrent : ∀ entry, current = some entry → entry.expiresAt = none) :
    value.isSome = true ∧ expiresAt = none := by
  have hkept : current.bind Entry.expiresAt = none := Option.bind_eq_none_iff.mpr hcurrent
  cases commits_of_decideOp h with
  | put =>
    rw [Option.isNone_iff_eq_none.mp hlasting]
    exact ⟨rfl, rfl⟩
  | delete => cases hlasting
  | increment => exact ⟨rfl, hkept⟩
  | compareAndSet => exact ⟨rfl, hkept⟩

/-- A lasting operation on a key whose stored entry is plain writes a plain entry. -/
theorem plain_write (h : engine.write op nowMs physical = (.ok (.applied entry), engine'))
    (hlasting : lasting op = true)
    (hstored : ∀ stored, engine.peek op.key = some stored → stored.Plain) : entry.Plain := by
  obtain ⟨value, expiresAt, hdecide, rfl, -⟩ := write_applied h
  have hcommit := decideOp_lasting hdecide hlasting fun current hlive =>
    (hstored current (liveValue_eq_some.mp hlive).1).2
  exact ⟨by simpa [commitEntry] using hcommit.1, hcommit.2⟩

/-- A put-if-absent does not apply over a plain entry. -/
theorem putIfAbsent_refused {written stored : Entry} {key : JsString}
    (hop : putsIfAbsent key op = true) (hpeek : engine.peek key = some stored)
    (hplain : stored.Plain) :
    engine.write op nowMs physical ≠ (.ok (.applied written), engine') := by
  intro h
  obtain ⟨value, expiresAt, hdecide, -, -⟩ := write_applied h
  cases op with
  | put put payload condition ttlMs =>
    obtain ⟨rfl, rfl⟩ : put = key ∧ condition = .ifAbsent := of_decide_eq_true hop
    have hlive : engine.liveValue put nowMs = some stored :=
      liveValue_eq_some.mpr ⟨hpeek, hplain.live nowMs⟩
    simp [decideOp, WriteOp.key, hlive] at hdecide
  | delete | increment | compareAndSet => cases hop

end Engine

namespace Cluster

variable {partitionCount : ℕ} {world world' : Cluster partitionCount} {event : ClusterEvent}

/-! ### Where entries come from -/

/-- Every entry that circulates after a step circulated before, arrived as one that did, or is
    written by it. -/
theorem Taken.circulates (h : Taken world event world') (hentry : world'.Circulates entry) :
    (∃ source, world.Circulates source ∧ (entry = source ∨ source.mapText arriving = entry)) ∨
      ∃ write nowMs physical, world.Runs event write ∧
        ((world.engine write.node).write write.op nowMs physical).1 = .ok (.applied entry) := by
  cases hentry with
  | @stored name hpeek =>
    have hchange := h.engine name
    generalize world'.engine name = after at hchange hpeek
    cases hchange with
    | same => exact Or.inl ⟨entry, .stored hpeek, Or.inl rfl⟩
    | merged entries hfrom =>
      rcases peek_merges_cases entries _ hpeek with hold | hmem
      · exact Or.inl ⟨entry, .stored hold, Or.inl rfl⟩
      · obtain ⟨source, hsource, harrived⟩ := hfrom entry hmem
        exact Or.inl ⟨source, hsource, Or.inr harrived⟩
    | @written write nowMs physical hruns hnode =>
      rcases peek_write_cases hpeek with hold | happlied
      · exact Or.inl ⟨entry, .stored hold, Or.inl rfl⟩
      · exact Or.inr ⟨write, nowMs, physical, hruns, hnode ▸ happlied⟩
    | dropped => exact Or.inl ⟨entry, .stored (peek_of_drop hpeek), Or.inl rfl⟩
  | moving hmove hsorted =>
    refine Or.inl ⟨entry, ?_, Or.inl rfl⟩
    cases h.moves hmove with
    | same hold | delivered hold => exact .moving hold hsorted
    | acknowledged hold =>
      exact .moving hold (by simpa only [FragmentPush.acknowledge_sorted] using hsorted)
    | started => exact .stored (mem_sortedFragment.mp hsorted).2
  | written hwrite hsame =>
    rcases h.written hwrite with ⟨old, hold, hentry⟩ | hnew
    · exact Or.inl ⟨entry, .written hold (hentry.trans hsame), Or.inl rfl⟩
    · exact Or.inr (hsame ▸ hnew)
  | copied hcopied =>
    refine Or.inl ⟨entry, ?_, Or.inl rfl⟩
    cases h with
    | copy hpeek =>
      rcases mem_append.mp hcopied with hold | hnew
      · exact .copied hold
      · rw [mem_singleton.mp hnew]
        exact .stored ((peek_key hpeek).symm ▸ hpeek)
    | _ => exact .copied hcopied

/-! ### One put-if-absent -/

/-- The put-if-absents of a key that have returned as applied. -/
def appliedPuts (world : Cluster partitionCount) (key : JsString) : List ExecutedWrite :=
  world.writes.filter
    (fun write => putsIfAbsent key write.asked && write.acknowledged world.writeQuorum)

/-- A put-if-absent of the key runs only at the newest table's only owner of its partition, no
    operation deletes the key or gives it an expiry, under whatever leading marks, and a new table
    keeps the owners that hold its partition. -/
def LeavesKey (key : JsString) (world : Cluster partitionCount) : ClusterEvent → Prop
  | .author members live => world.KeepsHolders (partitionId key partitionCount) members live
  | .commit index _ _ => ∀ write ∈ world.pipeline[index]?,
      (putsIfAbsent key write.asked = true →
        world.newest.table.owners (partitionId key partitionCount) = [write.node]) ∧
      (bare write.op.key = key → lasting write.op = true)
  | _ => True

instance (key : JsString) (world : Cluster partitionCount) (event : ClusterEvent) :
    Decidable (LeavesKey key world event) := by
  rcases event <;> dsimp only [LeavesKey] <;> infer_instance

/-- A step that leaves the key to one owner: besides, a drain drops only under its own table. -/
def OneOwner (key : JsString) (world : Cluster partitionCount) (event : ClusterEvent) : Prop :=
  world.TimelyDrop event ∧ LeavesKey key world event

instance (key : JsString) (world : Cluster partitionCount) (event : ClusterEvent) :
    Decidable (OneOwner key world event) := inferInstanceAs (Decidable (_ ∧ _))

theorem Runs.mem {write : PendingWrite} (h : world.Runs event write) : write ∈ world.pipeline := by
  cases event with
  | commit => exact mem_of_getElem? h
  | _ => exact h.elim

theorem OneOwner.leaves {key : JsString} {write : PendingWrite} (h : OneOwner key world event)
    (hruns : world.Runs event write) :
    (putsIfAbsent key write.asked = true →
      world.newest.table.owners (partitionId key partitionCount) = [write.node]) ∧
    (bare write.op.key = key → lasting write.op = true) := by
  cases event with
  | commit => exact h.2 write hruns
  | _ => exact hruns.elim

/-- What such steps keep: every entry that may arrive as one of the key is plain, a forwarded
    operation is what its primary decodes, an accepted one is that or what was asked for, and a
    put-if-absent that applied is the only one and the key is in custody. -/
structure Unique (key : JsString) (world : Cluster partitionCount) : Prop where
  wired : world.Wired key
  plain : ∀ entry, world.Circulates entry → bare entry.key = key → entry.Plain
  forwarded : ∀ request ∈ world.requests, request.asked.mapText arriving = request.op
  accepted : ∀ write ∈ world.pipeline,
    write.op = write.asked ∨ write.asked.mapText arriving = write.op
  once : ((world.writes.map ExecutedWrite.asked).filter (putsIfAbsent key)).length ≤ 1
  kept : (∃ asked ∈ world.writes.map ExecutedWrite.asked, putsIfAbsent key asked = true) →
    world.Kept key

theorem unique_create (key : JsString) (ring : PartitionRing) (replicaCount : ℕ)
    (mode : ReplicationMode) (writeQuorum : ℕ) :
    Unique key (create ring replicaCount mode writeQuorum) where
  wired := wired_create ..
  plain := by
    intro entry hentry
    cases hentry with
    | stored h | moving h | written h | copied h => cases h
  forwarded := fun _ h => by cases h
  accepted := fun _ h => by cases h
  once := Nat.zero_le 1
  kept := by
    rintro ⟨asked, hasked, -⟩
    cases hasked

variable {key : JsString}

theorem putsIfAbsent_key (h : putsIfAbsent key op = true) : op.key = key := by
  cases op with
  | put put payload condition ttlMs => exact (of_decide_eq_true h).1
  | delete | increment | compareAndSet => cases h

section

variable {write : PendingWrite} (h : Unique key world) (hcond : OneOwner key world event)
include h

/-- A put-if-absent of a key without a mark runs as it was asked for. -/
theorem Unique.op_eq_asked (hkey : arriving key = key) (hruns : world.Runs event write)
    (hasked : putsIfAbsent key write.asked = true) : write.op = write.asked := by
  rcases h.accepted write hruns.mem with hsame | hforwarded
  · exact hsame
  · rw [← hforwarded]
    cases hop : write.asked with
    | put put payload condition ttlMs =>
      rw [hop] at hasked
      obtain ⟨rfl, -⟩ : put = key ∧ condition = .ifAbsent := of_decide_eq_true hasked
      rw [WriteOp.mapText, hkey]
    | delete | increment | compareAndSet =>
      rw [hop] at hasked
      cases hasked

include hcond

theorem Unique.plain_step (htaken : Taken world event world') (hentry : world'.Circulates entry)
    (hkey : bare entry.key = key) : entry.Plain := by
  rcases htaken.circulates hentry with ⟨source, hsource, rfl | rfl⟩ |
    ⟨write, nowMs, physical, hruns, happlied⟩
  · exact h.plain entry hsource hkey
  · exact h.plain source hsource ((bare_arriving source.key).symm.trans hkey)
  · have hwrite : (world.engine write.node).write write.op nowMs physical =
        (.ok (.applied entry), ((world.engine write.node).write write.op nowMs physical).2) :=
      Prod.ext happlied rfl
    have hop : entry.key = write.op.key := by
      obtain ⟨value, expiresAt, -, hentry, -⟩ := write_applied hwrite
      rw [hentry]
      rfl
    have hlasting : lasting write.op = true := (hcond.leaves hruns).2 (hop ▸ hkey)
    refine plain_write hwrite hlasting fun stored hpeek => ?_
    have hstored := peek_key hpeek
    exact h.plain stored (.stored (hstored.symm ▸ hpeek)) (by rw [hstored, ← hop, hkey])

variable (hkey : arriving key = key)
include hkey

/-- A put-if-absent that applies is the first: an earlier one would be in the owner's store. -/
theorem Unique.first_put (hruns : world.Runs event write)
    (hasked : putsIfAbsent key write.asked = true)
    (hwrite : (world.engine write.node).write write.op nowMs physical =
      (.ok (.applied entry), engine')) :
    (world.writes.map ExecutedWrite.asked).filter (putsIfAbsent key) = [] := by
  refine filter_eq_nil_iff.mpr fun earlier hearlier hput => ?_
  obtain ⟨holder, howner, ⟨t, stored, hpeek, -⟩, -⟩ := h.kept ⟨earlier, hearlier, hput⟩
  rw [(hcond.leaves hruns).1 hasked, mem_singleton] at howner
  have hstored := peek_key hpeek
  have hplain := h.plain stored (.stored (hstored.symm ▸ hpeek)) (hstored.symm ▸ bare_eq_self hkey)
  rw [howner] at hpeek
  rw [← h.op_eq_asked hkey hruns hasked] at hasked
  exact putIfAbsent_refused hasked hpeek hplain hwrite

theorem Unique.once_step (htaken : Taken world event world') :
    ((world'.writes.map ExecutedWrite.asked).filter (putsIfAbsent key)).length ≤ 1 := by
  rcases htaken.asked with hsame | ⟨write, nowMs, physical, entry, hruns, hwrite, hwrites⟩
  · rw [hsame]
    exact h.once
  · rw [hwrites, filter_append, length_append]
    cases hasked : putsIfAbsent key write.asked with
    | false => simpa [hasked] using h.once
    | true =>
      rw [h.first_put hcond hkey hruns hasked hwrite]
      simp [hasked]

/-- Custody outlasts every step that leaves the key to one owner. -/
theorem Unique.kept_step (htaken : Taken world event world') (hkept : world.Kept key) :
    world'.Kept key := by
  by_cases hauthor : ∃ members live, event = .author members live
  · obtain ⟨members, live, rfl⟩ := hauthor
    cases htaken with
    | author hnext => exact hkept.author h.wired hnext hcond.2
    | refuse | accept => exact hkept
  · push Not at hauthor
    exact hkept.step h.wired hkey htaken hcond.1 hauthor

theorem Unique.kept_applied (htaken : Taken world event world') (hruns : world.Runs event write)
    (hasked : putsIfAbsent key write.asked = true)
    (hwrite : (world.engine write.node).write write.op nowMs physical =
      (.ok (.applied entry), world'.engine write.node)) : world'.Kept key := by
  have hauthor : ∀ members live, event ≠ .author members live := by
    rintro members live rfl
    exact hruns
  refine (h.wired.step hkey htaken hcond.1).kept_of_primary ?_
  rw [htaken.newest hauthor, RoutingTable.primary, (hcond.leaves hruns).1 hasked]
  rw [← h.op_eq_asked hkey hruns hasked] at hasked
  exact ⟨_, putsIfAbsent_key hasked ▸ holds_write hwrite⟩

/-- Every step that leaves the key to one owner keeps the invariant. -/
theorem Unique.step (hstep : world.step event = some world') : Unique key world' := by
  have htaken := taken_of_step hstep
  refine ⟨h.wired.step hkey htaken hcond.1, fun _ => h.plain_step hcond htaken, ?_, ?_,
    h.once_step hcond hkey htaken, ?_⟩
  · cases htaken with
    | forward primary harrived =>
      intro request hrequest
      rcases mem_append.mp hrequest with hold | hnew
      · exact h.forwarded request hold
      · rw [mem_singleton.mp hnew]
        exact deliveredOp_eq_some harrived
    | _ => exact h.forwarded
  · cases htaken with
    | accept hwrite =>
      intro write hmem
      rcases mem_append.mp hmem with hold | hnew
      · exact h.accepted write hold
      · rw [mem_singleton.mp hnew]
        exact hwrite.imp_right (h.forwarded _)
    | commit => exact fun write hmem => h.accepted write (mem_of_mem_eraseIdx hmem)
    | _ => exact h.accepted
  · rintro ⟨asked, hasked, hput⟩
    rcases htaken.asked with hsame | ⟨write, nowMs, physical, entry, hruns, hwrite, hwrites⟩
    · rw [hsame] at hasked
      exact h.kept_step hcond hkey htaken (h.kept ⟨asked, hasked, hput⟩)
    · rw [hwrites] at hasked
      rcases mem_append.mp hasked with hold | hnew
      · exact h.kept_step hcond hkey htaken (h.kept ⟨asked, hold, hput⟩)
      · obtain rfl := mem_singleton.mp hnew
        exact h.kept_applied hcond hkey htaken hruns hput hwrite

end

/-- In every run that leaves a key without a byte order mark to one owner, at most one
    put-if-absent of the key returns as applied. -/
theorem at_most_one_put {key : JsString} {ring : PartitionRing} {replicaCount : ℕ}
    {mode : ReplicationMode} {writeQuorum : ℕ} {events : List ClusterEvent}
    {final : Cluster ring.partitionCount} (hkey : key.head? ≠ some byteOrderMark)
    (hmeets : Meets Cluster.step (OneOwner key)
      (create ring replicaCount mode writeQuorum) events)
    (hrun : run Cluster.step (create ring replicaCount mode writeQuorum) events = some final) :
    (final.appliedPuts key).length ≤ 1 := by
  have hunique : Unique key final :=
    run_preserves (fun _ _ _ h hcond => h.step hcond (arriving_eq_self hkey)) (unique_create ..)
      hmeets hrun
  have hle : (final.appliedPuts key).length ≤
      (final.writes.filter (fun write => putsIfAbsent key write.asked)).length := by
    refine (monotone_filter_right final.writes fun write hwrite => ?_).length_le
    exact (Bool.and_eq_true_iff.mp hwrite).1
  have hmap : (final.writes.filter (fun write => putsIfAbsent key write.asked)).length =
      ((final.writes.map ExecutedWrite.asked).filter (putsIfAbsent key)).length := by
    rw [filter_map, length_map]
    rfl
  exact hle.trans (hmap.le.trans hunique.once)

/-- A put-if-absent of the key `k`. -/
def claimK (value : UInt8) : WriteOp := .put [107] [value] .ifAbsent none

/-- Node `a` forwards a put-if-absent to the primary `b`. Before it arrives `c` joins and becomes the
    only owner, every node installs the new table and `c` applies another one. -/
def lateForward : List ClusterEvent :=
  [.install [97] 0, .install [98] 0, .write [97] (claimK 1), .report [97] true,
    .report [98] false, .gather, .author [[97], [98], [99]] [[97], [98], [99]], .install [97] 0,
    .install [98] 0, .install [99] 0, .write [99] (claimK 2), .commit 0 1 1, .send 0, .serve 0,
    .commit 0 2 2, .send 1]

/-- Node `b`, which is no longer the primary, applies the late one too. -/
theorem two_puts_applied : ∃ final,
    run step (create ringAB 1 .sync 1) lateForward = some final ∧
      (∀ write ∈ final.writes, lasting write.asked = true) ∧
      (final.appliedPuts [107]).length = 2 := by
  decide +kernel

/-- The forwarded put-if-absent arrives before `c` joins; `b` then drains to `c`, and `c` judges
    another one once it is the only owner. -/
def timelyForward : List ClusterEvent :=
  [.install [97] 0, .install [98] 0, .write [97] (claimK 1), .serve 0, .commit 0 0 0, .send 0,
    .report [97] true, .report [98] false, .gather,
    .author [[97], [98], [99]] [[97], [98], [99]], .install [97] 0, .install [98] 0,
    .install [99] 0, .drain [98], .start 0, .deliver 0, .acknowledge 0, .finish 0,
    .report [98] false, .report [99] false, .gather,
    .author [[97], [98], [99]] [[97], [98], [99]], .install [99] 0, .write [99] (claimK 2),
    .commit 0 1 1]

theorem second_put_refused : ∃ final,
    run step (create ringAB 1 .sync 1) timelyForward = some final ∧
      final.appliedPuts [107] ≠ [] ∧ (final.appliedPuts [107]).length ≤ 1 := by
  have hmeets : Meets step (OneOwner [107]) (create ringAB 1 .sync 1) timelyForward := by
    decide +kernel
  obtain ⟨final, hrun, hput⟩ : ∃ final ∈ run step (create ringAB 1 .sync 1) timelyForward,
      0 < (final.appliedPuts [107]).length := by decide +kernel
  exact ⟨final, hrun, ne_nil_of_length_pos hput, at_most_one_put (by decide) hmeets hrun⟩

end Cluster

end Nodeakt.Kv
