import Nodeakt.Kv.Transferable

/-! Copies behind a synchronous write.

    A node accepts a write under a table and a ring that were installed together but come from two
    sources, so the ring's backups may contain the node itself. Its write then replicates: each
    request is run by the node it is addressed to, settles at most once, and other traffic goes on.
    A backup stores the entry as it decodes it, without a leading mark of its key and node name.
    `quorum_copies_iff` says when an applied write has its quorum of distinct copies in every run. -/

namespace Nodeakt.Kv
open Schemes JsString Proposal List

variable {writer : JsString} {state : Replicating} {router : Replicator} {table : RoutingTable}
  {ring : PartitionRing}

/-- The cluster's engines while one write replicates. -/
structure Replicating where
  engines : JsString → Engine
  proposal : Proposal

/-- What can happen meanwhile. -/
inductive ReplicatingEvent where
  | execute (name : JsString)
  | settle (name : JsString) (ok : Bool)
  | merge (name : JsString) (entry : Entry)
  | write (name : JsString) (op : WriteOp) (nowMs physical : Millis)

namespace Replicating

/-- One node's engine changes. -/
def setEngine (state : Replicating) (name : JsString) (engine : Engine) : Replicating :=
  { state with engines := Function.update state.engines name engine }

/-- A node accepts `op` as primary; nothing when it refuses, forwards or does not apply it. -/
def start (router : Replicator) (engines : JsString → Engine) (op : WriteOp) (recovering : Bool)
    (nowMs physical : Millis) : Option Replicating :=
  let engine := engines router.self
  match router.write op (engine.partitionFor op.key) recovering with
  | .ok (.propose replicas) =>
    match router.propose engine op replicas nowMs physical with
    | (.inr proposal, engine') => some ⟨Function.update engines router.self engine', proposal⟩
    | (.inl _, _) => none
  | _ => none

/-- A node merges the entry it decoded from its request. -/
def execute (state : Replicating) (name : JsString) (entry : Entry) : Replicating :=
  { state.setEngine name ((state.engines name).merge entry) with
    proposal := state.proposal.execute name }

/-- One event. -/
def step (state : Replicating) : ReplicatingEvent → Option Replicating
  | .execute name =>
    if name ∈ state.proposal.sends then
      (deliveredEntry state.proposal.entry).map (state.execute name)
    else none
  | .settle name ok =>
    if state.proposal.canSettle name ok then
      some { state with proposal := state.proposal.settle name ok }
    else none
  | .merge name entry => some (state.setEngine name ((state.engines name).merge entry))
  | .write name op nowMs physical =>
    some (state.setEngine name ((state.engines name).write op nowMs physical).2)

/-- The nodes whose acknowledgment has settled. -/
def acked (proposal : Proposal) : List JsString :=
  (proposal.settled.filter (fun s => s.2)).map Prod.fst

/-- An entry that is decoded under its own key and not to an older version. -/
def Intact (entry : Entry) : Prop :=
  arriving entry.key = entry.key ∧ entry.timestamp.node ≤ arriving entry.timestamp.node

theorem le_mapText_iff (entry : Entry) : entry.timestamp ≤ (entry.mapText arriving).timestamp ↔
    entry.timestamp.node ≤ arriving entry.timestamp.node := by
  rw [← not_lt, HybridTime.lt_iff]
  simp [Entry.mapText, HybridTime.mapText]

/-- What every run keeps: the writer holds the version, every node that ran the request does if the
    entry arrives intact, and acknowledgments come from different nodes that ran it. -/
structure Copied (writer : JsString) (state : Replicating) : Prop where
  own : (state.engines writer).Holds state.proposal.entry.key state.proposal.entry.timestamp
  executed : Intact state.proposal.entry → ∀ name ∈ state.proposal.executed,
    (state.engines name).Holds state.proposal.entry.key state.proposal.entry.timestamp
  acked_executed : ∀ name, (name, true) ∈ state.proposal.settled → name ∈ state.proposal.executed
  settled_sends : ∀ name ∈ state.proposal.settled.map Prod.fst, name ∈ state.proposal.sends
  settled_nodup : (state.proposal.settled.map Prod.fst).Nodup

/-- A change of one engine that loses no version keeps the invariant. -/
theorem Copied.setEngine (h : Copied writer state) {name : JsString} {engine : Engine}
    (hkeep : ∀ k t, (state.engines name).Holds k t → engine.Holds k t) :
    Copied writer (state.setEngine name engine) := by
  have hall : ∀ n k t, (state.engines n).Holds k t →
      ((state.setEngine name engine).engines n).Holds k t := by
    intro n k t hn
    by_cases heq : n = name
    · subst heq; simpa [Replicating.setEngine] using hkeep k t hn
    · simpa [Replicating.setEngine, heq] using hn
  exact ⟨hall _ _ _ h.own, fun hintact n hn => hall _ _ _ (h.executed hintact n hn),
    h.acked_executed, h.settled_sends, h.settled_nodup⟩

theorem Copied.step {state' : Replicating} {event : ReplicatingEvent} (h : Copied writer state)
    (hstep : state.step event = some state') : Copied writer state' := by
  cases event with
  | execute name =>
    simp only [Replicating.step, Option.ite_none_right_eq_some, Option.map_eq_some_iff] at hstep
    obtain ⟨-, arrived, harrived, rfl⟩ := hstep
    have hmerge : Copied writer (state.setEngine name ((state.engines name).merge arrived)) :=
      h.setEngine (fun k t hk => hk.merge arrived)
    refine ⟨hmerge.own, fun hintact n hn => ?_, fun n hn => ?_, h.settled_sends, h.settled_nodup⟩
    · rcases mem_cons.mp hn with rfl | hn
      · obtain rfl := deliveredEntry_eq_some harrived
        have hmerged := Engine.holds_merge (state.engines n) (state.proposal.entry.mapText arriving)
        rw [show (state.proposal.entry.mapText arriving).key = state.proposal.entry.key from
          hintact.1] at hmerged
        simpa [Replicating.execute, Replicating.setEngine, Proposal.execute] using
          hmerged.mono ((le_mapText_iff _).mpr hintact.2)
      · exact hmerge.executed hintact n hn
    · exact mem_cons_of_mem _ (h.acked_executed n hn)
  | settle name ok =>
    obtain ⟨hcan, rfl⟩ := of_guarded hstep
    simp only [canSettle, decide_eq_true_eq] at hcan
    obtain ⟨hsend, hfresh, hexec⟩ := hcan
    refine ⟨h.own, h.executed, fun n hn => ?_, fun n hn => ?_, ?_⟩
    · rcases mem_append.mp hn with hn | hn
      · exact h.acked_executed n hn
      · simp only [mem_singleton, Prod.mk.injEq] at hn
        exact hn.1 ▸ hexec hn.2.symm
    · simp only [settle, map_append, mem_append, map_cons, map_nil, mem_singleton] at hn
      rcases hn with hn | rfl
      · exact h.settled_sends n hn
      · exact hsend
    · simp only [settle, map_append, map_cons, map_nil]
      refine List.Nodup.append h.settled_nodup (nodup_singleton _) ?_
      simpa using hfresh
  | merge name entry =>
    cases hstep
    exact h.setEngine (fun k t hk => hk.merge entry)
  | write name op nowMs physical =>
    cases hstep
    exact h.setEngine (fun k t hk => hk.write op nowMs physical)

/-- The write itself, its sends and its quorum never change while it replicates. -/
theorem step_frame {state' : Replicating} {event : ReplicatingEvent}
    (hstep : state.step event = some state') :
    state'.proposal.entry = state.proposal.entry ∧ state'.proposal.sends = state.proposal.sends ∧
      state'.proposal.needed = state.proposal.needed := by
  cases event with
  | execute name =>
    simp only [step, Option.ite_none_right_eq_some, Option.map_eq_some_iff] at hstep
    obtain ⟨-, arrived, -, rfl⟩ := hstep
    exact ⟨rfl, rfl, rfl⟩
  | settle name ok =>
    obtain ⟨-, rfl⟩ := of_guarded hstep
    exact ⟨rfl, rfl, rfl⟩
  | merge name entry | write name op nowMs physical =>
    cases hstep
    exact ⟨rfl, rfl, rfl⟩

/-- An applied write by a node that is not among its sends has one copy more than the
    acknowledgments it needed. -/
theorem Copied.exists_copies {writeQuorum : ℕ} {entry : Entry} (h : Copied writer state)
    (hself : writer ∉ state.proposal.sends) (hintact : Intact state.proposal.entry)
    (happlied : state.proposal.outcome writeQuorum = some (.ok (.applied entry))) :
    ∃ copies : Finset JsString, writer ∈ copies ∧ state.proposal.needed + 1 ≤ copies.card ∧
      ∀ name ∈ copies, (state.engines name).Holds entry.key entry.timestamp := by
  obtain ⟨rfl, hneeded⟩ := needed_le_of_outcome happlied
  have hnodup : (acked state.proposal).Nodup :=
    h.settled_nodup.sublist (filter_sublist.map Prod.fst)
  have hacked : ∀ name ∈ acked state.proposal, (name, true) ∈ state.proposal.settled := by
    intro name hname
    obtain ⟨⟨n, ok⟩, hmem, rfl⟩ := mem_map.mp hname
    obtain ⟨hmem, rfl⟩ := mem_filter.mp hmem
    exact hmem
  have hfresh : writer ∉ (acked state.proposal).toFinset := by
    rw [mem_toFinset]
    intro hw
    exact hself (h.settled_sends _ (mem_map.mpr ⟨_, hacked writer hw, rfl⟩))
  refine ⟨insert writer (acked state.proposal).toFinset, Finset.mem_insert_self .., ?_, ?_⟩
  · rw [Finset.card_insert_of_notMem hfresh, toFinset_card_of_nodup hnodup, acked, length_map]
    omega
  · intro name hname
    rcases Finset.mem_insert.mp hname with rfl | hname
    · exact h.own
    · exact h.executed hintact name (h.acked_executed name (hacked name (mem_toFinset.mp hname)))

/-- An accepted write starts with the writer holding it and the placement's backups as sends; its
    entry is stamped by the writer's engine and can be encoded. -/
theorem start_eq_some (hinstalled : router.installed = some (table, ring))
    {engines : JsString → Engine} {op : WriteOp} {recovering : Bool} {nowMs physical : Millis}
    (h : start router engines op recovering nowMs physical = some state) :
    Copied router.self state ∧ ∃ entry, entry.key = op.key ∧
      entry.timestamp.node = (engines router.self).node ∧ entry.Encodable ∧
      state.proposal = sent router.mode router.writeQuorum
        (ring.backups ((engines router.self).partitionFor op.key) router.replicaCount) entry := by
  simp only [start] at h
  split at h
  · rename_i replicas hroute
    obtain ⟨table', ring', hinstalled', -, rfl, -⟩ := Replicator.write_eq_propose hroute
    obtain ⟨rfl, rfl⟩ := Prod.mk.inj (Option.some.inj (hinstalled.symm.trans hinstalled'))
    split at h
    · rename_i proposal engine' hpropose
      cases h
      obtain ⟨entry, hwrite, ⟨bytes, hbytes⟩, rfl⟩ := Replicator.propose_eq_inr hpropose
      have hencodable := Encodable_of_encode hbytes entry (mem_singleton_self _)
      obtain ⟨value, expiresAt, -, rfl, -⟩ := Engine.write_applied hwrite
      refine ⟨⟨?_, by simp [sent], by simp [sent], by simp [sent], by simp [sent]⟩, _, rfl, rfl,
        hencodable, rfl⟩
      have hholds := Engine.holds_write hwrite
      rw [← Function.update_self router.self engine' engines] at hholds
      exact hholds
    · cases h
  · cases h

/-! ### A run in which only chosen backups acknowledge -/

/-- Each of `names` runs its request and acknowledges it; nothing else happens. -/
def ackOnly (names : List JsString) : List ReplicatingEvent :=
  names.flatMap (fun name => [.execute name, .settle name true])

theorem run_ackOnly {arrived : Entry} : ∀ (names : List JsString) (state : Replicating),
    deliveredEntry state.proposal.entry = some arrived →
    (∀ name ∈ names, name ∈ state.proposal.sends) → names.Nodup →
    (∀ name ∈ names, name ∉ state.proposal.settled.map Prod.fst) →
    ∃ state', run step state (ackOnly names) = some state' ∧
      state'.proposal.settled = state.proposal.settled ++ names.map (fun name => (name, true)) ∧
      state'.proposal.entry = state.proposal.entry ∧
      state'.proposal.sends = state.proposal.sends ∧
      state'.proposal.needed = state.proposal.needed ∧
      ∀ name, state'.engines name = if name ∈ names then (state.engines name).merge arrived
        else state.engines name
  | [], state, _, _, _, _ => ⟨state, rfl, by simp, rfl, rfl, rfl, fun _ => by simp⟩
  | name :: names, state, harrived, hsends, hnodup, hfresh => by
      have hsend : name ∈ state.proposal.sends := hsends name (mem_cons_self ..)
      have hnew : name ∉ state.proposal.settled.map Prod.fst := hfresh name (mem_cons_self ..)
      have hexec : state.step (.execute name) = some (state.execute name arrived) := by
        simp [step, hsend, harrived]
      obtain ⟨mid, hmid⟩ : ∃ mid : Replicating, mid =
        { state.execute name arrived with
          proposal := (state.proposal.execute name).settle name true } := ⟨_, rfl⟩
      have hsettle : (state.execute name arrived).step (.settle name true) = some mid := by
        rw [hmid]
        refine if_pos ?_
        simpa [canSettle, execute, Proposal.execute] using ⟨hsend, by simpa using hnew⟩
      obtain ⟨hnot, hnodup⟩ := nodup_cons.mp hnodup
      have hlater : ∀ n ∈ names, n ∉ mid.proposal.settled.map Prod.fst := by
        intro n hn
        have hne : n ≠ name := fun h => hnot (h ▸ hn)
        simpa [hmid, settle, Proposal.execute, hne] using hfresh n (mem_cons_of_mem _ hn)
      have hmore : ∀ n ∈ names, n ∈ mid.proposal.sends := by
        intro n hn
        rw [hmid]
        exact hsends n (mem_cons_of_mem _ hn)
      obtain ⟨state', hrun, hset, hentry, hsd, hnd, heng⟩ :=
        run_ackOnly names mid (by rw [hmid]; exact harrived) hmore hnodup hlater
      refine ⟨state', ?_, ?_, ?_, ?_, ?_, ?_⟩
      · exact (run_cons_eq_some step).mpr ⟨_, hexec, (run_cons_eq_some step).mpr ⟨_, hsettle, hrun⟩⟩
      · simp [hset, hmid, settle, Proposal.execute]
      · simp [hentry, hmid, settle, Proposal.execute]
      · simp [hsd, hmid, settle, Proposal.execute]
      · simp [hnd, hmid, settle, Proposal.execute]
      · intro n
        rw [heng n, hmid]
        by_cases hn : n = name
        · subst hn
          simp [hnot, execute, setEngine]
        · simp [hn, execute, setEngine]

/-- When every settled send acknowledged and there are exactly `needed` of them, the write
    resolves. -/
theorem firstAcks_replicate {needed total : ℕ} (htotal : needed ≤ total) :
    ∀ {k acks : ℕ}, acks + (k + 1) = needed →
      firstAcks needed total acks acks (List.replicate (k + 1) true) = some needed
  | 0, acks, h => by
      rw [replicate_succ, firstAcks, if_pos rfl, if_pos (Or.inl h.ge), h]
  | k + 1, acks, h => by
      rw [replicate_succ, firstAcks, if_pos rfl, if_neg (by omega)]
      exact firstAcks_replicate htotal (by omega)

theorem outcome_of_acks {proposal : Proposal} {names : List JsString} {writeQuorum : ℕ}
    (hsettled : proposal.settled = names.map (fun name => (name, true)))
    (hneeded : names.length = proposal.needed) (hpos : 0 < proposal.needed)
    (htotal : proposal.needed ≤ proposal.sends.length) :
    proposal.outcome writeQuorum = some (.ok (.applied proposal.entry)) := by
  obtain ⟨k, hk⟩ : ∃ k, proposal.needed = k + 1 := ⟨proposal.needed - 1, by omega⟩
  have hresults : proposal.settled.map Prod.snd = List.replicate (k + 1) true := by
    rw [hsettled, List.map_map, ← hk, ← hneeded]
    exact List.map_const' ..
  rw [outcome, if_neg hpos.ne', hresults, firstAcks_replicate htotal (by omega)]
  exact if_neg (lt_irrefl _)

/-! ### The result -/

/-- The backups the ring gives the partition of a key. -/
abbrev backupsOf (router : Replicator) (ring : PartitionRing) (key : JsString) : List JsString :=
  ring.backups (partitionId key ring.partitionCount) router.replicaCount

/-- In every run of a write the router accepts for `key`, an applied write has
    `min writeQuorum (b + 1)` distinct copies, the writer's among them. -/
def QuorumCopies (router : Replicator) (ring : PartitionRing) (key : JsString) : Prop :=
  ∀ (engines : JsString → Engine) (op : WriteOp) (recovering : Bool) (nowMs physical : Millis)
    (events : List ReplicatingEvent) (state state' : Replicating) (entry : Entry),
    (∀ name, (engines name).store.partitionCount = ring.partitionCount ∧
      (engines name).node = name) → op.key = key →
    start router engines op recovering nowMs physical = some state →
    run step state events = some state' →
    state'.proposal.outcome router.writeQuorum = some (.ok (.applied entry)) →
    ∃ copies : Finset JsString, router.self ∈ copies ∧
      min router.writeQuorum ((backupsOf router ring key).length + 1) ≤ copies.card ∧
      ∀ name ∈ copies, (state'.engines name).Holds key entry.timestamp

/-- A node that waits for nobody. -/
def Alone (router : Replicator) (ring : PartitionRing) (key : JsString) : Prop :=
  router.writeQuorum = 1 ∨ backupsOf router ring key = []

/-- The backups get the entry as it is: the node is none of them, the key has no mark, and the
    node's name does not become a smaller one. -/
def Faithful (router : Replicator) (ring : PartitionRing) (key : JsString) : Prop :=
  router.self ∉ backupsOf router ring key ∧ key.head? ≠ some byteOrderMark ∧
    router.self ≤ arriving router.self

/-- The copies of a write by a node that waits for nobody, cannot encode the entry or reaches its
    backups with it. -/
theorem quorumCopies_of {key : JsString} (hinstalled : router.installed = some (table, ring))
    (hsync : router.mode = .sync)
    (h : Alone router ring key ∨ ¬ Writable MAX_KEY_BYTES key ∨
      ¬ Writable MAX_NAME_BYTES router.self ∨ Faithful router ring key) :
    QuorumCopies router ring key := by
  intro engines op recovering nowMs physical events state state' entry hengines hkey hstart hrun
    happlied
  have hpart : (engines router.self).partitionFor op.key = partitionId key ring.partitionCount := by
    rw [Engine.partitionFor, Store.partitionFor, (hengines _).1, hkey]
  obtain ⟨hcopied, first, hfirst, hnode, hencodable, hproposal⟩ := start_eq_some hinstalled hstart
  rw [hpart] at hproposal
  rw [(hengines _).2] at hnode
  have hframe : state'.proposal.entry = first ∧ state'.proposal.sends = backupsOf router ring key ∧
      state'.proposal.needed =
        min (router.writeQuorum - 1) (backupsOf router ring key).length := by
    refine run_invariant (P := fun s => s.proposal.entry = first ∧ s.proposal.sends = _ ∧
      s.proposal.needed = _) ?_ ?_ hrun
    · intro s e s' hs he
      obtain ⟨h₁, h₂, h₃⟩ := step_frame he
      exact ⟨h₁.trans hs.1, h₂.trans hs.2.1, h₃.trans hs.2.2⟩
    · rw [hproposal]
      simp [sent, hsync]
  obtain ⟨hentry, hsends, hneeded⟩ := hframe
  have hcopied' : Copied router.self state' := run_invariant (fun _ _ _ => Copied.step) hcopied hrun
  have hsame : entry = first := (needed_le_of_outcome happlied).1.trans hentry
  have hkey' : entry.key = key := by rw [hsame, hfirst, hkey]
  rcases h with halone | hkeyless | hnameless | ⟨hself, hunmarked, hname⟩
  · refine ⟨{router.self}, Finset.mem_singleton_self _, ?_, ?_⟩
    · rw [Finset.card_singleton]
      rcases halone with hone | hnone
      · omega
      · rw [hnone]
        exact min_le_right ..
    · intro name hname
      rw [Finset.mem_singleton.mp hname, ← hkey', hsame, ← hentry]
      exact hcopied'.own
  · exact absurd (hkey ▸ hfirst ▸ hencodable.key) hkeyless
  · exact absurd (hnode ▸ hencodable.node) hnameless
  · have hintact : Intact state'.proposal.entry := by
      rw [hentry]
      exact ⟨arriving_eq_self (by rwa [hfirst, hkey]), hnode.symm ▸ hname⟩
    obtain ⟨copies, hmem, hcard, hholds⟩ :=
      hcopied'.exists_copies (hsends ▸ hself) hintact happlied
    exact ⟨copies, hmem, by omega, hkey' ▸ hholds⟩

/-- A cluster of fresh nodes. -/
def freshEngines (ring : PartitionRing) (name : JsString) : Engine :=
  Engine.create name ring.partitionCount ring.positive

/-- The entry a fresh node commits for a plain put of `key` at time 0. -/
def firstEntry (router : Replicator) (ring : PartitionRing) (key : JsString) : Entry :=
  (freshEngines ring router.self).commitEntry key (some []) none 0

theorem encode_firstEntry {key : JsString} (hkey : Writable MAX_KEY_BYTES key)
    (hname : Writable MAX_NAME_BYTES router.self) :
    ∃ bytes, encodeMessage (.replicate (firstEntry router ring key)) = .ok bytes := by
  refine encodeMessage_total.mpr (writeEntry_total.mpr ⟨rfl,
    Nat.one_lt_pow (by decide) (by decide), by simp [firstEntry, Engine.commitEntry], hkey, ?_,
    Nat.one_lt_pow (by decide) (by decide), hname,
    by simp [firstEntry, Engine.commitEntry]⟩)
  have hwall : (firstEntry router ring key).timestamp.wallMs = 0 := max_self 0
  rw [hwall]
  exact ⟨by decide, le_refl 0⟩

theorem start_fresh {key : JsString} (hinstalled : router.installed = some (table, ring))
    (hprimary : table.primary (partitionId key ring.partitionCount) = router.self) {bytes : Bytes}
    (hbytes : encodeMessage (.replicate (firstEntry router ring key)) = .ok bytes) :
    start router (freshEngines ring) (.put key [] .none none) false 0 0 = some
      ⟨Function.update (freshEngines ring) router.self
          ((freshEngines ring router.self).commit key (some []) none 0).2,
        sent router.mode router.writeQuorum (backupsOf router ring key)
          (firstEntry router ring key)⟩ := by
  have hroute : router.write (.put key [] .none none) (partitionId key ring.partitionCount) false =
      .ok (.propose (backupsOf router ring key)) := by
    simp [Replicator.write, Replicator.placementOf, hinstalled, Replicator.gated,
      WriteOp.isConditional, RoutingTable.placement, hprimary]
  have hpart : (freshEngines ring router.self).partitionFor
      (WriteOp.put key [] .none none).key = partitionId key ring.partitionCount := rfl
  have hwrite : (freshEngines ring router.self).write (.put key [] .none none) 0 0 =
      (.ok (.applied (firstEntry router ring key)),
        ((freshEngines ring router.self).commit key (some []) none 0).2) := rfl
  have hreplicate : replicate router.mode router.writeQuorum (backupsOf router ring key)
      (firstEntry router ring key) = .ok (sent _ _ _ _) :=
    replicate_eq_ok.mpr ⟨⟨bytes, hbytes⟩, rfl⟩
  simp only [start, hpart, hroute, Replicator.propose, hwrite, hreplicate]

/-- With just enough acknowledgments from `names`, the copies a fresh put can claim are the writer's
    and those of the acknowledging nodes that store the entry under its key and as recent. -/
theorem QuorumCopies.of_acks {key : JsString} (h : QuorumCopies router ring key)
    (hinstalled : router.installed = some (table, ring)) (hsync : router.mode = .sync)
    (hprimary : table.primary (partitionId key ring.partitionCount) = router.self)
    {bytes : Bytes} (hbytes : encodeMessage (.replicate (firstEntry router ring key)) = .ok bytes)
    {names : List JsString}
    (hnodup : names.Nodup) (hnames : ∀ name ∈ names, name ∈ backupsOf router ring key)
    (hcount : names.length = min (router.writeQuorum - 1) (backupsOf router ring key).length)
    (hpos : 0 < names.length) :
    ∃ copies : Finset JsString, names.length + 1 ≤ copies.card ∧
      ∀ name ∈ copies, name = router.self ∨ name ∈ names ∧ arriving key = key ∧
        router.self ≤ arriving router.self := by
  have hstart := start_fresh hinstalled hprimary hbytes
  obtain ⟨state, hrun, hsettled, hentry, hsends, hneeded, hengines⟩ := run_ackOnly names
    ⟨_, sent router.mode router.writeQuorum (backupsOf router ring key)
      (firstEntry router ring key)⟩
    (deliveredEntry_of_encode hbytes) hnames hnodup (by simp [sent])
  have hneeded' : state.proposal.needed = names.length := by
    rw [hneeded, hcount]
    simp [sent, hsync]
  have happlied : state.proposal.outcome router.writeQuorum =
      some (.ok (.applied state.proposal.entry)) := by
    refine outcome_of_acks (hsettled.trans (by simp [sent])) hneeded'.symm (by omega) ?_
    rw [hneeded', hcount, hsends]
    exact min_le_right ..
  obtain ⟨copies, -, hcard, hholds⟩ := h _ _ _ _ _ _ _ state _ (fun _ => ⟨rfl, rfl⟩) rfl hstart
    hrun happlied
  refine ⟨copies, by omega, fun name hname => ?_⟩
  by_cases hself : name = router.self
  · exact Or.inl hself
  -- another node is as fresh as at the start, but for the entry it decoded
  right
  obtain ⟨stored, hpeek, hle⟩ := hholds name hname
  rw [hengines name] at hpeek
  dsimp only at hpeek
  rw [Function.update_of_ne hself] at hpeek
  split_ifs at hpeek with hacked
  · rw [Engine.peek_merge] at hpeek
    split_ifs at hpeek with hkey
    · have hstored : (firstEntry router ring key).mapText arriving = stored := by
        simpa [freshEngines, newest, sent] using hpeek
      rw [← hstored, hentry] at hle
      exact ⟨hacked, hkey.symm, (le_mapText_iff (firstEntry router ring key)).mp hle⟩
    · simp [freshEngines] at hpeek
  · simp [freshEngines] at hpeek

/-- A node that waits for a backup fails to get its copies if it is its own backup or its entry is
    not kept. -/
theorem not_quorumCopies {key : JsString} (hinstalled : router.installed = some (table, ring))
    (hsync : router.mode = .sync)
    (hprimary : table.primary (partitionId key ring.partitionCount) = router.self)
    (hquorum : 0 < router.writeQuorum) (halone : ¬ Alone router ring key)
    (hkey : Writable MAX_KEY_BYTES key) (hname : Writable MAX_NAME_BYTES router.self)
    (hfaithful : ¬ Faithful router ring key) : ¬ QuorumCopies router ring key := by
  intro hcopies
  obtain ⟨backups, hbackups⟩ : ∃ backups, backups = backupsOf router ring key := ⟨_, rfl⟩
  obtain ⟨bytes, hbytes⟩ := @encode_firstEntry router ring key hkey hname
  have hof := @QuorumCopies.of_acks _ _ _ _ hcopies hinstalled hsync hprimary bytes hbytes
  simp only [Alone, Faithful, ← hbackups] at halone hfaithful hof
  rw [not_or] at halone
  have hnodup : backups.Nodup := hbackups ▸ ring.backups_nodup (partitionId_lt key ring.positive) _
  have hlen : 0 < backups.length := length_pos_iff.mpr halone.2
  by_cases hself : router.self ∈ backups
  · -- the writer acknowledges itself, with just enough of the other backups
    have hperm : (router.self :: backups.erase router.self).Perm backups :=
      (perm_cons_erase hself).symm
    obtain ⟨k, hk⟩ : ∃ k, min (router.writeQuorum - 1) backups.length = k + 1 :=
      ⟨min (router.writeQuorum - 1) backups.length - 1, by omega⟩
    obtain ⟨names, hnames⟩ : ∃ names, names = router.self :: (backups.erase router.self).take k :=
      ⟨_, rfl⟩
    have hsub : names.Sublist (router.self :: backups.erase router.self) :=
      hnames ▸ (take_sublist ..).cons_cons _
    have hcount : names.length = min (router.writeQuorum - 1) backups.length := by
      rw [hnames, length_cons, length_take, length_erase_of_mem hself]
      omega
    obtain ⟨copies, hcard, hacked⟩ := hof ((hperm.nodup_iff.mpr hnodup).sublist hsub)
      (fun name hn => hperm.subset (hsub.subset hn)) hcount (by omega)
    have hsubset : copies ⊆ names.toFinset := by
      intro name hn
      rw [mem_toFinset]
      rcases hacked name hn with rfl | hacked
      · exact hnames ▸ mem_cons_self ..
      · exact hacked.1
    have := (Finset.card_le_card hsubset).trans (toFinset_card_le names)
    omega
  · -- every backup stores something else, so the writer's copy is the only one
    obtain ⟨copies, hcard, hacked⟩ := hof
      (hnodup.sublist (take_sublist (min (router.writeQuorum - 1) backups.length) backups))
      (fun name => mem_of_mem_take) (by rw [length_take]; omega) (by rw [length_take]; omega)
    have hsubset : copies ⊆ {router.self} := by
      intro name hn
      rcases hacked name hn with rfl | ⟨-, hkept, hle⟩
      · exact Finset.mem_singleton_self _
      · exact absurd ⟨hself, stripBom_eq_self_iff.mp hkept, hle⟩ hfaithful
    have := Finset.card_le_card hsubset
    rw [Finset.card_singleton, length_take] at *
    omega

/-- A table that gives the partition to `a`. -/
def tableA : RoutingTable := soleOwner 1 [97]

/-- Node `a` with that table and ring, two replicas and a write quorum of two. -/
def routerA : Replicator := ⟨[97], 2, .sync, 2, some (tableA, ringAB)⟩

/-- The put of the key `k`. -/
def putEmpty : WriteOp := .put [107] [] .none none

end Replicating

end Nodeakt.Kv
