import Nodeakt.Membership.View

/-! The transmit-limited queue of truth to gossip (`membership/broadcast.ts`).

    The queue keeps one update per member and a budget of sends for it. `pack` selects without
    charging anything; what it selected is charged when the selection is acknowledged, if the
    generation packed is still queued. A selection stands for the object `pack` returns and is
    numbered. -/

namespace Nodeakt.Membership
open Schemes List

/-- Scale of the send budget. -/
def RETRANSMIT_MULTIPLIER : ℕ := 4

/-- One member's queued truth. -/
structure QueuedBroadcast where
  update : MembershipUpdate
  encodedBytes : ℕ
  priority : Bool
  initialRemaining : ℕ
  order : ℕ
  generation : ℕ
  remaining : ℕ

/-- Member and generation of a queued record that was selected. -/
structure IncludedQueuedRecord where
  member : JsString
  generation : ℕ

/-- Constraints of one pack. -/
structure BroadcastPackOptions where
  perRecordOverhead : ℕ := 0
  buddy : Option MembershipUpdate := none
  maxRecords : ℕ := UPDATE_LIST_MAX_RECORDS

/-- What a pack selected. -/
structure BroadcastSelection where
  updates : List MembershipUpdate
  bytes : ℕ

/-- A selection under construction, with what it will charge. -/
structure Packing extends BroadcastSelection where
  included : List IncludedQueuedRecord

/-- Why a call threw. -/
inductive BroadcastError where
  | protocol (error : ProtocolError)
  | range (message : String)

/-- The queue; `receipts` are the selections not acknowledged yet. -/
structure BroadcastQueue where
  queued : OrderedMap JsString QueuedBroadcast
  receipts : OrderedMap ℕ (List IncludedQueuedRecord)
  selections : ℕ
  nextOrder : ℕ
  nextGeneration : ℕ

/-- Sends already made of a queued truth. -/
def QueuedBroadcast.transmissions (record : QueuedBroadcast) : ℕ :=
  record.initialRemaining - record.remaining

/-- Self-defense first, then fewest transmissions, then insertion. -/
def compareQueued (left right : QueuedBroadcast) : ℤ :=
  if left.priority ≠ right.priority then (if left.priority then -1 else 1)
  else if left.transmissions ≠ right.transmissions then
    (left.transmissions : ℤ) - right.transmissions
  else (left.order : ℤ) - right.order

/-- Whether two records are the same truth. -/
def truthMatches (left right : MembershipUpdate) : Bool :=
  left.incarnation = right.incarnation ∧ left.state = right.state

namespace BroadcastQueue

variable (q : BroadcastQueue)

def empty : BroadcastQueue := ⟨OrderedMap.empty, OrderedMap.empty, 0, 0, 0⟩

/-- Installs one truth with a fresh send budget. -/
def store (incoming : MembershipUpdate) (encodedBytes aliveOrSuspectCount : ℕ)
    (prioritySelfDefense : Bool) : BroadcastQueue :=
  let remaining := RETRANSMIT_MULTIPLIER * Nat.clog 10 (max 1 aliveOrSuspectCount + 1)
  { q with
    queued := q.queued.set incoming.member
      ⟨incoming, encodedBytes, prioritySelfDefense && incoming.state = .alive, remaining,
        q.nextOrder, q.nextGeneration, remaining⟩
    nextOrder := q.nextOrder + 1
    nextGeneration := q.nextGeneration + 1 }

/-- Enqueues truth that supersedes what is queued of its member; whether it did. -/
def enqueue (incoming : MembershipUpdate) (aliveOrSuspectCount : ℕ)
    (prioritySelfDefense : Bool) : Except ProtocolError (Bool × BroadcastQueue) := do
  let encodedBytes ← membershipUpdateSize incoming
  if (q.queued.get incoming.member).any (fun current =>
    compareMembershipUpdates incoming current.update ≤ 0) then pure (false, q)
  else pure (true, q.store incoming encodedBytes aliveOrSuspectCount prioritySelfDefense)

/-- Enqueues a suspicion of a distinct accuser that is not superseded; whether it did. -/
def enqueueConfirmation (incoming : MembershipUpdate)
    (aliveOrSuspectCount : ℕ) : Except ProtocolError (Bool × BroadcastQueue) := do
  let encodedBytes ← membershipUpdateSize incoming
  if incoming.state ≠ .suspect then pure (false, q)
  else if (q.queued.get incoming.member).any (fun current =>
    compareMembershipUpdates incoming current.update < 0 ∨
      compareMembershipUpdates incoming current.update = 0 ∧
        incoming.reporter = current.update.reporter) then pure (false, q)
  else pure (true, q.store incoming encodedBytes aliveOrSuspectCount false)

/-- Puts a fitting buddy first, which charges the queued truth of its member if they match. -/
def packBuddy (byteBudget : ℕ) (options : BroadcastPackOptions) :
    Except ProtocolError (Packing × Option JsString) :=
  match options.buddy with
  | none => pure (⟨⟨[], 0⟩, []⟩, none)
  | some buddy => do
    if options.maxRecords = 0 then pure (⟨⟨[], 0⟩, []⟩, none)
    else
      let size ← membershipUpdateSize buddy
      if size + options.perRecordOverhead ≤ byteBudget then
        let included := match q.queued.get buddy.member with
          | some queued =>
            if truthMatches queued.update buddy then [⟨queued.update.member, queued.generation⟩] else []
          | none => []
        pure (⟨⟨[buddy], size + options.perRecordOverhead⟩, included⟩, some buddy.member)
      else pure (⟨⟨[], 0⟩, []⟩, none)

/-- Adds the records that fit, in order. -/
def packRecords (byteBudget : ℕ) (options : BroadcastPackOptions) (buddyMember : Option JsString) :
    List QueuedBroadcast → Packing → Packing
  | [], packing => packing
  | record :: rest, packing =>
    if options.maxRecords ≤ packing.updates.length then packing
    else if buddyMember = some record.update.member then
      packRecords byteBudget options buddyMember rest packing
    else if byteBudget < packing.bytes + (record.encodedBytes + options.perRecordOverhead) then
      packRecords byteBudget options buddyMember rest packing
    else
      packRecords byteBudget options buddyMember rest
        ⟨⟨packing.updates ++ [record.update],
          packing.bytes + (record.encodedBytes + options.perRecordOverhead)⟩,
          packing.included ++ [⟨record.update.member, record.generation⟩]⟩

/-- Selects records within the budgets. -/
def pack (byteBudget : ℕ) (options : BroadcastPackOptions) :
    Except BroadcastError (BroadcastSelection × BroadcastQueue) :=
  if UPDATE_LIST_MAX_RECORDS < options.maxRecords then
    .error (.range "maximum record count cannot exceed 255")
  else
    match q.packBuddy byteBudget options with
    | .error error => .error (.protocol error)
    | .ok (packing, buddyMember) =>
      let packing := packRecords byteBudget options buddyMember
        (q.queued.values.insertionSort (fun left right => compareQueued left right ≤ 0)) packing
      .ok (packing.toBroadcastSelection,
        { q with
          receipts := q.receipts.set q.selections packing.included
          selections := q.selections + 1 })

/-- Charges one included record, if its generation is still queued. -/
def charge (included : IncludedQueuedRecord) : BroadcastQueue :=
  match q.queued.get included.member with
  | none => q
  | some current =>
    if current.generation ≠ included.generation then q
    else if current.remaining - 1 = 0 then { q with queued := q.queued.delete included.member }
    else
      { q with
        queued := q.queued.set included.member { current with remaining := current.remaining - 1 } }

/-- Completes one send attempt of a selection; whether it was known. -/
def acknowledge (selection : ℕ) (accepted : Bool) : Bool × BroadcastQueue :=
  match q.receipts.get selection with
  | none => (false, q)
  | some included =>
    let q := { q with receipts := q.receipts.delete selection }
    if accepted then (true, included.foldl charge q) else (true, q)

end BroadcastQueue

/-! ### Histories -/

/-- One call. -/
inductive BroadcastCall where
  | enqueue (incoming : MembershipUpdate) (aliveOrSuspectCount : ℕ) (prioritySelfDefense : Bool)
  | enqueueConfirmation (incoming : MembershipUpdate) (aliveOrSuspectCount : ℕ)
  | pack (byteBudget : ℕ) (options : BroadcastPackOptions)
  | acknowledge (selection : ℕ) (accepted : Bool)

/-- The queue and the updates offered to it of each member since that member was last exhausted. -/
structure BroadcastHistory where
  queue : BroadcastQueue
  offered : JsString → List MembershipUpdate

namespace BroadcastHistory
open BroadcastQueue

def new : BroadcastHistory := ⟨BroadcastQueue.empty, fun _ => []⟩

/-- Adds an update to those offered. -/
def offer (h : BroadcastHistory) (incoming : MembershipUpdate) (queue : BroadcastQueue) :
    BroadcastHistory :=
  ⟨queue, Function.update h.offered incoming.member (incoming :: h.offered incoming.member)⟩

/-- One call; one that throws changes nothing, and a confirmation that is no suspicion offers
    nothing. -/
def call (h : BroadcastHistory) : BroadcastCall → BroadcastHistory
  | .enqueue incoming aliveOrSuspectCount prioritySelfDefense =>
    match h.queue.enqueue incoming aliveOrSuspectCount prioritySelfDefense with
    | .ok (_, queue) => h.offer incoming queue
    | .error _ => h
  | .enqueueConfirmation incoming aliveOrSuspectCount =>
    match h.queue.enqueueConfirmation incoming aliveOrSuspectCount with
    | .ok (_, queue) => if incoming.state = .suspect then h.offer incoming queue else h
    | .error _ => h
  | .pack byteBudget options =>
    match h.queue.pack byteBudget options with
    | .ok (_, queue) => { h with queue }
    | .error _ => h
  | .acknowledge selection accepted =>
    let queue := (h.queue.acknowledge selection accepted).2
    ⟨queue, fun member => if (queue.queued.get member).isSome then h.offered member else []⟩

end BroadcastHistory

namespace BroadcastQueue

variable {q q' : BroadcastQueue} {incoming : MembershipUpdate} {member : JsString}

/-! ### What the calls do -/

/-- An offer is refused for truth as great, or replaces truth no greater. -/
def Offers (q : BroadcastQueue) (incoming : MembershipUpdate) (q' : BroadcastQueue) : Prop :=
  (q' = q ∧ ∃ current, q.queued.get incoming.member = some current ∧
    incoming.precedence ≤ current.update.precedence) ∨
  ∃ size count priority, membershipUpdateSize incoming = .ok size ∧
    (∀ current, q.queued.get incoming.member = some current →
      current.update.precedence ≤ incoming.precedence) ∧
    q' = q.store incoming size count priority

theorem offers_of_enqueue {count : ℕ} {priority done : Bool}
    (h : q.enqueue incoming count priority = .ok (done, q')) : q.Offers incoming q' := by
  obtain ⟨size, hsize, h⟩ := except_bind_eq_ok.mp h
  split_ifs at h with hless
  · obtain ⟨current, hcurrent, hle⟩ := (Option.any_eq_true _ _).mp hless
    exact .inl ⟨(Prod.mk.inj (Except.ok.inj h)).2.symm, current, hcurrent,
      compareMembershipUpdates_le.mp (of_decide_eq_true hle)⟩
  · refine .inr ⟨size, count, priority, hsize, fun current hcurrent => ?_,
      (Prod.mk.inj (Except.ok.inj h)).2.symm⟩
    rw [hcurrent, Option.any_some, decide_eq_true_iff, compareMembershipUpdates_le] at hless
    exact (not_le.mp hless).le

theorem offers_of_confirmation {count : ℕ} {done : Bool} (hsuspect : incoming.state = .suspect)
    (h : q.enqueueConfirmation incoming count = .ok (done, q')) : q.Offers incoming q' := by
  obtain ⟨size, hsize, h⟩ := except_bind_eq_ok.mp h
  rw [if_neg (not_not.mpr hsuspect)] at h
  split_ifs at h with hless
  · obtain ⟨current, hcurrent, hle⟩ := (Option.any_eq_true _ _).mp hless
    refine .inl ⟨(Prod.mk.inj (Except.ok.inj h)).2.symm, current, hcurrent,
      compareMembershipUpdates_le.mp ?_⟩
    rcases of_decide_eq_true hle with hlt | ⟨heq, -⟩
    · exact hlt.le
    · exact heq.le
  · refine .inr ⟨size, count, false, hsize, fun current hcurrent => ?_,
      (Prod.mk.inj (Except.ok.inj h)).2.symm⟩
    rw [hcurrent, Option.any_some, decide_eq_true_iff, not_or, not_lt] at hless
    rcases hless.1.eq_or_lt with heq | hlt
    · exact (precedence_eq_of_compare heq.symm).ge
    · exact (compareMembershipUpdates_pos.mp hlt).le

theorem get_store {size count : ℕ} {priority : Bool} :
    (q.store incoming size count priority).queued.get member =
      if member = incoming.member then
        some ⟨incoming, size, priority && incoming.state = .alive,
          RETRANSMIT_MULTIPLIER * Nat.clog 10 (max 1 count + 1), q.nextOrder, q.nextGeneration,
          RETRANSMIT_MULTIPLIER * Nat.clog 10 (max 1 count + 1)⟩
      else q.queued.get member := OrderedMap.get_set ..

/-- The same truth with no more sends left, but one. -/
def Worn (record record' : QueuedBroadcast) : Prop :=
  record' = { record with remaining := record'.remaining } ∧ record'.remaining ≤ record.remaining ∧
    (0 < record.remaining → 0 < record'.remaining)

theorem charge_cases (included : IncludedQueuedRecord) {record' : QueuedBroadcast}
    (h : (q.charge included).queued.get member = some record') :
    ∃ record, q.queued.get member = some record ∧ Worn record record' := by
  unfold charge at h
  split at h
  · exact ⟨record', h, rfl, le_rfl, id⟩
  · rename_i current hcurrent
    split_ifs at h with hgeneration hlast
    · exact ⟨record', h, rfl, le_rfl, id⟩
    · rw [OrderedMap.get_delete] at h
      split_ifs at h
      exact ⟨record', h, rfl, le_rfl, id⟩
    · rw [OrderedMap.get_set] at h
      split_ifs at h with hmember
      · cases h
        exact ⟨current, hmember ▸ hcurrent, rfl, Nat.sub_le .., fun _ => Nat.pos_of_ne_zero hlast⟩
      · exact ⟨record', h, rfl, le_rfl, id⟩

theorem foldl_charge_cases : ∀ (included : List IncludedQueuedRecord) {q : BroadcastQueue}
    {record' : QueuedBroadcast}, (included.foldl charge q).queued.get member = some record' →
      ∃ record, q.queued.get member = some record ∧ Worn record record'
  | [], _, record', h => ⟨record', h, rfl, le_rfl, id⟩
  | first :: included, q, record', h => by
      obtain ⟨between, hbetween, heq, hle, hpos⟩ := foldl_charge_cases included h
      obtain ⟨record, hrecord, heq', hle', hpos'⟩ := charge_cases first hbetween
      refine ⟨record, hrecord, ?_, hle.trans hle', fun h => hpos (hpos' h)⟩
      rw [heq, heq']

/-- Only a generation that was included is charged. -/
theorem foldl_charge_of_other : ∀ {included : List IncludedQueuedRecord} {q : BroadcastQueue}
    {record : QueuedBroadcast}, q.queued.get member = some record →
      (∀ i ∈ included, i.member = member → i.generation ≠ record.generation) →
      (included.foldl charge q).queued.get member = some record
  | [], _, _, h, _ => h
  | first :: included, q, record, h, hother => by
      obtain ⟨hfirst, hrest⟩ := forall_mem_cons.mp hother
      rw [foldl_cons]
      refine foldl_charge_of_other ?_ hrest
      unfold charge
      split
      · exact h
      · rename_i current hcurrent
        split_ifs with hgeneration
        · exact h
        all_goals
          have hmember : member ≠ first.member := by
            rintro rfl
            cases (h.symm.trans hcurrent)
            exact hfirst rfl (not_not.mp hgeneration).symm
          simpa [OrderedMap.get_delete, OrderedMap.get_set, hmember] using h

/-- Charging leaves the counters and the receipts alone. -/
theorem foldl_charge_counters : ∀ (included : List IncludedQueuedRecord) (q : BroadcastQueue),
    (included.foldl charge q).nextGeneration = q.nextGeneration ∧
      (included.foldl charge q).selections = q.selections ∧
      (included.foldl charge q).receipts = q.receipts
  | [], _ => ⟨rfl, rfl, rfl⟩
  | first :: included, q => by
      have hfirst : (q.charge first).nextGeneration = q.nextGeneration ∧
          (q.charge first).selections = q.selections ∧ (q.charge first).receipts = q.receipts := by
        unfold charge
        split
        · exact ⟨rfl, rfl, rfl⟩
        · split_ifs <;> exact ⟨rfl, rfl, rfl⟩
      obtain ⟨hgeneration, hselections, hreceipts⟩ := foldl_charge_counters included (q.charge first)
      exact ⟨hgeneration.trans hfirst.1, hselections.trans hfirst.2.1, hreceipts.trans hfirst.2.2⟩

/-- An acknowledgement wears queued truth and forgets its receipt. -/
theorem acknowledge_spec (q : BroadcastQueue) (selection : ℕ) (accepted : Bool) :
    (q.acknowledge selection accepted).2.nextGeneration = q.nextGeneration ∧
    (q.acknowledge selection accepted).2.selections = q.selections ∧
    (∀ other included, (q.acknowledge selection accepted).2.receipts.get other = some included →
      q.receipts.get other = some included) ∧
    ∀ member record', (q.acknowledge selection accepted).2.queued.get member = some record' →
      ∃ record, q.queued.get member = some record ∧ Worn record record' := by
  unfold acknowledge
  split
  · exact ⟨rfl, rfl, fun _ _ h => h, fun _ record' h => ⟨record', h, rfl, le_rfl, id⟩⟩
  · rename_i included hreceipt
    have hforget : ∀ other included, (q.receipts.delete selection).get other = some included →
        q.receipts.get other = some included := fun other included h => by
      rw [OrderedMap.get_delete] at h
      split_ifs at h
      exact h
    cases accepted with
    | false =>
      exact ⟨rfl, rfl, hforget, fun _ record' h => ⟨record', h, rfl, le_rfl, id⟩⟩
    | true =>
      obtain ⟨hgeneration, hselections, hreceipts⟩ :=
        foldl_charge_counters included { q with receipts := q.receipts.delete selection }
      exact ⟨hgeneration, hselections, fun other list h => hforget other list (h ▸ hreceipts ▸ rfl),
        fun _ _ h => foldl_charge_cases (q := { q with receipts := q.receipts.delete _ }) included h⟩

/-! ### Packs -/

/-- A selection within the budgets, each member once, that charges what is queued. -/
structure Packed (q : BroadcastQueue) (byteBudget : ℕ) (options : BroadcastPackOptions)
    (packing : Packing) : Prop where
  distinct : (packing.updates.map MembershipUpdate.member).Nodup
  records : packing.updates.length ≤ options.maxRecords
  budget : packing.bytes ≤ byteBudget
  bytes : packing.bytes = (packing.updates.map (fun update =>
    (membershipUpdateSize update).toOption.getD 0 + options.perRecordOverhead)).sum
  queued : ∀ i ∈ packing.included, ∃ record, q.queued.get i.member = some record ∧
    record.generation = i.generation

variable {byteBudget : ℕ} {options : BroadcastPackOptions} {buddyMember : Option JsString}

theorem packed_nil : q.Packed byteBudget options ⟨⟨[], 0⟩, []⟩ :=
  ⟨nodup_nil, Nat.zero_le _, Nat.zero_le _, rfl, nofun⟩

theorem packBuddy_packed {packing : Packing}
    (hkeyed : ∀ member record, q.queued.get member = some record → record.update.member = member)
    (h : q.packBuddy byteBudget options = .ok (packing, buddyMember)) :
    q.Packed byteBudget options packing ∧
      ∀ update ∈ packing.updates, buddyMember = some update.member := by
  unfold packBuddy at h
  split at h
  · obtain ⟨rfl, rfl⟩ := Prod.mk.inj (Except.ok.inj h)
    exact ⟨packed_nil, nofun⟩
  · rename_i buddy hbuddy
    split_ifs at h with hzero
    · obtain ⟨rfl, rfl⟩ := Prod.mk.inj (Except.ok.inj h)
      exact ⟨packed_nil, nofun⟩
    · obtain ⟨size, hsize, h⟩ := except_bind_eq_ok.mp h
      split_ifs at h with hfits
      · obtain ⟨rfl, rfl⟩ := Prod.mk.inj (Except.ok.inj h)
        refine ⟨⟨nodup_singleton _, Nat.pos_of_ne_zero hzero, hfits, ?_, ?_⟩, by simp⟩
        · simp [hsize, Except.toOption]
        · intro i hi
          split at hi
          · rename_i queued hqueued
            split_ifs at hi
            · obtain rfl := mem_singleton.mp hi
              exact ⟨queued, by rw [hkeyed _ _ hqueued]; exact hqueued, rfl⟩
            · cases hi
          · cases hi
      · obtain ⟨rfl, rfl⟩ := Prod.mk.inj (Except.ok.inj h)
        exact ⟨packed_nil, nofun⟩

theorem packRecords_packed : ∀ {records : List QueuedBroadcast} {packing : Packing},
    q.Packed byteBudget options packing →
    (records.map (fun record => record.update.member)).Nodup →
    (∀ record ∈ records, q.queued.get record.update.member = some record ∧
      membershipUpdateSize record.update = .ok record.encodedBytes ∧
      (record.update.member ∈ packing.updates.map MembershipUpdate.member →
        buddyMember = some record.update.member)) →
    q.Packed byteBudget options (packRecords byteBudget options buddyMember records packing)
  | [], _, hp, _, _ => hp
  | record :: rest, packing, hp, hnodup, hrecords => by
      obtain ⟨hother, hnodup⟩ := nodup_cons.mp hnodup
      obtain ⟨⟨hqueued, hsize, hfresh⟩, hrest⟩ := forall_mem_cons.mp hrecords
      rw [packRecords]
      split_ifs with hfull hbuddy hlarge
      · exact hp
      · exact packRecords_packed hp hnodup hrest
      · exact packRecords_packed hp hnodup hrest
      · refine packRecords_packed ⟨?_, ?_, not_lt.mp hlarge, ?_, ?_⟩ hnodup fun later hlater => ?_
        · rw [map_append, map_singleton, nodup_append]
          refine ⟨hp.distinct, nodup_singleton _, fun a ha b hb => ?_⟩
          rw [mem_singleton.mp hb]
          rintro rfl
          exact hbuddy (hfresh ha)
        · rw [length_append, length_singleton]
          omega
        · simp [hp.bytes, hsize, Except.toOption]
        · intro i hi
          rcases mem_append.mp hi with hi | hi
          · exact hp.queued i hi
          · rw [mem_singleton.mp hi]
            exact ⟨record, hqueued, rfl⟩
        · obtain ⟨hqueued', hsize', hfresh'⟩ := hrest later hlater
          refine ⟨hqueued', hsize', fun hmem => ?_⟩
          rw [map_append, map_singleton, mem_append, mem_singleton] at hmem
          rcases hmem with hmem | heq
          · exact hfresh' hmem
          · exact absurd (mem_map.mpr ⟨later, hlater, heq⟩) hother

/-- The queued records are under their members' names, with their sizes. -/
def Keyed (q : BroadcastQueue) : Prop :=
  ∀ member record, q.queued.get member = some record →
    record.update.member = member ∧ membershipUpdateSize record.update = .ok record.encodedBytes

theorem Keyed.nodup (hq : q.Keyed) :
    (q.queued.values.map (fun record => record.update.member)).Nodup := by
  rw [OrderedMap.values, map_map]
  refine (map_congr_left fun pair hpair => ?_).symm ▸ q.queued.nodup
  exact (hq pair.1 pair.2 (OrderedMap.get_eq_some_iff.mpr hpair)).1

theorem pack_spec {selection : BroadcastSelection} (hq : q.Keyed)
    (h : q.pack byteBudget options = .ok (selection, q')) :
    ∃ included, q.Packed byteBudget options ⟨selection, included⟩ ∧
      q' = { q with
        receipts := q.receipts.set q.selections included
        selections := q.selections + 1 } := by
  unfold pack at h
  split_ifs at h
  split at h
  · cases h
  · rename_i packing buddyMember hbuddy
    obtain ⟨rfl, rfl⟩ := Prod.mk.inj (Except.ok.inj h)
    obtain ⟨hpacked, hmember⟩ := packBuddy_packed (fun m r hr => (hq m r hr).1) hbuddy
    refine ⟨_, packRecords_packed hpacked ?_ fun record hrecord => ?_, rfl⟩
    · exact ((perm_insertionSort ..).map _).nodup_iff.mpr hq.nodup
    · obtain ⟨member, hget⟩ := OrderedMap.mem_values_iff.mp (mem_insertionSort _ |>.mp hrecord)
      obtain ⟨rfl, hsize⟩ := hq member record hget
      refine ⟨hget, hsize, fun hmem => ?_⟩
      obtain ⟨update, hupdate, heq⟩ := mem_map.mp hmem
      rw [hmember update hupdate, heq]

end BroadcastQueue

namespace BroadcastHistory
open BroadcastQueue

variable {h : BroadcastHistory} {incoming : MembershipUpdate}

/-! ### The discipline -/

/-- A queued record is the greatest of what was offered and has sends left. -/
structure Kept (h : BroadcastHistory) (member : JsString) (record : QueuedBroadcast) : Prop where
  named : record.update.member = member
  size : membershipUpdateSize record.update = .ok record.encodedBytes
  offered : record.update ∈ h.offered member
  greatest : ∀ update ∈ h.offered member, update.precedence ≤ record.update.precedence
  left : 0 < record.remaining
  within : record.remaining ≤ record.initialRemaining
  generation : record.generation < h.queue.nextGeneration

structure Disciplined (h : BroadcastHistory) : Prop where
  kept : ∀ member record, h.queue.queued.get member = some record → h.Kept member record
  exhausted : ∀ member, h.queue.queued.get member = none → h.offered member = []

theorem Disciplined.keyed (hd : h.Disciplined) : h.queue.Keyed :=
  fun member record hget => ⟨(hd.kept member record hget).named, (hd.kept member record hget).size⟩

theorem offered_self {queue : BroadcastQueue} : (h.offer incoming queue).offered incoming.member =
    incoming :: h.offered incoming.member := Function.update_self ..

theorem offered_other {queue : BroadcastQueue} {member : JsString} (hmember : member ≠ incoming.member) :
    (h.offer incoming queue).offered member = h.offered member := Function.update_of_ne hmember ..

section

variable (hd : h.Disciplined)
include hd

theorem Disciplined.refused {current : QueuedBroadcast}
    (hcurrent : h.queue.queued.get incoming.member = some current)
    (hle : incoming.precedence ≤ current.update.precedence) :
    (h.offer incoming h.queue).Disciplined := by
  refine ⟨fun member record hget => ?_, fun member hnone => ?_⟩
  · have hkept := hd.kept member record hget
    by_cases hmember : member = incoming.member
    · subst hmember
      cases (hcurrent.symm.trans hget)
      refine { hkept with offered := ?_, greatest := ?_ }
      · rw [offered_self]; exact mem_cons_of_mem _ hkept.offered
      · rw [offered_self]; exact forall_mem_cons.mpr ⟨hle, hkept.greatest⟩
    · refine { hkept with offered := ?_, greatest := ?_ }
      · rw [offered_other hmember]; exact hkept.offered
      · rw [offered_other hmember]; exact hkept.greatest
  · have hmember : member ≠ incoming.member := by
      rintro rfl
      exact nomatch hnone.symm.trans hcurrent
    exact (offered_other hmember).trans (hd.exhausted member hnone)

theorem Disciplined.store {size count : ℕ} {priority : Bool}
    (hsize : membershipUpdateSize incoming = .ok size)
    (hle : ∀ current, h.queue.queued.get incoming.member = some current →
      current.update.precedence ≤ incoming.precedence) :
    (h.offer incoming (h.queue.store incoming size count priority)).Disciplined := by
  have hbudget : 0 < RETRANSMIT_MULTIPLIER * Nat.clog 10 (max 1 count + 1) :=
    Nat.mul_pos (by decide) (Nat.clog_pos (by decide) (by omega))
  refine ⟨fun member record hget => ?_, fun member hnone => ?_⟩
  · rw [BroadcastHistory.offer, get_store] at hget
    split_ifs at hget with hmember
    · subst hmember
      cases hget
      refine ⟨rfl, hsize, ?_, ?_, hbudget, le_rfl, Nat.lt_succ_self _⟩
      · rw [offered_self]; exact mem_cons_self ..
      · rw [offered_self]
        refine forall_mem_cons.mpr ⟨le_rfl, fun update hupdate => ?_⟩
        rcases hcurrent : h.queue.queued.get incoming.member with - | current
        · rw [hd.exhausted _ hcurrent] at hupdate
          cases hupdate
        · exact ((hd.kept _ _ hcurrent).greatest update hupdate).trans (hle current hcurrent)
    · have hkept := hd.kept member record hget
      refine { hkept with offered := ?_, greatest := ?_, generation := ?_ }
      · rw [offered_other hmember]; exact hkept.offered
      · rw [offered_other hmember]; exact hkept.greatest
      · exact hkept.generation.trans (Nat.lt_succ_self _)
  · rw [BroadcastHistory.offer, get_store] at hnone
    split_ifs at hnone with hmember
    exact (offered_other hmember).trans (hd.exhausted member hnone)

theorem Disciplined.offer {queue : BroadcastQueue}
    (hoffers : h.queue.Offers incoming queue) : (h.offer incoming queue).Disciplined := by
  rcases hoffers with ⟨rfl, current, hcurrent, hle⟩ | ⟨size, count, priority, hsize, hle, rfl⟩
  · exact hd.refused hcurrent hle
  · exact hd.store hsize hle

theorem Disciplined.call (event : BroadcastCall) : (h.call event).Disciplined := by
  cases event with
  | enqueue incoming count priority =>
    simp only [BroadcastHistory.call]
    split
    · exact hd.offer (offers_of_enqueue ‹_›)
    · exact hd
  | enqueueConfirmation incoming count =>
    simp only [BroadcastHistory.call]
    split
    · split_ifs with hsuspect
      · exact hd.offer (offers_of_confirmation hsuspect ‹_›)
      · exact hd
    · exact hd
  | pack byteBudget options =>
    simp only [BroadcastHistory.call]
    split
    · obtain ⟨included, -, rfl⟩ := pack_spec hd.keyed ‹_›
      exact ⟨fun member record hget => { hd.kept member record hget with }, hd.exhausted⟩
    · exact hd
  | acknowledge selection accepted =>
    obtain ⟨hgeneration, -, -, hworn⟩ := h.queue.acknowledge_spec selection accepted
    refine ⟨fun member record hget => ?_, fun member hnone => ?_⟩
    · obtain ⟨before, hbefore, hrecord, hle, hpos⟩ := hworn member record hget
      have hkept := hd.kept member before hbefore
      have hoffered : (h.call (.acknowledge selection accepted)).offered member = h.offered member := by
        simp only [BroadcastHistory.call] at hget ⊢
        simp [hget]
      refine ⟨?_, ?_, ?_, ?_, hpos hkept.left, ?_, ?_⟩
      · rw [hrecord]; exact hkept.named
      · rw [hrecord]; exact hkept.size
      · rw [hrecord, hoffered]; exact hkept.offered
      · rw [hrecord, hoffered]; exact hkept.greatest
      · rw [hrecord]; exact hle.trans hkept.within
      · rw [hrecord]; exact hkept.generation.trans_eq hgeneration.symm
    · simp only [BroadcastHistory.call] at hnone ⊢
      simp [hnone]

theorem Disciplined.run (events : List BroadcastCall) :
    (events.foldl BroadcastHistory.call h).Disciplined := by
  induction events generalizing h with
  | nil => exact hd
  | cons event events ih => exact ih (hd.call event)

end

/-! ### Late acknowledgements -/

/-- What is still true of a selection packed in `h`: its receipt is what it was, and the generations
    of then are the truths of then. -/
structure Since (h : BroadcastHistory) (selection : ℕ) (included : List IncludedQueuedRecord)
    (h' : BroadcastHistory) : Prop where
  selections : selection < h'.queue.selections
  receipt : ∀ list, h'.queue.receipts.get selection = some list → list = included
  generation : h.queue.nextGeneration ≤ h'.queue.nextGeneration
  aged : ∀ member record', h'.queue.queued.get member = some record' →
    record'.generation < h.queue.nextGeneration → ∃ record, h.queue.queued.get member = some record ∧
      record.update = record'.update ∧ record.generation = record'.generation

variable {selection : ℕ} {included : List IncludedQueuedRecord} {h' : BroadcastHistory}

theorem Since.offer (hs : Since h selection included h') {queue : BroadcastQueue}
    (hoffers : h'.queue.Offers incoming queue) :
    Since h selection included (h'.offer incoming queue) := by
  rcases hoffers with ⟨rfl, -⟩ | ⟨size, count, priority, -, -, rfl⟩
  · exact { hs with }
  · refine ⟨hs.selections, hs.receipt, hs.generation.trans (Nat.le_succ _), ?_⟩
    intro member record' hget hold
    rw [BroadcastHistory.offer, get_store] at hget
    split_ifs at hget with hmember
    · cases hget
      exact absurd hold hs.generation.not_gt
    · exact hs.aged member record' hget hold

theorem Since.call (hs : Since h selection included h') (hd : h'.Disciplined) (event : BroadcastCall) :
    Since h selection included (h'.call event) := by
  cases event with
  | enqueue incoming count priority =>
    simp only [BroadcastHistory.call]
    split
    · exact hs.offer (offers_of_enqueue ‹_›)
    · exact hs
  | enqueueConfirmation incoming count =>
    simp only [BroadcastHistory.call]
    split
    · split_ifs with hsuspect
      · exact hs.offer (offers_of_confirmation hsuspect ‹_›)
      · exact hs
    · exact hs
  | pack byteBudget options =>
    simp only [BroadcastHistory.call]
    split
    · obtain ⟨packed, -, rfl⟩ := pack_spec hd.keyed ‹_›
      refine ⟨hs.selections.trans (Nat.lt_succ_self _), fun list hlist => ?_, hs.generation, hs.aged⟩
      rw [OrderedMap.get_set, if_neg hs.selections.ne] at hlist
      exact hs.receipt list hlist
    · exact hs
  | acknowledge other accepted =>
    obtain ⟨hgeneration, hselections, hreceipts, hworn⟩ := h'.queue.acknowledge_spec other accepted
    refine ⟨hs.selections.trans_eq hselections.symm, fun list hlist => hs.receipt list
      (hreceipts selection list hlist), hs.generation.trans_eq hgeneration.symm, ?_⟩
    intro member record' hget hold
    obtain ⟨between, hbetween, hrecord, -⟩ := hworn member record' hget
    rw [hrecord] at hold ⊢
    exact hs.aged member between hbetween hold

theorem Since.run : ∀ {events : List BroadcastCall} {h' : BroadcastHistory},
    Since h selection included h' → h'.Disciplined →
      Since h selection included (events.foldl BroadcastHistory.call h')
  | [], _, hs, _ => hs
  | event :: _, _, hs, hd => (hs.call hd event).run (hd.call event)

/-- After every sequence of calls each member has at most one queued update, the greatest offered
    since it was last exhausted, with at least one send left and no more than at first. Every pack
    stays within its budgets with each member once, and its acknowledgement, however late, charges
    only what was queued when it was packed. -/
theorem broadcast_discipline (events : List BroadcastCall) :
    let h := events.foldl call new
    (h.queue.queued.values.map (fun record => record.update.member)).Nodup ∧
    (∀ member record, h.queue.queued.get member = some record → record.update.member = member ∧
      record.update ∈ h.offered member ∧
      (∀ update ∈ h.offered member, compareMembershipUpdates update record.update ≤ 0) ∧
      1 ≤ record.remaining ∧ record.remaining ≤ record.initialRemaining) ∧
    ∀ byteBudget options selection queue,
      h.queue.pack byteBudget options = .ok (selection, queue) →
        (selection.updates.map MembershipUpdate.member).Nodup ∧
        selection.updates.length ≤ options.maxRecords ∧ selection.bytes ≤ byteBudget ∧
        selection.bytes = (selection.updates.map (fun update =>
          (membershipUpdateSize update).toOption.getD 0 + options.perRecordOverhead)).sum ∧
        ∀ (later : List BroadcastCall) member record,
          let h' := later.foldl call { h with queue }
          h'.queue.queued.get member = some record →
          (h'.queue.acknowledge h.queue.selections true).2.queued.get member ≠ some record →
            ∃ packed, h.queue.queued.get member = some packed ∧ packed.update = record.update ∧
              packed.generation = record.generation := by
  intro h
  have hnew : new.Disciplined := ⟨fun _ _ hget => absurd hget (by simp [new, empty]), fun _ _ => rfl⟩
  have hd : h.Disciplined := hnew.run events
  refine ⟨hd.keyed.nodup, fun member record hget => ?_, ?_⟩
  · have hkept := hd.kept member record hget
    exact ⟨hkept.named, hkept.offered, fun update hupdate =>
      compareMembershipUpdates_le.mpr (hkept.greatest update hupdate), hkept.left, hkept.within⟩
  · intro byteBudget options selection queue hpack
    obtain ⟨included, hpacked, rfl⟩ := pack_spec hd.keyed hpack
    refine ⟨hpacked.distinct, hpacked.records, hpacked.budget, hpacked.bytes, ?_⟩
    intro later member record h' hget hcharged
    have hs : Since h h.queue.selections included h' := by
      refine Since.run ⟨Nat.lt_succ_self _, fun list hlist => ?_, le_rfl, fun member record hget _ =>
        ⟨record, hget, rfl, rfl⟩⟩ ⟨fun member record hget => { hd.kept member record hget with },
        hd.exhausted⟩
      rw [OrderedMap.get_set, if_pos rfl] at hlist
      exact (Option.some.inj hlist).symm
    -- a record that changed was charged for one of the included generations
    by_contra hnone
    refine hcharged ?_
    unfold acknowledge
    split
    · exact hget
    · rename_i list hlist
      obtain rfl := hs.receipt list hlist
      refine foldl_charge_of_other (q := { h'.queue with receipts := _ }) hget ?_
      rintro i hi rfl hgeneration
      obtain ⟨packed, hqueued, hsame⟩ := hpacked.queued i hi
      refine hnone (hs.aged i.member record hget ?_)
      rw [← hgeneration, ← hsame]
      exact (hd.kept _ _ hqueued).generation

end BroadcastHistory

end Nodeakt.Membership
