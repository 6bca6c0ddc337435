import Nodeakt.Schemes.OrderedMap
import Nodeakt.Schemes.Run
import Nodeakt.Membership.WireRoundTrip

/-! The membership table (`membership/view.ts`).

    A view keeps one record per member, the latest truth it accepted by incarnation and then state,
    and with a suspect record the set of its accusers. `precedence` is that order as a linear one;
    `apply_cases` and `applyLocal_cases` say everything an update can do to a view. -/

namespace Nodeakt.Membership
open Schemes OrderedMap

variable {left right : MembershipUpdate} {result : ApplyResult}

/-- Milliseconds of the local clock. -/
abbrev Millis := ℚ

/-- How long dead and left records are retained. -/
def TERMINAL_RETENTION_MS : Millis := 30000

/-- Largest incarnation of the wire. -/
def MAX_INCARNATION : ℕ := 0xffffffff

/-- A truth with the time this view accepted it. -/
structure MemberRecord where
  update : MembershipUpdate
  appliedAt : Millis
  deriving DecidableEq

/-- A retained record with the accusers of its suspect incarnation. -/
structure StoredRecord extends MemberRecord where
  confirmations : List JsString
  deriving DecidableEq

/-- Observable transitions. -/
inductive MembershipEventType where | joined | left | dead | updated
  deriving DecidableEq

/-- One observable transition. -/
structure MembershipEvent where
  type : MembershipEventType
  member : MemberRecord
  previous : Option MemberRecord
  deriving DecidableEq

/-- What processing one update did. -/
inductive ApplyResult where
  | applied (record : MemberRecord) (event : Option MembershipEvent)
  | confirmed (member : JsString) (incarnation : ℕ) (reporter : JsString) (confirmationCount : ℕ)
  | refuted (accusation : MembershipUpdate) (record : MemberRecord) (event : Option MembershipEvent)
  | ignored
  deriving DecidableEq

/-- Why an update could not be processed. -/
inductive ViewError where
  | incarnationExhausted (incarnation : ℕ)
  | membershipCapacity
  deriving DecidableEq

/-- Incarnation first, then the state; positive when `left` supersedes `right`. -/
def compareMembershipUpdates (left right : MembershipUpdate) : ℤ :=
  if left.incarnation ≠ right.incarnation then
    if right.incarnation < left.incarnation then 1 else -1
  else if left.state = right.state then 0
  else if right.state.toByte < left.state.toByte then 1 else -1

def isTerminalState (state : MemberState) : Bool := state = .dead ∨ state = .left

def isProbeEligibleState (state : MemberState) : Bool := state = .alive ∨ state = .suspect

/-- Token for the removal of one terminal record. -/
structure ReapOperation where
  member : JsString
  state : MemberState
  incarnation : ℕ
  dueAt : Millis
  terminal : isTerminalState state = true
  deriving DecidableEq

/-- Whether a record counts as alive or suspect. -/
def StoredRecord.eligible (record : StoredRecord) : Bool := isProbeEligibleState record.update.state

/-- The observable transition of a replacement. -/
def eventType (previous : Option StoredRecord) (next : MembershipUpdate) :
    Option MembershipEventType :=
  if next.state = .alive then
    match previous with
    | none => some .joined
    | some previous =>
      if isTerminalState previous.update.state then some .joined
      else if previous.update.state = .alive ∧ previous.update.metadata ≠ next.metadata then
        some .updated
      else none
  else if isTerminalState next.state then
    match previous with
    | none => none
    | some previous =>
      if isTerminalState previous.update.state then none
      else if next.state = .dead then some .dead else some .left
  else none

/-- The table of one node: records under their member's name, and their number that is alive or
    suspect. -/
structure MembershipView where
  selfName : JsString
  records : OrderedMap JsString StoredRecord
  lastAppliedAt : Option Millis
  eligibleCount : ℤ
  keyed : ∀ name record, records.get name = some record → record.update.member = name
  counted : eligibleCount = records.count StoredRecord.eligible

namespace MembershipView

/-- A view that knows nobody. -/
def create (selfName : JsString) : MembershipView :=
  ⟨selfName, OrderedMap.empty, none, 0, nofun, rfl⟩

section

variable (view : MembershipView)

/-- Number of retained members. -/
def size : ℕ := view.records.keys.length

/-- The record of a member. -/
def get (name : JsString) : Option StoredRecord := view.records.get name

/-- The retained records in insertion order. -/
def members : List StoredRecord := view.records.values

/-- Number of alive and suspect records. -/
def aliveOrSuspectCount : ℤ := view.eligibleCount

/-- The accusers of a suspect member. -/
def confirmationReporters (member : JsString) : List JsString :=
  match view.get member with
  | some record => if record.update.state = .suspect then record.confirmations else []
  | none => []

/-- Whether an update is an accusation of this node that `apply` answers with a defense. -/
def wouldRefute (update : MembershipUpdate) : Bool :=
  if update.member ≠ view.selfName then false
  else
    match view.get update.member with
    | none => update.state ≠ .alive
    | some current =>
      if update.state ≠ .alive then current.update.incarnation ≤ update.incarnation
      else if current.update.state ≠ .alive then false
      else
        current.update.incarnation < update.incarnation ∨
          update.incarnation = current.update.incarnation ∧
            update.metadata ≠ current.update.metadata

/-- How storing `next` changes the number of alive and suspect records. -/
def eligibleChange (previous : Option StoredRecord) (next : MembershipUpdate) : ℤ :=
  if previous.any StoredRecord.eligible ≠ isProbeEligibleState next.state then
    if isProbeEligibleState next.state then 1 else -1
  else 0

/-- The record a replacement stores. -/
def recordOf (incoming : MembershipUpdate) (now : Millis) : StoredRecord where
  update := incoming
  appliedAt := match view.lastAppliedAt with
    | none => now
    | some last => max now last
  confirmations := if incoming.state = .suspect then [incoming.reporter] else []

/-- Stores a record under its member's name. -/
def store (incoming : MembershipUpdate) (now : Millis) : MembershipView where
  selfName := view.selfName
  records := view.records.set incoming.member (view.recordOf incoming now)
  lastAppliedAt := some (view.recordOf incoming now).appliedAt
  eligibleCount := view.eligibleCount + eligibleChange (view.get incoming.member) incoming
  keyed := by
    intro name record hget
    rw [OrderedMap.get_set] at hget
    split_ifs at hget with hname
    · rw [← Option.some.inj hget, hname]
      rfl
    · exact view.keyed name record hget
  counted := by
    have hset := view.records.count_set StoredRecord.eligible incoming.member
      (view.recordOf incoming now)
    have hnext : (view.recordOf incoming now).eligible = isProbeEligibleState incoming.state := rfl
    rw [hnext] at hset
    rw [view.counted, eligibleChange, get]
    generalize (view.records.get incoming.member).any StoredRecord.eligible = before at hset ⊢
    generalize isProbeEligibleState incoming.state = after at hset ⊢
    cases before <;> cases after <;> simp at hset ⊢ <;> omega

/-- Replaces the retained truth, within the capacity of the table. -/
def replace (incoming : MembershipUpdate) (now : Millis) :
    Except ViewError ((MemberRecord × Option MembershipEvent) × MembershipView) :=
  let previous := view.get incoming.member
  if previous = none ∧ MAX_MEMBERS ≤ view.size then .error .membershipCapacity
  else
    let record := (view.recordOf incoming now).toMemberRecord
    let event := (eventType previous incoming).map (fun type =>
      ⟨type, record, previous.map StoredRecord.toMemberRecord⟩)
    .ok ((record, event), view.store incoming now)

/-- Adds an accuser to a retained record. -/
def confirm (member : JsString) (current : StoredRecord)
    (hget : view.get member = some current) (reporter : JsString) : MembershipView where
  selfName := view.selfName
  records := view.records.set member
    { current with confirmations := current.confirmations ++ [reporter] }
  lastAppliedAt := view.lastAppliedAt
  eligibleCount := view.eligibleCount
  keyed := by
    intro name record hrecord
    rw [OrderedMap.get_set] at hrecord
    split_ifs at hrecord with hname
    · rw [← Option.some.inj hrecord, hname]
      exact view.keyed member current hget
    · exact view.keyed name record hrecord
  counted := by
    have hset := view.records.count_set StoredRecord.eligible member
      { current with confirmations := current.confirmations ++ [reporter] }
    rw [show view.records.get member = some current from hget, Option.any_some] at hset
    rw [view.counted]
    exact_mod_cast (Nat.add_right_cancel hset).symm

/-- Records a further accuser of the suspect incarnation, or ignores the update. -/
def confirmationOrIgnored (incoming : MembershipUpdate)
    (current : StoredRecord) (hget : view.get incoming.member = some current) :
    ApplyResult × MembershipView :=
  if incoming.state ≠ .suspect ∨ current.update.state ≠ .suspect ∨
      incoming.incarnation ≠ current.update.incarnation ∨
      incoming.reporter ∈ current.confirmations then
    (.ignored, view)
  else
    (.confirmed incoming.member incoming.incarnation incoming.reporter
      current.confirmations.length, view.confirm incoming.member current hget incoming.reporter)

/-- The alive record that answers an accusation of this node. -/
def defense (accusation : MembershipUpdate) (stateChangeTime : ℕ) :
    MembershipUpdate where
  state := .alive
  selfOriginated := true
  incarnation := max accusation.incarnation
    (((view.get accusation.member).map (fun current => current.update.incarnation)).getD 0) + 1
  stateChangeTime := stateChangeTime
  member := view.selfName
  reporter := []
  metadata := match view.get accusation.member with
    | some current => if current.update.state = .alive then current.update.metadata else []
    | none => []

/-- Stores a defense against an accusation. -/
def refute (accusation : MembershipUpdate) (now : Millis)
    (stateChangeTime : ℕ) : Except ViewError (ApplyResult × MembershipView) :=
  let base := max accusation.incarnation
    (((view.get accusation.member).map (fun current => current.update.incarnation)).getD 0)
  if MAX_INCARNATION ≤ base then .error (.incarnationExhausted base)
  else
    match view.replace (view.defense accusation stateChangeTime) now with
    | .error e => .error e
    | .ok ((record, event), view') => .ok (.refuted accusation record event, view')

/-- Replaces the retained truth with an update that supersedes it, and looks for a confirmation in
    one that does not. -/
def supersedeOrConfirm (incoming : MembershipUpdate) (now : Millis) :
    Except ViewError (ApplyResult × MembershipView) :=
  match hget : view.get incoming.member with
  | some current =>
    if compareMembershipUpdates incoming current.update ≤ 0 then
      .ok (view.confirmationOrIgnored incoming current hget)
    else
      match view.replace incoming now with
      | .error e => .error e
      | .ok ((record, event), view') => .ok (.applied record event, view')
  | none =>
    match view.replace incoming now with
    | .error e => .error e
    | .ok ((record, event), view') => .ok (.applied record event, view')

/-- Applies a remotely observed update. -/
def apply (incoming : MembershipUpdate) (now : Millis)
    (selfStateChangeTime : ℕ) : Except ViewError (ApplyResult × MembershipView) :=
  if view.wouldRefute incoming then view.refute incoming now selfStateChangeTime
  else if view.get incoming.member = none ∧ isTerminalState incoming.state then .ok (.ignored, view)
  else view.supersedeOrConfirm incoming now

/-- Applies locally originated truth, which is never an accusation. -/
def applyLocal (update : MembershipUpdate) (now : Millis) :
    Except ViewError (ApplyResult × MembershipView) := view.supersedeOrConfirm update now

/-- The removal token of a terminal record. -/
def reapOperation (name : JsString) : Option ReapOperation :=
  match view.get name with
  | some record =>
    if h : isTerminalState record.update.state = true then
      some ⟨record.update.member, record.update.state, record.update.incarnation,
        record.appliedAt + TERMINAL_RETENTION_MS, h⟩
    else none
  | none => none

/-- A token describes the retained record. -/
def Reapable (operation : ReapOperation) : Prop :=
  ∃ current ∈ view.get operation.member, current.update.state = operation.state ∧
    current.update.incarnation = operation.incarnation ∧
    current.appliedAt + TERMINAL_RETENTION_MS = operation.dueAt

instance (operation : ReapOperation) : Decidable (view.Reapable operation) :=
  inferInstanceAs (Decidable (∃ current ∈ view.get operation.member, _))

/-- Removes a record that is terminal. -/
def remove (name : JsString)
    (hterminal : (view.records.get name).any StoredRecord.eligible = false) : MembershipView where
  selfName := view.selfName
  records := view.records.delete name
  lastAppliedAt := view.lastAppliedAt
  eligibleCount := view.eligibleCount
  keyed := by
    intro other record hget
    rw [OrderedMap.get_delete] at hget
    split at hget
    · cases hget
    · exact view.keyed other record hget
  counted := by rw [view.counted, OrderedMap.count_delete _ _ _ hterminal]

end

theorem isProbeEligible_of_terminal {state : MemberState} (h : isTerminalState state = true) :
    isProbeEligibleState state = false := by
  cases state <;> simp_all [isTerminalState, isProbeEligibleState]

theorem not_eligible_of_reapable {view : MembershipView} {operation : ReapOperation}
    (h : view.Reapable operation) :
    (view.records.get operation.member).any StoredRecord.eligible = false := by
  obtain ⟨current, hget, hstate, -⟩ := h
  rw [show view.records.get operation.member = some current from hget, Option.any_some,
    StoredRecord.eligible, hstate]
  exact isProbeEligible_of_terminal operation.terminal

/-- Executes a removal if the exact terminal truth is still retained. -/
def reap (view : MembershipView) (operation : ReapOperation) : Bool × MembershipView :=
  if h : view.Reapable operation then
    (true, view.remove operation.member (not_eligible_of_reapable h))
  else (false, view)

end MembershipView

/-! ### The order of truths -/

/-- Incarnation first, then the state's byte. -/
def MembershipUpdate.precedence (update : MembershipUpdate) : ℕ ×ₗ ℕ :=
  toLex (update.incarnation, update.state.toByte)

theorem toByte_injective : Function.Injective MemberState.toByte := by
  intro a b h
  cases a <;> cases b <;> first | rfl | exact absurd h (by decide)

theorem precedence_eq_iff {a b : MembershipUpdate} :
    a.precedence = b.precedence ↔ a.incarnation = b.incarnation ∧ a.state = b.state := by
  rw [MembershipUpdate.precedence, MembershipUpdate.precedence, toLex_inj, Prod.mk.injEq,
    toByte_injective.eq_iff]

theorem precedence_lt_iff {a b : MembershipUpdate} :
    a.precedence < b.precedence ↔ a.incarnation < b.incarnation ∨
      a.incarnation = b.incarnation ∧ a.state.toByte < b.state.toByte :=
  Prod.Lex.toLex_lt_toLex

/-- The source's comparison is positive exactly when `left` comes later in the order. -/
theorem compareMembershipUpdates_pos :
    0 < compareMembershipUpdates left right ↔ right.precedence < left.precedence := by
  rw [precedence_lt_iff, compareMembershipUpdates]
  by_cases hinc : left.incarnation = right.incarnation
  · rw [if_neg (not_not.mpr hinc)]
    by_cases hstate : left.state = right.state
    · simp [hinc, hstate]
    · rw [if_neg hstate]
      split <;> simp_all
  · rw [if_pos hinc]
    split
    · simp_all
    · simp_all
      omega

theorem compareMembershipUpdates_le :
    compareMembershipUpdates left right ≤ 0 ↔ left.precedence ≤ right.precedence := by
  rw [← not_lt, compareMembershipUpdates_pos, not_lt]

theorem precedence_eq_of_compare (h : compareMembershipUpdates left right = 0) :
    left.precedence = right.precedence := by
  have hle := compareMembershipUpdates_le.mp h.le
  refine hle.eq_of_not_lt fun hlt => ?_
  unfold compareMembershipUpdates at h
  split at h
  · split at h <;> cases h
  · rename_i hinc
    split at h
    · rename_i hstate
      exact hlt.ne (precedence_eq_iff.mpr ⟨not_not.mp hinc, hstate⟩)
    · split at h <;> cases h

/-! ### What an update does -/

namespace MembershipView

variable {view view' : MembershipView} {incoming : MembershipUpdate} {now : Millis}

theorem get_store (view : MembershipView) (incoming : MembershipUpdate) (now : Millis)
    (name : JsString) : (view.store incoming now).get name =
      if name = incoming.member then some (view.recordOf incoming now) else view.get name :=
  get_set ..

theorem get_confirm {member : JsString} {current : StoredRecord}
    (hget : view.get member = some current) (reporter name : JsString) :
    (view.confirm member current hget reporter).get name = if name = member then
        some { current with confirmations := current.confirmations ++ [reporter] }
      else view.get name := get_set ..

theorem get_reap (view : MembershipView) (operation : ReapOperation) (name : JsString) :
    (view.reap operation).2.get name =
      if view.Reapable operation ∧ name = operation.member then none else view.get name := by
  rw [reap]
  split
  · rename_i h
    rw [show (view.remove operation.member _).get name = _ from get_delete ..]
    by_cases hname : name = operation.member
    · rw [if_pos hname, if_pos ⟨h, hname⟩]
    · rw [if_neg hname, if_neg (fun hboth => hname hboth.2)]
      rfl
  · rename_i h
    rw [if_neg (fun hboth => h hboth.1)]

theorem member_of_get {name : JsString} {record : StoredRecord} (h : view.get name = some record) :
    record.update.member = name := view.keyed name record h

/-- The event a replacement emits. -/
def transition (view : MembershipView) (incoming : MembershipUpdate) (now : Millis) :
    Option MembershipEvent :=
  (eventType (view.get incoming.member) incoming).map (fun type =>
    ⟨type, (view.recordOf incoming now).toMemberRecord,
      (view.get incoming.member).map StoredRecord.toMemberRecord⟩)

/-- The update supersedes what is retained of its member, if anything. -/
def Supersedes (view : MembershipView) (incoming : MembershipUpdate) : Prop :=
  ∀ current ∈ view.get incoming.member, current.update.precedence < incoming.precedence

/-- The update adds an accuser to a suspect record of its incarnation. -/
structure Confirms (incoming : MembershipUpdate) (current : StoredRecord) : Prop where
  accusing : incoming.state = .suspect
  retained : current.update.state = .suspect
  incarnation : incoming.incarnation = current.update.incarnation
  reporter : incoming.reporter ∉ current.confirmations

theorem replace_ok {record : MemberRecord} {event : Option MembershipEvent}
    (h : view.replace incoming now = .ok ((record, event), view')) :
    record = (view.recordOf incoming now).toMemberRecord ∧ event = view.transition incoming now ∧
      view' = view.store incoming now := by
  unfold replace at h
  simp only at h
  split at h
  · cases h
  · simp only [Except.ok.injEq, Prod.mk.injEq] at h
    exact ⟨h.1.1.symm, h.1.2.symm, h.2.symm⟩

/-- Everything truth that is no accusation can do. -/
theorem applyLocal_cases (h : view.applyLocal incoming now = .ok (result, view')) :
    (result = .ignored ∧ view' = view) ∨
    (∃ current, ∃ hget : view.get incoming.member = some current, Confirms incoming current ∧
      result = .confirmed incoming.member incoming.incarnation incoming.reporter
        current.confirmations.length ∧
      view' = view.confirm incoming.member current hget incoming.reporter) ∨
    (view.Supersedes incoming ∧ result = .applied (view.recordOf incoming now).toMemberRecord
        (view.transition incoming now) ∧
      view' = view.store incoming now) := by
  unfold applyLocal supersedeOrConfirm at h
  split at h
  · rename_i current hget
    split_ifs at h with hcompare
    · unfold confirmationOrIgnored at h
      split_ifs at h with hconfirms
      · cases h
        exact Or.inl ⟨rfl, rfl⟩
      · cases h
        simp only [not_or, not_not] at hconfirms
        obtain ⟨hincoming, hretained, hinc, hreporter⟩ := hconfirms
        exact Or.inr (Or.inl ⟨current, hget, ⟨hincoming, hretained, hinc, hreporter⟩, rfl, rfl⟩)
    · split at h
      · cases h
      · rename_i record event after hreplace
        cases h
        obtain ⟨rfl, rfl, rfl⟩ := replace_ok hreplace
        refine Or.inr (Or.inr ⟨fun other hother => ?_, rfl, rfl⟩)
        cases (hget.symm.trans hother)
        exact not_le.mp (mt compareMembershipUpdates_le.mpr hcompare)
  · rename_i hget
    split at h
    · cases h
    · rename_i record event after hreplace
      cases h
      obtain ⟨rfl, rfl, rfl⟩ := replace_ok hreplace
      refine Or.inr (Or.inr ⟨fun other hother => ?_, rfl, rfl⟩)
      cases hget.symm.trans hother

/-- Everything a remote update can do: as local truth, unless it is terminal and about a stranger,
    or it is answered with a defense. -/
theorem apply_cases {time : ℕ} (h : view.apply incoming now time = .ok (result, view')) :
    (view.wouldRefute incoming = false ∧ view.applyLocal incoming now = .ok (result, view')) ∨
    (result = .ignored ∧ view' = view) ∨
    (view.wouldRefute incoming = true ∧ (view.defense incoming time).incarnation ≤ MAX_INCARNATION ∧
      result = .refuted incoming (view.recordOf (view.defense incoming time) now).toMemberRecord
        (view.transition (view.defense incoming time) now) ∧
      view' = view.store (view.defense incoming time) now) := by
  unfold apply at h
  split at h
  · rename_i hrefute
    unfold refute at h
    simp only at h
    split at h
    · cases h
    · rename_i hbase
      split at h
      · cases h
      · rename_i record event after hreplace
        cases h
        obtain ⟨rfl, rfl, rfl⟩ := replace_ok hreplace
        exact Or.inr (Or.inr ⟨hrefute, not_le.mp hbase, rfl, rfl⟩)
  · rename_i hrefute
    split at h
    · cases h
      exact Or.inr (Or.inl ⟨rfl, rfl⟩)
    · exact Or.inl ⟨Bool.not_eq_true _ ▸ hrefute, h⟩

/-- Only updates about this node are accusations. -/
theorem member_of_wouldRefute (h : view.wouldRefute incoming = true) :
    incoming.member = view.selfName := by
  unfold wouldRefute at h
  split at h
  · cases h
  · rename_i hmember
    exact not_not.mp hmember

/-- Truth that supersedes a retained record is accepted. -/
theorem applyLocal_of_supersedes {current : StoredRecord}
    (hget : view.get incoming.member = some current)
    (h : current.update.precedence < incoming.precedence) :
    view.applyLocal incoming now = .ok (.applied (view.recordOf incoming now).toMemberRecord
      (view.transition incoming now), view.store incoming now) := by
  unfold applyLocal supersedeOrConfirm
  split
  · rename_i other hother
    cases (hget.symm.trans hother)
    rw [if_neg (fun hle => absurd h (not_lt.mpr (compareMembershipUpdates_le.mp hle))), replace,
      if_neg (by simp [hget])]
    rfl
  · rename_i hnone
    cases hget.symm.trans hnone

/-! ### Capacity -/

theorem size_store (view : MembershipView) (incoming : MembershipUpdate) (now : Millis) :
    (view.store incoming now).size =
      if view.get incoming.member = none then view.size + 1 else view.size := by
  have hset := view.records.count_set (fun _ => true) incoming.member (view.recordOf incoming now)
  rw [size, size, length_keys, length_keys, store]
  by_cases hnone : view.get incoming.member = none
  · rw [if_pos hnone]
    rw [show view.records.get incoming.member = none from hnone] at hset
    simpa using hset
  · rw [if_neg hnone]
    obtain ⟨current, hget⟩ := Option.ne_none_iff_exists'.mp hnone
    rw [show view.records.get incoming.member = some current from hget] at hset
    simpa using hset

theorem size_confirm {member : JsString} {current : StoredRecord}
    (hget : view.get member = some current) (reporter : JsString) :
    (view.confirm member current hget reporter).size = view.size := by
  have hset := view.records.count_set (fun _ => true) member
    { current with confirmations := current.confirmations ++ [reporter] }
  rw [size, size, length_keys, length_keys, confirm]
  rw [show view.records.get member = some current from hget] at hset
  simpa using hset

theorem size_reap_le (view : MembershipView) (operation : ReapOperation) :
    (view.reap operation).2.size ≤ view.size := by
  rw [reap]
  split
  · exact length_keys_delete_le view.records operation.member
  · exact le_rfl

/-- A replacement stays within the capacity. -/
theorem replace_size_le {accepted : MemberRecord × Option MembershipEvent}
    (h : view.replace incoming now = .ok (accepted, view')) (hsize : view.size ≤ MAX_MEMBERS) :
    view'.size ≤ MAX_MEMBERS := by
  obtain ⟨-, -, rfl⟩ := replace_ok h
  rw [size_store]
  split_ifs with hnone
  · unfold replace at h
    simp only at h
    split at h
    · cases h
    · rename_i hroom
      have : ¬ MAX_MEMBERS ≤ view.size := fun hle => hroom ⟨hnone, hle⟩
      omega
  · exact hsize

theorem applyLocal_size_le (h : view.applyLocal incoming now = .ok (result, view'))
    (hsize : view.size ≤ MAX_MEMBERS) :
    view'.size ≤ MAX_MEMBERS := by
  unfold applyLocal supersedeOrConfirm at h
  split at h
  · rename_i current hget
    split at h
    · unfold confirmationOrIgnored at h
      split at h
      · cases h
        exact hsize
      · cases h
        rw [size_confirm]
        exact hsize
    · split at h
      · cases h
      · rename_i hreplace
        cases h
        exact replace_size_le hreplace hsize
  · split at h
    · cases h
    · rename_i hreplace
      cases h
      exact replace_size_le hreplace hsize

theorem apply_size_le {time : ℕ} (h : view.apply incoming now time = .ok (result, view'))
    (hsize : view.size ≤ MAX_MEMBERS) :
    view'.size ≤ MAX_MEMBERS := by
  unfold apply at h
  split at h
  · unfold refute at h
    simp only at h
    split at h
    · cases h
    · split at h
      · cases h
      · rename_i hreplace
        cases h
        exact replace_size_le hreplace hsize
  · split at h
    · cases h
      exact hsize
    · exact applyLocal_size_le h hsize

theorem aliveOrSuspectCount_nonneg (view : MembershipView) : 0 ≤ view.aliveOrSuspectCount := by
  rw [aliveOrSuspectCount, view.counted]
  exact Int.natCast_nonneg _

theorem aliveOrSuspectCount_le (view : MembershipView) :
    view.aliveOrSuspectCount ≤ (view.size : ℤ) := by
  rw [aliveOrSuspectCount, view.counted]
  exact_mod_cast view.records.count_le_length_keys StoredRecord.eligible

end MembershipView

end Nodeakt.Membership
