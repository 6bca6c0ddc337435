import Nodeakt.Membership.EventStream

/-! The store's view of the membership (`clustering.view.ts`, `clustering.metadata.ts`).

    The store names a member by the data address in its metadata, and is meant to keep a member
    through a transient suspicion. A suspect record carries no metadata, and the table stores it as
    it came, so the member has no address while it is suspect.
    `suspect_listed_iff`: its fields are listed only if another member advertises the same. -/

namespace Nodeakt.Clustering
open Schemes Nodeakt.Membership

/-- The clustering fields in a member's metadata. -/
structure NodeMetadata where
  startedAt : ℕ
  ready : Bool
  draining : Bool
  address : JsString
  deriving DecidableEq

/-- One present member as the store sees it. -/
structure ClusterMember where
  name : JsString
  startedAt : ℕ
  ready : Bool
  draining : Bool
  deriving DecidableEq

/-- Bytes before the address. -/
def ADDRESS_OFFSET : ℕ := 12

/-- What an undecodable record maps to. -/
def UNDECODABLE : NodeMetadata := ⟨2 ^ 53 - 1, false, false, []⟩

/-- `Number` of an unsigned 64-bit integer: the nearest double, ties to even. -/
def toNumber (n : ℕ) : ℕ := if n < 2 ^ 53 then n else
    let shift := n.log2 - 52
    let quotient := n / 2 ^ shift
    let remainder := n % 2 ^ shift
    let half := 2 ^ (shift - 1)
    if half < remainder ∨ remainder = half ∧ quotient % 2 = 1 then (quotient + 1) * 2 ^ shift
    else quotient * 2 ^ shift

/-- Decodes the clustering fields; metadata that is too short has no address. -/
def decodeNodeMetadata (bytes : Bytes) : NodeMetadata :=
  let addressLength := fromBigEndian ((bytes.drop 10).take 2)
  if bytes.length < ADDRESS_OFFSET then UNDECODABLE
  else if bytes.length < ADDRESS_OFFSET + addressLength then UNDECODABLE
  else
    ⟨toNumber (fromBigEndian (bytes.take 8)), bytes.getD 8 0 ≠ 0, bytes.getD 9 0 ≠ 0,
      decodeTolerant ((bytes.drop ADDRESS_OFFSET).take addressLength)⟩

/-- Names a member by its data address. -/
def NodeMetadata.toMember (metadata : NodeMetadata) : ClusterMember :=
  ⟨metadata.address, metadata.startedAt, metadata.ready, metadata.draining⟩

/-- Oldest first, ties by name. -/
def compareByAgeThenName (left right : ClusterMember) : ℤ :=
  if left.startedAt ≠ right.startedAt then left.startedAt - right.startedAt
  else if left.name < right.name then -1 else 1

/-- The member of one record, if it is present and has an address. -/
def presentMember (record : StoredRecord) : Option ClusterMember :=
  if record.update.state ≠ .alive ∧ record.update.state ≠ .suspect then none
  else
    let metadata := decodeNodeMetadata record.update.metadata
    if metadata.address.length = 0 then none else some metadata.toMember

/-- The present members that carry a data address, oldest first. -/
def toClusterMembers (records : List StoredRecord) : List ClusterMember :=
  (records.filterMap presentMember).mergeSort
    (fun left right => compareByAgeThenName left right ≤ 0)

theorem toMember_injective : Function.Injective NodeMetadata.toMember := by
  rintro ⟨startedAt, ready, draining, address⟩ ⟨startedAt', ready', draining', address'⟩ h
  simp only [NodeMetadata.toMember, ClusterMember.mk.injEq] at h
  obtain ⟨rfl, rfl, rfl, rfl⟩ := h
  rfl

theorem presentMember_eq_some {record : StoredRecord} {metadata : NodeMetadata} :
    presentMember record = some metadata.toMember ↔ record.eligible = true ∧
      metadata.address ≠ [] ∧ decodeNodeMetadata record.update.metadata = metadata := by
  have heligible : (record.update.state ≠ .alive ∧ record.update.state ≠ .suspect) ↔
      record.eligible = false := by
    rw [StoredRecord.eligible]
    cases record.update.state <;> simp [isProbeEligibleState]
  simp only [presentMember, heligible, List.length_eq_zero_iff]
  cases record.eligible with
  | false => simp
  | true =>
    simp only [Bool.true_eq_false, if_false, true_and]
    split_ifs with hempty
    · exact ⟨fun h => (by cases h), fun h => absurd (h.2 ▸ hempty) h.1⟩
    · constructor
      · intro h
        have hsame := toMember_injective (Option.some.inj h)
        exact ⟨hsame ▸ hempty, hsame⟩
      · rintro ⟨-, rfl⟩
        rfl

/-! ### Who carries metadata -/

/-- The update of an event, if it has one, passes the checks of the wire. -/
def ValidEvent : ViewEvent → Prop
  | .apply incoming _ _ => incoming.Valid
  | .applyLocal update _ => update.Valid
  | .reap _ => True

instance : ∀ event, Decidable (ValidEvent event)
  | .apply incoming _ _ => inferInstanceAs (Decidable incoming.Valid)
  | .applyLocal update _ => inferInstanceAs (Decidable update.Valid)
  | .reap _ => isTrue trivial

/-- Only alive records carry metadata. -/
def CarriedByAlive (view : MembershipView) : Prop :=
  ∀ name record, view.get name = some record → record.update.metadata ≠ [] →
    record.update.state = .alive

theorem CarriedByAlive.store {view : MembershipView} {next : MembershipUpdate} {now : Millis}
    (h : CarriedByAlive view) (hnext : next.metadata ≠ [] → next.state = .alive) :
    CarriedByAlive (view.store next now) := by
  intro name record hget hmeta
  rw [MembershipView.get_store] at hget
  split at hget
  · cases hget
    exact hnext hmeta
  · exact h name record hget hmeta

theorem CarriedByAlive.applyLocal {view view' : MembershipView} {update : MembershipUpdate}
    {now : Millis} {result : ApplyResult} (h : CarriedByAlive view) (hvalid : update.Valid)
    (hresult : view.applyLocal update now = .ok (result, view')) : CarriedByAlive view' := by
  rcases MembershipView.applyLocal_cases hresult with ⟨-, rfl⟩ | ⟨current, hget, -, -, rfl⟩ |
    ⟨-, -, rfl⟩
  · exact h
  · intro name record hrecord hmeta
    rw [MembershipView.get_confirm] at hrecord
    split at hrecord
    · cases hrecord
      exact h _ current hget hmeta
    · exact h name record hrecord hmeta
  · exact h.store hvalid.carried

/-- A step keeps it: a stored update passed the checks of the wire, and a refutation is alive. -/
theorem CarriedByAlive.step {world world' : Recorded} {event : ViewEvent}
    (h : CarriedByAlive world.view) (hvalid : ValidEvent event)
    (hstep : world.step event = some world') : CarriedByAlive world'.view := by
  cases event with
  | apply incoming now time =>
    cases hstep
    cases hresult : world.view.apply incoming now time with
    | error e => exact h
    | ok outcome =>
      obtain ⟨result, view⟩ := outcome
      rw [Recorded.view_take]
      rcases MembershipView.apply_cases hresult with ⟨-, hlocal⟩ | ⟨-, rfl⟩ | ⟨-, -, -, rfl⟩
      · exact h.applyLocal hvalid hlocal
      · exact h
      · exact h.store fun _ => rfl
  | applyLocal update now =>
    cases hstep
    cases hresult : world.view.applyLocal update now with
    | error e => exact h
    | ok outcome =>
      rw [Recorded.view_take]
      exact h.applyLocal hvalid hresult
  | reap operation =>
    cases hstep
    intro name record hget hmeta
    rw [MembershipView.get_reap] at hget
    split at hget
    · cases hget
    · exact h name record hget hmeta

/-! ### A suspect in the store's view -/

/-- The member is retained as suspect, and was retained as alive at the same incarnation with
    metadata that decodes to these fields, which have a data address. -/
structure SuspectedWith (world : Recorded) (name : JsString) (fields : NodeMetadata) : Prop where
  suspect : ∃ record, world.view.get name = some record ∧ record.update.state = .suspect ∧
    ∃ earlier ∈ world.held, earlier.update.member = name ∧ earlier.update.state = .alive ∧
      earlier.update.incarnation = record.update.incarnation ∧
      decodeNodeMetadata earlier.update.metadata = fields
  address : fields.address ≠ []

theorem carriedByAlive_of_run {selfName : JsString} {events : List ViewEvent} {world : Recorded}
    (hvalid : ∀ event ∈ events, ValidEvent event)
    (hrun : run Recorded.step (Recorded.create selfName) events = some world) :
    CarriedByAlive world.view := by
  have hmeets : Meets Recorded.step (fun _ event => ValidEvent event)
      (Recorded.create selfName) events := Meets.of_forall _ hvalid
  have hcreate : CarriedByAlive (Recorded.create selfName).view := by
    intro name record hget
    cases hget
  exact run_preserves (P := fun world => CarriedByAlive world.view)
    (fun _ _ _ h hcond hstep => h.step hcond hstep) hcreate hmeets hrun

/-- In every run of updates that pass the checks of the wire, such a suspect is listed with its
    fields iff another member, retained as alive, carries metadata that decodes to the same. -/
theorem suspect_listed_iff {selfName : JsString} {events : List ViewEvent} {world : Recorded}
    (hvalid : ∀ event ∈ events, ValidEvent event)
    (hrun : run Recorded.step (Recorded.create selfName) events = some world)
    {name : JsString} {fields : NodeMetadata} (hsuspect : SuspectedWith world name fields) :
    fields.toMember ∈ toClusterMembers world.view.members ↔
      ∃ other ∈ world.view.members, other.update.member ≠ name ∧ other.update.state = .alive ∧
        decodeNodeMetadata other.update.metadata = fields := by
  have hcarried := carriedByAlive_of_run hvalid hrun
  obtain ⟨⟨record, hget, hstate, -⟩, haddress⟩ := hsuspect
  simp only [toClusterMembers, List.mem_mergeSort, List.mem_filterMap, presentMember_eq_some]
  constructor
  · rintro ⟨other, hother, -, -, hdecodes⟩
    obtain ⟨key, hkey⟩ := OrderedMap.mem_values_iff.mp hother
    have hmeta : other.update.metadata ≠ [] := by
      intro hempty
      rw [hempty] at hdecodes
      exact haddress (hdecodes ▸ rfl)
    have halive : other.update.state = .alive := hcarried key other hkey hmeta
    refine ⟨other, hother, fun hsame => ?_, halive, hdecodes⟩
    have hmember : other.update.member = key := MembershipView.member_of_get hkey
    have hrecord : some other = some record := by
      rw [← hget, ← hsame, hmember]
      exact hkey.symm
    rw [Option.some.inj hrecord, hstate] at halive
    cases halive
  · rintro ⟨other, hother, -, halive, hdecodes⟩
    refine ⟨other, hother, ?_, haddress, hdecodes⟩
    rw [StoredRecord.eligible, halive]
    rfl

/-- Metadata of a ready node that started at 5, with data address `d`. -/
def addressed : Bytes := [0, 0, 0, 0, 0, 0, 0, 5, 1, 0, 0, 1, 100]

/-- A member is alive with that metadata. -/
def addressedAlive (member : JsString) : ViewEvent :=
  .apply ⟨.alive, true, 0, 0, member, [], addressed⟩ 0 0

/-- Member `c` suspects `b`. -/
def suspectedB : ViewEvent := .apply ⟨.suspect, false, 0, 0, [98], [99], []⟩ 1 0

/-- A suspected node drops out of the store's members. -/
theorem suspect_unlisted : ∃ world,
    run Recorded.step (Recorded.create [97]) [addressedAlive [98], suspectedB] = some world ∧
      SuspectedWith world [98] ⟨5, true, false, [100]⟩ ∧
      toClusterMembers world.view.members = [] := by
  refine ends_imp (P := fun world => (∃ record ∈ world.view.get [98],
      record.update.state = .suspect ∧ ∃ earlier ∈ world.held, earlier.update.member = [98] ∧
      earlier.update.state = .alive ∧ earlier.update.incarnation = record.update.incarnation ∧
      decodeNodeMetadata earlier.update.metadata = ⟨5, true, false, [100]⟩) ∧
      world.view.members.filterMap presentMember = []) (by decide +kernel) ?_
  rintro world hrun ⟨hsuspect, hnone⟩
  refine ⟨⟨hsuspect, nofun⟩, ?_⟩
  rw [toClusterMembers, hnone, List.mergeSort_nil]

/-- A suspect stays listed while another member advertises its fields. -/
theorem shared_address_listed : ∃ world, run Recorded.step (Recorded.create [97])
        [addressedAlive [98], addressedAlive [99], suspectedB] = some world ∧
      (⟨[100], 5, true, false⟩ : ClusterMember) ∈ toClusterMembers world.view.members := by
  have hvalid : ∀ event ∈ [addressedAlive [98], addressedAlive [99], suspectedB],
      ValidEvent event := by decide +kernel
  refine ends_imp (P := fun world => (∃ record ∈ world.view.get [98],
      record.update.state = .suspect ∧ ∃ earlier ∈ world.held, earlier.update.member = [98] ∧
      earlier.update.state = .alive ∧ earlier.update.incarnation = record.update.incarnation ∧
      decodeNodeMetadata earlier.update.metadata = ⟨5, true, false, [100]⟩) ∧
      ∃ other ∈ world.view.members, other.update.member ≠ [98] ∧ other.update.state = .alive ∧
      decodeNodeMetadata other.update.metadata = ⟨5, true, false, [100]⟩) (by decide +kernel) ?_
  rintro world hrun ⟨hsuspect, hother⟩
  exact (suspect_listed_iff hvalid hrun ⟨hsuspect, nofun⟩).mpr hother

end Nodeakt.Clustering
