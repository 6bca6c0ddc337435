import Nodeakt.Membership.Timers

/-! A node's own record.

    Updates about the node itself come through the same entry point as all others. `apply_self` says
    what any of them leaves of a record that is alive: it stays alive with its metadata, at the same
    incarnation or a later one, and an accusation at its incarnation or later is answered by a record
    that supersedes it. `updateMetadata` is the only call that changes the metadata. -/

namespace Nodeakt.Membership
open Schemes Option MembershipView

namespace MembershipView

variable {view view' : MembershipView} {incoming : MembershipUpdate} {now : Millis} {time : ℕ}
  {current : StoredRecord}

/-- The record the node keeps of itself. -/
def self (view : MembershipView) : Option StoredRecord := view.get view.selfName

/-- A later own record that is alive with the same metadata. -/
structure Renews (current next : StoredRecord) : Prop where
  alive : next.update.state = .alive
  metadata : next.update.metadata = current.update.metadata
  incarnation : current.update.incarnation ≤ next.update.incarnation

theorem renews_refl (h : current.update.state = .alive) : Renews current current := ⟨h, rfl, le_rfl⟩

/-- An update about the node itself that is no accusation does not supersede its alive record. -/
theorem not_supersedes_of_not_refuted (hself : view.self = some current)
    (halive : current.update.state = .alive) (hrefute : view.wouldRefute incoming = false)
    (hmember : incoming.member = view.selfName) : ¬ view.Supersedes incoming := by
  intro hsupersedes
  have hget : view.get incoming.member = some current := hmember ▸ hself
  have hstate := alive_of_not_refuted hrefute hmember hsupersedes
  rcases precedence_lt_iff.mp (hsupersedes current hget) with hlt | ⟨-, hbyte⟩
  · simp [wouldRefute, hmember, hmember ▸ hget, hstate, halive] at hrefute
    omega
  · simp [hstate, halive] at hbyte

/-- Truth that is no accusation leaves the node's own alive record as it is. -/
theorem applyLocal_self {result : ApplyResult} (hself : view.self = some current)
    (halive : current.update.state = .alive) (hrefute : view.wouldRefute incoming = false)
    (h : view.applyLocal incoming now = .ok (result, view')) :
    view'.selfName = view.selfName ∧ view'.self = some current := by
  rcases applyLocal_cases h with ⟨-, rfl⟩ | ⟨retained, hget, hconfirms, -, rfl⟩ |
    ⟨hsupersedes, -, rfl⟩
  · exact ⟨rfl, hself⟩
  · have hne : view.selfName ≠ incoming.member := by
      intro hname
      have hown : view.get incoming.member = some current := hname ▸ hself
      cases (hown.symm.trans hget)
      rw [hconfirms.retained] at halive
      cases halive
    refine ⟨rfl, ?_⟩
    rw [self, get_confirm]
    exact (if_neg hne).trans hself
  · have hne : view.selfName ≠ incoming.member := fun hname =>
      not_supersedes_of_not_refuted hself halive hrefute hname.symm hsupersedes
    refine ⟨rfl, ?_⟩
    rw [self, get_store]
    exact (if_neg hne).trans hself

theorem self_store_defense (view : MembershipView) (accusation : MembershipUpdate) (now : Millis)
    (time : ℕ) : (view.store (view.defense accusation time) now).self =
      some (view.recordOf (view.defense accusation time) now) := by
  rw [self, get_store]
  exact if_pos rfl

/-- A defense renews the alive record it defends. -/
theorem renews_defense (hself : view.self = some current) (halive : current.update.state = .alive)
    (hmember : incoming.member = view.selfName) :
    Renews current (view.recordOf (view.defense incoming time) now) := by
  have hget : view.get incoming.member = some current := hmember ▸ hself
  refine ⟨rfl, ?_, ?_⟩
  · simp [recordOf, defense, hget, halive]
  · simp only [recordOf, defense, hget, map_some, getD_some]
    exact (le_max_right _ _).trans (Nat.le_succ _)

/-- Any update leaves the node's own alive record, or one that renews it. -/
theorem apply_self {result : ApplyResult} (hself : view.self = some current)
    (halive : current.update.state = .alive)
    (h : view.apply incoming now time = .ok (result, view')) :
    view'.selfName = view.selfName ∧ ∃ next ∈ view'.self, Renews current next := by
  rcases apply_cases h with ⟨hrefute, hlocal⟩ | ⟨-, rfl⟩ | ⟨hrefute, -, -, rfl⟩
  · obtain ⟨hname, hkept⟩ := applyLocal_self hself halive hrefute hlocal
    exact ⟨hname, current, hkept, renews_refl halive⟩
  · exact ⟨rfl, current, hself, renews_refl halive⟩
  · exact ⟨rfl, _, self_store_defense .., renews_defense hself halive (member_of_wouldRefute hrefute)⟩

/-- An accusation below the largest incarnation is answered by a record that supersedes it. -/
theorem apply_accusation (hself : view.self = some current)
    (hmember : incoming.member = view.selfName) (hstate : incoming.state ≠ .alive)
    (hle : current.update.incarnation ≤ incoming.incarnation)
    (hlt : incoming.incarnation < MAX_INCARNATION) (now : Millis) (time : ℕ) :
    ∃ result view', view.apply incoming now time = .ok (result, view') ∧
      ∃ next ∈ view'.self, 0 < compareMembershipUpdates next.update incoming := by
  have hget : view.get incoming.member = some current := hmember ▸ hself
  have hrefute : view.wouldRefute incoming = true := by
    simp [wouldRefute, hmember, hmember ▸ hget, hstate, hle]
  have hroom : view.get (view.defense incoming time).member = some current := hself
  have hrefuted : view.refute incoming now time = .ok
      (.refuted incoming (view.recordOf (view.defense incoming time) now).toMemberRecord
        (view.transition (view.defense incoming time) now),
      view.store (view.defense incoming time) now) := by
    simp only [refute, hget, map_some, getD_some]
    rw [if_neg (by omega), replace, if_neg (by simp [hroom])]
    rfl
  refine ⟨_, _, by rw [apply, if_pos hrefute, hrefuted], _, self_store_defense .., ?_⟩
  rw [compareMembershipUpdates_pos, precedence_lt_iff]
  left
  simp only [recordOf, defense]
  exact Nat.lt_succ_of_le (le_max_left _ _)

end MembershipView

namespace Swim

variable {engine engine' : Swim} {view : MembershipView}

/-! ### Metadata updates -/

theorem view_cancelThrough {member : JsString} {incarnation : ℕ} :
    Leaves (fun engine' => engine'.view = engine.view) (cancelThrough member incarnation engine) := by
  cases hcancel : engine.suspicion.cancelThrough member incarnation with
  | ok outcome =>
    rw [cancelThrough_of_ok hcancel]
    rfl
  | error e =>
    rw [cancelThrough_of_error hcancel]
    rfl

theorem view_cancelSupersededSuspicion {update : MembershipUpdate} :
    Leaves (fun engine' => engine'.view = engine.view)
      (cancelSupersededSuspicion update engine) := by
  rw [cancelSupersededSuspicion]
  split
  · split
    · exact view_cancelThrough
    · rfl
  · exact view_cancelThrough

theorem view_updateRetention {update : MembershipUpdate} :
    Leaves (fun engine' => engine'.view = engine.view) (updateRetention update engine) := by
  rw [updateRetention]
  split
  · rw [scheduleReap]
    refine leaves_bind rfl fun _ engine' _ hview => ?_
    rw [get_bind]
    cases engine'.view.reapOperation update.member with
    | none | some operation => exact hview
  · rfl

/-- The maintenance of accepted truth leaves the table alone. -/
theorem view_announce {truth : MembershipUpdate} :
    Leaves (fun engine' => engine'.view = engine.view) (announce truth engine) := by
  rw [announce]
  refine leaves_bind (leaves_enqueue rfl) fun _ queued _ hqueued => ?_
  rw [truthApplied]
  refine leaves_bind (leaves_mono (fun _ h => h.trans hqueued) view_cancelSupersededSuspicion)
    fun _ cancelled _ hcancelled => ?_
  exact leaves_mono (fun _ h => h.trans hcancelled) view_updateRetention

/-- Truth that supersedes a retained record is in the table, whatever becomes of its maintenance. -/
theorem view_applyLocalTruth {update : MembershipUpdate} {clock : Reading} {current : StoredRecord}
    (hget : engine.view.get update.member = some current)
    (h : current.update.precedence < update.precedence) :
    Leaves (fun engine' => engine'.view = engine.view.store update clock.now)
      (applyLocalTruth update clock engine) := by
  rw [applyLocalTruth, get_bind,
    bind_ok (check_ok (applyLocal_of_supersedes hget h))]
  dsimp only
  rw [set_bind]
  exact leaves_bind view_announce fun _ _ _ hview => hview

/-- A call that takes effect. -/
def Accepts (engine : Swim) (metadata : Bytes) : Prop :=
  engine.state = .started ∧ metadata.length ≤ MAX_METADATA_BYTES

instance (engine : Swim) (metadata : Bytes) : Decidable (engine.Accepts metadata) :=
  inferInstanceAs (Decidable (_ ∧ _))

theorem updateMetadata_refused {metadata : Bytes} {clock : Reading}
    (h : ¬ engine.Accepts metadata) : after (updateMetadata metadata clock) engine = engine := by
  rw [after, updateMetadata, get_bind]
  by_cases hstate : engine.state = .started
  · rw [if_neg (not_not.mpr hstate), if_pos (not_le.mp fun hle => h ⟨hstate, hle⟩)]
    rfl
  · rw [if_pos hstate]
    rfl

/-- The own record an accepted call leaves: alive at the next incarnation with the metadata. -/
def announcement (current : StoredRecord) (metadata : Bytes) (clock : Reading) : MembershipUpdate :=
  ⟨.alive, true, current.update.incarnation + 1, clock.epoch, current.update.member, [], metadata⟩

theorem updateMetadata_accepted {metadata : Bytes} {clock : Reading} {current : StoredRecord}
    (h : engine.Accepts metadata) (hself : engine.view.self = some current) :
    (after (updateMetadata metadata clock) engine).view =
      engine.view.store (announcement current metadata clock) clock.now := by
  refine @after_of_leaves (fun engine' => engine'.view = _) engine _ ?_
  rw [updateMetadata, get_bind, if_neg (not_not.mpr h.1), if_neg (not_lt.mpr h.2),
    show engine.view.get engine.view.selfName = some current from hself]
  have hmember : engine.view.get (announcement current metadata clock).member = some current := by
    rw [announcement, member_of_get hself]
    exact hself
  have hlt : current.update.precedence < (announcement current metadata clock).precedence :=
    precedence_lt_iff.mpr (Or.inl (Nat.lt_succ_self _))
  exact leaves_bind (view_applyLocalTruth hmember hlt) fun _ _ _ hview => hview

end Swim

/-! ### Runs -/

/-- A call that can change what a node keeps of itself. -/
inductive SelfEvent where
  | apply (update : MembershipUpdate) (now : Millis) (selfStateChangeTime : ℕ)
  | updateMetadata (metadata : Bytes) (clock : Reading)

/-- An engine with the metadata its node set last. -/
structure Announcer where
  engine : Swim
  metadata : Bytes

namespace Announcer

/-- The record the node keeps of itself. -/
def self (s : Announcer) : Option StoredRecord := s.engine.view.self

/-- One call. Updates are below the largest incarnation, and metadata is set below it; an update
    the table cannot take leaves it. -/
def step (s : Announcer) : SelfEvent → Option Announcer
  | .apply update now time =>
    if update.incarnation < MAX_INCARNATION then
      match s.engine.view.apply update now time with
      | .ok (_, view) => some { s with engine := { s.engine with view := view } }
      | .error _ => some s
    else none
  | .updateMetadata metadata clock =>
    if ∀ current ∈ s.self, current.update.incarnation < MAX_INCARNATION then
      some ⟨Swim.after (Swim.updateMetadata metadata clock) s.engine,
        if s.engine.Accepts metadata then metadata else s.metadata⟩
    else none

/-- The node keeps itself as alive with the metadata it set last. -/
def Keeps (s : Announcer) (record : StoredRecord) : Prop :=
  s.self = some record ∧ record.update.state = .alive ∧ record.update.metadata = s.metadata

variable {s s' : Announcer} {record : StoredRecord}

/-- Every call leaves the node alive with the metadata it set last, at its incarnation or a later
    one. -/
theorem Keeps.step (h : s.Keeps record) {event : SelfEvent} (hstep : s' ∈ s.step event) :
    ∃ next, s'.Keeps next ∧ record.update.incarnation ≤ next.update.incarnation := by
  obtain ⟨hself, halive, hmetadata⟩ := h
  cases event with
  | apply update now time =>
    obtain ⟨-, hstep⟩ := ite_none_right_eq_some.mp hstep
    split at hstep
    · rename_i result view happly
      cases hstep
      obtain ⟨-, next, hnext, hrenews⟩ := apply_self hself halive happly
      exact ⟨next, ⟨hnext, hrenews.alive, hrenews.metadata.trans hmetadata⟩, hrenews.incarnation⟩
    · cases hstep
      exact ⟨record, ⟨hself, halive, hmetadata⟩, le_rfl⟩
  | updateMetadata metadata clock =>
    obtain ⟨-, rfl⟩ := of_guarded hstep
    by_cases haccepts : s.engine.Accepts metadata
    · have hview := @Swim.updateMetadata_accepted s.engine metadata clock record haccepts hself
      refine ⟨s.engine.view.recordOf (Swim.announcement record metadata clock) clock.now,
        ⟨?_, rfl, (if_pos haccepts).symm⟩, Nat.le_succ _⟩
      rw [self, hview, MembershipView.self, MembershipView.get_store]
      exact if_pos (member_of_get hself).symm
    · rw [Swim.updateMetadata_refused haccepts, if_neg haccepts]
      exact ⟨record, ⟨hself, halive, hmetadata⟩, le_rfl⟩

theorem Keeps.run (h : s.Keeps record) {events : List SelfEvent}
    (hrun : s' ∈ run Announcer.step s events) :
    ∃ next, s'.Keeps next ∧ record.update.incarnation ≤ next.update.incarnation := by
  refine @run_invariant _ _ _ (fun s' => ∃ next, s'.Keeps next ∧
    record.update.incarnation ≤ next.update.incarnation) ?_ events s s' ⟨record, h, le_rfl⟩ hrun
  rintro t event t' ⟨next, hnext, hle⟩ hstep
  obtain ⟨later, hlater, hle'⟩ := hnext.step hstep
  exact ⟨later, hlater, hle.trans hle'⟩

/-- In every run of updates and metadata calls from a view with the node installed alive, at every
    point: the node is retained as alive with the metadata it set last, at an incarnation no earlier
    than before, and an accusation at its incarnation or later is superseded by what is retained
    after it. -/
theorem self_refutes {start earlier s : Announcer} {installed : StoredRecord}
    {events more : List SelfEvent} (hinstalled : start.self = some installed)
    (halive : installed.update.state = .alive)
    (hmetadata : installed.update.metadata = start.metadata)
    (hearlier : earlier ∈ run step start events) (hrun : s ∈ run step earlier more) :
    ∃ before ∈ earlier.self, ∃ record ∈ s.self,
      record.update.state = .alive ∧ record.update.metadata = s.metadata ∧
      before.update.incarnation ≤ record.update.incarnation ∧
      ∀ (accusation : MembershipUpdate) (now : Millis) (time : ℕ),
        accusation.member = s.engine.view.selfName → accusation.state ≠ .alive →
        record.update.incarnation ≤ accusation.incarnation →
        accusation.incarnation < MAX_INCARNATION →
        ∃ s' ∈ s.step (.apply accusation now time), ∃ next ∈ s'.self,
          0 < compareMembershipUpdates next.update accusation := by
  have hstart : start.Keeps installed := ⟨hinstalled, halive, hmetadata⟩
  obtain ⟨before, hbefore, -⟩ := hstart.run hearlier
  obtain ⟨record, hrecord, hle⟩ := hbefore.run hrun
  refine ⟨before, hbefore.1, record, hrecord.1, hrecord.2.1, hrecord.2.2, hle, ?_⟩
  intro accusation now time hmember hstate hat hbelow
  obtain ⟨result, view, happly, next, hnext, hpos⟩ :=
    MembershipView.apply_accusation hrecord.1 hmember hstate hat hbelow now time
  refine ⟨{ s with engine := { s.engine with view := view } }, ?_, next, hnext, hpos⟩
  simp only [step, if_pos hbelow, happly, Option.mem_def]

/-- Node `a`, started with metadata `1`. -/
def installed : Announcer where
  engine := { Swim.after (Swim.start ⟨0, 0⟩) (Swim.create [97] [1] (by decide)) with
    state := .started }
  metadata := [1]

/-- It is suspected, sets its metadata and is declared dead by a forged record of the future. -/
def accusedTwice : List SelfEvent :=
  [.apply ⟨.suspect, false, 0, 0, [97], [98], []⟩ 1 1, .updateMetadata [2] ⟨2, 2⟩,
    .apply ⟨.dead, false, 7, 0, [97], [98], []⟩ 3 3]

/-- It is then alive at incarnation 8 with metadata `2`, and one who says it left is refuted. -/
theorem forged_death_refuted : ∃ s ∈ run step installed accusedTwice, ∃ record ∈ s.self,
    record.update.incarnation = 8 ∧ record.update.state = .alive ∧ record.update.metadata = [2] ∧
      ∃ s' ∈ s.step (.apply ⟨.left, true, 8, 0, [97], [], []⟩ 4 4), ∃ next ∈ s'.self,
        0 < compareMembershipUpdates next.update ⟨.left, true, 8, 0, [97], [], []⟩ := by
  obtain ⟨s, hrun, hmetadata, hname, hincarnation⟩ : ∃ s ∈ run step installed accusedTwice,
      s.metadata = [2] ∧ [97] = s.engine.view.selfName ∧
        ∀ record ∈ s.self, record.update.incarnation = 8 := by decide +kernel
  obtain ⟨own, hself, halive, hinstalled⟩ : ∃ own ∈ installed.self, own.update.state = .alive ∧
      own.update.metadata = installed.metadata := by decide +kernel
  obtain ⟨-, -, record, hrecord, hstate, hkept, -, hrefutes⟩ :=
    self_refutes hself halive hinstalled (run_nil step installed) hrun
  have hat := hincarnation record hrecord
  refine ⟨s, hrun, record, hrecord, hat, hstate, hkept.trans hmetadata, ?_⟩
  exact hrefutes ⟨.left, true, 8, 0, [97], [], []⟩ 4 4 hname (by decide) hat.le (by decide)

end Announcer

end Nodeakt.Membership
