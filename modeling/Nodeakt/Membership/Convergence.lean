import Nodeakt.Membership.View

/-! Gossip converges.

    Updates about one retained member reach a view in any order and any number of times. What is
    retained at the end is the greatest truth among the first record and the updates, and a suspect
    member has the accusers of its incarnation (`gossip_converges`). `Joined` says what is retained
    after some of the updates; it depends only on which they are. -/

namespace Nodeakt.Membership
open Schemes MembershipView List

/-- One delivery: the update, the clock and the origin time of a defense. -/
structure Delivery where
  update : MembershipUpdate
  now : Millis
  selfStateChangeTime : ℕ

namespace MembershipView

/-- Applies deliveries in order. -/
def applyAll : MembershipView → List Delivery → Except ViewError MembershipView
  | view, [] => .ok view
  | view, delivery :: rest =>
    match view.apply delivery.update delivery.now delivery.selfStateChangeTime with
    | .error e => .error e
    | .ok (_, view') => view'.applyAll rest

end MembershipView

/-- The accusers of one truth among updates. -/
def accusers (top : MembershipUpdate) (updates : List MembershipUpdate) : Finset JsString :=
  ((updates.filter (fun update => update.precedence = top.precedence)).map
    MembershipUpdate.reporter).toFinset

/-- What is retained of a member whose record was `initial` after `seen`. -/
structure Joined (initial : StoredRecord) (seen : List MembershipUpdate) (record : StoredRecord) :
    Prop where
  among : record.update = initial.update ∨ record.update ∈ seen
  initial_le : initial.update.precedence ≤ record.update.precedence
  kept : initial.update.precedence = record.update.precedence → record.update = initial.update
  seen_le : ∀ update ∈ seen, update.precedence ≤ record.update.precedence
  reporters : record.update.state = .suspect → record.confirmations.toFinset =
    (if initial.update.precedence = record.update.precedence then initial.confirmations.toFinset
      else ∅) ∪ accusers record.update seen

theorem joined_nil (initial : StoredRecord) : Joined initial [] initial where
  among := Or.inl rfl
  initial_le := le_rfl
  kept := fun _ => rfl
  seen_le := nofun
  reporters := by simp [accusers]

/-! ### One delivery -/

theorem accusers_concat_of_eq {top update : MembershipUpdate} {seen : List MembershipUpdate}
    (h : update.precedence = top.precedence) :
    accusers top (seen ++ [update]) = accusers top seen ∪ {update.reporter} := by
  simp [accusers, filter_append, h]

theorem accusers_of_lt {top : MembershipUpdate} {seen : List MembershipUpdate}
    (h : ∀ update ∈ seen, update.precedence < top.precedence) : accusers top seen = ∅ := by
  have hnone : seen.filter (fun update => update.precedence = top.precedence) = [] :=
    filter_eq_nil_iff.mpr fun update hmem => by simpa using (h update hmem).ne
  rw [accusers, hnone]
  rfl

/-- An update about a retained member other than this node is always processed: it is dropped, or
    it adds an accuser, or it supersedes. -/
theorem apply_retained {view : MembershipView} {incoming : MembershipUpdate} {now : Millis}
    {time : ℕ} {current : StoredRecord} (hself : incoming.member ≠ view.selfName)
    (hget : view.get incoming.member = some current) :
    ∃ result view', view.apply incoming now time = .ok (result, view') ∧
      view'.selfName = view.selfName ∧
      ((incoming.precedence ≤ current.update.precedence ∧
          ¬ MembershipView.Confirms incoming current ∧
          view'.get incoming.member = some current) ∨
        (MembershipView.Confirms incoming current ∧ view'.get incoming.member =
            some { current with confirmations := current.confirmations ++ [incoming.reporter] }) ∨
        (current.update.precedence < incoming.precedence ∧
          view'.get incoming.member = some (view.recordOf incoming now))) := by
  have hrefute : view.wouldRefute incoming = false := by
    rw [wouldRefute, if_pos hself]
  have happly : view.apply incoming now time = view.supersedeOrConfirm incoming now := by
    rw [apply, hrefute]
    simp [hget]
  have hsupersede : view.supersedeOrConfirm incoming now =
      if compareMembershipUpdates incoming current.update ≤ 0 then
        .ok (view.confirmationOrIgnored incoming current hget)
      else .ok (.applied (view.recordOf incoming now).toMemberRecord (view.transition incoming now),
        view.store incoming now) := by
    unfold supersedeOrConfirm
    split
    · rename_i other hother
      cases (hget.symm.trans hother)
      simp [MembershipView.replace, hget, transition]
    · rename_i hnone
      cases hget.symm.trans hnone
  rw [happly, hsupersede]
  split_ifs with hcompare
  · unfold confirmationOrIgnored
    split_ifs with hnot
    · refine ⟨_, _, rfl, rfl, Or.inl ⟨compareMembershipUpdates_le.mp hcompare, fun h => ?_, hget⟩⟩
      rcases hnot with hnot | hnot | hnot | hnot
      · exact hnot h.accusing
      · exact hnot h.retained
      · exact hnot h.incarnation
      · exact h.reporter hnot
    · simp only [not_or, not_not] at hnot
      obtain ⟨hincoming, hretained, hinc, hreporter⟩ := hnot
      refine ⟨_, _, rfl, rfl, Or.inr (Or.inl ⟨⟨hincoming, hretained, hinc, hreporter⟩, ?_⟩)⟩
      rw [get_confirm, if_pos rfl]
  · refine ⟨_, _, rfl, rfl, Or.inr (Or.inr ⟨?_, ?_⟩)⟩
    · exact not_le.mp (mt compareMembershipUpdates_le.mpr hcompare)
    · rw [get_store, if_pos rfl]

variable {initial current : StoredRecord} {seen : List MembershipUpdate} {incoming : MembershipUpdate}

/-- A dropped update was no greater, and its reporter is already an accuser if it matters. -/
theorem Joined.ignore (h : Joined initial seen current)
    (hle : incoming.precedence ≤ current.update.precedence)
    (hnot : ¬ MembershipView.Confirms incoming current) :
    Joined initial (seen ++ [incoming]) current where
  among := h.among.imp_right (mem_append_left _)
  initial_le := h.initial_le
  kept := h.kept
  seen_le := forall_mem_append.mpr ⟨h.seen_le, forall_mem_singleton.mpr hle⟩
  reporters := by
    intro hsuspect
    by_cases hsame : incoming.precedence = current.update.precedence
    · obtain ⟨hinc, hstate⟩ := precedence_eq_iff.mp hsame
      have hknown : incoming.reporter ∈ current.confirmations := by
        by_contra hnew
        exact hnot ⟨hstate.trans hsuspect, hsuspect, hinc, hnew⟩
      rw [accusers_concat_of_eq hsame, ← Finset.union_assoc, ← h.reporters hsuspect]
      exact (Finset.union_eq_left.mpr (by simpa using hknown)).symm
    · simp [h.reporters hsuspect, accusers, filter_append, hsame]

/-- A confirmation adds its reporter to the accusers. -/
theorem Joined.confirm (h : Joined initial seen current)
    (hconfirms : MembershipView.Confirms incoming current) :
    Joined initial (seen ++ [incoming])
      { current with confirmations := current.confirmations ++ [incoming.reporter] } := by
  have hsame : incoming.precedence = current.update.precedence := precedence_eq_iff.mpr
      ⟨hconfirms.incarnation, hconfirms.accusing.trans hconfirms.retained.symm⟩
  refine ⟨h.among.imp_right (mem_append_left _), h.initial_le, h.kept,
    forall_mem_append.mpr ⟨h.seen_le, forall_mem_singleton.mpr hsame.le⟩, ?_⟩
  intro hsuspect
  rw [accusers_concat_of_eq hsame, ← Finset.union_assoc, ← h.reporters hsuspect,
    toFinset_append]
  rfl

/-- A greater truth starts its own set of accusers. -/
theorem Joined.supersede (h : Joined initial seen current) (view : MembershipView) (now : Millis)
    (hlt : current.update.precedence < incoming.precedence) :
    Joined initial (seen ++ [incoming]) (view.recordOf incoming now) where
  among := Or.inr (mem_append_right _ (mem_singleton.mpr rfl))
  initial_le := h.initial_le.trans hlt.le
  kept := fun hsame => absurd hsame (h.initial_le.trans_lt hlt).ne
  seen_le := forall_mem_append.mpr
    ⟨fun update hmem => (h.seen_le update hmem).trans hlt.le, forall_mem_singleton.mpr le_rfl⟩
  reporters := by
    intro hsuspect
    have hstate : incoming.state = .suspect := hsuspect
    have hbefore : accusers incoming seen = ∅ :=
      accusers_of_lt fun update hmem => (h.seen_le update hmem).trans_lt hlt
    have hinitial : ¬ initial.update.precedence = (view.recordOf incoming now).update.precedence :=
      (h.initial_le.trans_lt hlt).ne
    rw [if_neg hinitial, Finset.empty_union]
    change _ = accusers incoming (seen ++ [incoming])
    rw [accusers_concat_of_eq rfl, hbefore, Finset.empty_union]
    simp [recordOf, hstate]

/-! ### All deliveries -/

/-- Deliveries about a retained member are all processed, and what is retained is the join of what
    was delivered. -/
theorem applyAll_joined {member : JsString} : ∀ {deliveries : List Delivery}
    {view : MembershipView} {seen : List MembershipUpdate} {current : StoredRecord},
    (∀ delivery ∈ deliveries, delivery.update.member = member) → member ≠ view.selfName →
    view.get member = some current → Joined initial seen current →
      ∃ final record, view.applyAll deliveries = .ok final ∧ final.get member = some record ∧
        Joined initial (seen ++ deliveries.map Delivery.update) record
  | [], view, seen, current, _, _, hget, hjoined =>
    ⟨view, current, rfl, hget, by rwa [map_nil, append_nil]⟩
  | delivery :: rest, view, seen, current, hmember, hself, hget, hjoined => by
      have hfirst := hmember delivery (mem_cons_self ..)
      have hrest : ∀ other ∈ rest, other.update.member = member :=
        fun other hother => hmember other (mem_cons_of_mem _ hother)
      subst hfirst
      obtain ⟨result, view', happly, hname, hcases⟩ :=
        @apply_retained view delivery.update delivery.now delivery.selfStateChangeTime current hself
          hget
      have hnext : ∃ next, view'.get delivery.update.member = some next ∧
          Joined initial (seen ++ [delivery.update]) next := by
        rcases hcases with ⟨hle, hnot, hnext⟩ | ⟨hconfirms, hnext⟩ | ⟨hlt, hnext⟩
        · exact ⟨_, hnext, hjoined.ignore hle hnot⟩
        · exact ⟨_, hnext, hjoined.confirm hconfirms⟩
        · exact ⟨_, hnext, hjoined.supersede view delivery.now hlt⟩
      obtain ⟨next, hnext, hjoined'⟩ := hnext
      obtain ⟨final, record, hall, hrecord, hend⟩ :=
        applyAll_joined hrest (hname ▸ hself) hnext hjoined'
      refine ⟨final, record, ?_, hrecord, ?_⟩
      · rw [applyAll, happly]
        exact hall
      · rwa [append_assoc, singleton_append] at hend

/-- The same updates leave records of the same precedence. -/
theorem Joined.precedence_le {seen' : List MembershipUpdate} {record record' : StoredRecord}
    (h : Joined initial seen record) (h' : Joined initial seen' record')
    (hseen : ∀ update, update ∈ seen → update ∈ seen') :
    record.update.precedence ≤ record'.update.precedence := by
  rcases h.among with heq | hmem
  · rw [heq]
    exact h'.initial_le
  · exact h'.seen_le _ (hseen _ hmem)

/-- The same updates leave the same truth, if truths of one precedence among them agree. -/
theorem Joined.agree {seen' : List MembershipUpdate} {record record' : StoredRecord}
    (h : Joined initial seen record) (h' : Joined initial seen' record')
    (hseen : ∀ update, update ∈ seen ↔ update ∈ seen')
    (hmetadata : ∀ a ∈ seen, ∀ b ∈ seen, a.precedence = b.precedence → a.metadata = b.metadata) :
    record.update.precedence = record'.update.precedence ∧
      record.update.metadata = record'.update.metadata ∧
      (record.update.state = .suspect →
        record.confirmations.toFinset = record'.confirmations.toFinset) := by
  have hsame : record.update.precedence = record'.update.precedence :=
    le_antisymm (h.precedence_le h' fun update => (hseen update).mp)
      (h'.precedence_le h fun update => (hseen update).mpr)
  refine ⟨hsame, ?_, fun hsuspect => ?_⟩
  · by_cases hinitial : initial.update.precedence = record.update.precedence
    · rw [h.kept hinitial, h'.kept (hinitial.trans hsame)]
    · have hmem : record.update ∈ seen := h.among.resolve_left fun heq => hinitial (heq ▸ rfl)
      have hmem' : record'.update ∈ seen := (hseen _).mpr
        (h'.among.resolve_left fun heq => hinitial (heq ▸ hsame.symm))
      exact hmetadata _ hmem _ hmem' hsame
  · have hsuspect' : record'.update.state = .suspect :=
      (precedence_eq_iff.mp hsame).2.symm.trans hsuspect
    rw [h.reporters hsuspect, h'.reporters hsuspect']
    ext reporter
    simp [accusers, hsame, hseen]

/-- Valid updates of one precedence carry the same metadata, if alive ones do. -/
theorem metadata_eq_of_precedence {updates : List MembershipUpdate}
    (hvalid : ∀ update ∈ updates, update.Valid)
    (halive : ∀ a ∈ updates, ∀ b ∈ updates, a.state = .alive → b.state = .alive →
      a.incarnation = b.incarnation → a.metadata = b.metadata) :
    ∀ a ∈ updates, ∀ b ∈ updates, a.precedence = b.precedence → a.metadata = b.metadata := by
  intro a ha b hb hsame
  obtain ⟨hinc, hstate⟩ := precedence_eq_iff.mp hsame
  by_cases h : a.state = .alive
  · exact halive a ha b hb h (hstate ▸ h) hinc
  · rw [not_imp_comm.mp (hvalid a ha).carried h, not_imp_comm.mp (hvalid b hb).carried (hstate ▸ h)]

/-- Updates about a retained member other than this node, delivered in any order and any number of
    times, leave the greatest truth among the first record and the updates, and the same accusers. -/
theorem gossip_converges {view : MembershipView} {member : JsString} {initial : StoredRecord}
    (hget : view.get member = some initial) (hself : member ≠ view.selfName)
    {updates : List MembershipUpdate} (hmember : ∀ update ∈ updates, update.member = member)
    (hvalid : ∀ update ∈ updates, update.Valid)
    (halive : ∀ a ∈ updates, ∀ b ∈ updates, a.state = .alive → b.state = .alive →
      a.incarnation = b.incarnation → a.metadata = b.metadata) :
    ∃ (top : MembershipUpdate) (reporters : Finset JsString),
      (top = initial.update ∨ top ∈ updates) ∧
      (∀ update ∈ initial.update :: updates, compareMembershipUpdates update top ≤ 0) ∧
      (compareMembershipUpdates initial.update top = 0 → top = initial.update) ∧
      ∀ deliveries : List Delivery,
        (∀ update, update ∈ deliveries.map Delivery.update ↔ update ∈ updates) →
        ∃ final record, view.applyAll deliveries = .ok final ∧ final.get member = some record ∧
          record.update.incarnation = top.incarnation ∧ record.update.state = top.state ∧
          record.update.metadata = top.metadata ∧
          (record.update.state = .suspect →
            (final.confirmationReporters member).toFinset = reporters) := by
  have hrun : ∀ deliveries : List Delivery,
      (∀ update, update ∈ deliveries.map Delivery.update ↔ update ∈ updates) →
      ∃ final record, view.applyAll deliveries = .ok final ∧ final.get member = some record ∧
        Joined initial (deliveries.map Delivery.update) record := by
    intro deliveries hsame
    have habout : ∀ delivery ∈ deliveries, delivery.update.member = member := fun delivery hmem =>
      hmember _ ((hsame _).mp (List.mem_map.mpr ⟨delivery, hmem, rfl⟩))
    exact applyAll_joined habout hself hget (joined_nil initial)
  -- one delivery of each update settles what every other order must leave
  obtain ⟨_, chosen, -, -, hchosen⟩ := hrun (updates.map (fun update => ⟨update, 0, 0⟩)) (by simp)
  have hmap : (updates.map (fun update => (⟨update, 0, 0⟩ : Delivery))).map Delivery.update =
      updates := by
    rw [List.map_map]
    exact List.map_id _
  rw [hmap] at hchosen
  refine ⟨chosen.update, chosen.confirmations.toFinset, hchosen.among, ?_, ?_, ?_⟩
  · intro update hupdate
    rw [compareMembershipUpdates_le]
    rcases List.mem_cons.mp hupdate with rfl | hmem
    · exact hchosen.initial_le
    · exact hchosen.seen_le update hmem
  · intro hzero
    exact hchosen.kept (precedence_eq_of_compare hzero)
  · intro deliveries hsame
    obtain ⟨final, record, hall, hrecord, hjoined⟩ := hrun deliveries hsame
    obtain ⟨hprec, hmeta, hreporters⟩ := hchosen.agree hjoined (fun update => (hsame update).symm)
      (metadata_eq_of_precedence hvalid halive)
    obtain ⟨hinc, hstate⟩ := precedence_eq_iff.mp hprec
    refine ⟨final, record, hall, hrecord, hinc.symm, hstate.symm, hmeta.symm, fun hsuspect => ?_⟩
    rw [confirmationReporters, hrecord]
    simp only [hsuspect, if_true]
    exact (hreporters (hstate.trans hsuspect)).symm

/-- Member `b`, alive. -/
def aliveB : MembershipUpdate := ⟨.alive, true, 0, 0, [98], [], []⟩

/-- Member `b`, suspected by `reporter`. -/
def suspectB (reporter : JsString) : MembershipUpdate := ⟨.suspect, false, 0, 0, [98], reporter, []⟩

/-- Node `a` retains `b` as alive. -/
def viewOfB : MembershipView := (MembershipView.create [97]).store aliveB 0

/-- Node `a` hears two accusers of `b`, one of them twice, and retains it as suspect. -/
theorem accusations_converge : ∃ final record,
    viewOfB.applyAll [⟨suspectB [100], 5, 0⟩, ⟨suspectB [99], 6, 0⟩, ⟨suspectB [100], 7, 0⟩] =
        .ok final ∧
      final.get [98] = some record ∧ record.update.state = .suspect := by
  obtain ⟨top, _, hamong, hgreatest, -, hall⟩ :=
    @gossip_converges viewOfB [98] ((create [97]).recordOf aliveB 0) rfl (by decide)
      [suspectB [99], suspectB [100]] (by decide) (by decide +kernel) (by decide)
  obtain ⟨final, record, hfinal, hrecord, -, hstate, -⟩ := hall
    [⟨suspectB [100], 5, 0⟩, ⟨suspectB [99], 6, 0⟩, ⟨suspectB [100], 7, 0⟩] (by simp)
  refine ⟨final, record, hfinal, hrecord, hstate.trans ?_⟩
  rcases hamong with rfl | hmem
  · exact absurd (hgreatest (suspectB [99]) (by simp)) (by decide)
  · rcases List.mem_pair.mp hmem with rfl | rfl <;> rfl

end Nodeakt.Membership
