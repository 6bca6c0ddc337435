import Nodeakt.Membership.View

/-! The event stream of a view.

    A consumer that folds the events of a view wants the alive and suspect members, each with the
    metadata of the newest alive record. The event of a replacement is decided by the two records
    alone, and suspect records are silent and carry no metadata: a member that is first heard of as
    suspect is never told, and neither is new metadata that follows a suspicion.
    `event_stream_tells`: without such replacements the fold is exact at every point. -/

namespace Nodeakt.Membership
open Schemes MembershipView List Option OrderedMap

/-- What happens to a view. -/
inductive ViewEvent where
  | apply (incoming : MembershipUpdate) (now : Millis) (selfStateChangeTime : ℕ)
  | applyLocal (update : MembershipUpdate) (now : Millis)
  | reap (operation : ReapOperation)

/-- The record a result reports as newly stored, with its event. -/
def ApplyResult.accepted : ApplyResult → Option (MemberRecord × Option MembershipEvent)
  | .applied record event => some (record, event)
  | .refuted _ record event => some (record, event)
  | .confirmed _ _ _ _ => none
  | .ignored => none

/-- A view with every record it has accepted, newest first, and every event it has emitted, oldest
    first. -/
structure Recorded where
  view : MembershipView
  held : List MemberRecord
  events : List MembershipEvent

namespace Recorded

/-- A fresh view. -/
def create (selfName : JsString) : Recorded := ⟨MembershipView.create selfName, [], []⟩

/-- Takes over what an update did; one that throws did nothing. -/
def take (world : Recorded) : Except ViewError (ApplyResult × MembershipView) → Recorded
  | .error _ => world
  | .ok (result, view) =>
    match result.accepted with
    | some (record, event) => ⟨view, record :: world.held, world.events ++ event.toList⟩
    | none => { world with view := view }

/-- One event. -/
def step (world : Recorded) : ViewEvent → Option Recorded
  | .apply incoming now time => some (world.take (world.view.apply incoming now time))
  | .applyLocal update now => some (world.take (world.view.applyLocal update now))
  | .reap operation => some { world with view := (world.view.reap operation).2 }

theorem view_take (world : Recorded) (result : ApplyResult) (view : MembershipView) :
    (world.take (.ok (result, view))).view = view := by
  rw [take]
  split <;> rfl

/-- The metadata of the newest alive record accepted for a member. -/
def newestMetadata (world : Recorded) (member : JsString) : Option Bytes :=
  (world.held.find? (fun record => record.update.member = member ∧ record.update.state = .alive)).map
    (fun record => record.update.metadata)

/-- The member is retained as alive or suspect. -/
def present (world : Recorded) (member : JsString) : Bool :=
  (world.view.get member).any StoredRecord.eligible

end Recorded

/-! ### The consumer -/

/-- What a consumer makes of one event. -/
def tell (story : OrderedMap JsString Bytes) (event : MembershipEvent) : OrderedMap JsString Bytes :=
  match event.type with
  | .joined => story.set event.member.update.member event.member.update.metadata
  | .updated => story.set event.member.update.member event.member.update.metadata
  | .dead => story.delete event.member.update.member
  | .left => story.delete event.member.update.member

/-- The members a consumer knows after the events, with their metadata. -/
def story (events : List MembershipEvent) : OrderedMap JsString Bytes :=
  events.foldl tell OrderedMap.empty

/-- Whether a member is present after one more event; `joined` opens a presence, `updated` and the
    departures need one. -/
def turn : Option Bool → MembershipEventType → Option Bool
  | some false, .joined => some true
  | some true, .updated => some true
  | some true, .dead => some false
  | some true, .left => some false
  | _, _ => none

/-- The member's events alternate; the result is whether it is present at the end. -/
def turns (events : List MembershipEvent) (member : JsString) : Option Bool :=
  ((events.filter (fun event => event.member.update.member = member)).map
    MembershipEvent.type).foldl turn (some false)

/-- Which event a replacement has: the first three are told, the last three are silent. -/
theorem eventType_cases (previous : Option StoredRecord) (next : MembershipUpdate) :
    (eventType previous next = some .joined ∧ next.state = .alive ∧
      previous.any StoredRecord.eligible = false) ∨
    (eventType previous next = some .updated ∧ next.state = .alive ∧
      previous.any StoredRecord.eligible = true) ∨
    ((eventType previous next = some .dead ∨ eventType previous next = some .left) ∧
      isTerminalState next.state = true ∧ previous.any StoredRecord.eligible = true) ∨
    (eventType previous next = none ∧ isTerminalState next.state = true ∧
      previous.any StoredRecord.eligible = false) ∨
    (eventType previous next = none ∧ next.state = .alive ∧ ∃ record, previous = some record ∧
      (record.update.state = .suspect ∨
        record.update.state = .alive ∧ record.update.metadata = next.metadata)) ∨
    (eventType previous next = none ∧ next.state = .suspect) := by
  cases previous with
  | none => cases hstate : next.state <;> simp [eventType, hstate, isTerminalState]
  | some record =>
    by_cases hmeta : record.update.metadata = next.metadata <;>
      cases hold : record.update.state <;> cases hstate : next.state <;>
      simp [eventType, hstate, hold, isTerminalState, isProbeEligibleState, StoredRecord.eligible,
        hmeta]

theorem story_concat (events : List MembershipEvent) (event : MembershipEvent) :
    story (events ++ [event]) = tell (story events) event := by
  rw [story, foldl_append]
  rfl

theorem turns_concat (events : List MembershipEvent) (event : MembershipEvent) (member : JsString) :
    turns (events ++ [event]) member =
      if event.member.update.member = member then turn (turns events member) event.type
      else turns events member := by
  rw [turns, filter_append, map_append, foldl_append]
  by_cases h : event.member.update.member = member
  · rw [if_pos h, filter_cons_of_pos (by simpa using h)]
    rfl
  · rw [if_neg h, filter_cons_of_neg (by simpa using h)]
    rfl

/-- An event is about its own member only. -/
theorem get_tell_of_ne {story : OrderedMap JsString Bytes} {event : MembershipEvent}
    {member : JsString} (h : member ≠ event.member.update.member) :
    (tell story event).get member = story.get member := by
  unfold tell
  split
  · rw [get_set, if_neg h]
  · rw [get_set, if_neg h]
  · rw [get_delete, if_neg h]
  · rw [get_delete, if_neg h]

namespace Recorded

/-! ### Told replacements -/

/-- An update that supersedes what is retained is told: a suspect one is about a member that is
    present, and an alive one over a suspect record repeats the newest metadata. -/
def Announced (world : Recorded) (update : MembershipUpdate) : Prop :=
  world.view.Supersedes update → (update.state = .suspect → world.present update.member = true) ∧
      (update.state = .alive → ∀ current ∈ world.view.get update.member,
        current.update.state = .suspect → world.newestMetadata update.member = some update.metadata)

/-- No step changes the table behind the consumer's back. -/
def Audible (world : Recorded) : ViewEvent → Prop
  | .apply incoming _ _ =>
    if world.view.wouldRefute incoming then
      ∀ current ∈ world.view.get incoming.member, current.update.state = .suspect →
        world.newestMetadata incoming.member = some []
    else world.Announced incoming
  | .applyLocal update _ => world.Announced update
  | .reap _ => True

instance (world : Recorded) (update : MembershipUpdate) : Decidable (world.Announced update) :=
  inferInstanceAs (Decidable ((∀ current ∈ world.view.get update.member,
    current.update.precedence < update.precedence) → _ ∧ _))

instance (world : Recorded) (event) : Decidable (world.Audible event) := by
  rcases event <;> dsimp only [Audible] <;> infer_instance

/-- The consumer knows exactly the present members, with the newest alive metadata. -/
structure Told (world : Recorded) : Prop where
  known : ∀ member, (story world.events).get member =
    if world.present member then world.newestMetadata member else none
  newest : ∀ member, world.present member = true →
    ∃ metadata, world.newestMetadata member = some metadata
  alive : ∀ member current, world.view.get member = some current → current.update.state = .alive →
    world.newestMetadata member = some current.update.metadata
  turns : ∀ member, turns world.events member = some (world.present member)

theorem told_create (selfName : JsString) : (create selfName).Told := by
  constructor
  · intro member
    rfl
  · intro member hpresent
    cases hpresent
  · intro member current hget
    cases hget
  · intro member
    rfl

/-- The world after a replacement. -/
def accept (world : Recorded) (next : MembershipUpdate) (now : Millis) : Recorded :=
  ⟨world.view.store next now, (world.view.recordOf next now).toMemberRecord :: world.held,
    world.events ++ (world.view.transition next now).toList⟩

variable {world world' : Recorded} {next : MembershipUpdate} {now : Millis}

theorem present_accept (world : Recorded) (next : MembershipUpdate) (now : Millis)
    (member : JsString) : (world.accept next now).present member =
      if member = next.member then isProbeEligibleState next.state else world.present member := by
  rw [present, accept, get_store]
  split <;> rfl

theorem newestMetadata_accept (world : Recorded) (next : MembershipUpdate) (now : Millis)
    (member : JsString) : (world.accept next now).newestMetadata member =
      if next.member = member ∧ next.state = .alive then some next.metadata
      else world.newestMetadata member := by
  simp only [newestMetadata, accept, recordOf, find?_cons]
  by_cases h : next.member = member ∧ next.state = .alive
  · simp [h]
  · simp [h]

theorem transition_of_some {type : MembershipEventType}
    (h : eventType (world.view.get next.member) next = some type) :
    ∃ event, world.view.transition next now = some event ∧ event.type = type ∧
      event.member.update = next := by
  rw [transition, h]
  exact ⟨_, rfl, rfl, rfl⟩

theorem transition_of_none (h : eventType (world.view.get next.member) next = none) :
    world.view.transition next now = none := by
  rw [transition, h]
  rfl

/-- The member's own events and metadata after a told replacement, one case per event. -/
theorem Told.own (h : world.Told)
    (hsuspect : next.state = .suspect → world.present next.member = true)
    (halive : next.state = .alive → ∀ current ∈ world.view.get next.member,
      current.update.state = .suspect → world.newestMetadata next.member = some next.metadata) :
    Membership.turns (world.accept next now).events next.member =
        some (isProbeEligibleState next.state) ∧
      (story (world.accept next now).events).get next.member =
        if isProbeEligibleState next.state then
          if next.state = .alive then some next.metadata else world.newestMetadata next.member
        else none := by
  have hturns := h.turns next.member
  have hknown := h.known next.member
  have hpresent : world.present next.member =
      (world.view.get next.member).any StoredRecord.eligible := rfl
  simp only [Recorded.accept]
  rcases eventType_cases (world.view.get next.member) next with
    ⟨hevent, hstate, habsent⟩ | ⟨hevent, hstate, hthere⟩ | ⟨hevent, hterminal, hthere⟩ |
    ⟨hevent, hterminal, habsent⟩ | ⟨hevent, hstate, record, hget, hrecord⟩ | ⟨hevent, hstate⟩
  · obtain ⟨event, htransition, htype, hupdate⟩ := @transition_of_some world next now _ hevent
    rw [htransition, toList_some, turns_concat, story_concat, hupdate, if_pos rfl, hturns,
      hpresent, habsent, tell, htype, hupdate, hstate]
    exact ⟨rfl, by simp [get_set, isProbeEligibleState]⟩
  · obtain ⟨event, htransition, htype, hupdate⟩ := @transition_of_some world next now _ hevent
    rw [htransition, toList_some, turns_concat, story_concat, hupdate, if_pos rfl, hturns,
      hpresent, hthere, tell, htype, hupdate, hstate]
    exact ⟨rfl, by simp [get_set, isProbeEligibleState]⟩
  · have hnot : isProbeEligibleState next.state = false := isProbeEligible_of_terminal hterminal
    rcases hevent with hevent | hevent
    all_goals
      obtain ⟨event, htransition, htype, hupdate⟩ := @transition_of_some world next now _ hevent
      rw [htransition, toList_some, turns_concat, story_concat, hupdate, if_pos rfl, hturns,
        hpresent, hthere, tell, htype, hupdate, hnot]
      exact ⟨rfl, by simp [get_delete]⟩
  · have hnot : isProbeEligibleState next.state = false := isProbeEligible_of_terminal hterminal
    rw [transition_of_none hevent, toList_none, append_nil, hturns, hknown, hpresent,
      habsent, hnot]
    exact ⟨rfl, rfl⟩
  · have hthere : world.present next.member = true := by
      rw [hpresent, hget, any_some, StoredRecord.eligible]
      rcases hrecord with hs | ⟨hs, -⟩ <;> simp [hs, isProbeEligibleState]
    have hmeta : world.newestMetadata next.member = some next.metadata := by
      rcases hrecord with hs | ⟨hs, hsame⟩
      · exact halive hstate record hget hs
      · rw [← hsame]
        exact h.alive next.member record hget hs
    rw [transition_of_none hevent, toList_none, append_nil, hturns, hknown, hthere,
      hmeta, hstate]
    exact ⟨rfl, by simp [isProbeEligibleState]⟩
  · rw [transition_of_none hevent, toList_none, append_nil, hturns, hknown,
      hsuspect hstate, hstate]
    exact ⟨rfl, by simp [isProbeEligibleState]⟩

/-- A replacement leaves the story of every other member alone. -/
theorem story_accept_of_ne {member : JsString} (hne : member ≠ next.member) :
    Membership.turns (world.accept next now).events member = Membership.turns world.events member ∧
      (story (world.accept next now).events).get member = (story world.events).get member := by
  simp only [accept]
  cases hevent : eventType (world.view.get next.member) next with
  | none =>
    rw [transition_of_none hevent, toList_none, append_nil]
    exact ⟨rfl, rfl⟩
  | some type =>
    obtain ⟨event, htransition, -, hupdate⟩ := @transition_of_some world next now _ hevent
    rw [htransition, toList_some, turns_concat, story_concat,
      get_tell_of_ne (by rwa [hupdate]), hupdate, if_neg hne.symm]
    exact ⟨rfl, rfl⟩

/-- A told replacement keeps the consumer exact. -/
theorem Told.accept (h : world.Told)
    (hsuspect : next.state = .suspect → world.present next.member = true)
    (halive : next.state = .alive → ∀ current ∈ world.view.get next.member,
      current.update.state = .suspect → world.newestMetadata next.member = some next.metadata) :
    (world.accept next now).Told := by
  obtain ⟨howntu, hownst⟩ := @Told.own world next now h hsuspect halive
  constructor
  · intro member
    rw [present_accept, newestMetadata_accept]
    by_cases hm : member = next.member
    · subst hm
      rw [hownst, if_pos rfl]
      simp
    · have hother : ¬ (next.member = member ∧ next.state = .alive) := fun hboth => hm hboth.1.symm
      rw [(story_accept_of_ne hm).2, h.known, if_neg hm, if_neg hother]
  · intro member hpresent
    rw [present_accept] at hpresent
    rw [newestMetadata_accept]
    split_ifs with hnot
    · exact ⟨_, rfl⟩
    · by_cases hm : member = next.member
      · subst hm
        rw [if_pos rfl] at hpresent
        have hstate : next.state = .suspect := by
          cases hs : next.state <;> simp_all [isProbeEligibleState]
        exact h.newest _ (hsuspect hstate)
      · rw [if_neg hm] at hpresent
        exact h.newest member hpresent
  · intro member current hget hcurrent
    rw [newestMetadata_accept]
    simp only [Recorded.accept, get_store] at hget
    split_ifs at hget with hm
    · rw [← some.inj hget] at hcurrent ⊢
      rw [if_pos ⟨hm.symm, hcurrent⟩]
      rfl
    · rw [if_neg (fun hboth => hm hboth.1.symm)]
      exact h.alive member current hget hcurrent
  · intro member
    rw [present_accept]
    by_cases hm : member = next.member
    · subst hm
      rw [howntu, if_pos rfl]
    · rw [(story_accept_of_ne hm).1, h.turns, if_neg hm]

/-- Steps that store no record and keep what is present and alive keep the consumer exact. -/
theorem Told.congr (h : world.Told) (hheld : world'.held = world.held)
    (hevents : world'.events = world.events)
    (hpresent : ∀ member, world'.present member = world.present member)
    (halive : ∀ member current, world'.view.get member = some current →
      current.update.state = .alive →
        ∃ old, world.view.get member = some old ∧ old.update = current.update) : world'.Told := by
  have hnewest : ∀ member, world'.newestMetadata member = world.newestMetadata member := by
    intro member
    rw [newestMetadata, newestMetadata, hheld]
  constructor
  · intro member
    rw [hevents, h.known, hpresent, hnewest]
  · intro member hthere
    rw [hnewest]
    exact h.newest member (hpresent member ▸ hthere)
  · intro member current hget hstate
    obtain ⟨old, hold, hsame⟩ := halive member current hget hstate
    rw [hnewest, ← hsame]
    exact h.alive member old hold (hsame ▸ hstate)
  · intro member
    rw [hevents, h.turns, hpresent]

theorem Told.applyLocal (h : world.Told) (hannounced : world.Announced next) :
    (world.take (world.view.applyLocal next now)).Told := by
  cases hresult : world.view.applyLocal next now with
  | error e => exact h
  | ok outcome =>
    obtain ⟨result, view⟩ := outcome
    rcases applyLocal_cases hresult with ⟨rfl, rfl⟩ |
      ⟨current, hget, hconfirms, rfl, rfl⟩ | ⟨hsupersedes, rfl, rfl⟩
    · exact h
    · refine h.congr rfl rfl (fun member => ?_) (fun member record hrecord _ => ?_)
      · simp only [take, ApplyResult.accepted, present, get_confirm]
        split_ifs with hm
        · rw [hm, hget]
          rfl
        · rfl
      · simp only [take, ApplyResult.accepted, get_confirm] at hrecord
        split_ifs at hrecord with hm
        · rw [← some.inj hrecord]
          exact ⟨current, hm ▸ hget, rfl⟩
        · exact ⟨record, hrecord, rfl⟩
    · exact h.accept (hannounced hsupersedes).1 (hannounced hsupersedes).2

theorem Told.step (h : world.Told) {event : ViewEvent} (haudible : world.Audible event)
    (hstep : world.step event = some world') : world'.Told := by
  cases event with
  | apply incoming now time =>
    cases hstep
    cases hresult : world.view.apply incoming now time with
    | error e => exact h
    | ok outcome =>
      obtain ⟨result, view⟩ := outcome
      rcases apply_cases hresult with ⟨hrefute, hlocal⟩ | ⟨rfl, rfl⟩ | ⟨hrefute, -, rfl, rfl⟩
      · rw [Audible, hrefute] at haudible
        rw [← hlocal]
        exact h.applyLocal haudible
      · exact h
      · rw [Audible, if_pos hrefute, member_of_wouldRefute hrefute] at haudible
        refine @Told.accept world (world.view.defense incoming time) now h nofun ?_
        intro _ current hcurrent hsuspect
        refine (haudible current hcurrent hsuspect).trans ?_
        have hmember := member_of_wouldRefute hrefute
        have hget : world.view.get incoming.member = some current := hmember ▸ hcurrent
        simp [defense, hget, hsuspect]
  | applyLocal update now =>
    cases hstep
    exact h.applyLocal haudible
  | reap operation =>
    cases hstep
    refine h.congr rfl rfl (fun member => ?_) (fun member record hrecord _ => ?_)
    · simp only [present, get_reap]
      split_ifs with hreaped
      · rw [hreaped.2]
        exact (not_eligible_of_reapable hreaped.1).symm
      · rfl
    · rw [get_reap] at hrecord
      split at hrecord
      · cases hrecord
      · exact ⟨record, hrecord, rfl⟩

/-- In every run of told steps the fold of the events is, at every point, the members retained as
    alive or suspect, each with the metadata of the newest alive record accepted for it, and every
    member's events alternate. -/
theorem event_stream_tells {selfName : JsString} {events : List ViewEvent} {world : Recorded}
    (haudible : Meets Recorded.step Audible (create selfName) events)
    (hrun : run Recorded.step (create selfName) events = some world) (member : JsString) :
    (story world.events).get member =
        (if world.present member then world.newestMetadata member else none) ∧
      (world.present member = true → ((story world.events).get member).isSome = true) ∧
      (Membership.turns world.events member).isSome = true := by
  have htold : world.Told :=
    run_preserves (fun _ _ _ h hcond hstep => h.step hcond hstep) (told_create selfName) haudible
      hrun
  refine ⟨htold.known member, fun hpresent => ?_, ?_⟩
  · obtain ⟨metadata, hmeta⟩ := htold.newest member hpresent
    rw [htold.known, hpresent, hmeta]
    rfl
  · rw [htold.turns]
    rfl

/-- Member `b`, alive with metadata. -/
def heardAlive : MembershipUpdate := ⟨.alive, true, 0, 0, [98], [], [7]⟩

/-- Member `b`, suspected by `c`. -/
def heardSuspect : MembershipUpdate := ⟨.suspect, false, 0, 0, [98], [99], []⟩

/-- A member first heard of as suspect is retained and never told. -/
theorem suspect_stranger_untold : ∃ world,
    run Recorded.step (create [97]) [.apply heardSuspect 0 0] = some world ∧
      world.present [98] = true ∧ (story world.events).get [98] = none :=
  ⟨_, rfl, by decide, by decide⟩

/-- A member heard of as alive and then as suspect keeps its metadata in the story. -/
theorem suspected_member_told : ∃ world,
    run Recorded.step (create [97]) [.apply heardAlive 0 0, .apply heardSuspect 1 0] = some world ∧
      (story world.events).get [98] = some [7] := by
  have haudible : Meets Recorded.step Audible (create [97])
      [.apply heardAlive 0 0, .apply heardSuspect 1 0] := by decide +kernel
  refine ends_imp (P := fun world => world.present [98] = true ∧
      world.newestMetadata [98] = some [7]) (by decide +kernel) ?_
  rintro world hrun ⟨hpresent, hnewest⟩
  rw [(event_stream_tells haudible hrun [98]).1, hpresent, hnewest]
  rfl

end Recorded

end Nodeakt.Membership
