import Nodeakt.Clustering.Node

/-! The published joins and departures of peers (`clustering.ts`).

    A join is published when a view first shows the peer, a departure only when the recovery of a
    table installed later has finished (or a backstop fires), and not at all if the peer is back by
    then. A peer that returns while its departure waits is announced a second time without having
    left. `node_events_alternate`: as long as no peer returns before its departure has been
    published, joins and departures of every peer alternate. -/

namespace Nodeakt.Clustering
open Schemes Nodeakt.Kv List

/-- Whether an event is a join (`true`) or a departure of a peer. -/
def transition (address : JsString) : ClusterEvent → Option Bool
  | .nodeJoined name => if name = address then some true else none
  | .nodeLeft name => if name = address then some false else none
  | _ => none

/-- The joins and departures of a peer, in the order they were published. -/
def transitions (address : JsString) (events : List ClusterEvent) : List Bool :=
  events.filterMap (transition address)

/-- Joins and departures alternate, starting with a join. -/
def Alternate (flags : List Bool) : Prop := List.IsChain (· ≠ ·) (false :: flags)

instance (flags : List Bool) : Decidable (Alternate flags) :=
  inferInstanceAs (Decidable (List.IsChain (· ≠ ·) (false :: flags)))

/-- Whether the last that was published of a peer is that it joined. -/
def isPresent (flags : List Bool) : Bool := flags.getLastD false

theorem transitions_append (address : JsString) (events more : List ClusterEvent) :
    transitions address (events ++ more) = transitions address events ++ transitions address more :=
  filterMap_append

theorem transitions_eq_nil {address : JsString} {events : List ClusterEvent}
    (h : ∀ e ∈ events, transition address e = none) : transitions address events = [] :=
  filterMap_eq_nil_iff.mpr h

/-- Rebalance notices are no transitions. -/
theorem transitions_notices {address : JsString} {notices : List ClusterEvent}
    (h : ∀ notice ∈ notices, Cluster.isNotice notice = true) : transitions address notices = [] := by
  refine transitions_eq_nil fun e he => ?_
  have hnotice := h e he
  cases e <;> first | rfl | cases hnotice

/-- Distinct names are announced once each. -/
theorem transitions_map {address : JsString} {names : List JsString} (h : names.Nodup)
    {event : JsString → ClusterEvent} {flag : Bool}
    (hevent : ∀ name, transition address (event name) = if name = address then some flag else none) :
    transitions address (names.map event) = if address ∈ names then [flag] else [] := by
  induction names with
  | nil => rfl
  | cons name rest ih =>
    obtain ⟨hfresh, hrest⟩ := nodup_cons.mp h
    rw [map_cons, transitions, filterMap_cons, hevent, ← transitions, ih hrest]
    by_cases hname : name = address
    · subst hname
      simp [hfresh]
    · simp [hname, Ne.symm hname]

/-- One more transition alternates if it is not the last one again. -/
theorem Alternate.concat {flags : List Bool} (h : Alternate flags) {flag : Bool}
    (hlast : isPresent flags ≠ flag) : Alternate (flags ++ [flag]) := by
  unfold Alternate at h ⊢
  rw [← cons_append]
  refine h.append (isChain_singleton _) fun x hx y hy => ?_
  cases hy
  have hlast' : (false :: flags).getLast? = some (isPresent flags) := by
    cases flags <;> simp [isPresent, getLast?_cons]
  rw [hlast'] at hx
  cases hx
  exact hlast

theorem isPresent_concat (flags : List Bool) (flag : Bool) : isPresent (flags ++ [flag]) = flag := by
  simp [isPresent]

namespace Cluster

/-- The peers whose departure has not been published: in the view, pending or claimed. -/
def tracked (c : Cluster) : List JsString :=
  c.previousMembers.filter (fun name => decide (name ≠ c.self)) ++ c.pendingLeft ++ c.claims.flatten

/-- A view lists no name twice, and no peer returns while its departure is pending or claimed. -/
def Orderly (c : Cluster) : NodeEvent → Prop
  | .view members _ => (members.map Kv.ClusterMember.name).Nodup ∧
      ∀ name ∈ members.map Kv.ClusterMember.name, name ∉ c.previousMembers →
        name ∉ c.pendingLeft ∧ name ∉ c.claims.flatten
  | _ => True

instance (c : Cluster) (e : NodeEvent) : Decidable (c.Orderly e) := by
  rcases e <;> dsimp only [Orderly] <;> infer_instance

/-- A peer is tracked exactly while the last that was published of it is its join, and once. -/
structure Announced (c : Cluster) : Prop where
  current : c.previousMembers = c.memberNames
  once : c.tracked.Nodup
  peers : ∀ name ∈ c.tracked, name ≠ c.self
  alternate : ∀ address, Alternate (transitions address c.events)
  present : ∀ address, isPresent (transitions address c.events) = true ↔ address ∈ c.tracked

variable {c next : Cluster}

theorem announced_create (self : JsString) (partitionCount : ℕ) (positive : 0 < partitionCount)
    (replicaCount writeQuorum : ℕ) (resolver : KeepMajorityResolver) :
    (create self partitionCount positive replicaCount writeQuorum resolver).Announced := by
  refine ⟨rfl, nodup_nil, by simp [tracked, create], fun _ => isChain_singleton _,
    fun address => ?_⟩
  simp [tracked, create, transitions, isPresent]

section

variable (h : c.Announced)
include h

/-- What is tracked may move between the lists, and other events be published. -/
theorem Announced.congr (hself : next.self = c.self)
    (hprevious : next.previousMembers = c.previousMembers) (hview : next.view = c.view)
    (hperm : next.tracked.Perm c.tracked)
    (hevents : ∀ address, transitions address next.events = transitions address c.events) :
    next.Announced := by
  refine ⟨?_, hperm.nodup_iff.mpr h.once, fun name hname => ?_, fun address => ?_, fun address => ?_⟩
  · rw [hprevious, h.current, memberNames, memberNames, hview]
  · rw [hself]
    exact h.peers name (hperm.mem_iff.mp hname)
  · rw [hevents]
    exact h.alternate address
  · rw [hevents, h.present, hperm.mem_iff]

/-- Departures of tracked names are published, and the names no longer tracked. -/
theorem Announced.leave (names : List JsString) (hself : next.self = c.self)
    (hprevious : next.previousMembers = c.previousMembers) (hview : next.view = c.view)
    (hperm : c.tracked.Perm (names ++ next.tracked))
    (hevents : next.events = c.events ++ names.map .nodeLeft) : next.Announced := by
  obtain ⟨hnames, hrest, hapart⟩ := nodup_append.mp (hperm.nodup_iff.mp h.once)
  have htransitions : ∀ address, transitions address next.events =
      transitions address c.events ++ if address ∈ names then [false] else [] := by
    intro address
    rw [hevents, transitions_append, transitions_map hnames fun _ => rfl]
  have htracked : ∀ address, address ∈ c.tracked ↔ address ∈ names ∨ address ∈ next.tracked :=
    fun address => by rw [hperm.mem_iff, mem_append]
  refine ⟨?_, hrest, fun name hname => ?_, fun address => ?_, fun address => ?_⟩
  · rw [hprevious, h.current, memberNames, memberNames, hview]
  · rw [hself]
    exact h.peers name ((htracked name).mpr (.inr hname))
  · rw [htransitions]
    split_ifs with hleft
    · have hpresent := (h.present address).mpr ((htracked address).mpr (.inl hleft))
      exact (h.alternate address).concat (by simp [hpresent])
    · rw [append_nil]
      exact h.alternate address
  · rw [htransitions]
    split_ifs with hleft
    · have hgone : address ∉ next.tracked := fun hmem => hapart address hleft address hmem rfl
      simp [isPresent_concat, hgone]
    · rw [append_nil, h.present, htracked]
      simp [hleft]

/-- Names whose departure waits are absent from the view. -/
theorem Announced.absent {name : JsString}
    (hname : name ∈ c.pendingLeft ∨ name ∈ c.claims.flatten) : name ∉ c.memberNames := by
  intro hmember
  have htracked : name ∈ c.tracked := by
    rcases hname with hname | hname <;> simp [tracked, hname]
  have hview : name ∈ c.previousMembers.filter (fun other => decide (other ≠ c.self)) :=
    mem_filter.mpr ⟨h.current ▸ hmember, decide_eq_true (h.peers name htracked)⟩
  have honce := h.once
  unfold tracked at honce
  rw [append_assoc] at honce
  have hapart := (nodup_append.mp honce).2.2
  exact hapart name hview name (mem_append.mpr hname) rfl

theorem Announced.report (names : List JsString)
    (hwait : ∀ name ∈ names, name ∈ c.pendingLeft ∨ name ∈ c.claims.flatten) :
    names.filter (fun name => decide (name ∉ c.memberNames)) = names :=
  filter_eq_self.mpr fun name hname => decide_eq_true (h.absent (hwait name hname))

theorem Announced.releaseLeft : c.releaseLeft.Announced := by
  refine h.leave c.pendingLeft rfl rfl rfl ?_ ?_
  · simp only [tracked, Cluster.releaseLeft, reportDepartures, append_nil]
    exact (perm_append_comm.append_right _).trans (.of_eq (append_assoc ..))
  · have hall := h.report c.pendingLeft fun _ hname => .inl hname
    simp only [Cluster.releaseLeft, reportDepartures]
    exact congrArg (fun names => c.events ++ names.map .nodeLeft) hall

theorem Announced.recovered {index : ℕ} {claimed : List JsString}
    (hclaimed : c.claims[index]? = some claimed) :
    (({ c with claims := c.claims.eraseIdx index } : Cluster).reportDepartures claimed).Announced := by
  have hmem : claimed ∈ c.claims := List.mem_of_getElem? hclaimed
  refine h.leave claimed rfl rfl rfl ?_ ?_
  · have hflat : c.claims.flatten.Perm (claimed ++ (c.claims.eraseIdx index).flatten) := by
      obtain ⟨hlt, rfl⟩ := List.getElem?_eq_some_iff.mp hclaimed
      have hcons := (List.getElem_cons_eraseIdx_perm hlt).symm.flatten
      rwa [List.flatten_cons] at hcons
    simp only [tracked, reportDepartures]
    refine (hflat.append_left _).trans ?_
    rw [← List.append_assoc, ← List.append_assoc]
    exact List.perm_append_comm.append_right _
  · have hall := h.report claimed fun _ hname =>
      .inr (List.mem_flatten.mpr ⟨claimed, hmem, hname⟩)
    simp only [reportDepartures]
    exact congrArg (fun names => c.events ++ names.map .nodeLeft) hall

theorem Announced.progress (hp : c.Progress next) : next.Announced := by
  cases hp with
  | idle coordinator pushing waiting notices hnotices =>
    refine h.congr rfl rfl rfl (.refl _) fun address => ?_
    simp only [publish, moved]
    rw [transitions_append, transitions_notices hnotices, append_nil]
  | install coordinator pushing waiting notices hnotices =>
    refine h.congr rfl rfl rfl ?_ fun address => ?_
    · -- the pending departures move to the claims
      simp only [tracked, publish, install, moved, flatten_append, flatten_singleton,
        append_nil, append_assoc]
      exact perm_append_comm.append_left _
    · simp only [publish, install, moved]
      rw [transitions_append, transitions_notices hnotices, append_nil]

end

theorem tracked_emit (c : Cluster) : c.emitMembershipEvents.tracked =
    c.memberNames.filter (fun name => decide (name ≠ c.self)) ++ (c.pendingLeft ++ c.departed) ++
      c.claims.flatten := rfl

/-- A peer that a new view shows has joined, or was tracked already. -/
theorem mem_tracked_emit (c : Cluster) {address : JsString} :
    address ∈ c.emitMembershipEvents.tracked ↔ address ∈ c.tracked ∨ address ∈ c.joined := by
  rw [tracked_emit]
  simp only [tracked, joined, departed, mem_append, mem_filter, Bool.and_eq_true, decide_eq_true_eq]
  tauto

/-- A new view tracks every peer once, if it lists no name twice and no tracked peer returns. -/
theorem nodup_tracked_emit (honce : c.tracked.Nodup) (hnodup : c.memberNames.Nodup)
    (hreturn : ∀ name ∈ c.memberNames, name ∉ c.previousMembers →
      name ∉ c.pendingLeft ∧ name ∉ c.claims.flatten) :
    c.emitMembershipEvents.tracked.Nodup := by
  rw [nodup_iff_count_le_one] at honce hnodup ⊢
  intro address
  have hcount := honce address
  have hview := hnodup address
  rw [tracked_emit]
  simp only [tracked, departed, count_append] at hcount ⊢
  by_cases hself : address = c.self
  · have hnone : ∀ {names : List JsString} {keep : JsString → Bool},
        (names.filter (fun name => decide (name ≠ c.self) && keep name)).count address = 0 := by
      intro names keep
      simp [count_eq_zero, hself]
    have hnone' : ∀ {names : List JsString},
        (names.filter (fun name => decide (name ≠ c.self))).count address = 0 := by
      intro names
      simp [count_eq_zero, hself]
    rw [hnone'] at hcount ⊢
    rw [hnone]
    omega
  · have hpeer : ∀ {names : List JsString},
        (names.filter (fun name => decide (name ≠ c.self))).count address = names.count address := by
      intro names
      exact count_filter (by simp [hself])
    rw [hpeer] at hcount ⊢
    by_cases hmember : address ∈ c.memberNames
    · have hgone : (c.previousMembers.filter (fun name => decide (name ≠ c.self) &&
          decide (name ∉ c.memberNames))).count address = 0 := by
        simp [count_eq_zero, hmember]
      rw [hgone]
      by_cases hold : address ∈ c.previousMembers
      · have := count_pos_iff.mpr hold
        omega
      · obtain ⟨hpending, hclaimed⟩ := hreturn address hmember hold
        rw [count_eq_zero.mpr hpending, count_eq_zero.mpr hclaimed]
        omega
    · have hgone : (c.previousMembers.filter (fun name => decide (name ≠ c.self) &&
          decide (name ∉ c.memberNames))).count address = c.previousMembers.count address :=
        count_filter (by simp [hself, hmember])
      rw [hgone, count_eq_zero.mpr hmember]
      omega

theorem transition_coordinatorChange (c : Cluster) (address : JsString) :
    transitions address c.coordinatorChange = [] := by
  refine transitions_eq_nil fun e he => ?_
  unfold coordinatorChange at he
  split at he
  · cases he
  · split at he
    · cases he
    · rw [mem_singleton.mp he]
      rfl

/-- Publishing the transitions of a view that tracked the peers of the last one. -/
theorem Announced.emit {members : List Kv.ClusterMember} (h : c.Announced)
    (hself : next.self = c.self) (hview : next.view = members)
    (hprevious : next.previousMembers = c.previousMembers)
    (hpending : next.pendingLeft = c.pendingLeft) (hclaims : next.claims = c.claims)
    (hevents : next.events = c.events) (nowMs : Kv.Millis)
    (horderly : c.Orderly (.view members nowMs)) : next.emitMembershipEvents.Announced := by
  obtain ⟨hnodup, hreturn⟩ := horderly
  have hnames : next.memberNames = members.map Kv.ClusterMember.name := by rw [memberNames, hview]
  have htracked : next.tracked = c.tracked := by
    rw [tracked, tracked, hprevious, hpending, hclaims, hself]
  have hreturn' : ∀ name ∈ next.memberNames, name ∉ next.previousMembers →
      name ∉ next.pendingLeft ∧ name ∉ next.claims.flatten := by
    rw [hnames, hprevious, hpending, hclaims]
    exact hreturn
  have hfresh : ∀ address ∈ next.joined, address ∉ c.tracked := by
    intro address hjoined hmem
    obtain ⟨hmember, hnew⟩ := mem_filter.mp hjoined
    simp only [Bool.and_eq_true, decide_eq_true_eq] at hnew
    obtain ⟨hpending, hclaimed⟩ := hreturn' address hmember hnew.2
    rw [← htracked] at hmem
    simp only [tracked, mem_append, mem_filter] at hmem
    tauto
  have htransitions : ∀ address, transitions address next.emitMembershipEvents.events =
      transitions address c.events ++ if address ∈ next.joined then [true] else [] := by
    intro address
    have hdistinct : next.joined.Nodup := (hnames ▸ hnodup).filter _
    simp only [emitMembershipEvents]
    rw [transitions_append, transitions_append, transition_coordinatorChange, append_nil,
      hevents, transitions_map hdistinct fun _ => rfl]
  refine ⟨rfl, ?_, fun name hname => ?_, fun address => ?_, fun address => ?_⟩
  · exact nodup_tracked_emit (htracked ▸ h.once) (hnames ▸ hnodup) hreturn'
  · rcases (mem_tracked_emit next).mp hname with hold | hjoined
    · exact hself ▸ h.peers name (htracked ▸ hold)
    · have hpeer := (mem_filter.mp hjoined).2
      simp only [Bool.and_eq_true, decide_eq_true_eq] at hpeer
      exact hpeer.1
  · rw [htransitions]
    split_ifs with hjoined
    · have habsent := mt (h.present address).mp (hfresh address hjoined)
      exact (h.alternate address).concat habsent
    · rw [append_nil]
      exact h.alternate address
  · rw [htransitions, mem_tracked_emit, htracked]
    split_ifs with hjoined
    · simp [isPresent_concat, hjoined]
    · rw [append_nil, h.present]
      simp [hjoined]

theorem Announced.step (h : c.Announced) {e : NodeEvent} (horderly : c.Orderly e)
    (hstep : c.step e = some next) : next.Announced := by
  cases taken_of_step hstep with
  | view members nowMs =>
    have hemit := @Announced.emit c (({ c with view := members } : Cluster).applyResolver nowMs)
      members h rfl rfl rfl rfl rfl rfl nowMs horderly
    exact hemit.progress (progress_rebalance _ true)
  | quiet => exact h.congr rfl rfl rfl (.refl _) fun _ => rfl
  | backstop => exact h.releaseLeft
  | recovered hclaimed => exact h.recovered hclaimed
  | progress hp => exact h.progress hp
  | store hs =>
    obtain ⟨_, _, _, _, _, rfl⟩ := hs
    exact h.congr rfl rfl rfl (.refl _) fun _ => rfl

/-- As long as no peer returns before its departure has been published, the joins and departures of
    every peer alternate, starting with a join. -/
theorem node_events_alternate (self : JsString) (partitionCount : ℕ) (positive : 0 < partitionCount)
    (replicaCount writeQuorum : ℕ) (resolver : KeepMajorityResolver) {es : List NodeEvent}
    (horderly : Meets Cluster.step Orderly
      (create self partitionCount positive replicaCount writeQuorum resolver) es)
    (hrun : c ∈ run Cluster.step
      (create self partitionCount positive replicaCount writeQuorum resolver) es)
    (address : JsString) : Alternate (transitions address c.events) :=
  (run_preserves (fun _ _ _ h ho hs => h.step ho hs) (announced_create ..) horderly hrun).alternate
    address

/-- A node alone with the strategy off. -/
def lone : Cluster := create [65] 1 Nat.one_pos 2 1 ⟨1, Nat.one_pos⟩

/-- A peer leaves, its departure is published when the recovery of the next table has finished, and
    it comes back. -/
theorem peer_returns_after_departure : ∃ c ∈ run Cluster.step lone
        [.view [⟨[65], false⟩, ⟨[66], false⟩] 0, .rebalance, .pushed [none], .view [⟨[65], false⟩] 0,
          .rebalance, .pushed [], .recovered 1, .view [⟨[65], false⟩, ⟨[66], false⟩] 0],
      transitions [66] c.events = [true, false, true] ∧ Alternate (transitions [66] c.events) := by
  refine ends_imp (P := fun c => transitions [66] c.events = [true, false, true])
    (by decide +kernel) ?_
  intro c hrun hflags
  exact ⟨hflags,
    node_events_alternate [65] 1 (by decide) 2 1 ⟨1, by decide⟩ (by decide +kernel) hrun [66]⟩

/-- A peer leaves and is back before its departure is published: it joins twice in a row. -/
theorem peer_joins_twice : ∃ c ∈ run Cluster.step lone
        [.view [⟨[65], false⟩, ⟨[66], false⟩] 0, .view [⟨[65], false⟩] 0,
          .view [⟨[65], false⟩, ⟨[66], false⟩] 0],
      ¬Alternate (transitions [66] c.events) := by
  decide +kernel

end Cluster

end Nodeakt.Clustering
