import Nodeakt.Membership.Swim

/-! Timers match truth.

    A member other than the node itself should be under a timed suspicion exactly while the table
    retains it as suspect, at the same incarnation, and a removal should be armed exactly for the
    terminal records. `Timed` says so as two equations between the table and the two maps, and every
    turn restores them: what it stores it enqueues, then cancels the suspicions it supersedes,
    rearms retention and times a suspicion.
    The failure path of the probe does not. It times a suspicion after its own confirmation, which
    may just have expired the running one and declared the member dead.
    `timers_match_truth`: in runs without that, and without suspicions that run out before the engine
    is started, the equations hold throughout. -/

namespace Nodeakt.Membership
open Schemes SuspicionManager MembershipView Option
open Kv (isSafeInteger MAX_SAFE_INTEGER)

variable {member target : JsString} {current : StoredRecord} {incarnation : ℕ}

/-! ### The table seen from the timers -/

namespace MembershipView

variable {view view' : MembershipView} {next : MembershipUpdate} {now : Millis} {name : JsString}

/-- The incarnation at which a member is retained as suspect. -/
def suspectIncarnation (view : MembershipView) (name : JsString) : Option ℕ :=
  (view.get name).bind (fun record =>
    if record.update.state = .suspect then some record.update.incarnation else none)

theorem suspectIncarnation_eq_some {i : ℕ} : view.suspectIncarnation name = some i ↔
    ∃ record, view.get name = some record ∧ record.update.state = .suspect ∧
      record.update.incarnation = i := by
  simp [suspectIncarnation, bind_eq_some_iff]

theorem suspectIncarnation_store (view : MembershipView) (next : MembershipUpdate) (now : Millis)
    (name : JsString) : (view.store next now).suspectIncarnation name =
      if name = next.member then if next.state = .suspect then some next.incarnation else none
      else view.suspectIncarnation name := by
  rw [suspectIncarnation, get_store]
  split <;> rfl

/-- Only the truth and its time decide about a removal. -/
theorem reapOperation_congr (h : (view'.get name).map StoredRecord.toMemberRecord =
    (view.get name).map StoredRecord.toMemberRecord) :
    view'.reapOperation name = view.reapOperation name := by
  unfold reapOperation
  cases hget : view.get name with
  | none =>
    rw [hget, map_none, map_eq_none_iff] at h
    rw [h]
  | some record =>
    rw [hget, map_some] at h
    obtain ⟨record', hget', hsame⟩ := map_eq_some_iff.mp h
    simp only [hget', hsame]

theorem suspectIncarnation_congr (h : (view'.get name).map StoredRecord.toMemberRecord =
    (view.get name).map StoredRecord.toMemberRecord) :
    view'.suspectIncarnation name = view.suspectIncarnation name := by
  have hbind := congrArg (fun truth : Option MemberRecord => truth.bind fun record =>
    if record.update.state = .suspect then some record.update.incarnation else none) h
  simp only [bind_map] at hbind
  exact hbind

theorem truth_confirm (hget : view.get member = some current) (reporter name : JsString) :
    ((view.confirm member current hget reporter).get name).map StoredRecord.toMemberRecord =
      (view.get name).map StoredRecord.toMemberRecord := by
  rw [get_confirm]
  split_ifs with hname
  · rw [hname, hget]
    rfl
  · rfl

/-- A removal is due for a member exactly if its record is terminal. -/
theorem reapOperation_eq_some {operation : ReapOperation} :
    view.reapOperation name = some operation ↔ ∃ record, view.get name = some record ∧
      isTerminalState record.update.state = true ∧ operation.member = name ∧
      operation.state = record.update.state ∧ operation.incarnation = record.update.incarnation ∧
      operation.dueAt = record.appliedAt + TERMINAL_RETENTION_MS := by
  obtain ⟨member, state, incarnation, dueAt, hterminal⟩ := operation
  unfold reapOperation
  cases hget : view.get name with
  | none => simp
  | some record =>
    have hmember := member_of_get hget
    by_cases h : isTerminalState record.update.state = true
    · simp only [h, dif_pos, some.injEq, ReapOperation.mk.injEq, hmember, exists_eq_left', true_and]
      tauto
    · simp [h]

theorem reapOperation_eq_none (h : ∀ record, view.get name = some record →
    isTerminalState record.update.state = false) : view.reapOperation name = none := by
  rw [eq_none_iff_forall_ne_some]
  intro operation hsome
  obtain ⟨record, hget, hterminal, -⟩ := reapOperation_eq_some.mp hsome
  rw [h record hget] at hterminal
  cases hterminal

/-- Truth about this node that is accepted and no accusation is alive, if nothing else was. -/
theorem alive_of_not_refuted (hrefute : view.wouldRefute next = false)
    (hmember : next.member = view.selfName) (hsupersedes : view.Supersedes next) :
    next.state = .alive := by
  by_contra hstate
  unfold wouldRefute at hrefute
  rw [if_neg (not_not.mpr hmember)] at hrefute
  cases hget : view.get next.member with
  | none => simp [hget, hstate] at hrefute
  | some current =>
    simp only [hget, hstate, not_false_eq_true, ne_eq, if_true, decide_eq_false_iff_not] at hrefute
    rcases precedence_lt_iff.mp (hsupersedes current hget) with hlt | ⟨heq, -⟩ <;> omega

end MembershipView

/-! ### What a turn leaves -/

/-- `P` holds of the engine, whether the turn returned or threw. -/
def Leaves {α : Type} (P : Swim → Prop) : EStateM.Result SwimError Swim α → Prop
  | .ok _ engine => P engine
  | .error _ engine => P engine

namespace Swim

variable {α β : Type} {P : Swim → Prop} {engine engine' : Swim}
variable {x : SwimM α} {f : α → SwimM β} {ε : Type} {wrap : ε → SwimError} {part : Except ε α}
  {update : MembershipUpdate}
variable {now : Millis}

theorem bind_ok {a : α} (h : x engine = .ok a engine') : (x >>= f) engine = f a engine' := by
  change EStateM.bind x f engine = _
  rw [EStateM.bind, h]

theorem bind_error {e : SwimError} (h : x engine = .error e engine') :
    (x >>= f) engine = .error e engine' := by
  change EStateM.bind x f engine = _
  rw [EStateM.bind, h]

@[simp] theorem get_bind (f : Swim → SwimM β) : (get >>= f) engine = f engine engine := rfl

@[simp] theorem set_bind (f : PUnit → SwimM β) : (set engine' >>= f) engine = f ⟨⟩ engine' := rfl

theorem leaves_bind (hx : Leaves P (x engine))
    (hf : ∀ a engine', x engine = .ok a engine' → P engine' → Leaves P (f a engine')) :
    Leaves P ((x >>= f) engine) := by
  cases h : x engine with
  | ok a engine' =>
    rw [h] at hx
    rw [bind_ok h]
    exact hf a engine' h hx
  | error e engine' =>
    rw [h] at hx
    rw [bind_error h]
    exact hx

theorem leaves_mono {Q : Swim → Prop} {result : EStateM.Result SwimError Swim α}
    (hPQ : ∀ engine, P engine → Q engine) (h : Leaves P result) : Leaves Q result := by
  cases result with
  | ok a engine | error e engine => exact hPQ engine h

theorem leaves_forM {f : α → SwimM PUnit} : ∀ {l : List α} {engine : Swim},
    (∀ a ∈ l, ∀ engine, P engine → Leaves P (f a engine)) → P engine → Leaves P (l.forM f engine)
  | [], _, _, h => h
  | a :: l, engine, hstep, h => by
      change Leaves P ((f a >>= fun _ => l.forM f) engine)
      refine leaves_bind (hstep a (List.mem_cons_self ..) engine h) fun _ engine' _ h' => ?_
      exact leaves_forM (fun b hb => hstep b (List.mem_cons_of_mem _ hb)) h'

theorem leaves_tryCatch {handler : SwimError → SwimM α} (hx : Leaves P (x engine))
    (hhandler : ∀ e engine', P engine' → Leaves P (handler e engine')) :
    Leaves P (tryCatch x handler engine) := by
  change Leaves P (EStateM.tryCatch x handler engine)
  unfold EStateM.tryCatch
  cases h : x engine with
  | ok a engine' => rwa [h] at hx
  | error e engine' =>
    rw [h] at hx
    exact hhandler e engine' hx

theorem check_error {e : ε} (h : part = .error e) :
    check wrap part engine = .error (wrap e) engine := by
  rw [h]
  rfl

theorem check_ok {a : α} (h : part = .ok a) : check wrap part engine = .ok a engine := by
  rw [h]
  rfl

/-- A check that throws leaves the engine as it was. -/
theorem leaves_check (h : P engine) (hf : ∀ a, part = .ok a → Leaves P (f a engine)) :
    Leaves P ((check wrap part >>= f) engine) := by
  cases hpart : part with
  | error e =>
    rw [bind_error (check_error rfl)]
    exact h
  | ok a =>
    rw [bind_ok (check_ok rfl)]
    exact hf a hpart

theorem after_of_leaves {turn : SwimM Unit} (h : Leaves P (turn engine)) :
    P (after turn engine) := by
  unfold after
  cases hturn : turn engine with
  | ok a engine' | error e engine' => rwa [hturn] at h

theorem enqueue_ok {truth : MembershipUpdate} (h : truth.Valid) :
    enqueue truth engine = .ok () engine := by
  have hprepared := prepareUpdate_eq_ok.mpr ⟨h, rfl⟩
  rw [enqueue, bind_ok (check_ok hprepared)]
  rfl

theorem enqueue_cases (truth : MembershipUpdate) (engine : Swim) :
    enqueue truth engine = .ok () engine ∨ ∃ e, enqueue truth engine = .error e engine := by
  rw [enqueue]
  cases hprepared : prepareUpdate truth with
  | ok prepared =>
    rw [bind_ok (check_ok rfl)]
    exact Or.inl rfl
  | error e => exact Or.inr ⟨_, bind_error (check_error rfl)⟩

theorem leaves_enqueue {truth : MembershipUpdate} (h : P engine) :
    Leaves P (enqueue truth engine) := by
  rcases enqueue_cases truth engine with hok | ⟨e, herror⟩
  · rw [hok]
    exact h
  · rw [herror]
    exact h

/-! ### Maintenance -/

theorem cancelThrough_of_ok {cancelled : Bool} {suspicion : SuspicionManager}
    (h : engine.suspicion.cancelThrough member incarnation = .ok (cancelled, suspicion)) :
    cancelThrough member incarnation engine = .ok () { engine with suspicion := suspicion } := by
  rw [cancelThrough, get_bind, bind_ok (check_ok h)]
  rfl

theorem cancelThrough_of_error {e : RangeError}
    (h : engine.suspicion.cancelThrough member incarnation = .error e) :
    cancelThrough member incarnation engine = .error (.range e) engine := by
  rw [cancelThrough, get_bind, bind_error (check_error h)]

theorem cancelThrough_eq (hinc : incarnation ≤ MAX_INCARNATION)
    (hactive : ∀ i ∈ engine.suspicion.incarnationOf member, i ≤ incarnation) :
    ∃ suspicion, cancelThrough member incarnation engine =
        .ok () { engine with suspicion := suspicion } ∧
      ∀ name, suspicion.outline name =
        if name = member then none else engine.suspicion.outline name := by
  obtain ⟨cancelled, suspicion, hcancel, houtline⟩ := cancelThrough_ok hinc hactive
  exact ⟨suspicion, cancelThrough_of_ok hcancel, houtline⟩

/-- Accepted truth cancels the suspicion it supersedes. -/
theorem cancelSupersededSuspicion_eq (hinc : update.incarnation ≤ MAX_INCARNATION)
    (hactive : ∀ i ∈ engine.suspicion.incarnationOf update.member,
      i < update.incarnation ∨ i = update.incarnation ∧ update.state ≠ .suspect) :
    ∃ suspicion, cancelSupersededSuspicion update engine =
        .ok () { engine with suspicion := suspicion } ∧
      ∀ name, suspicion.outline name =
        if name = update.member then none else engine.suspicion.outline name := by
  unfold cancelSupersededSuspicion
  by_cases hstate : update.state = .suspect
  · rw [if_pos hstate]
    have hbefore : ∀ i ∈ engine.suspicion.incarnationOf update.member, i < update.incarnation :=
      fun i hi => (hactive i hi).resolve_right fun h => h.2 hstate
    by_cases hpos : 0 < update.incarnation
    · rw [if_pos hpos]
      exact cancelThrough_eq (by omega) fun i hi => by have := hbefore i hi; omega
    · rw [if_neg hpos]
      refine ⟨engine.suspicion, rfl, fun name => ?_⟩
      split_ifs with hname
      · have hnone : engine.suspicion.incarnationOf update.member = none :=
          eq_none_iff_forall_ne_some.mpr fun i hi => by have := hbefore i hi; omega
        rw [incarnationOf_eq_outline, map_eq_none_iff] at hnone
        rw [hname, hnone]
      · rfl
  · rw [if_neg hstate]
    exact cancelThrough_eq hinc fun i hi => by rcases hactive i hi with h | h <;> omega

/-- Retention follows the retained record. -/
theorem updateRetention_eq {update : MembershipUpdate} {record : StoredRecord}
    (hget : engine.view.get update.member = some record) (hrecord : record.update = update) :
    ∃ timers, updateRetention update engine = .ok () { engine with reapTimers := timers } ∧
      ∀ name, timers.get name = if name = update.member then engine.view.reapOperation update.member
        else engine.reapTimers.get name := by
  unfold updateRetention
  by_cases hterminal : isTerminalState update.state = true
  · rw [if_pos hterminal]
    obtain ⟨operation, hoperation⟩ : ∃ operation, engine.view.reapOperation update.member =
        some operation := by
      refine ⟨⟨update.member, update.state, update.incarnation,
        record.appliedAt + TERMINAL_RETENTION_MS, hterminal⟩, ?_⟩
      exact reapOperation_eq_some.mpr
        ⟨record, hget, hrecord ▸ hterminal, rfl, by rw [hrecord], by rw [hrecord], rfl⟩
    refine ⟨(engine.reapTimers.delete update.member).set update.member operation, ?_, ?_⟩
    · rw [scheduleReap, bind_ok (rfl : cancelReap update.member engine = .ok () _), get_bind]
      simp only [hoperation]
      rfl
    · intro name
      rw [OrderedMap.get_set, OrderedMap.get_delete, hoperation]
      split <;> rfl
  · rw [if_neg hterminal]
    refine ⟨engine.reapTimers.delete update.member, rfl, fun name => ?_⟩
    rw [OrderedMap.get_delete]
    split
    · rw [reapOperation_eq_none]
      intro other hother
      rw [← some.inj (hget.symm.trans hother), hrecord]
      exact Bool.not_eq_true _ ▸ hterminal
    · rfl

/-- Accepted truth, once retained, is announced, ends the suspicion of its member and settles its
    retention. -/
theorem announce_eq {update : MembershipUpdate} {record : StoredRecord} (hvalid : update.Valid)
    (hactive : ∀ i ∈ engine.suspicion.incarnationOf update.member,
      i < update.incarnation ∨ i = update.incarnation ∧ update.state ≠ .suspect)
    (hget : engine.view.get update.member = some record) (hrecord : record.update = update) :
    ∃ suspicion timers, announce update engine =
        .ok () { engine with suspicion := suspicion, reapTimers := timers } ∧
      (∀ name, suspicion.outline name =
        if name = update.member then none else engine.suspicion.outline name) ∧
      ∀ name, timers.get name = if name = update.member then engine.view.reapOperation update.member
        else engine.reapTimers.get name := by
  obtain ⟨suspicion, hcancel, houtline⟩ := cancelSupersededSuspicion_eq hvalid.incarnation hactive
  obtain ⟨timers, hretention, htimers⟩ :=
    @updateRetention_eq { engine with suspicion := suspicion } update record hget hrecord
  refine ⟨suspicion, timers, ?_, houtline, htimers⟩
  rw [announce, bind_ok (enqueue_ok hvalid), truthApplied, bind_ok hcancel, hretention]

/-! ### The invariant -/

/-- Suspicions and removals follow the table. -/
structure Timed (engine : Swim) : Prop where
  owner : engine.view.selfName = engine.address
  named : Nameable false engine.address
  self : ∀ record, engine.view.get engine.address = some record → record.update.state = .alive
  suspects : ∀ name, name ≠ engine.address →
    engine.suspicion.incarnationOf name = engine.view.suspectIncarnation name
  reaps : ∀ name, engine.reapTimers.get name = engine.view.reapOperation name
  known : ∀ name record, engine.view.get name = some record → name ≠ engine.address →
    Nameable false name ∧ record.update.incarnation ≤ MAX_INCARNATION
  capacity : engine.view.size ≤ MAX_MEMBERS

/-- Timers follow the table, and until the engine is started no suspicion can have run out. -/
structure Kept (now : Millis) (engine : Swim) : Prop extends Timed engine where
  early : engine.state ≠ .started → ∀ name outline,
    engine.suspicion.outline name = some outline → now < outline.2

theorem timed_create {address : JsString} {metadata : Bytes}
    {fits : metadata.length ≤ MAX_METADATA_BYTES} (h : Nameable false address) :
    Timed (create address metadata fits) := by
  constructor
  · rfl
  · exact h
  · intro record hget
    cases hget
  · intro name _
    rfl
  · intro name
    rfl
  · intro name record hget
    cases hget
  · exact Nat.zero_le _

theorem Timed.aliveTimer (h : Timed engine) : engine.view.reapOperation engine.address = none :=
  reapOperation_eq_none fun record hget => by rw [h.self record hget]; rfl

/-- After truth is stored and its timers are settled, timers follow the table again. -/
theorem Timed.accept {next : MembershipUpdate} {now : Millis} {suspicion : SuspicionManager}
    {timers : OrderedMap JsString ReapOperation} (h : Timed engine)
    (hself : next.member = engine.address → next.state = .alive)
    (hknown : next.member ≠ engine.address →
      Nameable false next.member ∧ next.incarnation ≤ MAX_INCARNATION)
    (hsize : (engine.view.store next now).size ≤ MAX_MEMBERS)
    (hsuspects : ∀ name, name ≠ engine.address → suspicion.incarnationOf name =
      if name = next.member then if next.state = .suspect then some next.incarnation else none
      else engine.suspicion.incarnationOf name)
    (hreaps : ∀ name, timers.get name =
      if name = next.member then (engine.view.store next now).reapOperation name
      else engine.reapTimers.get name) :
    Timed { engine with view := engine.view.store next now, suspicion, reapTimers := timers } where
  owner := h.owner
  named := h.named
  self record hget := by
    rw [get_store] at hget
    split_ifs at hget with hmember
    · cases hget
      exact hself hmember.symm
    · exact h.self record hget
  suspects name hne := by
    rw [hsuspects name hne, suspectIncarnation_store, h.suspects name hne]
  reaps name := by
    rw [hreaps]
    split_ifs with hne
    · rfl
    · exact (h.reaps name).trans (reapOperation_congr (by rw [get_store, if_neg hne])).symm
  known name record hget hne := by
    rw [get_store] at hget
    split_ifs at hget with hmember
    · cases hget
      rw [hmember] at hne ⊢
      exact hknown hne
    · exact h.known name record hget hne
  capacity := hsize

/-- A confirmation is no new truth: timers only look at the truth of a record, not at its
    accusers. -/
theorem Kept.confirm {reporter : JsString} (h : Kept now engine)
    (hget : engine.view.get member = some current)
    (hsize : (engine.view.confirm member current hget reporter).size ≤ MAX_MEMBERS) :
    Kept now { engine with view := engine.view.confirm member current hget reporter } := by
  have htruth := truth_confirm hget reporter
  have hsame : ∀ name record,
      (engine.view.confirm member current hget reporter).get name = some record →
      ∃ old, engine.view.get name = some old ∧ old.update = record.update := by
    intro name record hrecord
    have hmap := htruth name
    rw [hrecord, map_some] at hmap
    obtain ⟨old, hold, hupdate⟩ := map_eq_some_iff.mp hmap.symm
    exact ⟨old, hold, by rw [hupdate]⟩
  refine ⟨⟨h.owner, h.named, fun record hrecord => ?_, fun name hne => ?_, fun name => ?_,
    fun name record hrecord hne => ?_, hsize⟩, h.early⟩
  · obtain ⟨old, hold, hupdate⟩ := hsame _ record hrecord
    rw [← hupdate]
    exact h.self old hold
  · rw [suspectIncarnation_congr (htruth name), h.suspects name hne]
  · rw [reapOperation_congr (htruth name), h.reaps]
  · obtain ⟨old, hold, hupdate⟩ := hsame name record hrecord
    rw [← hupdate]
    exact h.known name old hold hne

/-- Truth that supersedes what is retained also supersedes the running suspicion. -/
theorem Timed.superseded {next : MembershipUpdate} (h : Timed engine)
    (hne : next.member ≠ engine.address) (hsupersedes : engine.view.Supersedes next) {i : ℕ}
    (hi : i ∈ engine.suspicion.incarnationOf next.member) :
    i < next.incarnation ∨ i = next.incarnation ∧ next.state ≠ .suspect := by
  rw [mem_def, h.suspects _ hne] at hi
  obtain ⟨record, hget, hstate, rfl⟩ := suspectIncarnation_eq_some.mp hi
  rcases precedence_lt_iff.mp (hsupersedes record hget) with hlt | ⟨heq, hbyte⟩
  · exact Or.inl hlt
  · refine Or.inr ⟨heq, fun hsuspect => ?_⟩
    rw [hstate, hsuspect] at hbyte
    exact hbyte.false

/-! ### Turns that store truth about others -/

theorem Kept.of_started (h : Timed engine) (hstate : engine.state = .started) :
    Kept now engine := ⟨h, fun hnot => absurd hstate hnot⟩

/-- The clocks are in the range where the engine's arithmetic is exact. -/
def Sane (clock : Reading) : Prop :=
  isSafeInteger clock.now = true ∧ clock.now + MAX_SUSPICION_MS ≤ MAX_SAFE_INTEGER ∧
    clock.epoch < 256 ^ 8

instance (clock : Reading) : Decidable (Sane clock) := inferInstanceAs (Decidable (_ ∧ _ ∧ _))

theorem ne_nil_of_nameable {name : JsString} (h : Nameable false name) : name ≠ [] := by
  rintro rfl
  exact h.2.1.elim Bool.false_ne_true fun hne => hne rfl

/-- Storing and announcing truth about another member ends its suspicion. -/
theorem Timed.announce_eq {next : MembershipUpdate} {now : Millis} (h : Timed engine)
    (hne : next.member ≠ engine.address) (hsupersedes : engine.view.Supersedes next)
    (hvalid : next.Valid) {suspicion : SuspicionManager}
    (hsuspicion : ∀ i ∈ suspicion.incarnationOf next.member,
      i ∈ engine.suspicion.incarnationOf next.member) :
    ∃ suspicion' timers, announce next
        { engine with view := engine.view.store next now, suspicion := suspicion } =
          .ok () { engine with view := engine.view.store next now, suspicion := suspicion',
                               reapTimers := timers } ∧
      (∀ name, suspicion'.outline name =
        if name = next.member then none else suspicion.outline name) ∧
      ∀ name, timers.get name =
        if name = next.member then (engine.view.store next now).reapOperation name
        else engine.reapTimers.get name := by
  have hget : (engine.view.store next now).get next.member =
      some (engine.view.recordOf next now) := by rw [get_store, if_pos rfl]
  obtain ⟨suspicion', timers, hannounce, houtline, htimers⟩ :=
    @Swim.announce_eq { engine with view := engine.view.store next now, suspicion := suspicion }
      next _ hvalid (fun i hi => h.superseded hne hsupersedes (hsuspicion i hi)) hget rfl
  refine ⟨suspicion', timers, hannounce, houtline, fun name => ?_⟩
  rw [htimers name]
  split_ifs with hname
  · rw [hname]
  · rfl

/-- A suspicion is opened for a member that has none. -/
theorem startSuspicion_eq (decay : Decay) {member reporter : JsString} {incarnation : ℕ}
    {awareness : Fin 9} {clock : Reading} (hmember : member ≠ []) (hreporter : reporter ≠ [])
    (hinc : incarnation ≤ MAX_INCARNATION) (hclock : Sane clock)
    (hsize : engine.view.size ≤ MAX_MEMBERS)
    (hnone : engine.suspicion.incarnationOf member = none) :
    ∃ suspicion earliest, startSuspicion decay member incarnation reporter awareness clock engine =
        .ok () { engine with suspicion := suspicion } ∧ clock.now < earliest ∧
      ∀ name, suspicion.outline name =
        if name = member then some (incarnation, earliest) else engine.suspicion.outline name := by
  obtain ⟨started, hname, hat, hearly, hstart⟩ := @start_ok decay
    engine.suspicion clock.now ⟨member, incarnation, reporter, engine.view.aliveOrSuspectCount,
      BASE_PROTOCOL_PERIOD_MS * (awareness.val + 1 : ℕ)⟩ (awareness.val + 1) hinc hmember hreporter
    hnone engine.view.aliveOrSuspectCount_nonneg
    (engine.view.aliveOrSuspectCount_le.trans (by exact_mod_cast hsize))
    (by simp [BASE_PROTOCOL_PERIOD_MS]) (Nat.succ_pos _) (by omega) hclock.1 hclock.2.1
  refine ⟨engine.suspicion.install started, started.start + started.minimum, ?_, hearly,
    fun name => ?_⟩
  · rw [startSuspicion, get_bind, bind_ok (check_ok hstart)]
    rfl
  · rw [outline_install, hname, hat]

/-- An engine that stored and announced truth about another member, and then timed it if it is
    suspect. -/
theorem Kept.accept {next : MembershipUpdate} {now : Millis} (h : Kept now engine)
    {stored : Millis} (hne : next.member ≠ engine.address) (hvalid : next.Valid)
    (hsize : (engine.view.store next stored).size ≤ MAX_MEMBERS) {suspicion : SuspicionManager}
    {timers : OrderedMap JsString ReapOperation} {outline : Option (ℕ × Millis)}
    (hincarnation : outline.map Prod.fst =
      if next.state = .suspect then some next.incarnation else none)
    (hearly : ∀ found, outline = some found → now < found.2)
    (houtline : ∀ name, suspicion.outline name =
      if name = next.member then outline else engine.suspicion.outline name)
    (htimers : ∀ name, timers.get name =
      if name = next.member then (engine.view.store next stored).reapOperation name
      else engine.reapTimers.get name) :
    Kept now { engine with view := engine.view.store next stored, suspicion := suspicion,
                           reapTimers := timers } := by
  refine ⟨h.toTimed.accept (absurd · hne) (fun _ => ⟨hvalid.member, hvalid.incarnation⟩) hsize
    (fun name _ => ?_) htimers, fun hstate name found hfound => ?_⟩
  · by_cases hname : name = next.member
    · rw [incarnationOf_eq_outline, houtline, if_pos hname, if_pos hname, hincarnation]
    · rw [if_neg hname]
      exact incarnationOf_congr (by rw [houtline, if_neg hname])
  · rw [houtline] at hfound
    split at hfound
    · exact hearly found hfound
    · exact h.early hstate name found hfound

theorem applyLocalTruth_eq {update : MembershipUpdate} {clock : Reading} {record : MemberRecord}
    {event : Option MembershipEvent} {view : MembershipView}
    (happly : engine.view.applyLocal update clock.now = .ok (.applied record event, view))
    (hannounce : announce record.update { engine with view := view } = .ok () engine') :
    applyLocalTruth update clock engine = .ok true engine' := by
  rw [applyLocalTruth, get_bind, bind_ok (check_ok happly)]
  dsimp only
  rw [set_bind]
  rw [bind_ok hannounce]
  rfl

/-! ### Expiry and confirmation -/

theorem valid_deadOf {expiry : SuspicionExpiry} {clock : Reading} (hclock : Sane clock)
    (hmember : Nameable false expiry.member) (hinc : expiry.incarnation ≤ MAX_INCARNATION) :
    (deadOf expiry clock).Valid where
  incarnation := hinc
  stateChangeTime := hclock.2.2
  member := hmember
  reporter := (by decide : Nameable true [])
  metadata := Nat.zero_le _
  accused := ⟨nofun, fun hne => absurd rfl hne⟩
  carried := fun hne => absurd rfl hne
  provenance := rfl

/-- The suspicion of a member ran out: the member is declared dead and its removal is armed. -/
theorem Timed.leaves_expire {now : Millis} {clock : Reading} {expiry : SuspicionExpiry}
    (h : Timed engine) (hstate : engine.state = .started) (hclock : Sane clock)
    (hactive : engine.suspicion.incarnationOf expiry.member = some expiry.incarnation) :
    Leaves (Kept now) (expireSuspicion expiry clock
      { engine with suspicion := engine.suspicion.remove expiry.member }) := by
  rw [expireSuspicion, get_bind, if_neg (not_not.mpr hstate)]
  by_cases hne : expiry.member = engine.address
  · -- the node's own record is alive
    rw [if_neg]
    · refine Kept.of_started { h with suspects := fun name hname => ?_ } hstate
      rw [← h.suspects name hname]
      exact incarnationOf_congr (by rw [outline_remove, if_neg (hne ▸ hname)])
    · cases hget : engine.view.get engine.address with
      | none => simp [hne, hget]
      | some record => simp [hne, hget, h.self record hget]
  · rw [h.suspects _ hne] at hactive
    obtain ⟨record, hget, hsuspect, hinc⟩ := suspectIncarnation_eq_some.mp hactive
    rw [if_pos (by simp [hget, hsuspect, hinc])]
    have hknown := h.known _ record hget hne
    have hvalid := @valid_deadOf expiry clock hclock hknown.1 (hinc ▸ hknown.2)
    have hlater : record.update.precedence < (deadOf expiry clock).precedence :=
      precedence_lt_iff.mpr (Or.inr ⟨hinc,
        hsuspect ▸ (by decide : MemberState.suspect.toByte < MemberState.dead.toByte)⟩)
    have happly := @applyLocal_of_supersedes engine.view (deadOf expiry clock)
      clock.now record hget hlater
    have hsupersedes : engine.view.Supersedes (deadOf expiry clock) := by
      intro current hcurrent
      rwa [← some.inj (hget.symm.trans hcurrent)]
    have hremoved : ∀ i ∈ (engine.suspicion.remove expiry.member).incarnationOf expiry.member,
        i ∈ engine.suspicion.incarnationOf expiry.member := by
      intro i hi
      rw [incarnationOf_eq_outline, outline_remove, if_pos rfl] at hi
      cases hi
    obtain ⟨suspicion, timers, hannounce, houtline, htimers⟩ :=
      @Timed.announce_eq engine _ clock.now h hne hsupersedes hvalid _ hremoved
    rw [bind_ok (@applyLocalTruth_eq { engine with suspicion := engine.suspicion.remove _ } _ _ clock
      _ _ _ happly hannounce)]
    refine (Kept.of_started h hstate).accept hne hvalid ?_
      (rfl : Option.map Prod.fst (none : Option (ℕ × Millis)) = _)
      (fun _ hfound => nomatch hfound) (fun name => ?_) htimers
    · have hretained : engine.view.get (deadOf expiry clock).member ≠ none :=
        ne_none_iff_exists'.mpr ⟨record, hget⟩
      rw [size_store, if_neg hretained]
      exact h.capacity
    · rw [houtline, outline_remove]
      split
      · rfl
      · rename_i hname
        exact if_neg hname

/-- A confirmation keeps every suspicion, or expires one whose deadline it brought into the past. -/
theorem Kept.confirmSuspicion_cases (decay : Decay) (h : Kept now engine)
    (update : MembershipUpdate) (clock : Reading) :
    (∃ suspicion, (∀ name, suspicion.outline name = engine.suspicion.outline name) ∧
      Kept now { engine with suspicion := suspicion } ∧
      (confirmSuspicion decay update clock engine = .ok () { engine with suspicion := suspicion } ∨
        ∃ e, confirmSuspicion decay update clock engine =
          .error e { engine with suspicion := suspicion })) ∨
    (∃ active deadline, engine.suspicion.active.get update.member = some active ∧
      SuspicionManager.Accepts active update.incarnation update.reporter ∧
      suspicionDeadline decay active.start active.minimum active.maximum
        (active.confirmationReporters.length + 1) = .ok deadline ∧ deadline ≤ clock.now ∧
      confirmSuspicion decay update clock engine =
        (expireSuspicion ⟨update.member, update.incarnation⟩ clock >>= fun _ => enqueue update)
          { engine with suspicion := engine.suspicion.remove update.member }) := by
  rw [confirmSuspicion, get_bind]
  rcases confirm_cases decay engine.suspicion update.member update.incarnation
    update.reporter clock.now with hrefused | ⟨suspicion, hresult, houtline⟩ |
    ⟨active, deadline, hget, haccepts, hdeadline, hpassed, hexpired⟩
  · rw [hrefused]
    exact Or.inl ⟨engine.suspicion, fun _ => rfl, h, Or.inl rfl⟩
  · have hkept : Kept now { engine with suspicion := suspicion } :=
      { h with
        suspects := fun name hne => (incarnationOf_congr (houtline name)).trans (h.suspects name hne)
        early := fun hstate name found hfound =>
          h.early hstate name found (houtline name ▸ hfound) }
    refine Or.inl ⟨suspicion, houtline, hkept, ?_⟩
    rcases hresult with hshortened | ⟨e, hthrown⟩
    · rw [hshortened]
      exact enqueue_cases update { engine with suspicion := suspicion }
    · rw [hthrown]
      exact Or.inr ⟨_, rfl⟩
  · refine Or.inr ⟨active, deadline, hget, haccepts, hdeadline, hpassed, ?_⟩
    rw [hexpired]
    rfl

/-- A confirmation keeps the timers with the table, also when it expires the suspicion at once. -/
theorem Kept.leaves_confirmSuspicion {decay : Decay} {clock : Reading} (h : Kept clock.now engine)
    (hclock : Sane clock) :
    Leaves (Kept clock.now) (confirmSuspicion decay update clock engine) := by
  rcases h.confirmSuspicion_cases decay update clock with
    ⟨suspicion, -, hkept, hok | ⟨e, herror⟩⟩ |
    ⟨active, deadline, hget, haccepts, hdeadline, hpassed, hexpired⟩
  · rw [hok]
    exact hkept
  · rw [herror]
    exact hkept
  · have houtline : engine.suspicion.outline update.member =
        some (active.incarnation, active.start + active.minimum) := by
      rw [outline, hget]
      rfl
    have hactive : engine.suspicion.incarnationOf update.member = some update.incarnation := by
      rw [incarnationOf_eq_outline, houtline, ← haccepts.1]
      rfl
    -- before the engine is started no deadline can have passed
    have hstate : engine.state = .started := by
      by_contra hnot
      have hearly := h.early hnot _ _ houtline
      exact absurd (hearly.trans_le (suspicionDeadline_ge hdeadline)) (not_lt.mpr hpassed)
    rw [hexpired]
    exact leaves_bind (h.toTimed.leaves_expire hstate hclock hactive)
      fun _ engine' _ hkept => leaves_enqueue hkept

/-! ### Truth about the node itself -/

/-- Turns that touch only the timers of the node itself keep the others with the table. -/
theorem Kept.congr_self (h : Kept now engine) {suspicion : SuspicionManager}
    {timers : OrderedMap JsString ReapOperation}
    (houtline : ∀ name found, suspicion.outline name = some found →
      engine.suspicion.outline name = some found) (hsame : ∀ name, name ≠ engine.address →
      suspicion.outline name = engine.suspicion.outline name)
    (htimers : ∀ name, timers.get name = engine.reapTimers.get name) :
    Kept now { engine with suspicion := suspicion, reapTimers := timers } :=
  { h with
    suspects := fun name hne => (incarnationOf_congr (hsame name hne)).trans (h.suspects name hne)
    reaps := fun name => (htimers name).trans (h.reaps name)
    early := fun hstate name found hfound =>
      h.early hstate name found (houtline name found hfound) }

/-- Announcing the node's own truth changes no timer of another member, even if it throws. -/
theorem Kept.leaves_announce_self (h : Kept now engine) (hmember : update.member = engine.address)
    (halive : update.state = .alive) :
    Leaves (Kept now) (announce update engine) := by
  have hterminal : isTerminalState update.state = false := by rw [halive]; rfl
  -- no removal of the node itself is armed
  have hdelete : ∀ name, (engine.reapTimers.delete update.member).get name =
      engine.reapTimers.get name := by
    intro name
    rw [OrderedMap.get_delete]
    split_ifs with hname
    · rw [hname, hmember, h.reaps, h.aliveTimer]
    · rfl
  rcases enqueue_cases update engine with hok | ⟨e, herror⟩
  · rw [announce, bind_ok hok, truthApplied, cancelSupersededSuspicion,
      if_neg (by rw [halive]; exact nofun)]
    cases hcancel : engine.suspicion.cancelThrough update.member update.incarnation with
    | error e =>
      rw [bind_error (cancelThrough_of_error hcancel)]
      exact h
    | ok result =>
      obtain ⟨cancelled, suspicion⟩ := result
      rw [bind_ok (cancelThrough_of_ok hcancel), updateRetention, hterminal]
      have houtline := cancelThrough_outline hcancel
      refine h.congr_self (fun name found hfound => ?_) (fun name hne => ?_) hdelete
      · rcases houtline name with hsame | ⟨-, hnone⟩
        · rwa [hsame] at hfound
        · rw [hnone] at hfound
          cases hfound
      · exact (houtline name).resolve_right fun hboth => hne (hboth.1.trans hmember)
  · rw [announce, bind_error herror]
    exact h

/-- Storing the node's own truth. -/
theorem Timed.store_self {stored : Millis} {next : MembershipUpdate} (h : Timed engine)
    (hmember : next.member = engine.address) (halive : next.state = .alive)
    (hsize : (engine.view.store next stored).size ≤ MAX_MEMBERS) :
    Timed { engine with view := engine.view.store next stored } := by
  refine h.accept (fun _ => halive) (fun hne => absurd hmember hne) hsize
    (fun name hne => ?_) (fun name => ?_)
  · rw [if_neg (fun hname => hne (hname.trans hmember))]
  · split_ifs with hname
    · rw [hname, hmember, h.reaps, h.aliveTimer, reapOperation_eq_none]
      intro record hget
      rw [get_store, if_pos hmember.symm] at hget
      rw [← some.inj hget]
      exact halive ▸ rfl
    · rfl

theorem Kept.store_self {now stored : Millis} {next : MembershipUpdate} (h : Kept now engine)
    (hmember : next.member = engine.address) (halive : next.state = .alive)
    (hsize : (engine.view.store next stored).size ≤ MAX_MEMBERS) :
    Kept now { engine with view := engine.view.store next stored } :=
  ⟨h.toTimed.store_self hmember halive hsize, h.early⟩

/-! ### Ingestion -/

section
variable {decay : Decay} {awareness : Fin 9} {clock : Reading} {next : MembershipUpdate}

section

variable (h : Kept clock.now engine)
include h

/-- Suspect truth about another member is stored, announced and timed. -/
theorem Kept.suspect_eq (hclock : Sane clock)
    (hne : next.member ≠ engine.address) (hsupersedes : engine.view.Supersedes next)
    (hvalid : next.Valid) (hsuspect : next.state = .suspect)
    (hsize : (engine.view.store next clock.now).size ≤ MAX_MEMBERS) {reporter : JsString}
    (hreporter : reporter ≠ []) :
    ∃ announced started,
      announce next { engine with view := engine.view.store next clock.now } = .ok () announced ∧
      announced.address = engine.address ∧ announced.view = engine.view.store next clock.now ∧
      startSuspicion decay next.member next.incarnation reporter awareness clock announced =
        .ok () started ∧ Kept clock.now started := by
  obtain ⟨suspicion, timers, hannounce, houtline, htimers⟩ :=
    @Timed.announce_eq engine next clock.now h.toTimed hne hsupersedes hvalid engine.suspicion
      (fun _ hi => hi)
  have hnone : suspicion.incarnationOf next.member = none := by
    rw [incarnationOf_eq_outline, houtline, if_pos rfl]
    rfl
  obtain ⟨suspicion', earliest, hstart, hearly, houtline'⟩ := @startSuspicion_eq
    { engine with view := engine.view.store next clock.now, suspicion := suspicion,
                  reapTimers := timers }
    decay next.member reporter next.incarnation awareness clock (ne_nil_of_nameable hvalid.member)
    hreporter hvalid.incarnation hclock hsize hnone
  refine ⟨_, _, hannounce, rfl, rfl, hstart, ?_⟩
  refine h.accept hne hvalid hsize
    (by rw [if_pos hsuspect]; rfl : Option.map Prod.fst (some (next.incarnation, earliest)) = _)
    (fun found hfound => ?_) (fun name => ?_) htimers
  · rw [← some.inj hfound]
    exact hearly
  · rw [houtline', houtline]
    split <;> rfl

/-- Truth about another member is stored, announced and, if it is suspect, timed. -/
theorem Kept.leaves_accept (hclock : Sane clock)
    (hne : next.member ≠ engine.address) (hsupersedes : engine.view.Supersedes next)
    (hvalid : next.Valid) (hsize : (engine.view.store next clock.now).size ≤ MAX_MEMBERS) :
    Leaves (Kept clock.now) ((announce next >>= fun _ =>
      armRemoteSuspicion decay next awareness clock)
        { engine with view := engine.view.store next clock.now }) := by
  by_cases hsuspect : next.state = .suspect
  · have hreporter : next.reporter ≠ [] := fun hempty =>
      hvalid.accused.mp hsuspect (by rw [hempty]; rfl)
    obtain ⟨announced, started, hannounce, haddress, -, hstart, hkept⟩ :=
      @Kept.suspect_eq engine decay awareness clock next h hclock hne hsupersedes hvalid hsuspect
        hsize _ hreporter
    have hother : ¬ (next.state ≠ .suspect ∨ next.member = announced.address) := by
      rw [haddress]
      exact fun hor => hor.elim (fun hnot => hnot hsuspect) hne
    rw [bind_ok hannounce, armRemoteSuspicion, get_bind, if_neg hother, hstart]
    exact hkept
  · obtain ⟨suspicion, timers, hannounce, houtline, htimers⟩ :=
      @Timed.announce_eq engine next clock.now h.toTimed hne hsupersedes hvalid engine.suspicion
        (fun _ hi => hi)
    rw [bind_ok hannounce, armRemoteSuspicion, get_bind, if_pos (Or.inl hsuspect)]
    exact h.accept hne hvalid hsize
      (by rw [if_neg hsuspect]; rfl : Option.map Prod.fst (none : Option (ℕ × Millis)) = _)
      (fun _ hfound => nomatch hfound) houtline htimers

/-- Truth about the node itself is stored and announced. -/
theorem Kept.leaves_accept_self
    (hmember : next.member = engine.address) (halive : next.state = .alive)
    (hsize : (engine.view.store next clock.now).size ≤ MAX_MEMBERS) :
    Leaves (Kept clock.now) ((announce next >>= fun _ =>
      armRemoteSuspicion decay next awareness clock)
        { engine with view := engine.view.store next clock.now }) := by
  have hstored := h.store_self hmember halive hsize
  refine leaves_bind (hstored.leaves_announce_self hmember halive) fun _ engine' _ h' => ?_
  rw [armRemoteSuspicion, get_bind, if_pos (Or.inl (by rw [halive]; exact nofun))]
  exact h'

/-- One remote update keeps the timers with the table. -/
theorem Kept.leaves_applyRemoteTruth (hclock : Sane clock) (hvalid : update.Valid) :
    Leaves (Kept clock.now) (applyRemoteTruth decay awareness clock update engine) := by
  rw [applyRemoteTruth, get_bind]
  refine leaves_check h fun ⟨result, view⟩ happly => ?_
  dsimp only
  rw [set_bind]
  have hsize := apply_size_le happly h.capacity
  rcases apply_cases happly with
    ⟨hrefute, hlocal⟩ | ⟨rfl, rfl⟩ | ⟨hrefute, -, rfl, rfl⟩
  · rcases applyLocal_cases hlocal with ⟨rfl, rfl⟩ |
      ⟨current, hget, hconfirms, rfl, rfl⟩ | ⟨hsupersedes, rfl, rfl⟩
    · exact h
    · exact (h.confirm hget hsize).leaves_confirmSuspicion hclock
    · by_cases hself : update.member = engine.address
      · exact h.leaves_accept_self hself
          (alive_of_not_refuted hrefute (hself.trans h.owner.symm) hsupersedes)
          hsize
      · exact h.leaves_accept hclock hself hsupersedes hvalid hsize
  · exact h
  · exact @Kept.leaves_accept_self engine decay awareness clock
      (engine.view.defense update clock.epoch) h h.owner rfl hsize

theorem Kept.leaves_applyUpdate (hclock : Sane clock) (hvalid : update.Valid) :
    Leaves (Kept clock.now) (applyUpdate decay awareness clock update engine) := by
  refine leaves_tryCatch (h.leaves_applyRemoteTruth hclock hvalid) fun e engine' h' => ?_
  split <;> exact h'

theorem Kept.leaves_mergeSyncTable {updates : List MembershipUpdate}
    (hclock : Sane clock) (hvalid : ∀ update ∈ updates, update.Valid) :
    Leaves (Kept clock.now) (mergeSyncTable decay awareness clock updates engine) := by
  rw [mergeSyncTable, get_bind]
  exact leaves_check h fun _ _ => leaves_forM
    (fun update hu _ h' => h'.leaves_applyRemoteTruth hclock (hvalid update hu)) h

end

/-! ### Failed probes -/

theorem startSuspicion_kept {reporter : JsString} (hmember : member ≠ [])
    (hreporter : reporter ≠ []) (hinc : incarnation ≤ MAX_INCARNATION)
    (hactive : engine.suspicion.incarnationOf member = some incarnation) :
    startSuspicion decay member incarnation reporter awareness clock engine = .ok () engine := by
  rw [startSuspicion, get_bind,
    bind_ok (check_ok (start_kept hinc hmember hreporter hactive le_rfl))]
  rfl

/-- The report of a failed probe does not push the running suspicion over its deadline. -/
def Timely (decay : Decay) (engine : Swim) (target : JsString) (incarnation : ℕ) (now : Millis) :
    Prop :=
  engine.address ∉ engine.view.confirmationReporters target →
    ∀ active ∈ engine.suspicion.active.get target,
      SuspicionManager.Accepts active incarnation engine.address →
      ∀ deadline ∈ (suspicionDeadline decay active.start active.minimum active.maximum
        (active.confirmationReporters.length + 1)).toOption, now < deadline

instance (decay : Decay) (engine : Swim) (target : JsString) (incarnation : ℕ) (now : Millis) :
    Decidable (engine.Timely decay target incarnation now) :=
  inferInstanceAs (Decidable (_ ∉ _ → ∀ active ∈ _, _))

theorem Timed.valid_suspectOf (h : Timed engine) (hclock : Sane clock)
    (hne : target ≠ engine.address) (hget : engine.view.get target = some current) :
    (engine.suspectOf target current.update.incarnation clock).Valid where
  incarnation := (h.known target current hget hne).2
  stateChangeTime := hclock.2.2
  member := (h.known target current hget hne).1
  reporter := ⟨h.named.1, Or.inl rfl, h.named.2.2⟩
  metadata := Nat.zero_le _
  accused := ⟨fun _ => h.named.2.1.resolve_left Bool.false_ne_true, fun _ => rfl⟩
  carried := fun hne => absurd rfl hne
  provenance := rfl

/-- A suspicion that is active for what the table retains is not started again. -/
theorem Timed.startSuspicion_kept (h : Timed engine) (hne : target ≠ engine.address)
    (hsuspect : engine.view.suspectIncarnation target = some incarnation) :
    startSuspicion decay target incarnation engine.view.selfName awareness clock engine =
      .ok () engine := by
  obtain ⟨record, hget, -, hinc⟩ := suspectIncarnation_eq_some.mp hsuspect
  have hknown := h.known target record hget hne
  refine Swim.startSuspicion_kept (ne_nil_of_nameable hknown.1) ?_ (hinc ▸ hknown.2) ?_
  · rw [h.owner]
    exact ne_nil_of_nameable h.named
  · rw [h.suspects target hne, hsuspect]

/-- What follows a report: its suspicion is timed if it may be. -/
def timeReport (decay : Decay) (target : JsString) (incarnation : ℕ) (awareness : Fin 9)
    (clock : Reading) (applied : Bool) : SwimM Unit :=
  if applied then get >>= fun engine =>
    startSuspicion decay target incarnation engine.view.selfName awareness clock
  else pure ()

/-- A failed probe of a member that still is to be probed reports it to the table. -/
theorem probeFailure_eq (hstate : engine.state = .started)
    (hget : engine.view.get target = some current) (heligible : current.eligible = true) :
    probeFailure decay target current.update.incarnation awareness clock engine =
      (check .view (engine.view.apply (engine.suspectOf target current.update.incarnation clock)
          clock.now clock.epoch) >>= fun outcome => set { engine with view := outcome.2 } >>= fun _ =>
        answerReport decay (engine.suspectOf target current.update.incarnation clock) clock outcome.1
          >>= timeReport decay target current.update.incarnation awareness clock) engine := by
  have heligible' : isProbeEligibleState current.update.state = true := heligible
  change EStateM.bind (applyProbeFailure decay target _ clock) _ engine = _
  rw [EStateM.bind, applyProbeFailure, get_bind, if_neg (not_not.mpr hstate),
    if_pos (by simp [hget, heligible'])]
  cases engine.view.apply (engine.suspectOf target current.update.incarnation clock) clock.now
    clock.epoch <;> rfl

/-- A report that changed nothing for the member is timed only if it already is. -/
theorem Kept.leaves_unheard (h : Kept now engine) {answer : SwimM Bool}
    (hanswer : answer engine = .ok ((engine.view.get target).any (fun retained =>
      retained.update.state = .suspect ∧ retained.update.incarnation = incarnation)) engine) :
    Leaves (Kept now)
      ((answer >>= timeReport decay target incarnation awareness clock) engine) := by
  rw [bind_ok hanswer, timeReport]
  split_ifs with hany
  · obtain ⟨retained, hget, hretained⟩ := (any_eq_true _ _).mp hany
    rw [decide_eq_true_eq] at hretained
    have hne : target ≠ engine.address := by
      rintro rfl
      rw [h.self retained hget] at hretained
      exact absurd hretained.1 nofun
    rw [get_bind, h.toTimed.startSuspicion_kept hne
      (suspectIncarnation_eq_some.mpr ⟨retained, hget, hretained⟩)]
    exact h
  · exact h

/-- A report that confirms a running suspicion in time is not timed again. -/
theorem Kept.leaves_confirmed {suspect : MembershipUpdate} {retained : StoredRecord}
    (h : Kept clock.now engine) (hget : engine.view.get suspect.member = some retained)
    (hconfirms : MembershipView.Confirms suspect retained)
    (hreporter : suspect.reporter = engine.address)
    (hsize : (engine.view.confirm _ retained hget suspect.reporter).size ≤ MAX_MEMBERS)
    (htimely : engine.Timely decay suspect.member suspect.incarnation clock.now) {count : ℕ} :
    Leaves (Kept clock.now) ((answerReport decay suspect clock
        (.confirmed suspect.member suspect.incarnation suspect.reporter count) >>=
          timeReport decay suspect.member suspect.incarnation awareness clock)
        { engine with view := engine.view.confirm _ retained hget suspect.reporter }) := by
  have htruth := truth_confirm hget suspect.reporter
  have hreporters : engine.address ∉ engine.view.confirmationReporters suspect.member := by
    rw [confirmationReporters, hget, ← hreporter]
    simpa [hconfirms.retained] using hconfirms.reporter
  have hne : suspect.member ≠ engine.address := fun hself => by
    have halive := h.self retained (hself ▸ hget)
    rw [hconfirms.retained] at halive
    cases halive
  have hsuspect : (engine.view.confirm _ retained hget suspect.reporter).suspectIncarnation
      suspect.member = some suspect.incarnation := by
    rw [suspectIncarnation_congr (htruth suspect.member)]
    exact suspectIncarnation_eq_some.mpr
      ⟨retained, hget, hconfirms.retained, hconfirms.incarnation.symm⟩
  rcases (h.confirm hget hsize).confirmSuspicion_cases decay suspect clock with
    ⟨suspicion, -, hafter, hok | ⟨e, herror⟩⟩ |
    ⟨active, deadline, hactive, haccepts, hdeadline, hpassed, -⟩
  · have hanswer : answerReport decay suspect clock
        (.confirmed suspect.member suspect.incarnation suspect.reporter count)
        { engine with view := engine.view.confirm _ retained hget suspect.reporter } =
          .ok true _ := bind_ok hok
    rw [bind_ok hanswer, timeReport, if_pos rfl, get_bind,
      hafter.toTimed.startSuspicion_kept hne hsuspect]
    exact hafter
  · have hanswer : answerReport decay suspect clock
        (.confirmed suspect.member suspect.incarnation suspect.reporter count)
        { engine with view := engine.view.confirm _ retained hget suspect.reporter } =
          .error e _ := bind_error herror
    rw [bind_error hanswer]
    exact hafter
  · have hlater := htimely hreporters active hactive (hreporter ▸ haccepts) deadline
      (by rw [hdeadline]; rfl)
    exact absurd hpassed (not_le.mpr hlater)

/-- A report that is new to the table is stored, announced and timed. -/
theorem Kept.leaves_applied {suspect : MembershipUpdate} {record : MemberRecord}
    {event : Option MembershipEvent} (h : Kept clock.now engine) (hclock : Sane clock)
    (hne : suspect.member ≠ engine.address) (hsupersedes : engine.view.Supersedes suspect)
    (hvalid : suspect.Valid) (hsuspect : suspect.state = .suspect)
    (hsize : (engine.view.store suspect clock.now).size ≤ MAX_MEMBERS)
    (hrecord : record.update = suspect) :
    Leaves (Kept clock.now) ((answerReport decay suspect clock (.applied record event) >>=
      timeReport decay suspect.member suspect.incarnation awareness clock)
        { engine with view := engine.view.store suspect clock.now }) := by
  obtain ⟨announced, started, hannounce, -, hview, hstart, hkept⟩ :=
    @Kept.suspect_eq engine decay awareness clock suspect h hclock hne hsupersedes hvalid hsuspect
      hsize engine.view.selfName (h.owner ▸ ne_nil_of_nameable h.named)
  have hanswer : answerReport decay suspect clock (.applied record event)
      { engine with view := engine.view.store suspect clock.now } = .ok true announced := by
    rw [answerReport, hrecord, bind_ok hannounce]
    rfl
  have hname : announced.view.selfName = engine.view.selfName := by
    rw [hview]
    rfl
  rw [bind_ok hanswer, timeReport, if_pos rfl, get_bind, hname, hstart]
  exact hkept

/-- An engine that is not started ignores failed probes. -/
theorem probeFailure_idle (hstate : engine.state ≠ .started) :
    probeFailure decay target incarnation awareness clock engine = .ok () engine := by
  have hfalse : applyProbeFailure decay target incarnation clock engine = .ok false engine := by
    rw [applyProbeFailure, get_bind, if_pos hstate]
    rfl
  rw [probeFailure, bind_ok hfalse]
  rfl

/-- A failed probe keeps the timers with the table if its report comes in time. -/
theorem Kept.leaves_probeFailure (h : Kept clock.now engine) (hstate : engine.state = .started)
    (hclock : Sane clock) (htimely : engine.Timely decay target incarnation clock.now) :
    Leaves (Kept clock.now) (probeFailure decay target incarnation awareness clock engine) := by
  by_cases hcurrent : ∃ current, engine.view.get target = some current ∧
      current.update.incarnation = incarnation ∧ current.eligible = true
  swap
  · have hfalse : applyProbeFailure decay target incarnation clock engine = .ok false engine := by
      rw [applyProbeFailure, get_bind, if_neg (not_not.mpr hstate), if_neg]
      · rfl
      · simpa [any_eq_true, StoredRecord.eligible] using hcurrent
    rw [probeFailure, bind_ok hfalse]
    exact h
  obtain ⟨current, hget, rfl, heligible⟩ := hcurrent
  rw [probeFailure_eq hstate hget heligible]
  refine leaves_check h ?_
  rintro ⟨result, view⟩ happly
  dsimp only
  rw [set_bind]
  have hsize := apply_size_le happly h.capacity
  rcases apply_cases happly with ⟨hrefute, hlocal⟩ | ⟨rfl, rfl⟩ | ⟨hrefute, -, rfl, rfl⟩
  · rcases applyLocal_cases hlocal with ⟨rfl, rfl⟩ |
      ⟨retained, hretained, hconfirms, rfl, rfl⟩ | ⟨hsupersedes, rfl, rfl⟩
    · exact h.leaves_unheard rfl
    · exact h.leaves_confirmed hretained hconfirms rfl hsize htimely
    · have hne : target ≠ engine.address := fun hself => by
        have halive := alive_of_not_refuted hrefute (hself.trans h.owner.symm) hsupersedes
        cases halive
      exact h.leaves_applied hclock hne hsupersedes (h.toTimed.valid_suspectOf hclock hne hget)
        rfl hsize rfl
  · exact h.leaves_unheard rfl
  · have hkept := @Kept.store_self engine clock.now clock.now (engine.view.defense
      (engine.suspectOf target current.update.incarnation clock) clock.epoch) h h.owner rfl hsize
    exact hkept.leaves_unheard rfl

/-! ### Timers and the node's own truth -/

theorem Timed.leaves_suspicionTimer (h : Timed engine) (hclock : Sane clock)
    (hearly : engine.state ≠ .started → ∀ active ∈ engine.suspicion.active.get member,
      clock.now < active.deadline) : Leaves Timed (suspicionTimer member clock engine) := by
  rw [suspicionTimer, get_bind, expire]
  cases hget : engine.suspicion.active.get member with
  | none => exact h
  | some active =>
    by_cases hbefore : clock.now < active.deadline
    · simp only [if_pos hbefore]
      exact h
    · simp only [if_neg hbefore, set_bind]
      have hstate : engine.state = .started := by
        by_contra hnot
        exact hbefore (hearly hnot active hget)
      have hmember : active.member = member := engine.suspicion.keyed member active hget
      rw [← hmember]
      refine leaves_mono (fun _ hkept => hkept.toTimed)
        (@Timed.leaves_expire engine clock.now clock active.toSuspicionExpiry h hstate hclock ?_)
      rw [incarnationOf, hmember, hget]
      rfl

/-- A terminal record and its timer are removed together. -/
theorem Timed.removed {record : StoredRecord} {view : MembershipView} (h : Timed engine)
    (hget : engine.view.get member = some record)
    (hterminal : isTerminalState record.update.state = true)
    (hgone : ∀ name, view.get name = if name = member then none else engine.view.get name)
    (howner : view.selfName = engine.view.selfName) (hsize : view.size ≤ engine.view.size) :
    Timed { engine with reapTimers := engine.reapTimers.delete member, view := view } := by
  have hkept : ∀ name found, view.get name = some found → engine.view.get name = some found := by
    intro name found hfound
    rw [hgone] at hfound
    obtain ⟨-, hfound⟩ := ite_none_left_eq_some.mp hfound
    exact hfound
  constructor
  · exact howner.trans h.owner
  · exact h.named
  · exact fun found hfound => h.self found (hkept _ found hfound)
  · intro name hne
    rw [h.suspects name hne]
    by_cases hname : name = member
    · -- a terminal member is under no suspicion
      have hnone : view.get name = none := by rw [hgone, if_pos hname]
      have hstate : record.update.state ≠ .suspect := by
        intro hsuspect
        rw [hsuspect] at hterminal
        cases hterminal
      rw [suspectIncarnation, suspectIncarnation, hnone, hname, hget, bind_some, if_neg hstate]
      rfl
    · have hsame : view.get name = engine.view.get name := by rw [hgone, if_neg hname]
      exact (suspectIncarnation_congr (by rw [hsame])).symm
  · intro name
    rw [OrderedMap.get_delete]
    split_ifs with hname
    · refine (reapOperation_eq_none fun found hfound => ?_).symm
      rw [hgone, if_pos hname] at hfound
      cases hfound
    · rw [h.reaps]
      exact (reapOperation_congr (by rw [hgone, if_neg hname])).symm
  · exact fun name found hfound hne => h.known name found (hkept name found hfound) hne
  · exact hsize.trans h.capacity

theorem Timed.leaves_reapTimer (h : Timed engine) : Leaves Timed (reapTimer member engine) := by
  rw [reapTimer, get_bind]
  cases htimer : engine.reapTimers.get member with
  | none => exact h
  | some operation =>
    have hoperation := htimer
    rw [h.reaps] at hoperation
    obtain ⟨record, hget, hterminal, rfl, hstate, hinc, hdue⟩ := reapOperation_eq_some.mp hoperation
    have hreapable : engine.view.Reapable operation :=
      ⟨record, hget, hstate.symm, hinc.symm, hdue.symm⟩
    have hgone : ∀ name, (engine.view.reap operation).2.get name =
        if name = operation.member then none else engine.view.get name := by
      intro name
      rw [get_reap]
      simp only [hreapable, true_and]
    have howner : (engine.view.reap operation).2.selfName = engine.view.selfName := by
      rw [reap]
      split <;> rfl
    exact h.removed hget hterminal hgone howner (engine.view.size_reap_le operation)

/-- Truth of the node's own that is alive keeps the timers, whatever becomes of it. -/
theorem Kept.leaves_applyLocalTruth_self (h : Kept now engine)
    (hmember : next.member = engine.address) (halive : next.state = .alive) :
    Leaves (Kept now) (applyLocalTruth next clock engine) := by
  rw [applyLocalTruth, get_bind]
  refine leaves_check h fun ⟨result, view⟩ happly => ?_
  dsimp only
  rw [set_bind]
  have hsize := applyLocal_size_le happly h.capacity
  rcases applyLocal_cases happly with ⟨rfl, rfl⟩ | ⟨current, hget, hconfirms, -, -⟩ | ⟨-, rfl, rfl⟩
  · exact h
  · rw [hconfirms.accusing] at halive
    cases halive
  · have hstored := h.store_self hmember halive hsize
    exact leaves_bind (hstored.leaves_announce_self hmember halive) fun _ _ _ h' => h'

theorem Timed.leaves_updateMetadata {metadata : Bytes} (h : Timed engine) :
    Leaves Timed (updateMetadata metadata clock engine) := by
  rw [updateMetadata, get_bind]
  by_cases hstate : engine.state = .started
  · rw [if_neg (not_not.mpr hstate)]
    split
    · exact h
    · cases hget : engine.view.get engine.view.selfName with
      | none => exact h
      | some current =>
        have hmember : current.update.member = engine.address := (member_of_get hget).trans h.owner
        have hkept : Kept clock.now engine := Kept.of_started h hstate
        refine leaves_mono (fun _ h' => h'.toTimed)
          (leaves_bind (hkept.leaves_applyLocalTruth_self hmember rfl) fun _ _ _ h' => h')
  · rw [if_pos hstate]
    exact h

/-- The lifecycle is no part of the equations. -/
theorem Timed.with_state (h : Timed engine) (state : SwimState) :
    Timed { engine with state := state } :=
  { h with }

theorem Timed.leaves_installSelf (h : Timed engine) : Leaves Timed (installSelf clock engine) := by
  rw [installSelf, get_bind]
  refine leaves_check h fun ⟨result, view⟩ happly => ?_
  dsimp only
  rw [set_bind]
  have hsize := applyLocal_size_le happly h.capacity
  rcases applyLocal_cases happly with ⟨rfl, rfl⟩ | ⟨current, hget, hconfirms, -, -⟩ | ⟨-, rfl, rfl⟩
  · exact h
  · cases hconfirms.accusing
  · exact leaves_enqueue (h.store_self rfl rfl hsize)

theorem Timed.leaves_start (h : Timed engine) : Leaves Timed (start clock engine) := by
  change Leaves Timed ((tryCatch (installSelf clock) _) { engine with state := .starting })
  refine leaves_tryCatch (h.with_state .starting).leaves_installSelf fun e engine' h' => ?_
  exact h'.with_state .new

end

/-! ### Runs -/

/-- The steps that keep timers and table together: the clocks are in their exact range, remote
    updates pass the checks of the wire, a failed probe reports in time, and until the engine is
    started no suspicion runs out. -/
def Orderly (decay : Decay) (engine : Swim) : SwimEvent → Prop
  | .packet updates _ clock => Sane clock ∧ ∀ update ∈ updates, update.Valid
  | .sync updates _ clock =>
    Sane clock ∧ (∀ update ∈ updates, update.Valid) ∧ (engine.state ≠ .started →
      ∀ active ∈ engine.suspicion.active.values, clock.now < active.start + active.minimum)
  | .probeFailure target incarnation _ clock =>
    Sane clock ∧ engine.Timely decay target incarnation clock.now
  | .suspicionTimer member clock =>
    Sane clock ∧ (engine.state ≠ .started →
      ∀ active ∈ engine.suspicion.active.get member, clock.now < active.deadline)
  | _ => True

instance (decay : Decay) (engine : Swim) (event) : Decidable (engine.Orderly decay event) := by
  rcases event <;> dsimp only [Orderly] <;> infer_instance

theorem Timed.step {decay : Decay} {event : SwimEvent} (h : Timed engine)
    (horderly : engine.Orderly decay event) (hstep : engine.step decay event = some engine') :
    Timed engine' := by
  cases event with
  | start clock =>
    obtain ⟨-, rfl⟩ := of_guarded hstep
    exact after_of_leaves h.leaves_start
  | startFailed =>
    obtain ⟨-, rfl⟩ := of_guarded hstep
    exact h.with_state .new
  | started =>
    obtain ⟨-, rfl⟩ := of_guarded hstep
    exact h.with_state .started
  | packet updates awareness clock =>
    obtain ⟨hstate, rfl⟩ := of_guarded hstep
    refine after_of_leaves (leaves_mono (fun _ hkept => hkept.toTimed) (leaves_forM
      (fun update hu _ h' => h'.leaves_applyUpdate horderly.1 (horderly.2 update hu))
      (Kept.of_started h hstate)))
  | sync updates awareness clock =>
    obtain ⟨-, rfl⟩ := of_barred hstep
    obtain ⟨hclock, hvalid, hearly⟩ := horderly
    have hkept : Kept clock.now engine := by
      refine ⟨h, fun hstate name found hfound => ?_⟩
      obtain ⟨active, hget, rfl⟩ := map_eq_some_iff.mp hfound
      exact hearly hstate active (OrderedMap.mem_values_iff.mpr ⟨name, hget⟩)
    exact after_of_leaves (leaves_mono (fun _ h' => h'.toTimed)
      (hkept.leaves_mergeSyncTable hclock hvalid))
  | probeFailure target incarnation awareness clock =>
    cases hstep
    by_cases hstate : engine.state = .started
    · exact after_of_leaves (leaves_mono (fun _ h' => h'.toTimed)
        ((Kept.of_started h hstate).leaves_probeFailure hstate horderly.1 horderly.2))
    · exact after_of_leaves (by rw [probeFailure_idle hstate]; exact h)
  | suspicionTimer member clock =>
    cases hstep
    exact after_of_leaves (h.leaves_suspicionTimer horderly.1 horderly.2)
  | updateMetadata metadata clock =>
    cases hstep
    exact after_of_leaves h.leaves_updateMetadata
  | reapTimer member =>
    cases hstep
    exact after_of_leaves h.leaves_reapTimer

/-- In every run of orderly steps, at every point, a member other than the node itself is retained
    as suspect at an incarnation exactly if a suspicion of it is active at that incarnation, and a
    removal is armed exactly for the members retained as dead or left, for their state, incarnation
    and time. -/
theorem timers_match_truth (decay : Decay) {address : JsString} {metadata : Bytes}
    {fits : metadata.length ≤ MAX_METADATA_BYTES} {events : List SwimEvent}
    (haddress : Nameable false address)
    (horderly : Meets (step decay) (Orderly decay) (create address metadata fits) events)
    (hrun : run (step decay) (create address metadata fits) events = some engine) :
    (∀ name i, name ≠ engine.address →
      ((∃ record, engine.view.get name = some record ∧ record.update.state = .suspect ∧
          record.update.incarnation = i) ↔
        ∃ active, engine.suspicion.active.get name = some active ∧ active.incarnation = i)) ∧
    ∀ name operation, engine.reapTimers.get name = some operation ↔
      ∃ record, engine.view.get name = some record ∧
        isTerminalState record.update.state = true ∧ operation.member = name ∧
        operation.state = record.update.state ∧
        operation.incarnation = record.update.incarnation ∧
        operation.dueAt = record.appliedAt + TERMINAL_RETENTION_MS := by
  have htimed : Timed engine := run_preserves (fun _ _ _ h hcond hstep => h.step hcond hstep)
    (timed_create haddress) horderly hrun
  refine ⟨fun name i hne => ?_, fun name operation => ?_⟩
  · rw [← suspectIncarnation_eq_some, ← htimed.suspects name hne, incarnationOf, map_eq_some_iff]
  · rw [htimed.reaps]
    exact reapOperation_eq_some

/-- The decay with the logarithms to six digits. -/
def sixDigits : Decay where
  amount span count := (⌊span * (if count = 1 then 500000 else 792481) / 1000000⌋ : ℤ)
  le_span := by
    intro span count hspan
    refine (Int.floor_le _).trans ?_
    split <;> linarith

/-- Member `c`, `d` or `e` suspects `b`. -/
def accusedBy (reporter : JsString) : MembershipUpdate := ⟨.suspect, false, 0, 0, [98], reporter, []⟩

/-- Node `a` starts, learns of `b` and hears three others suspect it, all at the same moment. -/
def threeAccusers : List SwimEvent :=
  [.start ⟨0, 0⟩, .started, .packet [⟨.alive, true, 0, 0, [98], [], []⟩, accusedBy [99],
    accusedBy [100], accusedBy [101]] 0 ⟨0, 0⟩]

/-- Its own probe of `b` then fails at the shortest deadline: `b` is declared dead and a suspicion
    of it is started. -/
theorem dead_member_suspected : ∃ engine, run (step sixDigits) (create [97] [] (Nat.zero_le _))
        (threeAccusers ++ [.probeFailure [98] 0 0 ⟨4000, 0⟩]) = some engine ∧
      (∃ record ∈ engine.view.get [98], record.update.state = .dead) ∧
      ∃ active ∈ engine.suspicion.active.get [98], active.incarnation = 0 := by
  decide +kernel

/-- Had the probe failed a millisecond earlier, `b` would be suspect and timed. -/
theorem suspect_member_timed : ∃ engine, run (step sixDigits) (create [97] [] (Nat.zero_le _))
        (threeAccusers ++ [.probeFailure [98] 0 0 ⟨3999, 0⟩]) = some engine ∧
      ∃ active, engine.suspicion.active.get [98] = some active ∧ active.incarnation = 0 := by
  have horderly : Meets (step sixDigits) (Orderly sixDigits) (create [97] [] (Nat.zero_le _))
      (threeAccusers ++ [.probeFailure [98] 0 0 ⟨3999, 0⟩]) := by decide +kernel
  refine ends_imp (P := fun engine => [98] ≠ engine.address ∧ ∃ record ∈ engine.view.get [98],
      record.update.state = .suspect ∧ record.update.incarnation = 0) (by decide +kernel) ?_
  rintro engine hrun ⟨hne, hsuspect⟩
  exact ((timers_match_truth sixDigits (by decide) horderly hrun).1 [98] 0 hne).mp hsuspect

end Swim

end Nodeakt.Membership
