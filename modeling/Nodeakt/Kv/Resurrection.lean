import Nodeakt.Schemes.Run
import Nodeakt.Kv.Reconciliation

/-! No resurrection of a superseded value.

    The replicas of one partition: the primary writes and replicates, replicate messages arrive late
    or never, janitors reap and anti-entropy passes run. A delete leaves a tombstone that outlives
    one pass with every replica, but an expired value is reaped outright and nothing then vetoes an
    older value somewhere else. `never_goes_back`: when the primary only reaps an expired value whose
    older versions are gone, replicate messages are not older than the tombstone lifetime, every
    replica is in time with its passes, digests tell different stores apart and no marked key or name
    travels, the primary never reads a version older than one it has stored. -/

namespace Nodeakt.Kv
open Schemes Engine Function List Option

variable {initiator key name peer : JsString} {entry last : Entry}

/-- The replicas of one partition. `lastPass` is the time of each replica's last pass with the
    primary, `stored` lists every entry the primary has stored. -/
structure ReplicaSet where
  partition : ℕ
  primary : JsString
  replicas : List JsString
  apart : primary ∉ replicas
  engines : JsString → Engine
  now : Millis
  inFlight : List (JsString × Entry)
  lastPass : JsString → Millis
  stored : List Entry

/-- What can happen. -/
inductive ReplicaEvent where
  | tick (now : Millis)
  | write (op : WriteOp)
  | deliver (index : ℕ)
  | lose (index : ℕ)
  | reap (name : JsString)
  | sync (initiator peer : JsString)

/-- The other end of a pass; a node outside the pass is its own. -/
def partner (initiator peer name : JsString) : JsString :=
  if name = initiator then peer else if name = peer then initiator else name

/-- The digests tell the two stores apart: a key they store differently is in a divergent bucket. -/
def Separated (partition : ℕ) (engine peer : Engine) : Prop :=
  ∀ entry ∈ engine.snapshot partition ++ peer.snapshot partition,
    engine.peek entry.key = peer.peek entry.key ∨ Diverges partition engine peer entry.key

instance (partition : ℕ) (engine peer : Engine) : Decidable (Separated partition engine peer) :=
  inferInstanceAs (Decidable (∀ entry ∈ engine.snapshot partition ++ peer.snapshot partition, _))

/-- A pass between separated stores leaves the later entry of every key at both ends. -/
theorem pass_separated {partition : ℕ} {engine peer : Engine}
    (hsame : ∀ key, peer.partitionFor key = engine.partitionFor key)
    (hseparated : Separated partition engine peer) (hunmarked : Unmarked partition engine peer)
    (hanswered : (pass partition engine peer).answered = true)
    (houtside : engine.partitionFor key ≠ partition → engine.peek key = peer.peek key) :
    (pass partition engine peer).engine.peek key = later (engine.peek key) (peer.peek key) ∧
      (pass partition engine peer).peer.peek key = later (peer.peek key) (engine.peek key) := by
  obtain ⟨hfirst, hsecond⟩ := pass_peek hsame hunmarked hanswered key
  rw [hfirst, hsecond]
  by_cases hdiverges : Diverges partition engine peer key
  · rw [if_pos hdiverges, if_pos hdiverges]
    exact ⟨rfl, rfl⟩
  · have hequal : engine.peek key = peer.peek key := by
      by_cases hpartition : engine.partitionFor key = partition
      · by_contra hne
        have hstored : ∃ entry ∈ engine.snapshot partition ++ peer.snapshot partition,
            entry.key = key := by
          cases hown : engine.peek key with
          | some entry =>
            obtain rfl := peek_key hown
            exact ⟨entry, mem_append_left _ (mem_snapshot.mpr ⟨hpartition, hown⟩), rfl⟩
          | none =>
            cases hother : peer.peek key with
            | none => exact absurd (hown.trans hother.symm) hne
            | some entry =>
              obtain rfl := peek_key hother
              exact ⟨entry, mem_append_right _ (mem_snapshot.mpr
                ⟨(hsame _).trans hpartition, hother⟩), rfl⟩
        obtain ⟨entry, hentry, rfl⟩ := hstored
        exact (hseparated entry hentry).elim hne hdiverges
      · exact houtside hpartition
    rw [if_neg hdiverges, if_neg hdiverges, hequal, later_self]
    exact ⟨rfl, rfl⟩

namespace ReplicaSet

/-- Fresh replicas at time `start`. -/
def create (partition partitionCount : ℕ) (positive : 0 < partitionCount) (primary : JsString)
    (replicas : List JsString) (apart : primary ∉ replicas) (start : Millis) : ReplicaSet where
  partition := partition
  primary := primary
  replicas := replicas
  apart := apart
  engines := fun name => Engine.create name partitionCount positive
  now := start
  inFlight := []
  lastPass := fun _ => start
  stored := []

section

variable (world : ReplicaSet)

/-- The primary's store. -/
def main : Engine := world.engines world.primary

/-- The primary writes and sends the entry to every replica. -/
def write (op : WriteOp) : ReplicaSet :=
  match world.main.write op world.now world.now with
  | (.ok (.applied entry), engine) =>
    { world with
      engines := Function.update world.engines world.primary engine
      inFlight := world.inFlight ++ world.replicas.map (fun name => (name, entry)) }
  | _ => world

/-- A replica merges the entry it decoded. -/
def deliver (index : ℕ) (name : JsString) (entry : Entry) : ReplicaSet :=
  { world with
    engines := Function.update world.engines name ((world.engines name).merge entry)
    inFlight := world.inFlight.eraseIdx index }

/-- A janitor run. -/
def reap (name : JsString) : ReplicaSet := { world with
    engines := Function.update world.engines name ((world.engines name).sweep world.now) }

/-- A pass over the wire, as the two nodes run it. -/
def exchange (initiator peer : JsString) : SyncResult :=
  Kv.pass world.partition (world.engines initiator) (world.engines peer)

/-- A complete pass. -/
def pass (initiator peer : JsString) : ReplicaSet :=
  let synced := world.exchange initiator peer
  { world with
    engines := Function.update (Function.update world.engines initiator synced.engine) peer
      synced.peer
    lastPass := fun name =>
      if partner initiator peer name = world.primary then world.now else world.lastPass name }

/-- Adds what the primary stores to the log. -/
def record : ReplicaSet :=
  { world with stored := world.stored ++ world.main.snapshot world.partition }

/-- One event, before it is recorded. -/
def advance : ReplicaEvent → Option ReplicaSet
  | .tick now => if world.now ≤ now then some { world with now := now } else none
  | .write op =>
    if world.main.partitionFor op.key = world.partition then some (world.write op) else none
  | .deliver index => world.inFlight[index]?.bind (fun message =>
      (deliveredEntry message.2).map (world.deliver index message.1))
  | .lose index => some { world with inFlight := world.inFlight.eraseIdx index }
  | .reap name => if name ∈ world.primary :: world.replicas then some (world.reap name) else none
  | .sync initiator peer =>
    if initiator ≠ peer ∧ initiator ∈ world.primary :: world.replicas ∧
        peer ∈ world.primary :: world.replicas ∧ (world.exchange initiator peer).answered = true then
      some (world.pass initiator peer)
    else none

/-- One event. -/
def step (event : ReplicaEvent) : Option ReplicaSet :=
  (world.advance event).map record

/-- Neither a replica nor a message has an older version of the entry's key. -/
def Alone (entry : Entry) : Prop :=
  (∀ name ∈ world.replicas, ∀ other ∈ (world.engines name).peek entry.key,
    entry.timestamp ≤ other.timestamp) ∧
  ∀ message ∈ world.inFlight, message.2.key = entry.key → entry.timestamp ≤ message.2.timestamp

instance (entry : Entry) : Decidable (world.Alone entry) :=
  inferInstanceAs (Decidable ((∀ name ∈ world.replicas, _) ∧ ∀ message ∈ world.inFlight, _))

/-- Every replica has had a pass with the primary less than a tombstone lifetime ago. -/
def Punctual : ReplicaEvent → Prop
  | .tick now => ∀ name ∈ world.replicas, now < world.lastPass name + TOMBSTONE_TTL_MS
  | _ => True

instance (event) : Decidable (world.Punctual event) := by
  rcases event <;> dsimp only [Punctual] <;> infer_instance

/-- When an event is in time: passes are less than a tombstone lifetime apart, a message is younger
    than that, the primary reaps an expired value only when older versions are gone, digests tell
    the two stores of a pass apart, and no key or node name that travels starts with a byte order
    mark. -/
def InTime : ReplicaEvent → Prop
  | .tick now => world.Punctual (.tick now)
  | .deliver index => ∀ message ∈ world.inFlight[index]?,
      world.now < message.2.timestamp.wallMs + TOMBSTONE_TTL_MS ∧
        (KvMessage.replicate message.2).Unmarked
  | .reap name => name = world.primary → ∀ entry ∈ world.main.snapshot world.partition,
      isExpired entry world.now = true → world.Alone entry
  | .sync initiator peer =>
      Separated world.partition (world.engines initiator) (world.engines peer) ∧
        Unmarked world.partition (world.engines initiator) (world.engines peer)
  | _ => True

instance (event) : Decidable (world.InTime event) := by
  rcases event <;> dsimp only [InTime] <;> infer_instance

end

/-- The entry is the latest version or an earlier one. -/
def Upto (latest entry : Entry) : Prop := entry = latest ∨ entry.timestamp < latest.timestamp

/-- Nobody has, or can receive in time, another version of the key than its last one. -/
structure Settled (world : ReplicaSet) (key : JsString) (last : Entry) : Prop where
  stored : ∀ name ∈ world.replicas, ∀ entry, (world.engines name).peek key = some entry →
    entry = last
  sent : ∀ message ∈ world.inFlight, message.2.key = key →
    message.2 = last ∨ last.timestamp.wallMs + TOMBSTONE_TTL_MS ≤ world.now
  late : last.deleted = true → last.timestamp.wallMs + TOMBSTONE_TTL_MS ≤ world.now

/-- What holds when `latest` gives the last entry the primary wrote of each key: nobody has a later
    one, the primary has that one or none, and in the latter case the key is settled. A tombstone
    has reached every replica that passed after it. -/
structure Current (world : ReplicaSet) (latest : JsString → Option Entry) : Prop where
  sharded : ∀ name key, (world.engines name).partitionFor key = world.main.partitionFor key
  punctual : ∀ name ∈ world.replicas, world.lastPass name ≤ world.now ∧
    world.now < world.lastPass name + TOMBSTONE_TTL_MS
  routed : ∀ key last, latest key = some last → last.key = key ∧
    world.main.partitionFor key = world.partition
  stamped : ∀ key last, latest key = some last → last.timestamp ≤ world.main.clock.stamp
  lasting : ∀ key last, latest key = some last → last.deleted = true → last.expiresAt = none
  stocked : ∀ name key entry, (world.engines name).peek key = some entry →
    ∃ last, latest key = some last ∧ Upto last entry
  sent : ∀ message ∈ world.inFlight, message.1 ∈ world.replicas ∧
    ∃ last, latest message.2.key = some last ∧ Upto last message.2
  holds : ∀ key entry, world.main.peek key = some entry → latest key = some entry
  settled : ∀ key last, latest key = some last → world.main.peek key = none → world.Settled key last
  buried : ∀ key last, latest key = some last → last.deleted = true →
    ∀ name ∈ world.replicas, last.timestamp.wallMs < world.lastPass name →
      (world.engines name).peek key = some last ∨ (world.engines name).peek key = none ∧
          last.timestamp.wallMs + TOMBSTONE_TTL_MS ≤ world.now
  seen : ∀ entry ∈ world.stored, ∃ last, latest entry.key = some last ∧
    entry.timestamp ≤ last.timestamp

/-! ### Versions up to the latest -/

theorem Upto.wallMs_le (h : Upto last entry) : entry.timestamp.wallMs ≤ last.timestamp.wallMs := by
  rcases h with rfl | hlt
  · exact le_rfl
  · rcases HybridTime.lt_iff.mp hlt with hwall | ⟨hwall, -⟩
    · exact hwall.le
    · exact hwall.le

theorem Upto.timestamp_le (h : Upto last entry) : entry.timestamp ≤ last.timestamp := by
  rcases h with rfl | hlt
  · exact le_rfl
  · exact hlt.le

theorem Upto.eq_of_le (h : Upto last entry) (hle : last.timestamp ≤ entry.timestamp) :
    entry = last :=
  h.resolve_right (not_lt.mpr hle)

/-- Merging the latest version leaves it. -/
theorem newest_last {stored : Option Entry} (h : ∀ entry, stored = some entry → Upto last entry) :
    newest stored last = last := by
  cases stored with
  | none => rfl
  | some entry =>
    rcases h entry rfl with rfl | hlt
    · exact newest_some_eq_iff.mpr (Or.inr rfl)
    · exact newest_some_eq_iff.mpr (Or.inl hlt)

/-- The latest version survives any merge. -/
theorem newest_some_last (h : Upto last entry) : newest (some last) entry = last := by
  rw [newest, supersedes_eq_false.mpr h.timestamp_le]
  rfl

theorem later_cases (own other : Option Entry) : later own other = own ∨ later own other = other := by
  cases other with
  | none => exact Or.inl (later_none own)
  | some entry =>
    rw [later_some]
    rcases newest_eq own entry with h | h
    · exact Or.inr (congrArg some h)
    · exact Or.inl h.symm

theorem later_some_last {other : Option Entry} (h : ∀ entry, other = some entry → Upto last entry) :
    later (some last) other = some last := by
  cases other with
  | none => rfl
  | some entry => rw [later_some, newest_some_last (h entry rfl)]

/-! ### Steps -/

variable {world : ReplicaSet} {latest : JsString → Option Entry}

theorem current_create (partition partitionCount : ℕ) (positive : 0 < partitionCount)
    (primary : JsString) (replicas : List JsString) (apart : primary ∉ replicas) (start : Millis) :
    (create partition partitionCount positive primary replicas apart start).Current
      (fun _ => none) where
  sharded := fun _ _ => rfl
  punctual := fun _ _ => ⟨le_rfl, lt_add_of_pos_right _ (by norm_num [TOMBSTONE_TTL_MS])⟩
  routed := by simp
  stamped := by simp
  lasting := by simp
  stocked := by simp [create]
  sent := by simp [create]
  holds := by simp [create, main]
  settled := by simp
  buried := by simp
  seen := by simp [create]

theorem Current.tick (h : world.Current latest) {now : Millis} (hle : world.now ≤ now)
    (hcond : world.InTime (.tick now)) : Current { world with now := now } latest :=
  { h with
    punctual := fun name hname => ⟨(h.punctual name hname).1.trans hle, hcond name hname⟩
    settled := by
      intro key last hlast hnone
      obtain ⟨hstored, hsent, hlate⟩ := h.settled key last hlast hnone
      exact ⟨hstored, fun message hm hkey => (hsent message hm hkey).imp_right (·.trans hle),
        fun hdeleted => (hlate hdeleted).trans hle⟩
    buried := by
      intro key last hlast hdeleted name hname hpassed
      exact (h.buried key last hlast hdeleted name hname hpassed).imp_right (.imp_right (·.trans hle)) }

theorem Current.lose (h : world.Current latest) (index : ℕ) :
    Current { world with inFlight := world.inFlight.eraseIdx index } latest :=
  { h with
    sent := fun message hm => h.sent message (mem_of_mem_eraseIdx hm)
    settled := fun key last hlast hnone =>
      { h.settled key last hlast hnone with
        sent := fun message hm =>
          (h.settled key last hlast hnone).sent message (mem_of_mem_eraseIdx hm) } }

theorem Current.record (h : world.Current latest) : world.record.Current latest :=
  { h with
    settled := fun key last hlast hnone => { h.settled key last hlast hnone with }
    seen := by
      intro entry hentry
      rcases mem_append.mp hentry with hold | hnew
      · exact h.seen entry hold
      · exact ⟨entry, h.holds entry.key entry (mem_snapshot.mp hnew).2, le_rfl⟩ }

theorem ne_primary (h : name ∈ world.replicas) : world.primary ≠ name := by
  rintro rfl
  exact world.apart h

section

variable (h : world.Current latest)
include h

theorem Current.upto (hlast : latest key = some last)
    (hpeek : (world.engines name).peek key = some entry) : Upto last entry := by
  obtain ⟨last', hlast', hupto⟩ := h.stocked name key entry hpeek
  rwa [some.inj (hlast.symm.trans hlast')]

/-- A change of one replica's store that keeps its entries up to the latest, adds nothing but the
    latest to a settled key and loses no tombstone before its time. -/
theorem Current.replica (hname : name ∈ world.replicas) {engine : Engine}
    (hsharded : ∀ key, engine.partitionFor key = (world.engines name).partitionFor key)
    (hstocked : ∀ key entry, engine.peek key = some entry →
      ∃ last, latest key = some last ∧ Upto last entry)
    (hsettled : ∀ key last, latest key = some last → world.main.peek key = none →
      ∀ entry, engine.peek key = some entry → entry = last)
    (hburied : ∀ key last, latest key = some last → last.deleted = true →
      last.timestamp.wallMs < world.lastPass name → engine.peek key = some last ∨
        engine.peek key = none ∧ last.timestamp.wallMs + TOMBSTONE_TTL_MS ≤ world.now) :
    Current { world with engines := update world.engines name engine } latest := by
  have hmain : update world.engines name engine world.primary = world.main :=
    update_of_ne (ne_primary hname) ..
  refine { h with
    sharded := ?_, routed := ?_, stamped := ?_, stocked := ?_, holds := ?_, settled := ?_, buried := ?_ }
    <;> simp only [ReplicaSet.main, hmain]
  · intro other
    rcases eq_or_ne other name with rfl | hne
    · simpa [main] using fun key => (hsharded key).trans (h.sharded other key)
    · simpa [main, hne] using h.sharded other
  · exact h.routed
  · exact h.stamped
  · intro other
    rcases eq_or_ne other name with rfl | hne
    · simpa using hstocked
    · simpa [hne] using h.stocked other
  · exact h.holds
  · intro key last hlast hnone
    refine { h.settled key last hlast hnone with stored := fun other hreplica => ?_ }
    rcases eq_or_ne other name with rfl | hne
    · simpa using hsettled key last hlast hnone
    · simpa [hne] using (h.settled key last hlast hnone).stored other hreplica
  · intro key last hlast hdeleted other hreplica
    rcases eq_or_ne other name with rfl | hne
    · simpa using hburied key last hlast hdeleted
    · simpa [hne] using h.buried key last hlast hdeleted other hreplica

/-- A replica receives a young enough message. -/
theorem Current.deliver {index : ℕ} {message : JsString × Entry}
    (hmessage : world.inFlight[index]? = some message)
    (hyoung : world.now < message.2.timestamp.wallMs + TOMBSTONE_TTL_MS) :
    (world.deliver index message.1 message.2).Current latest := by
  obtain ⟨hname, last, hlast, hupto⟩ := h.sent message (mem_of_getElem? hmessage)
  have hreceived : Current
      { world with
        engines := update world.engines message.1
          ((world.engines message.1).merge message.2) } latest := by
    refine h.replica hname (fun _ => rfl) ?_ ?_ ?_
    · intro key entry hpeek
      obtain rfl := peek_key hpeek
      rcases peek_merge_cases hpeek with hold | rfl
      · exact h.stocked _ _ _ hold
      · exact ⟨last, hlast, hupto⟩
    · intro key last' hlast' hnone entry hpeek
      obtain ⟨hstored, hsent, -⟩ := h.settled key last' hlast' hnone
      obtain rfl := peek_key hpeek
      rcases peek_merge_cases hpeek with hold | rfl
      · exact hstored message.1 hname entry hold
      · cases (hlast.symm.trans hlast')
        -- an older message would be past its lifetime
        rcases hsent message (mem_of_getElem? hmessage) rfl with heq | hlate
        · exact heq
        · exact absurd (hupto.wallMs_le) (by linarith)
    · intro key last' hlast' hdeleted hpassed
      rw [peek_merge]
      split_ifs with hkey
      · subst hkey
        cases (hlast.symm.trans hlast')
        rcases h.buried _ last hlast hdeleted message.1 hname hpassed with hkept | ⟨hnone, hlate⟩
        · rw [hkept, newest_some_last hupto]
          exact Or.inl rfl
        · rcases hupto with heq | hlt
          · rw [hnone, heq]
            exact Or.inl rfl
          · have hwall := Upto.wallMs_le (Or.inr hlt)
            exact absurd hyoung (by linarith)
      · exact h.buried key last' hlast' hdeleted message.1 hname hpassed
  exact hreceived.lose index

/-- A tombstone is reaped only past its lifetime. -/
theorem Current.reaped_late (hlast : latest key = some last)
    (hdeleted : last.deleted = true) (hdoomed : Partition.doomed world.now last = true) :
    last.timestamp.wallMs + TOMBSTONE_TTL_MS ≤ world.now := by
  have hexpires := h.lasting key last hlast hdeleted
  simp only [Partition.doomed, isReapableTombstone, isExpired, hdeleted, hexpires, Bool.true_and,
    Bool.or_false, decide_eq_true_eq] at hdoomed
  linarith

theorem Current.reap_replica (hname : name ∈ world.replicas) :
    (world.reap name).Current latest := by
  refine h.replica hname (fun key => ?_) ?_ ?_ ?_
  · exact sweep_partitionFor ..
  · exact fun key entry hpeek => h.stocked name key entry (peek_of_sweep hpeek)
  · exact fun key last hlast hgone entry hpeek =>
      (h.settled key last hlast hgone).stored name hname entry (peek_of_sweep hpeek)
  · intro key last hlast hdeleted hpassed
    rcases peek_sweep (world.engines name) world.now key with hsame | ⟨hnone, hdoomed⟩
    · rw [hsame]
      exact h.buried key last hlast hdeleted name hname hpassed
    · rcases h.buried key last hlast hdeleted name hname hpassed with hkept | ⟨-, hlate⟩
      · exact Or.inr ⟨hnone, h.reaped_late hlast hdeleted (hdoomed last hkept)⟩
      · exact Or.inr ⟨hnone, hlate⟩

/-- What the primary reaps is settled: no older version of an expired value is left, and every
    replica has had a pass after a tombstone. -/
theorem Current.settled_of_doomed
    (hcond : world.InTime (.reap world.primary)) (hpeek : world.main.peek key = some entry)
    (hdoomed : Partition.doomed world.now entry = true) : world.Settled key entry := by
  have hlast := h.holds key entry hpeek
  obtain ⟨rfl, hpartition⟩ := h.routed key entry hlast
  cases hexpired : isExpired entry world.now with
  | true =>
    obtain ⟨hreplicas, hmessages⟩ := hcond rfl entry (mem_snapshot.mpr ⟨hpartition, hpeek⟩) hexpired
    refine ⟨fun name hname other hother => ?_, fun message hm hkey => Or.inl ?_,
      fun hdeleted => h.reaped_late hlast hdeleted hdoomed⟩
    · exact (h.upto hlast hother).eq_of_le (hreplicas name hname other hother)
    · obtain ⟨-, last, hlast', hupto⟩ := h.sent message hm
      rw [hkey] at hlast'
      cases (hlast.symm.trans hlast')
      exact hupto.eq_of_le (hmessages message hm hkey)
  | false =>
    have hdeleted : entry.deleted = true := by
      simp only [Partition.doomed, hexpired, isReapableTombstone, Bool.or_false,
        Bool.and_eq_true] at hdoomed
      exact hdoomed.1
    have hlate := h.reaped_late hlast hdeleted hdoomed
    refine ⟨fun name hname other hother => ?_, fun _ _ _ => Or.inr hlate, fun _ => hlate⟩
    have hpassed : entry.timestamp.wallMs < world.lastPass name := by
      have := (h.punctual name hname).2
      linarith
    rcases h.buried _ entry hlast hdeleted name hname hpassed with hkept | ⟨hnone, -⟩
    · exact (some.inj (hkept.symm.trans hother)).symm
    · rw [hnone] at hother
      cases hother

/-- The primary reaps: an expired value whose older versions are gone, or a tombstone every replica
    has had a pass after. -/
theorem Current.reap_primary
    (hcond : world.InTime (.reap world.primary)) : (world.reap world.primary).Current latest := by
  have hmain : (world.reap world.primary).main = world.main.sweep world.now := update_self ..
  have hother : ∀ name ∈ world.replicas,
      (world.reap world.primary).engines name = world.engines name :=
    fun name hname => update_of_ne (ne_primary hname).symm ..
  refine ⟨?_, h.punctual, ?_, ?_, h.lasting, ?_, h.sent, ?_, ?_, ?_, h.seen⟩
  · intro name key
    rw [hmain, sweep_partitionFor, ← h.sharded name key, reap]
    by_cases hname : name = world.primary
    · rw [hname]
      simp only [update_self, sweep_partitionFor]
    · simp only [update_of_ne hname]
  · intro key last hlast
    rw [hmain, sweep_partitionFor]
    exact h.routed key last hlast
  · rw [hmain]
    exact h.stamped
  · intro name key entry hpeek
    by_cases hname : name = world.primary
    · rw [hname] at hpeek
      have hswept : (world.main.sweep world.now).peek key = some entry := hmain ▸ hpeek
      exact h.stocked world.primary key entry (peek_of_sweep hswept)
    · simp only [reap, update_of_ne hname] at hpeek
      exact h.stocked name key entry hpeek
  · intro key entry hpeek
    rw [hmain] at hpeek
    exact h.holds key entry (peek_of_sweep hpeek)
  · intro key last hlast hnone
    rw [hmain] at hnone
    have hsettled : world.Settled key last := by
      cases hpeek : world.main.peek key with
      | none => exact h.settled key last hlast hpeek
      | some entry =>
        obtain rfl := some.inj ((h.holds key entry hpeek).symm.trans hlast)
        refine h.settled_of_doomed hcond hpeek ?_
        rcases peek_sweep world.main world.now key with hsame | ⟨-, hdoomed⟩
        · rw [hnone, hpeek] at hsame
          cases hsame
        · exact hdoomed entry hpeek
    refine ⟨fun name hname entry hpeek => ?_, hsettled.sent, hsettled.late⟩
    rw [hother name hname] at hpeek
    exact hsettled.stored name hname entry hpeek
  · intro key last hlast hdeleted name hname hpassed
    rw [hother name hname]
    exact h.buried key last hlast hdeleted name hname hpassed

end

/-- Only a delete leaves a tombstone, and a tombstone does not expire. -/
theorem decideOp_none {op : WriteOp} {current : Option Entry} {nowMs : Millis}
    {expiresAt : Option Millis}
    (h : Engine.decideOp op current nowMs = .ok (.inl (none, expiresAt))) : expiresAt = none := by
  cases Engine.commits_of_decideOp h
  rfl

/-! ### A write of the primary -/

section

variable {op : WriteOp} {engine : Engine} {older : Entry}

theorem latest_write (h : update latest op.key (some entry) key = some last) :
    key = op.key ∧ last = entry ∨ key ≠ op.key ∧ latest key = some last := by
  by_cases hk : key = op.key
  · subst hk
    rw [update_self] at h
    exact Or.inl ⟨rfl, (some.inj h).symm⟩
  · rw [update_of_ne hk] at h
    exact Or.inr ⟨hk, h⟩

variable (h : world.Current latest)
  (hwrite : world.main.write op world.now world.now = (.ok (.applied entry), engine))
include h hwrite

/-- The new entry is later than every version before it. -/
theorem Current.upto_write (hlast : latest op.key = some last) (hold : Upto last older) :
    Upto entry older := by
  obtain ⟨value, expiresAt, -, rfl, -⟩ := write_applied hwrite
  exact Or.inr ((hold.timestamp_le.trans (h.stamped _ _ hlast)).trans_lt
    (HybridClock.stamp_lt_tick ..))

theorem Current.raise_write (hold : ∃ last, latest key = some last ∧ Upto last older) :
    ∃ last, update latest op.key (some entry) key = some last ∧ Upto last older := by
  obtain ⟨last, hlast, hold⟩ := hold
  by_cases hk : key = op.key
  · subst hk
    exact ⟨entry, update_self .., h.upto_write hwrite hlast hold⟩
  · exact ⟨last, (update_of_ne hk ..).trans hlast, hold⟩

theorem Current.peek_write (key : JsString) :
    engine.peek key = if key = op.key then some entry else world.main.peek key := by
  obtain ⟨value, expiresAt, -, rfl, rfl⟩ := write_applied hwrite
  rw [peek_commit]
  by_cases hk : key = op.key
  · rw [if_pos hk, if_pos hk]
    refine congrArg some (newest_last fun older hold => ?_)
    obtain ⟨last, hlast, hold⟩ := h.stocked world.primary key older hold
    exact h.upto_write hwrite (hk ▸ hlast) hold
  · rw [if_neg hk, if_neg hk]

/-- The primary writes: the new entry is later than everything. -/
theorem Current.write (hpartition : world.main.partitionFor op.key = world.partition) :
    Current { world with
        engines := update world.engines world.primary engine
        inFlight := world.inFlight ++ world.replicas.map (fun name => (name, entry)) }
      (update latest op.key (some entry)) := by
  have hpeek := h.peek_write hwrite
  obtain ⟨value, expiresAt, hdecide, hentry, hengine⟩ := write_applied hwrite
  have hkey : entry.key = op.key := by rw [hentry]; rfl
  have hstamp : entry.timestamp = (world.main.clock.tick world.now).stamp := by rw [hentry]; rfl
  have hclock : engine.clock = world.main.clock.tick world.now := by rw [hengine]; rfl
  have hlater : world.main.clock.stamp < entry.timestamp := by
    rw [hstamp]
    exact HybridClock.stamp_lt_tick ..
  have hsharded : ∀ key, engine.partitionFor key = world.main.partitionFor key := by
    intro key
    rw [hengine]
    rfl
  have hmain : update world.engines world.primary engine world.primary = engine := update_self ..
  have hother : ∀ name, name ≠ world.primary →
      update world.engines world.primary engine name = world.engines name :=
    fun name hne => update_of_ne hne ..
  refine ⟨?_, h.punctual, ?_, ?_, ?_, ?_, ?_, ?_, ?_, ?_, ?_⟩
  · intro name key
    simp only [main, hmain, hsharded]
    by_cases hname : name = world.primary
    · rw [hname, hmain, hsharded]
      rfl
    · rw [hother name hname]
      exact h.sharded name key
  · intro key last hlast
    simp only [main, hmain, hsharded]
    rcases latest_write hlast with ⟨rfl, rfl⟩ | ⟨-, hlast⟩
    · exact ⟨hkey, hpartition⟩
    · exact h.routed key last hlast
  · intro key last hlast
    simp only [main, hmain, hclock]
    rcases latest_write hlast with ⟨-, rfl⟩ | ⟨-, hlast⟩
    · exact hstamp.le
    · exact (h.stamped key last hlast).trans (hlater.le.trans hstamp.le)
  · intro key last hlast hdeleted
    rcases latest_write hlast with ⟨-, rfl⟩ | ⟨-, hlast⟩
    · rw [hentry] at hdeleted ⊢
      cases value with
      | none => exact decideOp_none hdecide
      | some _ => cases hdeleted
    · exact h.lasting key last hlast hdeleted
  · intro name key older hold
    by_cases hname : name = world.primary
    · rw [hname] at hold
      simp only [hmain, hpeek] at hold
      split_ifs at hold with hk
      · subst hk
        exact ⟨entry, update_self .., Or.inl (some.inj hold).symm⟩
      · exact h.raise_write hwrite (h.stocked world.primary key older hold)
    · simp only [hother name hname] at hold
      exact h.raise_write hwrite (h.stocked name key older hold)
  · intro message hm
    rcases mem_append.mp hm with hold | hnew
    · exact ⟨(h.sent message hold).1, h.raise_write hwrite (h.sent message hold).2⟩
    · obtain ⟨name, hname, rfl⟩ := mem_map.mp hnew
      exact ⟨hname, entry, by rw [hkey]; exact update_self .., Or.inl rfl⟩
  · intro key older hold
    simp only [main, hmain, hpeek] at hold
    split_ifs at hold with hk
    · subst hk
      rw [update_self, ← hold]
    · rw [update_of_ne hk]
      exact h.holds key older hold
  · intro key last hlast hnone
    simp only [main, hmain, hpeek] at hnone
    split at hnone
    · cases hnone
    · rename_i hk
      rw [update_of_ne hk] at hlast
      obtain ⟨hstored, hsent, hlate⟩ := h.settled key last hlast hnone
      refine ⟨fun name hname older hold => ?_, fun message hm hmkey => ?_, hlate⟩
      · simp only [hother name (ne_primary hname).symm] at hold
        exact hstored name hname older hold
      · rcases mem_append.mp hm with hold | hnew
        · exact hsent message hold hmkey
        · obtain ⟨name, -, rfl⟩ := mem_map.mp hnew
          exact absurd (hmkey.symm.trans hkey) hk
  · intro key last hlast hdeleted name hname hpassed
    simp only [hother name (ne_primary hname).symm]
    rcases latest_write hlast with ⟨-, rfl⟩ | ⟨-, hlast⟩
    · -- no replica has had a pass after a write made now
      have hwall : world.now ≤ last.timestamp.wallMs := hstamp ▸ le_max_right _ _
      exact absurd (hpassed.trans_le (h.punctual name hname).1) (not_lt.mpr hwall)
    · exact h.buried key last hlast hdeleted name hname hpassed
  · intro older hold
    obtain ⟨last, hlast, hle⟩ := h.seen older hold
    by_cases hk : older.key = op.key
    · refine ⟨entry, by rw [hk]; exact update_self .., ?_⟩
      exact (hle.trans (h.stamped _ last (hk ▸ hlast))).trans hlater.le
    · exact ⟨last, (update_of_ne hk ..).trans hlast, hle⟩

end

/-! ### A pass -/

/-- What a pass leaves everywhere: the later of a node's entry and its partner's. -/
theorem Current.peek_pass (h : world.Current latest) (hne : initiator ≠ peer)
    (hcond : world.InTime (.sync initiator peer))
    (hanswered : (world.exchange initiator peer).answered = true) (name key : JsString) :
    ((world.pass initiator peer).engines name).peek key = later ((world.engines name).peek key)
        ((world.engines (partner initiator peer name)).peek key) := by
  have houtside : (world.engines initiator).partitionFor key ≠ world.partition →
      (world.engines initiator).peek key = (world.engines peer).peek key := by
    intro hpartition
    have hnone : ∀ other, (world.engines other).peek key = none := by
      intro other
      by_contra hsome
      obtain ⟨entry, hentry⟩ := ne_none_iff_exists'.mp hsome
      obtain ⟨last, hlast, -⟩ := h.stocked other key entry hentry
      exact hpartition ((h.sharded initiator key).trans (h.routed key last hlast).2)
    rw [hnone, hnone]
  have hsame : ∀ key, (world.engines peer).partitionFor key =
      (world.engines initiator).partitionFor key :=
    fun key => (h.sharded peer key).trans (h.sharded initiator key).symm
  obtain ⟨hfirst, hsecond⟩ := pass_separated hsame hcond.1 hcond.2 hanswered houtside
  simp only [pass, partner, exchange]
  by_cases hpeer : name = peer
  · subst hpeer
    rw [update_self, if_neg hne.symm, if_pos rfl, hsecond]
  · rw [update_of_ne hpeer, if_neg hpeer]
    by_cases hinit : name = initiator
    · subst hinit
      rw [update_self, if_pos rfl, hfirst]
    · rw [update_of_ne hinit, if_neg hinit, later_self]

theorem pass_engine (hanswered : (world.exchange initiator peer).answered = true)
    (name : JsString) : ∃ entries : List Entry,
    (world.pass initiator peer).engines name = entries.foldl Engine.merge (world.engines name) := by
  obtain ⟨pulled, pushed, hpulled, hpushed⟩ := pass_merges hanswered
  simp only [pass, exchange, hpulled, hpushed]
  by_cases hpeer : name = peer
  · subst hpeer
    exact ⟨pushed, update_self ..⟩
  · rw [update_of_ne hpeer]
    by_cases hinit : name = initiator
    · subst hinit
      exact ⟨pulled, update_self ..⟩
    · exact ⟨[], update_of_ne hinit ..⟩

/-- Nobody has another version of a key that the primary lacks. -/
theorem Current.lone (h : world.Current latest) (hlast : latest key = some last)
    (hnone : world.main.peek key = none) (hname : name ∈ world.primary :: world.replicas)
    (hpeek : (world.engines name).peek key = some entry) : entry = last := by
  rcases mem_cons.mp hname with rfl | hname
  · rw [main, hpeek] at hnone
    cases hnone
  · exact (h.settled key last hlast hnone).stored name hname entry hpeek

section

variable (h : world.Current latest) (hne : initiator ≠ peer)
  (hinit : initiator ∈ world.primary :: world.replicas)
  (hpeer : peer ∈ world.primary :: world.replicas)

include hinit hpeer in
theorem partner_mem (hname : name ∈ world.primary :: world.replicas) :
    partner initiator peer name ∈ world.primary :: world.replicas := by
  unfold partner
  split_ifs
  · exact hpeer
  · exact hinit
  · exact hname

variable (hanswered : (world.exchange initiator peer).answered = true)
  (hcond : world.InTime (.sync initiator peer))
include h hne hinit hpeer hanswered hcond

/-- A pass with the primary brings a tombstone, and any other pass keeps it. -/
theorem Current.buried_pass (hlast : latest key = some last) (hdeleted : last.deleted = true)
    (name : JsString) (hname : name ∈ world.replicas)
    (hpassed : last.timestamp.wallMs < (world.pass initiator peer).lastPass name) :
    ((world.pass initiator peer).engines name).peek key = some last ∨
      ((world.pass initiator peer).engines name).peek key = none ∧
        last.timestamp.wallMs + TOMBSTONE_TTL_MS ≤ world.now := by
  rw [h.peek_pass hne hcond hanswered]
  have hmember : name ∈ world.primary :: world.replicas := mem_cons_of_mem _ hname
  simp only [ReplicaSet.pass] at hpassed ⊢
  split at hpassed
  · -- the pass with the primary itself
    rename_i hpartner
    rw [hpartner]
    cases hown : world.main.peek key with
    | some entry =>
      obtain rfl := some.inj ((h.holds key entry hown).symm.trans hlast)
      left
      rw [main] at hown
      rw [hown, later_some, newest_last fun _ => h.upto hlast]
    | none =>
      have hsettled := h.settled key last hlast hown
      rw [main] at hown
      rw [hown, later_none]
      cases hstored : (world.engines name).peek key with
      | none => exact Or.inr ⟨rfl, hsettled.late hdeleted⟩
      | some entry => exact Or.inl (congrArg some (hsettled.stored name hname entry hstored))
  · rename_i hpartner
    rcases h.buried key last hlast hdeleted name hname hpassed with hkept | ⟨hgone, hlate⟩
    · rw [hkept, later_some_last fun _ => h.upto hlast]
      exact Or.inl rfl
    · -- past the tombstone's lifetime the partner has it or nothing, too
      have hpartner' : partner initiator peer name ∈ world.replicas :=
        (mem_cons.mp (partner_mem hinit hpeer hmember)).resolve_left hpartner
      have hafter : last.timestamp.wallMs < world.lastPass (partner initiator peer name) := by
        have := (h.punctual _ hpartner').2
        linarith
      rw [hgone, later_none_left]
      exact (h.buried key last hlast hdeleted _ hpartner' hafter).imp_right
        fun hnone => ⟨hnone.1, hlate⟩

/-- A complete pass between two replicas. -/
theorem Current.pass : (world.pass initiator peer).Current latest := by
  have hpeek := h.peek_pass hne hcond hanswered
  have hmain : (world.pass initiator peer).main.clock = world.main.clock ∧
      ∀ key, (world.pass initiator peer).main.partitionFor key = world.main.partitionFor key := by
    obtain ⟨entries, hentries⟩ := pass_engine hanswered world.primary
    have heq : (world.pass initiator peer).main = entries.foldl merge world.main := hentries
    rw [heq]
    exact ⟨merges_clock .., fun key => merges_partitionFor ..⟩
  refine ⟨?_, ?_, ?_, ?_, h.lasting, ?_, h.sent, ?_, ?_, ?_, h.seen⟩
  · intro name key
    obtain ⟨entries, hentries⟩ := pass_engine hanswered name
    rw [hmain.2, hentries, merges_partitionFor, h.sharded]
  · intro name hname
    have hpunctual := h.punctual name hname
    simp only [ReplicaSet.pass]
    split
    · exact ⟨le_rfl, lt_add_of_pos_right _ (by norm_num [TOMBSTONE_TTL_MS])⟩
    · exact hpunctual
  · intro key last hlast
    rw [hmain.2]
    exact h.routed key last hlast
  · rw [hmain.1]
    exact h.stamped
  · intro name key entry hentry
    rw [hpeek] at hentry
    rcases later_cases ((world.engines name).peek key)
      ((world.engines (partner initiator peer name)).peek key) with heq | heq <;>
      exact h.stocked _ key entry (heq ▸ hentry)
  · intro key entry hentry
    have hmainpeek : later (world.main.peek key)
        ((world.engines (partner initiator peer world.primary)).peek key) = some entry :=
      (hpeek world.primary key).symm.trans hentry
    cases hown : world.main.peek key with
    | some last =>
      have hlast := h.holds key last hown
      rw [hown, later_some_last fun _ => h.upto hlast] at hmainpeek
      exact hlast.trans hmainpeek
    | none =>
      rw [hown, later_none_left] at hmainpeek
      obtain ⟨last, hlast, -⟩ := h.stocked _ key entry hmainpeek
      rw [h.lone hlast hown (partner_mem hinit hpeer (mem_cons_self ..)) hmainpeek]
      exact hlast
  · intro key last hlast hnone
    have hmainpeek : later (world.main.peek key)
        ((world.engines (partner initiator peer world.primary)).peek key) = none :=
      (hpeek world.primary key).symm.trans hnone
    have hown : world.main.peek key = none := by
      cases hown : world.main.peek key with
      | none => rfl
      | some entry =>
        rw [hown, later_some_last fun _ => h.upto (h.holds key entry hown)] at hmainpeek
        cases hmainpeek
    obtain ⟨-, hsent, hlate⟩ := h.settled key last hlast hown
    refine ⟨fun name hname entry hentry => ?_, hsent, hlate⟩
    have hmember : name ∈ world.primary :: world.replicas := mem_cons_of_mem _ hname
    rw [hpeek] at hentry
    rcases later_cases ((world.engines name).peek key)
      ((world.engines (partner initiator peer name)).peek key) with heq | heq
    · exact h.lone hlast hown hmember (heq ▸ hentry)
    · exact h.lone hlast hown (partner_mem hinit hpeer hmember) (heq ▸ hentry)
  · exact fun key last => h.buried_pass hne hinit hpeer hanswered hcond

end

/-- Every event that is in time keeps the invariant, for some latest versions. -/
theorem Current.step {world' : ReplicaSet} {event : ReplicaEvent}
    (h : ∃ latest, world.Current latest) (hcond : world.InTime event)
    (hstep : world.step event = some world') : ∃ latest, world'.Current latest := by
  obtain ⟨latest, h⟩ := h
  obtain ⟨next, hnext, rfl⟩ := map_eq_some_iff.mp hstep
  cases event with
  | tick now =>
    obtain ⟨hle, rfl⟩ := of_guarded hnext
    exact ⟨latest, (h.tick hle hcond).record⟩
  | write op =>
    obtain ⟨hpartition, rfl⟩ := of_guarded hnext
    unfold ReplicaSet.write
    split
    · rename_i entry engine hwrite
      exact ⟨_, (h.write hwrite hpartition).record⟩
    · exact ⟨latest, h.record⟩
  | deliver index =>
    obtain ⟨message, hmessage, hnext⟩ := bind_eq_some_iff.mp hnext
    obtain ⟨entry, hentry, rfl⟩ := map_eq_some_iff.mp hnext
    obtain ⟨hyoung, hunmarked⟩ := hcond message hmessage
    obtain rfl := eq_of_deliveredEntry hentry hunmarked
    exact ⟨latest, (h.deliver hmessage hyoung).record⟩
  | lose index =>
    cases hnext
    exact ⟨latest, (h.lose index).record⟩
  | reap name =>
    obtain ⟨hname, rfl⟩ := of_guarded hnext
    rcases mem_cons.mp hname with rfl | hname
    · exact ⟨latest, (h.reap_primary hcond).record⟩
    · exact ⟨latest, (h.reap_replica hname).record⟩
  | sync initiator peer =>
    obtain ⟨hends, rfl⟩ := of_guarded hnext
    exact ⟨latest, (h.pass hends.1 hends.2.1 hends.2.2.1 hends.2.2.2 hcond).record⟩

/-- In every run whose events are in time, the primary reads no version of a key older than one it
    has stored. -/
theorem never_goes_back {partition partitionCount : ℕ} {positive : 0 < partitionCount}
    {primary : JsString} {replicas : List JsString} {apart : primary ∉ replicas} {start : Millis}
    {events : List ReplicaEvent} {world : ReplicaSet}
    (hintime : Meets ReplicaSet.step InTime
      (create partition partitionCount positive primary replicas apart start) events)
    (hrun : run ReplicaSet.step
      (create partition partitionCount positive primary replicas apart start) events = some world) :
    ∀ earlier ∈ world.stored, ∀ nowMs entry, world.main.read earlier.key nowMs = some entry →
      earlier.timestamp ≤ entry.timestamp := by
  obtain ⟨latest, hcurrent⟩ := run_preserves (fun _ _ _ => Current.step)
    ⟨_, current_create partition partitionCount positive primary replicas apart start⟩ hintime hrun
  intro earlier hearlier nowMs entry hread
  obtain ⟨last, hlast, hle⟩ := hcurrent.seen earlier hearlier
  have hholds := hcurrent.holds earlier.key entry (read_eq_some.mp hread).1
  rwa [Option.some.inj (hholds.symm.trans hlast)]

/-- Primary `a` and replica `b` of one partition. -/
def pairAB : ReplicaSet := create 0 1 Nat.one_pos [97] [[98]] (by decide) 0

/-- Replica `b` misses the second of two writes, whose value then expires and is reaped. -/
def missedExpiry : List ReplicaEvent :=
  [.write (.put [107] [1] .none none), .deliver 0, .write (.put [107] [2] .none (some 1000)),
    .lose 0, .tick 1000, .reap [97], .sync [97] [98]]

/-- The next pass brings the first value back to the primary. -/
theorem superseded_value_returns : ∃ world,
    run step pairAB missedExpiry = some world ∧ Meets step Punctual pairAB missedExpiry ∧
    ∃ earlier ∈ world.stored, ∃ entry ∈ world.main.read earlier.key world.now,
      entry.timestamp < earlier.timestamp := by
  decide +kernel

/-- Replica `b` receives both writes and a delete. -/
def receivedDelete : List ReplicaEvent :=
  [.write (.put [107] [1] .none none), .deliver 0, .write (.put [107] [2] .none (some 1000)),
    .deliver 0, .tick 1000, .reap [97], .sync [97] [98], .write (.delete [107]), .sync [98] [97]]

theorem superseded_value_stays_gone : ∃ world,
    run step pairAB receivedDelete = some world ∧ Meets step InTime pairAB receivedDelete ∧
    ∀ earlier ∈ world.stored, ∀ nowMs entry, world.main.read earlier.key nowMs = some entry →
      earlier.timestamp ≤ entry.timestamp := by
  obtain ⟨world, hrun, hintime⟩ : ∃ world ∈ run step pairAB receivedDelete,
      Meets step InTime pairAB receivedDelete := by decide +kernel
  exact ⟨world, hrun, hintime, never_goes_back hintime hrun⟩

/-- In every run whose events are in time, no replica is ahead of the primary, and a replica that had
    a pass with the primary since a delete stores its tombstone, or nothing once the lifetime of the
    tombstone is over. -/
theorem replicas_follow_primary {partition partitionCount : ℕ} {positive : 0 < partitionCount}
    {primary : JsString} {replicas : List JsString} {apart : primary ∉ replicas} {start : Millis}
    {events : List ReplicaEvent} {world : ReplicaSet}
    (hintime : Meets ReplicaSet.step InTime
      (create partition partitionCount positive primary replicas apart start) events)
    (hrun : run ReplicaSet.step
      (create partition partitionCount positive primary replicas apart start) events = some world)
    (hname : name ∈ world.replicas) (hlast : world.main.peek key = some last) :
    (∀ entry, (world.engines name).peek key = some entry →
      entry = last ∨ entry.timestamp < last.timestamp) ∧
    (last.deleted = true → last.timestamp.wallMs < world.lastPass name →
      (world.engines name).peek key = some last ∨ (world.engines name).peek key = none ∧
        last.timestamp.wallMs + TOMBSTONE_TTL_MS ≤ world.now) := by
  obtain ⟨latest, hcurrent⟩ := run_preserves (fun _ _ _ => Current.step)
    ⟨_, current_create partition partitionCount positive primary replicas apart start⟩ hintime hrun
  have hlatest := hcurrent.holds key last hlast
  refine ⟨fun entry hentry => ?_, fun hdeleted => hcurrent.buried key last hlatest hdeleted name hname⟩
  obtain ⟨newest, hnewest, hupto⟩ := hcurrent.stocked name key entry hentry
  rwa [← Option.some.inj (hnewest.symm.trans hlatest)]

/-- Replica `b` misses a delete. -/
def missedDelete : List ReplicaEvent :=
  [.write (.put [107] [1] .none none), .deliver 0, .write (.delete [107]), .lose 0, .tick 5,
    .sync [97] [98]]

/-- The next pass brings it the tombstone. -/
theorem missed_delete_learned : ∃ world ∈ run step pairAB missedDelete,
    ∃ last ∈ world.main.peek [107], last.deleted = true ∧
      ((world.engines [98]).peek [107] = some last ∨ (world.engines [98]).peek [107] = none ∧
        last.timestamp.wallMs + TOMBSTONE_TTL_MS ≤ world.now) := by
  obtain ⟨world, hrun, last, hlast, hreplica, hdeleted, hpassed⟩ : ∃ world ∈ run step pairAB
      missedDelete, ∃ last ∈ world.main.peek [107], [98] ∈ world.replicas ∧ last.deleted = true ∧
      last.timestamp.wallMs < world.lastPass [98] := by decide +kernel
  exact ⟨world, hrun, last, hlast, hdeleted,
    (replicas_follow_primary (by decide +kernel) hrun hreplica hlast).2 hdeleted hpassed⟩

end ReplicaSet

end Nodeakt.Kv
