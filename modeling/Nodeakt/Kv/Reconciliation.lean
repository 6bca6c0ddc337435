import Nodeakt.Kv.Digests
import Nodeakt.Kv.Delivery

/-! A pass of anti-entropy over the wire.

    `pass` is `AntiEntropy.sync` with every request and reply encoded and decoded. When all of them
    are answered and no key or node name that travels starts with a byte order mark, both ends hold
    the later entry of every divergent key, and their digests agree (`pass_reconciles`). The decoder
    drops a leading mark, so a key that has one is neither pulled nor pushed under its own name. -/

namespace Nodeakt.Kv
open Schemes JsString Engine List Option KvMessage

/-- A responder's answer to a comparison. -/
def serveComparison (peer : Engine) : KvMessage → Option KvMessage
  | .syncDigest partition digest =>
    some (.bucketDigests partition (serveDigest peer partition digest))
  | .keyVersionsRequest partition buckets =>
    some (.keyVersions partition (peer.keyVersions partition buckets))
  | .entriesRequest partition keys =>
    some (.fragmentChunk ⟨partition, true, peer.entriesFor partition (distinct keys)⟩)
  | _ => none

/-- A round trip. -/
def ask (peer : Engine) (message : KvMessage) : Option KvMessage :=
  ((delivered message).bind (serveComparison peer)).bind delivered

/-- The two stores after a pass, and whether every request was answered. -/
structure SyncResult where
  engine : Engine
  peer : Engine
  answered : Bool

/-- Pulls some keys in one request. -/
def pullOver (partition : ℕ) (keys : List JsString) (engine peer : Engine) : Engine × Bool :=
  match ask peer (.entriesRequest partition keys) with
  | some (.fragmentChunk chunk) => (applyChunk engine chunk, true)
  | _ => (engine, false)

/-- Carries out a plan: the pull, then the push. A pull that cannot be encoded throws and ends the
    pass. -/
def transfer (partition : ℕ) (engine peer : Engine) (plan : SyncPlan) : SyncResult :=
  if plan.pull ≠ [] ∧ delivered (.entriesRequest partition plan.pull) = none then
    ⟨engine, peer, false⟩
  else
    let pulled := if plan.pull = [] then (engine, true)
      else pullOver partition plan.pull engine peer
    let pushed := if plan.push = [] then (peer, true)
      else pushOver (pagesOf partition plan.push) peer
    ⟨pulled.1, pushed.1, pulled.2 && pushed.2⟩

/-- A pass of `engine` against `peer` over the wire. -/
def pass (partition : ℕ) (engine peer : Engine) : SyncResult :=
  match ask peer (.syncDigest partition (engine.partitionDigest partition)) with
  | some (.bucketDigests _ digests) =>
    match divergentBuckets engine partition digests with
    | none => ⟨engine, peer, false⟩
    | some buckets =>
      if buckets.length = 0 then ⟨engine, peer, true⟩
      else
        match ask peer (.keyVersionsRequest partition buckets) with
        | some (.keyVersions _ versions) =>
          transfer partition engine peer (plan engine partition buckets (peerVersions versions))
        | _ => ⟨engine, peer, false⟩
  | _ => ⟨engine, peer, false⟩

theorem mem_pagesOf {partition : ℕ} {entries : List Entry} {chunk : FragmentChunk} {entry : Entry}
    (hchunk : chunk ∈ pagesOf partition entries) (hentry : entry ∈ chunk.entries) :
    entry ∈ entries :=
  (mem_insertionSort (fun left right : Entry => left.key ≤ right.key)).mp
    (mem_pushPages hentry hchunk)

theorem Engine.mem_snapshot_of_peek {engine : Engine} {partition : ℕ} {key : JsString}
    {entry : Entry} (hpartition : engine.partitionFor key = partition)
    (h : engine.peek key = some entry) : entry ∈ engine.snapshot partition := by
  obtain rfl := peek_key h
  exact mem_snapshot.mpr ⟨hpartition, h⟩

/-! ### What arrives -/

theorem ask_eq_some {peer : Engine} {message response : KvMessage}
    (h : ask peer message = some response) : ∃ answer,
      serveComparison peer (message.mapText arriving) = some answer ∧
        answer.mapText arriving = response := by
  obtain ⟨answer, hserved, hanswer⟩ := bind_eq_some_iff.mp h
  obtain ⟨request, hrequest, hserve⟩ := bind_eq_some_iff.mp hserved
  exact ⟨answer, delivered_eq_some hrequest ▸ hserve, delivered_eq_some hanswer⟩

theorem pullOver_answered {partition : ℕ} {keys : List JsString} {engine peer : Engine}
    (h : (pullOver partition keys engine peer).2 = true) :
    (pullOver partition keys engine peer).1 = applyChunk engine (FragmentChunk.mapText arriving
      ⟨partition, true, peer.entriesFor partition (distinct (keys.map arriving))⟩) := by
  unfold pullOver at h ⊢
  split at h
  · rename_i chunk hask
    obtain ⟨answer, hserve, hanswer⟩ := ask_eq_some hask
    cases hserve
    rw [← fragmentChunk.inj hanswer]
  · cases h

variable {partition : ℕ} {engine peer : Engine}

/-- The stores after an answered transfer: the chunk and the pages as they arrive, merged. -/
theorem transfer_answered {plan : SyncPlan}
    (h : (transfer partition engine peer plan).answered = true) :
    (transfer partition engine peer plan).engine = applyChunk engine (FragmentChunk.mapText arriving
        ⟨partition, true, peer.entriesFor partition (distinct (plan.pull.map arriving))⟩) ∧
      (transfer partition engine peer plan).peer =
        ((pagesOf partition plan.push).map (FragmentChunk.mapText arriving)).foldl applyChunk
          peer := by
  unfold transfer at h ⊢
  split at h
  · cases h
  · rename_i hencodes
    simp only [Bool.and_eq_true] at h
    obtain ⟨hpulled, hpushed⟩ := h
    rw [if_neg hencodes]
    dsimp only
    constructor
    · split at hpulled
      · rename_i hnone
        have hempty : peer.entriesFor partition [] = [] :=
          eq_nil_iff_forall_not_mem.mpr fun entry he => by simpa using mem_entriesFor.mp he
        rw [if_pos hnone, hnone, map_nil, show distinct ([] : List JsString) = [] from rfl,
          hempty]
        rfl
      · rename_i hsome
        rw [if_neg hsome]
        exact pullOver_answered hpulled
    · split at hpushed
      · rename_i hnone
        rw [if_pos hnone, hnone]
        rfl
      · rename_i hsome
        rw [if_neg hsome]
        exact pushOver_answered hpushed

/-- An answered pass found the buckets of the divergent keys, and carried out the plan of the
    versions that arrived. -/
theorem pass_answered (h : (pass partition engine peer).answered = true) :
    ∃ buckets, (∀ key, InScope engine partition buckets key ↔ Diverges partition engine peer key) ∧
      (buckets = [] ∧ pass partition engine peer = ⟨engine, peer, true⟩ ∨
        pass partition engine peer = transfer partition engine peer (plan engine partition buckets
          (peerVersions ((peer.keyVersions partition buckets).map (KeyVersion.mapText arriving))))) := by
  obtain ⟨buckets, hbuckets, hscope⟩ := divergentBuckets_spec engine peer partition
  refine ⟨buckets, hscope, ?_⟩
  unfold pass at h ⊢
  split at h
  · rename_i id digests hask
    obtain ⟨answer, hserve, hanswer⟩ := ask_eq_some hask
    cases hserve
    obtain ⟨-, rfl⟩ := bucketDigests.inj hanswer
    rw [hbuckets] at h ⊢
    simp only at h ⊢
    split_ifs at h with hnil
    · rw [if_pos hnil]
      exact Or.inl ⟨eq_nil_of_length_eq_zero hnil, rfl⟩
    · rw [if_neg hnil]
      split at h
      · rename_i id' versions hversions
        obtain ⟨answer, hserve', hanswer'⟩ := ask_eq_some hversions
        obtain rfl := some.inj hserve'
        obtain ⟨-, rfl⟩ := keyVersions.inj hanswer'
        exact Or.inr rfl
      · cases h
  · cases h

/-- Both ends of a pass only merge entries. -/
theorem pass_merges (h : (pass partition engine peer).answered = true) :
    ∃ pulled pushed : List Entry,
      (pass partition engine peer).engine = pulled.foldl Engine.merge engine ∧
        (pass partition engine peer).peer = pushed.foldl Engine.merge peer := by
  obtain ⟨buckets, -, ⟨-, hpass⟩ | hpass⟩ := pass_answered h
  · rw [hpass]
    exact ⟨[], [], rfl, rfl⟩
  · rw [hpass] at h ⊢
    obtain ⟨hpulled, hpushed⟩ := transfer_answered h
    rw [hpulled, hpushed, foldl_applyChunk]
    exact ⟨_, _, rfl, rfl⟩

/-! ### Without marks -/

/-- A stored entry whose key and node name travel in a pass: the peer's, in its versions, and this
    node's, if the peer lacks the key or holds it older. -/
def Travels (partition : ℕ) (engine peer : Engine) (entry : Entry) : Prop :=
  Diverges partition engine peer entry.key ∧ (peer.peek entry.key = some entry ∨
    engine.peek entry.key = some entry ∧
      ∀ other ∈ peer.peek entry.key, other.timestamp < entry.timestamp)

instance (partition : ℕ) (engine peer : Engine) (entry : Entry) :
    Decidable (Travels partition engine peer entry) :=
  inferInstanceAs (Decidable (_ ∧ (_ ∨ _ ∧ ∀ other ∈ peer.peek entry.key, _)))

/-- No key and no node name that travels starts with a byte order mark. -/
def Unmarked (partition : ℕ) (engine peer : Engine) : Prop :=
  ∀ entry ∈ engine.snapshot partition ++ peer.snapshot partition,
    Travels partition engine peer entry →
      entry.key.head? ≠ some byteOrderMark ∧ entry.timestamp.node.head? ≠ some byteOrderMark

instance (partition : ℕ) (engine peer : Engine) : Decidable (Unmarked partition engine peer) :=
  inferInstanceAs (Decidable (∀ entry ∈ engine.snapshot partition ++ peer.snapshot partition, _))

section

variable (hsame : ∀ key, peer.partitionFor key = engine.partitionFor key)
include hsame

/-- What travels arrives as it was sent. -/
theorem Unmarked.entry {entry : Entry} (h : Unmarked partition engine peer)
    (htravels : Travels partition engine peer entry) :
    arriving entry.key = entry.key ∧
      arriving entry.timestamp.node = entry.timestamp.node := by
  have hpartition := htravels.1.1
  have hmem : entry ∈ engine.snapshot partition ++ peer.snapshot partition := by
    rcases htravels.2 with hother | ⟨hown, -⟩
    · exact mem_append_right _ (mem_snapshot.mpr ⟨(hsame _).trans hpartition, hother⟩)
    · exact mem_append_left _ (mem_snapshot.mpr ⟨hpartition, hown⟩)
  exact (h entry hmem htravels).imp arriving_eq_self arriving_eq_self

variable {buckets : List ℕ}

/-- The versions of the compared buckets arrive as they were sent. -/
theorem Unmarked.versions (h : Unmarked partition engine peer)
    (hscope : ∀ key, InScope engine partition buckets key ↔ Diverges partition engine peer key) :
    (peer.keyVersions partition buckets).map (KeyVersion.mapText arriving) =
      peer.keyVersions partition buckets := by
  refine map_eq_self_iff.mpr ?_
  rintro ⟨key, timestamp⟩ hversion
  obtain ⟨hpartition, hbucket, entry, hpeek, rfl⟩ := mem_keyVersions.mp hversion
  obtain rfl := peek_key hpeek
  have hdiverges := (hscope entry.key).mp ⟨(hsame entry.key).symm.trans hpartition, hbucket⟩
  exact KeyVersion.mapText_eq_self_iff.mpr (h.entry hsame ⟨hdiverges, Or.inl hpeek⟩)

/-- An answered pass without marks leaves the later entry of every divergent key at both ends, and
    nothing else changed. -/
theorem pass_peek (hunmarked : Unmarked partition engine peer)
    (hanswered : (pass partition engine peer).answered = true) (key : JsString) :
    (pass partition engine peer).engine.peek key =
        (if Diverges partition engine peer key then later (engine.peek key) (peer.peek key)
          else engine.peek key) ∧
      (pass partition engine peer).peer.peek key =
        if Diverges partition engine peer key then later (peer.peek key) (engine.peek key)
        else peer.peek key := by
  obtain ⟨buckets, hscope, ⟨hnil, hpass⟩ | hpass⟩ := pass_answered hanswered
  · have hnone : ¬ Diverges partition engine peer key := by
      rw [← hscope, hnil]
      exact fun h => absurd h.2 (by simp)
    rw [hpass, if_neg hnone, if_neg hnone]
    exact ⟨rfl, rfl⟩
  · rw [hpass] at hanswered ⊢
    rw [hunmarked.versions hsame hscope] at hanswered ⊢
    obtain ⟨hpulled, hpushed⟩ := transfer_answered hanswered
    set moves := plan engine partition buckets (peerVersions (peer.keyVersions partition buckets))
      with hmoves
    -- the keys asked for and the entries moved are those of divergent keys
    have hkeys : moves.pull.map arriving = moves.pull := by
      refine map_eq_self_iff.mpr fun asked hasked => ?_
      obtain ⟨hin, other, hother, -⟩ := (mem_plan_pull hsame).mp hasked
      obtain rfl := peek_key hother
      exact (hunmarked.entry hsame ⟨(hscope _).mp hin, Or.inl hother⟩).1
    have hchunk : FragmentChunk.mapText arriving ⟨partition, true, peer.entriesFor partition
        (distinct moves.pull)⟩ = ⟨partition, true, peer.entriesFor partition
        (distinct moves.pull)⟩ := by
      refine FragmentChunk.mapText_eq_self_iff.mpr fun entry hentry => ?_
      obtain ⟨hasked, -, hpeek⟩ := mem_entriesFor.mp hentry
      obtain ⟨hin, -⟩ := (mem_plan_pull hsame).mp (mem_distinct.mp hasked)
      exact Entry.mapText_eq_self_iff.mpr
        (hunmarked.entry hsame ⟨(hscope _).mp hin, Or.inl hpeek⟩)
    have hpages : (pagesOf partition moves.push).map (FragmentChunk.mapText arriving) =
        pagesOf partition moves.push := by
      refine map_eq_self_iff.mpr fun chunk hpage =>
        FragmentChunk.mapText_eq_self_iff.mpr fun entry hentry => ?_
      obtain ⟨hin, hpeek, hnewer⟩ := (mem_plan_push hsame).mp (mem_pagesOf hpage hentry)
      exact Entry.mapText_eq_self_iff.mpr
        (hunmarked.entry hsame ⟨(hscope _).mp hin, Or.inr ⟨hpeek, hnewer⟩⟩)
    rw [hkeys, hchunk] at hpulled
    rw [hpages] at hpushed
    rw [hpulled, hpushed, peek_pulled hsame fun _ => mem_distinct]
    refine ⟨if_congr (hscope key) rfl rfl, ?_⟩
    rw [hmoves, peek_pushed hsame]
    exact if_congr (hscope key) rfl rfl

end

/-! ### Reconciliation -/

/-- What a pass is for. -/
structure Reconciled (partition : ℕ) (engine peer : Engine) (result : SyncResult) : Prop where
  divergent : ∀ key, Diverges partition engine peer key →
    result.engine.peek key = later (engine.peek key) (peer.peek key) ∧
      result.peer.peek key = later (engine.peek key) (peer.peek key)
  others : ∀ key, ¬ Diverges partition engine peer key →
    result.engine.peek key = engine.peek key ∧ result.peer.peek key = peer.peek key
  digests : result.engine.partitionDigest partition = result.peer.partitionDigest partition
  settled : (pass partition result.engine result.peer).engine = result.engine ∧
    (pass partition result.engine result.peer).peer = result.peer

/-- A key with a mark that one side holds and the other lacks, and nobody holds with one mark
    more. -/
structure Lost (partition : ℕ) (engine peer : Engine) (key : JsString) : Prop where
  diverges : Diverges partition engine peer key
  marked : key.head? = some byteOrderMark
  oneSided : (engine.peek key).isSome ≠ (peer.peek key).isSome
  engine_lacks : engine.peek (byteOrderMark :: key) = none
  peer_lacks : peer.peek (byteOrderMark :: key) = none

theorem later_comm {own other : Option Entry}
    (h : ∀ a ∈ own, ∀ b ∈ other, a.timestamp = b.timestamp → a = b) :
    later other own = later own other := by
  cases own with
  | none => simp
  | some a =>
    cases other with
    | none => simp
    | some b =>
      simp only [later, supersedes_iff]
      rcases lt_trichotomy a.timestamp b.timestamp with hlt | heq | hlt
      · rw [if_neg (lt_asymm hlt), if_pos hlt]
      · rw [h a rfl b rfl heq]
      · rw [if_pos hlt, if_neg (lt_asymm hlt)]

/-- Stores that agree on their digest do nothing to each other. -/
theorem pass_of_digest_eq (h : engine.partitionDigest partition = peer.partitionDigest partition) :
    (pass partition engine peer).engine = engine ∧ (pass partition engine peer).peer = peer := by
  unfold pass
  split
  · rename_i id digests hask
    obtain ⟨answer, hserve, hanswer⟩ := ask_eq_some hask
    cases hserve
    obtain ⟨-, rfl⟩ := bucketDigests.inj hanswer
    rw [serveDigest, if_pos h.symm]
    exact ⟨rfl, rfl⟩
  · exact ⟨rfl, rfl⟩

/-- A lost key stays where it is. -/
theorem Lost.not_reconciled {key : JsString} (h : Lost partition engine peer key)
    (hanswered : (pass partition engine peer).answered = true) :
    ¬ Reconciled partition engine peer (pass partition engine peer) := by
  intro hreconciled
  obtain ⟨hleft, hright⟩ := hreconciled.divergent key h.diverges
  obtain ⟨buckets, hscope, ⟨hnil, -⟩ | hpass⟩ := pass_answered hanswered
  · have hin := (hscope key).mpr h.diverges
    rw [hnil] at hin
    exact absurd hin.2 (by simp)
  · have htransfer := hanswered
    rw [hpass] at htransfer
    obtain ⟨hpulled, hpushed⟩ := transfer_answered htransfer
    -- what arrives under a marked key was held under that key with one mark more
    have hengine : (pass partition engine peer).engine.peek key = engine.peek key := by
      rw [hpass, hpulled]
      refine peek_merges_of_ne fun entry hentry hkey => ?_
      obtain ⟨source, hsource, rfl⟩ := mem_map.mp hentry
      have hpeek := (mem_entriesFor.mp hsource).2.2
      rw [eq_of_arriving_marked h.marked hkey, h.peer_lacks] at hpeek
      cases hpeek
    have hpeer : (pass partition engine peer).peer.peek key = peer.peek key := by
      rw [hpass, hpushed, foldl_applyChunk]
      refine peek_merges_of_ne fun entry hentry hkey => ?_
      obtain ⟨chunk, hchunk, hin⟩ := mem_flatMap.mp hentry
      obtain ⟨page, hpage, rfl⟩ := mem_map.mp hchunk
      obtain ⟨source, hsource, rfl⟩ := mem_map.mp hin
      have hpeek := (mem_entriesFor.mp (mem_pagesOf hpage hsource)).2.2
      rw [eq_of_arriving_marked h.marked hkey, h.engine_lacks] at hpeek
      cases hpeek
    rw [hengine] at hleft
    rw [hpeer] at hright
    exact h.oneSided (congrArg isSome (hleft.trans hright.symm))

theorem Store.run_partitionCount {store store' : Store} {events : List StoreEvent}
    (hrun : store' ∈ run Store.step store events) :
    store'.partitionCount = store.partitionCount := by
  refine @run_invariant _ _ _ (fun s => s.partitionCount = store.partitionCount)
    (fun s event s' hs hstep => ?_) events store store' rfl hrun
  cases event with
  | apply entry =>
    cases hstep
    exact hs
  | sweep nowMs =>
    cases hstep
    exact (Store.sweep_partitionCount s nowMs).trans hs
  | drop id =>
    cases hstep
    exact hs

/-- For any two stores with any history, in which entries of one key with equal timestamps are the
    same: an answered pass reconciles the partition if no key or node name that travels starts with
    a byte order mark, and it does not if a key of a bucket that differs, which only one of them
    holds, starts with one. -/
theorem pass_reconciles {partitionCount : ℕ} {positive : 0 < partitionCount}
    {history peerHistory : List StoreEvent}
    (hengine : engine.store ∈ run Store.step (Store.create partitionCount positive) history)
    (hpeer : peer.store ∈ run Store.step (Store.create partitionCount positive) peerHistory)
    (hequal : ∀ key, engine.partitionFor key = partition → ∀ own ∈ engine.peek key,
      ∀ other ∈ peer.peek key, own.timestamp = other.timestamp → own = other)
    (hanswered : (pass partition engine peer).answered = true) :
    (Unmarked partition engine peer →
      Reconciled partition engine peer (pass partition engine peer)) ∧
    ∀ key, Lost partition engine peer key →
      ¬ Reconciled partition engine peer (pass partition engine peer) := by
  refine ⟨fun hunmarked => ?_, fun key hlost => hlost.not_reconciled hanswered⟩
  have hsame : ∀ key, peer.partitionFor key = engine.partitionFor key := by
    intro key
    rw [partitionFor, partitionFor, Store.partitionFor, Store.partitionFor,
      Store.run_partitionCount hengine, Store.run_partitionCount hpeer]
  have hrolling : (pass partition engine peer).engine.store.Rolling ∧
      (pass partition engine peer).peer.store.Rolling := by
    obtain ⟨pulled, pushed, hpulled, hpushed⟩ := pass_merges hanswered
    rw [hpulled, hpushed]
    exact ⟨rolling_merges (Store.Rolling.run (Store.rolling_create partitionCount positive) hengine),
      rolling_merges (Store.Rolling.run (Store.rolling_create partitionCount positive) hpeer)⟩
  have hrouted : (∀ key, (pass partition engine peer).engine.partitionFor key =
        engine.partitionFor key) ∧
      ∀ key, (pass partition engine peer).peer.partitionFor key = peer.partitionFor key := by
    obtain ⟨pulled, pushed, hpulled, hpushed⟩ := pass_merges hanswered
    rw [hpulled, hpushed]
    exact ⟨merges_partitionFor _ _, merges_partitionFor _ _⟩
  have hpass := fun key => pass_peek hsame hunmarked hanswered key
  have hdivergent : ∀ key, Diverges partition engine peer key →
      (pass partition engine peer).engine.peek key = later (engine.peek key) (peer.peek key) ∧
        (pass partition engine peer).peer.peek key = later (engine.peek key) (peer.peek key) := by
    intro key hdiverges
    obtain ⟨hown, hother⟩ := hpass key
    rw [if_pos hdiverges] at hown hother
    exact ⟨hown, hother.trans (later_comm (hequal key hdiverges.1))⟩
  have hothers : ∀ key, ¬ Diverges partition engine peer key →
      (pass partition engine peer).engine.peek key = engine.peek key ∧
        (pass partition engine peer).peer.peek key = peer.peek key := by
    intro key hagrees
    obtain ⟨hown, hother⟩ := hpass key
    rw [if_neg hagrees] at hown hother
    exact ⟨hown, hother⟩
  have hdigests : (pass partition engine peer).engine.partitionDigest partition =
      (pass partition engine peer).peer.partitionDigest partition := by
    by_cases hdiffer : engine.partitionDigest partition = peer.partitionDigest partition
    · obtain ⟨hown, hother⟩ := pass_of_digest_eq hdiffer
      rw [hown, hother, hdiffer]
    refine partitionDigest_eq_of_buckets hrolling.1 hrolling.2 fun bucket hbucket => ?_
    have hrouting : ∀ key, (pass partition engine peer).peer.partitionFor key =
        (pass partition engine peer).engine.partitionFor key :=
      fun key => (hrouted.2 key).trans ((hsame key).trans (hrouted.1 key).symm)
    by_cases hbuckets : (engine.bucketDigests partition).getD bucket ⟨0, 0⟩ =
        (peer.bucketDigests partition).getD bucket ⟨0, 0⟩
    · -- the bucket was left alone on both sides
      have hagree : ∀ key, repairBucket key REPAIR_BUCKETS = bucket →
          ¬ Diverges partition engine peer key := by
        rintro key rfl hdiverges
        exact hdiverges.2.2 hbuckets
      rw [bucketDigests_congr hbucket (fun key => (hrouted.1 key).symm)
        (fun key _ hkey => (hothers key (hagree key hkey)).1), hbuckets]
      exact (bucketDigests_congr hbucket (fun key => (hrouted.2 key).symm)
        (fun key _ hkey => (hothers key (hagree key hkey)).2)).symm
    · refine bucketDigests_congr hbucket hrouting fun key hpartition hkey => ?_
      obtain ⟨hown, hother⟩ :=
        hdivergent key ⟨(hrouted.1 key).symm.trans hpartition, hdiffer, hkey ▸ hbuckets⟩
      rw [hown, hother]
  exact ⟨hdivergent, hothers, hdigests, pass_of_digest_eq hdigests⟩

/-- A value another node stamped. -/
def stampedBy (node key : JsString) (wallMs : Millis) : Entry :=
  ⟨key, some [1], ⟨wallMs, 0, node⟩, 1, none, false⟩

/-- A node of a cluster with one partition that holds some entries. -/
def keeping (node : JsString) (entries : List Entry) : Engine :=
  entries.foldl Engine.merge (Engine.create node 1 Nat.one_pos)

/-- Node `b` holds the key U+FEFF `a` and node `a` holds nothing. The digests differ and every
    request of the pass is answered, but `a` asks for the key `a`, which `b` does not have. -/
theorem marked_key_not_pulled : (keeping [97] []).partitionDigest 0 ≠
        (keeping [98] [stampedBy [98] [0xFEFF, 97] 1]).partitionDigest 0 ∧
      (pass 0 (keeping [97] []) (keeping [98] [stampedBy [98] [0xFEFF, 97] 1])).answered = true ∧
      ¬ Reconciled 0 (keeping [97] []) (keeping [98] [stampedBy [98] [0xFEFF, 97] 1])
        (pass 0 (keeping [97] []) (keeping [98] [stampedBy [98] [0xFEFF, 97] 1])) := by
  refine ⟨by decide +kernel, by decide +kernel, fun hreconciled => ?_⟩
  have hpulled := (hreconciled.divergent [0xFEFF, 97] (by decide +kernel)).1
  exact absurd hpulled (by decide +kernel)

/-- Node `a` holds keys `c` and `d`, node `b` a later `c`; a pass reconciles them. -/
theorem newer_and_missing_reconciled :
    (keeping [97] [stampedBy [97] [99] 4, stampedBy [97] [100] 4]).partitionDigest 0 ≠
        (keeping [98] [stampedBy [98] [99] 5]).partitionDigest 0 ∧
      Reconciled 0 (keeping [97] [stampedBy [97] [99] 4, stampedBy [97] [100] 4])
        (keeping [98] [stampedBy [98] [99] 5])
        (pass 0 (keeping [97] [stampedBy [97] [99] 4, stampedBy [97] [100] 4])
          (keeping [98] [stampedBy [98] [99] 5])) := by
  refine ⟨by decide +kernel, (@pass_reconciles 0 _ _ 1 Nat.one_pos
    [.apply (stampedBy [97] [99] 4), .apply (stampedBy [97] [100] 4)]
    [.apply (stampedBy [98] [99] 5)] rfl rfl ?_ (by decide +kernel)).1 ?_⟩
  · have hsnapshots : ∀ own ∈ (keeping [97] [stampedBy [97] [99] 4,
        stampedBy [97] [100] 4]).snapshot 0, ∀ other ∈ (keeping [98] [stampedBy [98] [99]
        5]).snapshot 0, own.timestamp = other.timestamp → own = other := by decide +kernel
    intro key hpartition own hown other hother
    exact hsnapshots own (mem_snapshot_of_peek hpartition hown) other
      (mem_snapshot_of_peek hpartition hother)
  · decide +kernel

end Nodeakt.Kv
