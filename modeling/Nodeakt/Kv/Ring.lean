import Nodeakt.Schemes.OrderedMap
import Nodeakt.Schemes.Search
import Nodeakt.Kv.Hash
import Nodeakt.Kv.Ports

/-! The consistent-hash ring with bounded loads (`kv/ring.ts`).

    Each member owns `RING_POINTS_PER_MEMBER` virtual nodes. A partition's primary is the first
    member clockwise whose load is below the ceiling, its backups are the next distinct members
    clockwise. `around_eq` puts the walk in closed form, from which the shape of the backups and the
    survival of backups under departures follow. -/

namespace Nodeakt.Kv
open Schemes List OrderedMap

variable {members : List JsString} {id : ℕ}

/-- One virtual node. -/
structure RingPoint where
  point : ℕ
  owner : JsString
  deriving DecidableEq

/-- Bounded-load ceiling. -/
def averageLoad (partitionCount memberCount : ℕ) : ℚ :=
  (partitionCount : ℚ) / memberCount * LOAD_FACTOR

/-- Maps a partition id onto the ring, as its four big-endian bytes. -/
def partitionPoint (id : ℕ) : ℕ :=
  (mix32 (fnv1a32 ([24, 16, 8, 0].map (fun shift => (id >>> shift).toUInt8)))).toNat

/-- Lowest index whose point is at or after `hash`. -/
def startIndex (points : List RingPoint) (hash : ℕ) : ℕ :=
  lowerBound (fun p => p.point < hash) points

/-- Total order on ring positions: the point, then the owner. -/
def compareRingPoints (left right : RingPoint) : ℤ :=
  if left.point ≠ right.point then (if left.point < right.point then -1 else 1)
  else if left.owner = right.owner then 0
  else if left.owner < right.owner then -1 else 1

/-- The error of the first blank or repeated name, if any. -/
def invalidMember (seen : List JsString) : List JsString → Option KvError
  | [] => none
  | member :: rest =>
    if member.length = 0 then some (.rangeError "member name must not be empty")
    else if member ∈ seen then some (.rangeError "member names must be unique")
    else invalidMember (member :: seen) rest

/-- The `#` between a member's name and its virtual node's number. -/
def HASH_SIGN : CodeUnit := 35

/-- The sorted virtual nodes of `members`. -/
def buildPoints (members : List JsString) : List RingPoint := (members.flatMap (fun owner =>
    (List.range RING_POINTS_PER_MEMBER).map (fun vnode =>
      ⟨(hash32 (owner ++ HASH_SIGN :: JsString.ofNat vnode)).toNat, owner⟩))).insertionSort
    (fun left right => compareRingPoints left right ≤ 0)

/-- The owners met clockwise from a partition's ring position, once around. -/
def around (points : List RingPoint) (id : ℕ) : List JsString :=
  (walk points (startIndex points (partitionPoint id))).map RingPoint.owner

/-- The load-bounded owner of one partition: the first candidate below the ceiling, the first
    clockwise when none is. -/
def boundedOwner (candidates : List JsString) (loads : OrderedMap JsString ℕ) (ceiling : ℚ) :
    JsString :=
  (candidates.find? (fun candidate => ((loads.get candidate).getD 0 : ℚ) < ceiling)).getD
    (candidates.headD [])

/-- Assigns one more partition. -/
def assignOne (points : List RingPoint) (ceiling : ℚ)
    (state : OrderedMap JsString ℕ × List JsString) (id : ℕ) :
    OrderedMap JsString ℕ × List JsString :=
  let owner := boundedOwner (around points id) state.1 ceiling
  (state.1.set owner ((state.1.get owner).getD 0 + 1), state.2 ++ [owner])

/-- Assigns a primary to every partition id. -/
def assignPrimaries (members : List JsString) (points : List RingPoint) (partitionCount : ℕ) :
    List JsString :=
  let loads := members.foldl (fun loads member => loads.set member 0) OrderedMap.empty
  ((List.range partitionCount).foldl
    (assignOne points (averageLoad partitionCount members.length)) (loads, [])).2

/-- Collects up to `want` candidates not seen before. -/
def collectBackups (want : ℕ) : List JsString → List JsString → List JsString → List JsString
  | [], _, chosen => chosen
  | candidate :: rest, seen, chosen =>
    if chosen.length < want then
      if candidate ∈ seen then collectBackups want rest seen chosen
      else collectBackups want rest (candidate :: seen) (chosen ++ [candidate])
    else chosen

/-- The partition-to-member assignment of one member set. -/
structure PartitionRing where
  members : List JsString
  partitionCount : ℕ
  positive : 0 < partitionCount
  nonempty : members ≠ []
  named : ∀ member ∈ members, member.length ≠ 0
  unique : members.Nodup

/-- Names are valid when they are not blank, are distinct and were not seen before. -/
theorem invalidMember_eq_none : ∀ {members seen : List JsString},
    invalidMember seen members = none ↔
      (∀ member ∈ members, member.length ≠ 0) ∧ members.Nodup ∧ ∀ member ∈ members, member ∉ seen
  | [], _ => by simp [invalidMember]
  | member :: rest, seen => by
      rw [invalidMember]
      split_ifs with hname hseen
      · simp [length_eq_zero_iff.mp hname]
      · simp [hseen]
      · rw [invalidMember_eq_none, nodup_cons, forall_mem_cons, forall_mem_cons]
        simp only [mem_cons, not_or, forall_and]
        grind

/-! ### The points -/

/-- The point first, then the owner. -/
def RingPoint.key (p : RingPoint) : ℕ ×ₗ JsString := toLex (p.point, p.owner)

theorem compareRingPoints_nonpos {left right : RingPoint} :
    compareRingPoints left right ≤ 0 ↔ left.key ≤ right.key := by
  rw [RingPoint.key, RingPoint.key, Prod.Lex.toLex_le_toLex]
  unfold compareRingPoints
  rcases lt_trichotomy left.point right.point with h | h | h
  · simp [h, h.ne]
  · rcases lt_trichotomy left.owner right.owner with ho | ho | ho
    · simp [h, ho, ho.le, ho.ne]
    · simp [h, ho]
    · simp [h, ho.ne', ho.not_gt, ho.not_ge]
  · simp [h.ne', h.not_gt]

instance : Std.Total (fun left right : RingPoint => compareRingPoints left right ≤ 0) where
  total left right := by
    simp only [compareRingPoints_nonpos]
    exact le_total left.key right.key

instance : IsTrans RingPoint (fun left right => compareRingPoints left right ≤ 0) where
  trans a b c := by
    simp only [compareRingPoints_nonpos]
    exact le_trans

/-- No two different points compare equal. -/
instance : Std.Antisymm (fun left right : RingPoint => compareRingPoints left right ≤ 0) where
  antisymm a b := by
    simp only [compareRingPoints_nonpos]
    intro hab hba
    have hkey : a.key = b.key := le_antisymm hab hba
    cases a
    cases b
    simpa [RingPoint.key] using hkey

theorem pairwise_buildPoints (members : List JsString) :
    (buildPoints members).Pairwise (fun left right => compareRingPoints left right ≤ 0) :=
  pairwise_insertionSort ..

/-- Every virtual node belongs to a member, and every member has one. -/
theorem mem_owners_buildPoints {members : List JsString} {owner : JsString} :
    owner ∈ (buildPoints members).map RingPoint.owner ↔ owner ∈ members := by
  simp only [buildPoints, mem_map, mem_insertionSort, mem_flatMap, mem_range]
  constructor
  · rintro ⟨_, ⟨member, hm, vnode, -, rfl⟩, rfl⟩; exact hm
  · intro h
    exact ⟨_, ⟨owner, h, 0, by decide, rfl⟩, rfl⟩

/-- Removing members removes exactly their virtual nodes, whatever the order of the names. -/
theorem buildPoints_filter {members' : List JsString} {stays : JsString → Bool}
    (h : members'.Perm (members.filter stays)) :
    buildPoints members' = (buildPoints members).filter (fun p => stays p.owner) := by
  refine List.Perm.eq_of_pairwise' (pairwise_buildPoints members')
    ((pairwise_buildPoints members).filter _) ?_
  have hsort : ∀ ms : List JsString, (buildPoints ms).Perm (ms.flatMap (fun owner =>
      (range RING_POINTS_PER_MEMBER).map (fun vnode =>
        ⟨(hash32 (owner ++ HASH_SIGN :: JsString.ofNat vnode)).toNat, owner⟩))) := fun ms =>
    perm_insertionSort ..
  refine (hsort members').trans (((h.flatMap_right _).trans ?_).trans ((hsort members).filter _).symm)
  clear h
  induction members with
  | nil => rfl
  | cons member rest ih =>
    rw [flatMap_cons, filter_append, filter_map]
    by_cases hs : stays member = true
    · rw [filter_cons_of_pos hs, flatMap_cons]
      refine List.Perm.append ?_ ih
      simp [Function.comp_def, hs]
    · rw [filter_cons_of_neg hs]
      simpa [Function.comp_def, hs] using ih

/-! ### The walk -/

/-- A walk meets the points at or after the position, then those before it. -/
theorem around_eq (members : List JsString) (id : ℕ) : around (buildPoints members) id =
      ((buildPoints members).filter (fun p => !decide (p.point < partitionPoint id)) ++
        (buildPoints members).filter (fun p => p.point < partitionPoint id)).map
          RingPoint.owner := by
  rw [around, startIndex, walk_lowerBound]
  refine (pairwise_buildPoints members).imp ?_
  intro a b hab hb
  rw [compareRingPoints_nonpos, RingPoint.key, RingPoint.key, Prod.Lex.toLex_le_toLex] at hab
  simp only [decide_eq_true_eq] at hb ⊢
  omega

theorem mem_around {owner : JsString} :
    owner ∈ around (buildPoints members) id ↔ owner ∈ members := by
  rw [around_eq, ← @mem_owners_buildPoints members]
  simp only [mem_map, mem_append, mem_filter, Bool.not_eq_true',
    decide_eq_false_iff_not, decide_eq_true_eq]
  refine exists_congr fun p => ?_
  by_cases h : p.point < partitionPoint id <;> simp [h]

/-- Once members leave, the walk is the old walk without them. -/
theorem around_filter {members' : List JsString} {stays : JsString → Bool}
    (h : members'.Perm (members.filter stays)) (id : ℕ) :
    around (buildPoints members') id = (around (buildPoints members) id).filter stays := by
  rw [around_eq, around_eq, buildPoints_filter h, filter_map, filter_append]
  simp only [filter_filter, Function.comp_def, Bool.and_comm]

/-! ### Primaries -/

/-- Loads that agree on every name assign the same owners. -/
theorem foldl_assignOne_congr (points : List RingPoint) (ceiling : ℚ) :
    ∀ (ids : List ℕ) {loads loads' : OrderedMap JsString ℕ} (assigned : List JsString),
      (∀ name, loads.get name = loads'.get name) →
      (ids.foldl (assignOne points ceiling) (loads, assigned)).2 =
        (ids.foldl (assignOne points ceiling) (loads', assigned)).2
  | [], _, _, _, _ => rfl
  | id :: ids, loads, loads', assigned, h => by
      have howner : boundedOwner (around points id) loads ceiling =
          boundedOwner (around points id) loads' ceiling := by
        simp only [boundedOwner, h]
      simp only [foldl_cons, assignOne, howner, h]
      refine foldl_assignOne_congr points ceiling ids _ fun name => ?_
      rw [get_set, get_set, h]

/-- Every member starts without a load. -/
theorem get_foldl_set_zero : ∀ (members : List JsString) (loads : OrderedMap JsString ℕ)
    (name : JsString), (members.foldl (fun loads member => loads.set member 0) loads).get name =
      if name ∈ members then some 0 else loads.get name
  | [], _, _ => by simp
  | member :: rest, loads, name => by
      rw [foldl_cons, get_foldl_set_zero rest, get_set]
      by_cases hrest : name ∈ rest
      · simp [hrest]
      · by_cases hname : name = member <;> simp [hrest, hname]

/-- What holds once the first `count` partitions have their owners: the loads count them, and each
    walk met a member below the ceiling. -/
structure Balanced (members : List JsString) (ceiling : ℚ) (count : ℕ)
    (state : OrderedMap JsString ℕ × List JsString) : Prop where
  length : state.2.length = count
  owned : ∀ owner ∈ state.2, owner ∈ members
  loads : ∀ name, (state.1.get name).getD 0 = state.2.count name
  placed : ∀ id < count, (around (buildPoints members) id).find?
    (fun candidate => ((state.2.take id).count candidate : ℚ) < ceiling) = some (state.2.getD id [])
  bounded : ∀ name, (state.2.count name : ℚ) < ceiling + 1

/-- Loads that add up to less than the ceilings leave a member below its own. -/
theorem exists_below_ceiling {ceiling : ℚ} {assigned : List JsString}
    (howned : ∀ owner ∈ assigned, owner ∈ members)
    (hroom : (assigned.length : ℚ) < members.length * ceiling) (hnodup : members.Nodup) :
    ∃ member ∈ members, (assigned.count member : ℚ) < ceiling := by
  by_contra hfull
  push Not at hfull
  have hsum : ∑ member ∈ members.toFinset, assigned.count member = assigned.length := by
    rw [← Multiset.coe_card, ← Multiset.sum_count_eq_card
      (fun owner ho => mem_toFinset.mpr (howned owner (Multiset.mem_coe.mp ho)))]
    simp only [Multiset.coe_count]
    congr!
  have hcard := Finset.card_nsmul_le_sum members.toFinset
    (fun member => (assigned.count member : ℚ)) ceiling (by simpa using hfull)
  rw [toFinset_card_of_nodup hnodup, nsmul_eq_mul, ← Nat.cast_sum, hsum] at hcard
  exact absurd hroom hcard.not_gt

theorem Balanced.assignOne {ceiling : ℚ} {count : ℕ}
    {state : OrderedMap JsString ℕ × List JsString} (hb : Balanced members ceiling count state)
    (hnodup : members.Nodup) (hroom : (count : ℚ) < members.length * ceiling) :
    Balanced members ceiling (count + 1) (assignOne (buildPoints members) ceiling state count) := by
  obtain ⟨member, hmember, hbelow⟩ := exists_below_ceiling hb.owned (by rwa [hb.length]) hnodup
  -- the walk meets that member, so it does not end without an owner
  obtain ⟨owner, hfind⟩ : ∃ owner, (around (buildPoints members) count).find?
      (fun candidate => (state.2.count candidate : ℚ) < ceiling) = some owner := by
    rw [← Option.isSome_iff_exists, find?_isSome]
    exact ⟨member, mem_around.mpr hmember, decide_eq_true hbelow⟩
  have howner : boundedOwner (around (buildPoints members) count) state.1 ceiling = owner := by
    simp only [boundedOwner, hb.loads, hfind, Option.getD_some]
  have hlight : (state.2.count owner : ℚ) < ceiling := by simpa using find?_some hfind
  simp only [Kv.assignOne, howner, hb.loads]
  constructor
  · simp [hb.length]
  · intro other hother
    rcases mem_append.mp hother with hother | hother
    · exact hb.owned other hother
    · exact mem_singleton.mp hother ▸ mem_around.mp (mem_of_find?_eq_some hfind)
  · intro name
    rw [get_set, count_append, count_singleton]
    by_cases hname : name = owner
    · simp [hname]
    · simp [hname, Ne.symm hname, hb.loads]
  · intro id hid
    have hle : id ≤ state.2.length := hb.length ▸ Nat.lt_succ_iff.mp hid
    simp only [take_append_of_le_length hle]
    rcases Nat.lt_succ_iff_lt_or_eq.mp hid with hid | rfl
    · rw [hb.placed id hid, getD_append _ _ _ _ (hb.length ▸ hid)]
    · simp [← hb.length, hb.length ▸ hfind]
  · intro name
    rw [count_append, count_singleton]
    by_cases hname : owner = name
    · simpa [← hname] using hlight
    · simpa [hname] using hb.bounded name

/-- A quarter more than the average leaves room for every partition. -/
theorem lt_averageLoad {partitionCount count : ℕ} (hne : members ≠ []) (h : count < partitionCount) :
    (count : ℚ) < members.length * averageLoad partitionCount members.length := by
  have hpos : (0 : ℚ) < members.length := by exact_mod_cast length_pos_iff.mpr hne
  have hcount : (count : ℚ) < partitionCount := by exact_mod_cast h
  rw [averageLoad, LOAD_FACTOR, ← mul_assoc, mul_div_cancel₀ _ hpos.ne']
  linarith [(Nat.cast_nonneg count : (0 : ℚ) ≤ count)]

/-- Every prefix of the assignment is balanced. -/
theorem balanced_foldl {partitionCount : ℕ} (hne : members ≠ []) (hnodup : members.Nodup) :
    ∀ count ≤ partitionCount, Balanced members (averageLoad partitionCount members.length) count
        ((List.range count).foldl
          (assignOne (buildPoints members) (averageLoad partitionCount members.length))
          (members.foldl (fun loads member => loads.set member 0) OrderedMap.empty, [])) := by
  intro count hcount
  induction count with
  | zero =>
    have hceiling : (0 : ℚ) ≤ averageLoad partitionCount members.length := by
      rw [averageLoad, LOAD_FACTOR]; positivity
    refine ⟨rfl, by simp, fun name => ?_, by simp, fun name => ?_⟩
    · rw [range_zero, foldl_nil, get_foldl_set_zero]
      split_ifs <;> simp
    · simp only [range_zero, foldl_nil, count_nil, Nat.cast_zero]
      linarith
  | succ count ih =>
    rw [range_succ, foldl_append]
    exact (ih (by omega)).assignOne hnodup (lt_averageLoad hne hcount)

/-! ### Backups -/

theorem collectBackups_eq (want : ℕ) : ∀ candidates seen chosen : List JsString,
    collectBackups want candidates seen chosen =
      chosen ++ (distinct (candidates.filter (· ∉ seen))).take (want - chosen.length)
  | [], _, _ => by simp [collectBackups, distinct]
  | candidate :: rest, seen, chosen => by
      rw [collectBackups]
      by_cases hroom : chosen.length < want
      · rw [if_pos hroom]
        by_cases hseen : candidate ∈ seen
        · rw [if_pos hseen, collectBackups_eq want rest, filter_cons_of_neg (by simpa using hseen)]
        · have hwant : want - chosen.length = (want - (chosen ++ [candidate]).length) + 1 := by
            rw [length_append, length_singleton]; omega
          rw [if_neg hseen, collectBackups_eq want rest, filter_cons_of_pos (by simpa using hseen),
            distinct, hwant, take_succ_cons, ← distinct_filter, filter_filter]
          simp [not_or]
      · rw [if_neg hroom, Nat.sub_eq_zero_of_le (by omega)]
        simp

namespace PartitionRing

/-- Builds the ring of `members` over `partitionCount` partitions. -/
def new (members : List JsString) (partitionCount : ℕ) : Except KvError PartitionRing :=
  if hpos : 0 < partitionCount then
    if hne : members = [] then .error (.rangeError "members must not be empty")
    else
      match hvalid : invalidMember [] members with
      | some error => .error error
      | none =>
        .ok ⟨members, partitionCount, hpos, hne, (invalidMember_eq_none.mp hvalid).1,
          (invalidMember_eq_none.mp hvalid).2.1⟩
  else .error (.rangeError "partition count must be a positive integer")

/-- A built ring has the names and the count it was built from. -/
theorem new_eq_ok {partitionCount : ℕ} {ring : PartitionRing}
    (h : new members partitionCount = .ok ring) :
    ring.members = members ∧ ring.partitionCount = partitionCount := by
  unfold new at h
  split at h
  · split at h
    · cases h
    · split at h
      · cases h
      · obtain rfl := Except.ok.inj h
        exact ⟨rfl, rfl⟩
  · cases h

/-- Every ring is the one built from its members and count. -/
theorem new_self (ring : PartitionRing) : new ring.members ring.partitionCount = .ok ring := by
  have hvalid : invalidMember [] ring.members = none :=
    invalidMember_eq_none.mpr ⟨ring.named, ring.unique, by simp⟩
  rw [new, dif_pos ring.positive, dif_neg ring.nonempty]
  split
  · rename_i error herror
    rw [hvalid] at herror
    cases herror
  · rfl

/-- The virtual nodes of this ring. -/
def points (ring : PartitionRing) : List RingPoint := buildPoints ring.members

/-- Primary owner of every partition, by id. -/
def primaries (ring : PartitionRing) : List JsString :=
  assignPrimaries ring.members ring.points ring.partitionCount

/-- Bounded-load primary of a partition. -/
def primary (ring : PartitionRing) (id : ℕ) : JsString := ring.primaries.getD id []

/-- The next `replicaCount - 1` distinct members clockwise, without the primary. -/
def backups (ring : PartitionRing) (id replicaCount : ℕ) : List JsString :=
  if replicaCount - 1 = 0 ∨ ring.members.length = 1 then []
  else
    collectBackups (replicaCount - 1) (around ring.points id) [ring.primary id] []

theorem balanced (ring : PartitionRing) :
    ∃ loads, Balanced ring.members (averageLoad ring.partitionCount ring.members.length)
      ring.partitionCount (loads, ring.primaries) :=
  ⟨_, balanced_foldl ring.nonempty ring.unique ring.partitionCount le_rfl⟩

theorem primary_mem (ring : PartitionRing) (h : id < ring.partitionCount) :
    ring.primary id ∈ ring.members := by
  obtain ⟨loads, hb⟩ := ring.balanced
  have hid : id < ring.primaries.length := h.trans_eq hb.length.symm
  rw [primary, getD_eq_getElem _ _ hid]
  exact hb.owned _ (getElem_mem hid)

/-- The backups are the first distinct names of the walk other than the primary. -/
theorem backups_eq (ring : PartitionRing) (h : id < ring.partitionCount) (replicaCount : ℕ) :
    ring.backups id replicaCount =
      (distinct ((around ring.points id).filter (· ≠ ring.primary id))).take (replicaCount - 1) := by
  unfold backups
  split_ifs with hsmall
  · rcases hsmall with hzero | hone
    · rw [hzero, take_zero]
    · -- a single member is its own primary, so the walk meets nobody else
      obtain ⟨member, hmember⟩ := length_eq_one_iff.mp hone
      have hprimary := ring.primary_mem h
      have hnone : (around ring.points id).filter (· ≠ ring.primary id) = [] := by
        refine filter_eq_nil_iff.mpr fun owner ho => ?_
        have ho := mem_around.mp ho
        rw [hmember, mem_singleton] at ho hprimary
        simp [ho, hprimary]
      rw [hnone]
      simp [distinct]
  · rw [collectBackups_eq]
    simp

theorem backups_nodup (ring : PartitionRing) (h : id < ring.partitionCount) (replicaCount : ℕ) :
    (ring.backups id replicaCount).Nodup := by
  rw [backups_eq ring h]
  exact (nodup_distinct _).sublist (take_sublist ..)

theorem mem_backups (ring : PartitionRing) (h : id < ring.partitionCount) {replicaCount : ℕ}
    {name : JsString} (hn : name ∈ ring.backups id replicaCount) :
    name ∈ ring.members ∧ name ≠ ring.primary id := by
  rw [backups_eq ring h] at hn
  have hn := mem_distinct.mp (mem_of_mem_take hn)
  rw [mem_filter, decide_eq_true_iff] at hn
  exact ⟨mem_around.mp hn.1, hn.2⟩

/-- When members leave, the primary among them, every backup that stays is the new primary or a
    backup still. -/
theorem backups_survive {ring ring' : PartitionRing} {stays : JsString → Bool} {id : ℕ}
    (hmembers : ring'.members.Perm (ring.members.filter stays))
    (h : id < ring.partitionCount) (h' : id < ring'.partitionCount)
    (hprimary : stays (ring.primary id) = false) {replicaCount : ℕ} {name : JsString}
    (hn : name ∈ ring.backups id replicaCount) (hstays : stays name = true) :
    name = ring'.primary id ∨ name ∈ ring'.backups id replicaCount := by
  by_cases hnew : name = ring'.primary id
  · exact Or.inl hnew
  right
  rw [backups_eq ring h] at hn
  have hkeep : around ring'.points id = (around ring.points id).filter stays :=
    around_filter hmembers id
  have hsame : (around ring'.points id).filter (· ≠ ring'.primary id) =
      ((around ring.points id).filter (· ≠ ring.primary id)).filter
        (fun x => stays x && decide (x ≠ ring'.primary id)) := by
    rw [hkeep, filter_filter, filter_filter]
    refine filter_congr fun x _ => ?_
    by_cases hx : x = ring.primary id
    · subst hx; simp [hprimary]
    · simp [hx, Bool.and_comm]
  rw [backups_eq ring' h', hsame, distinct_filter]
  exact mem_take_filter (by simp [hstays, hnew]) hn

/-! ### Rings of one member set -/

/-- Two rings assign the same primaries and backups. -/
structure Agrees (ring other : PartitionRing) : Prop where
  partitionCount : ring.partitionCount = other.partitionCount
  primary : ∀ id < ring.partitionCount, ring.primary id = other.primary id
  backups : ∀ id < ring.partitionCount, ∀ replicaCount,
    ring.backups id replicaCount = other.backups id replicaCount

/-- The members of a ring are the primary of a partition and enough of its backups. -/
theorem mem_members_iff (ring : PartitionRing) (h : id < ring.partitionCount) {replicaCount : ℕ}
    (hcount : ring.members.length < replicaCount) {name : JsString} :
    name ∈ ring.members ↔ name = ring.primary id ∨ name ∈ ring.backups id replicaCount := by
  constructor
  · intro hname
    by_cases hprimary : name = ring.primary id
    · exact .inl hprimary
    · right
      have hsub : distinct ((around ring.points id).filter (· ≠ ring.primary id)) ⊆ ring.members :=
        fun other hother => mem_around.mp (mem_of_mem_filter (mem_distinct.mp hother))
      have hlen := ((nodup_distinct _).subperm hsub).length_le
      rw [backups_eq ring h, take_of_length_le (by omega), mem_distinct, mem_filter]
      exact ⟨mem_around.mpr hname, decide_eq_true hprimary⟩
  · rintro (rfl | hbackup)
    · exact ring.primary_mem h
    · exact (ring.mem_backups h hbackup).1

/-- Rings agree exactly when they are built from the same members, in any order. -/
theorem agrees_iff {ring other : PartitionRing} : ring.Agrees other ↔
    ring.partitionCount = other.partitionCount ∧ ring.members.Perm other.members := by
  constructor
  · intro h
    refine ⟨h.partitionCount, (perm_ext_iff_of_nodup ring.unique other.unique).mpr fun name => ?_⟩
    have hpositive := ring.positive
    rw [ring.mem_members_iff hpositive
        (Nat.lt_succ_of_le (Nat.le_add_right _ other.members.length)),
      other.mem_members_iff (h.partitionCount ▸ hpositive)
        (Nat.lt_succ_of_le (Nat.le_add_left _ ring.members.length)),
      h.primary 0 hpositive, h.backups 0 hpositive]
  · rintro ⟨hcount, hperm⟩
    have hpoints : ring.points = other.points := by
      have hfilter : ring.members.Perm (other.members.filter (fun _ => true)) := by
        rwa [filter_eq_self.mpr fun _ _ => rfl]
      rw [points, points, buildPoints_filter hfilter, filter_eq_self.mpr fun _ _ => rfl]
    have hprimaries : ring.primaries = other.primaries := by
      rw [primaries, primaries, assignPrimaries, assignPrimaries, hpoints, hcount, hperm.length_eq]
      refine foldl_assignOne_congr _ _ _ _ fun name => ?_
      rw [get_foldl_set_zero, get_foldl_set_zero]
      simp only [hperm.mem_iff]
    have hprimary : ∀ id, ring.primary id = other.primary id := fun id => by
      rw [primary, primary, hprimaries]
    refine ⟨hcount, fun id _ => hprimary id, fun id _ replicaCount => ?_⟩
    rw [backups, backups, hpoints, hprimary, hperm.length_eq]

/-! ### The shape of a ring -/

/-- There are as many backups as wanted, unless the other members are fewer. -/
theorem length_backups (ring : PartitionRing) (h : id < ring.partitionCount) (replicaCount : ℕ) :
    (ring.backups id replicaCount).length = min (replicaCount - 1) (ring.members.length - 1) := by
  have hothers : (distinct ((around ring.points id).filter (· ≠ ring.primary id))).Perm
      (ring.members.erase (ring.primary id)) := by
    refine (perm_ext_iff_of_nodup (nodup_distinct _) (ring.unique.erase _)).mpr fun name => ?_
    rw [mem_distinct, mem_filter, ring.unique.mem_erase_iff, and_comm, points, mem_around]
    simp
  rw [backups_eq ring h, length_take, hothers.length_eq,
    length_erase_of_mem (ring.primary_mem h)]

/-- No member is the primary of more partitions than the ceiling, rounded up. -/
theorem count_primaries_le (ring : PartitionRing) (member : JsString) :
    ring.primaries.count member ≤
      (5 * ring.partitionCount + (4 * ring.members.length - 1)) / (4 * ring.members.length) := by
  obtain ⟨loads, hb⟩ := ring.balanced
  have hmembers : 0 < ring.members.length := length_pos_iff.mpr ring.nonempty
  have hpos : (0 : ℚ) < ring.members.length := by exact_mod_cast hmembers
  have hload := hb.bounded member
  rw [averageLoad, LOAD_FACTOR, div_mul_eq_mul_div, ← sub_lt_iff_lt_add, lt_div_iff₀ hpos] at hload
  have hload : (ring.primaries.count member : ℚ) * (4 * ring.members.length) <
      5 * ring.partitionCount + 4 * ring.members.length := by linarith
  have hload : ring.primaries.count member * (4 * ring.members.length) <
      5 * ring.partitionCount + 4 * ring.members.length := by exact_mod_cast hload
  rw [Nat.le_div_iff_mul_le (by omega)]
  omega

/-- Distinct names that are not blank build a ring that does not depend on their order: every
    partition has one primary, the first member clockwise whose load is below the ceiling, nobody
    exceeds that ceiling rounded up, and the backups are as many other members as there can be. -/
theorem ring_well_formed {partitionCount : ℕ} (hne : members ≠ []) (hnodup : members.Nodup)
    (hnamed : ∀ member ∈ members, member.length ≠ 0) (hpositive : 0 < partitionCount) :
    ∃ ring, new members partitionCount = .ok ring ∧
      (∀ names, names.Perm members → ∃ other, new names partitionCount = .ok other ∧
        ring.Agrees other) ∧
      ring.primaries.length = partitionCount ∧
      (∀ id < partitionCount, ring.primary id ∈ members ∧
        (around ring.points id).find? (fun candidate =>
          ((ring.primaries.take id).count candidate : ℚ) <
            averageLoad partitionCount members.length) = some (ring.primary id)) ∧
      (∀ member, ring.primaries.count member ≤
        (5 * partitionCount + (4 * members.length - 1)) / (4 * members.length)) ∧
      ∀ id < partitionCount, ∀ replicaCount, 0 < replicaCount →
        (ring.backups id replicaCount).Nodup ∧
        (∀ name ∈ ring.backups id replicaCount, name ∈ members ∧ name ≠ ring.primary id) ∧
        (ring.backups id replicaCount).length = min (replicaCount - 1) (members.length - 1) := by
  let ring : PartitionRing := ⟨members, partitionCount, hpositive, hne, hnamed, hnodup⟩
  obtain ⟨loads, hb⟩ := ring.balanced
  refine ⟨ring, ring.new_self, fun names hperm => ?_, hb.length, fun id hid => ?_,
    ring.count_primaries_le, fun id hid replicaCount _ => ?_⟩
  · let other : PartitionRing := ⟨names, partitionCount, hpositive,
      fun hnil => hne (List.perm_nil.mp (hnil ▸ hperm.symm)),
      fun name hname => hnamed name (hperm.mem_iff.mp hname), hperm.nodup_iff.mpr hnodup⟩
    exact ⟨other, other.new_self, agrees_iff.mpr ⟨rfl, hperm.symm⟩⟩
  · exact ⟨ring.primary_mem hid, hb.placed id hid⟩
  · exact ⟨ring.backups_nodup hid _, fun name hname => ring.mem_backups hid hname,
      ring.length_backups hid _⟩

/-- Two members share seven partitions. -/
theorem two_members_ring : ∃ ring, new [[97], [98]] 7 = .ok ring ∧
    ∀ member, ring.primaries.count member ≤ 5 := by
  obtain ⟨ring, hring, -, -, -, hload, -⟩ := ring_well_formed
    (by simp : ([[97], [98]] : List JsString) ≠ []) (by decide) (by decide) (by decide : 0 < 7)
  exact ⟨ring, hring, hload⟩

end PartitionRing

/-- The ring of `a` over one partition. -/
def ringA : PartitionRing := ⟨[[97]], 1, by decide, by decide, by decide, by decide⟩

/-- The ring of `a` and `b` over one partition; its primary is `b`. -/
def ringAB : PartitionRing := ⟨[[97], [98]], 1, by decide, by decide, by decide, by decide⟩

/-- The ring of `a`, `b` and `c` over one partition; its primary is `c`. -/
def ringABC : PartitionRing := ⟨[[97], [98], [99]], 1, by decide, by decide, by decide, by decide⟩

end Nodeakt.Kv
