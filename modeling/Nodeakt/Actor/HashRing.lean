import Nodeakt.Kv.Ring

/-! The consistent-hash ring of a router's pool (`hash.ring.ts`).

    A key belongs to the first position at or after its hash whose member is running. `lookup_eq` puts
    the search and the walk in closed form. The sort is stable, so the ring of fewer members is the
    ring of all with their positions left out (`around_filter`), also where points collide; how few
    keys a resize moves follows from the two. -/

namespace Nodeakt.Actor
open Schemes List

/-- How many positions each member occupies. -/
def VIRTUAL_POINTS : ℕ := 16

/-- FNV-1a over the code units of a string. -/
def fnv1a (value : JsString) : ℕ := (value.foldl (fun hash unit =>
  (hash ^^^ UInt32.ofNat unit.val) * Kv.FNV_PRIME) Kv.FNV_OFFSET).toNat

/-- One position during construction. -/
structure RingEntry (π : Type) where
  point : ℕ
  owner : π

/-- The positions in ascending order, and the member at each. -/
structure HashRing (π : Type) where
  points : List ℕ
  owners : List π

namespace HashRing

variable {π : Type} (id : π → JsString)

/-- The positions of one member. -/
def positions (member : π) : List (RingEntry π) :=
  (range VIRTUAL_POINTS).map fun v =>
    ⟨fnv1a (id member ++ Kv.HASH_SIGN :: JsString.ofNat v), member⟩

/-- The positions of all members, by a stable sort on the points. -/
def entries (members : List π) : List (RingEntry π) :=
  (members.flatMap (positions id)).insertionSort fun a b => a.point ≤ b.point

def create (members : List π) : HashRing π where
  points := (entries id members).map RingEntry.point
  owners := (entries id members).map RingEntry.owner

/-- The running member that owns a key. -/
def lookup (ring : HashRing π) (running : π → Bool) (key : JsString) : Option π :=
  if ring.points.length = 0 then none
  else (walk ring.owners (lowerBound (· < fnv1a key) ring.points)).find? running

/-- The owners of the positions from a key's hash on, then of those before it. -/
def around (members : List π) (key : JsString) : List π :=
  ((entries id members).filter (fun e => !decide (e.point < fnv1a key)) ++
    (entries id members).filter (fun e => decide (e.point < fnv1a key))).map RingEntry.owner

variable {id} {members : List π} {member : π} {running : π → Bool} {key : JsString}

instance : Std.Total fun a b : RingEntry π => a.point ≤ b.point := ⟨fun _ _ => le_total _ _⟩

instance : IsTrans (RingEntry π) fun a b => a.point ≤ b.point := ⟨fun _ _ _ => le_trans⟩

theorem lookup_eq : (create id members).lookup running key = (around id members key).find? running := by
  have hsorted : (entries id members).Pairwise fun a b =>
      decide (b.point < fnv1a key) = true → decide (a.point < fnv1a key) = true := by
    refine (pairwise_insertionSort _ _).imp fun hle hlt => ?_
    exact decide_eq_true (hle.trans_lt (of_decide_eq_true hlt))
  rw [around, ← walk_lowerBound hsorted, walk_eq_rotate, map_rotate]
  simp only [lookup, create, lowerBound_map, walk_eq_rotate, length_map]
  split
  · rename_i hnone
    rw [eq_nil_of_length_eq_zero hnone]
    rfl
  · rfl

theorem mem_around : member ∈ around id members key ↔ member ∈ members := by
  have hperm : (around id members key).Perm ((entries id members).map RingEntry.owner) :=
    (perm_append_comm.trans (filter_append_perm _ _)).map _
  rw [hperm.mem_iff]
  simp only [mem_map, entries, mem_insertionSort, mem_flatMap, positions, mem_range]
  constructor
  · rintro ⟨_, ⟨owner, howner, v, -, rfl⟩, rfl⟩
    exact howner
  · exact fun hmember => ⟨_, ⟨member, hmember, 0, by decide, rfl⟩, rfl⟩

theorem entries_filter (stays : π → Bool) (members : List π) :
    entries id (members.filter stays) = (entries id members).filter fun e => stays e.owner := by
  rw [entries, entries, filter_insertionSort]
  congr 1
  induction members with
  | nil => rfl
  | cons member rest ih =>
    cases hs : stays member <;>
      simp [hs, ih, positions, filter_map, Function.comp_def]

/-- Leaving members out leaves their positions out. -/
theorem around_filter (stays : π → Bool) (members : List π) (key : JsString) :
    around id (members.filter stays) key = (around id members key).filter stays := by
  simp only [around, entries_filter, filter_map, filter_append, Function.comp_def]
  rw [filter_comm, filter_comm fun e : RingEntry π => decide (e.point < fnv1a key)]

/-- A member may leave the list when it is not the owner. -/
theorem lookup_remove {before after : List π}
    (hdistinct : ((before ++ member :: after).map id).Nodup)
    (howner : (create id (before ++ member :: after)).lookup running key ≠ some member) :
    (create id (before ++ after)).lookup running key =
      (create id (before ++ member :: after)).lookup running key := by
  have hleft : (before ++ member :: after).filter (fun m => decide (id m ≠ id member)) =
      before ++ after := by
    rw [map_append, map_cons, nodup_middle, nodup_cons, ← map_append] at hdistinct
    have hother : ∀ m ∈ before ++ after, id m ≠ id member := fun m hm heq =>
      hdistinct.1 (heq ▸ mem_map_of_mem hm)
    have hself : (member :: after).filter (fun m => decide (id m ≠ id member)) =
        after.filter fun m => decide (id m ≠ id member) := filter_cons_of_neg (by simp)
    rw [filter_append, hself, ← filter_append]
    exact filter_eq_self.mpr fun m hm => decide_eq_true (hother m hm)
  rw [← hleft, lookup_eq, lookup_eq, around_filter]
  refine find?_filter_of_imp fun m hm => decide_eq_true fun heq => howner ?_
  have hmem := mem_around.mp (mem_of_find?_eq_some hm)
  obtain rfl := inj_on_of_nodup_map hdistinct hmem (by simp) heq
  exact lookup_eq.trans hm

/-- For every list of members with distinct ids, every choice of running members and every key: a new
    member takes keys only to itself, a member that leaves gives up only its own, one that is not
    running may as well be absent, and a key has no owner only if no member is running. -/
theorem resize_moves_few_keys (id : π → JsString) (running : π → Bool) {members : List π}
    (hdistinct : (members.map id).Nodup) (key : JsString) :
    (∀ member, id member ∉ members.map id →
      (create id (members ++ [member])).lookup running key = (create id members).lookup running key ∨
      (create id (members ++ [member])).lookup running key = some member) ∧
    (∀ before member after, members = before ++ member :: after →
      ((create id members).lookup running key ≠ some member → (create id (before ++ after)).lookup
        running key = (create id members).lookup running key) ∧
      (running member = false → (create id members).lookup running key =
        (create id (before ++ after)).lookup running key)) ∧
    ((create id members).lookup running key = none ↔ ∀ member ∈ members, running member = false) := by
  refine ⟨fun member hnew => ?_, ?_, ?_⟩
  · have hnodup : ((members ++ [member]).map id).Nodup := by
      rw [map_append, map_singleton, nodup_append_comm]
      exact nodup_cons.mpr ⟨hnew, hdistinct⟩
    by_cases howner : (create id (members ++ [member])).lookup running key = some member
    · exact .inr howner
    · have hkept := lookup_remove hnodup howner
      rw [append_nil] at hkept
      exact .inl hkept.symm
  · rintro before member after rfl
    refine ⟨lookup_remove hdistinct, fun hstopped => (lookup_remove hdistinct fun howner => ?_).symm⟩
    rw [lookup_eq] at howner
    cases hstopped.symm.trans (find?_some howner)
  · rw [lookup_eq, find?_eq_none]
    simp only [mem_around, Bool.not_eq_true]

/-- Member `a` is not running, so its keys are those of a ring of `b` alone. -/
theorem stopped_member_passed :
    (create (fun m : JsString => m) [[97], [98]]).lookup (· ≠ [97]) [107] = some [98] := by
  have hsame := ((@resize_moves_few_keys JsString (fun m => m) (fun m => decide (m ≠ [97]))
    [[97], [98]] (by decide) [107]).2.1 [] [97] [[98]] rfl).2 rfl
  rw [hsame]
  decide +kernel

end HashRing

end Nodeakt.Actor
