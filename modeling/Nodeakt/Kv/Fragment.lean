import Nodeakt.Schemes.Search
import Nodeakt.Kv.Engine

/-! Paged fragment transfer (`kv/fragment.ts`).

    A push sorts its fragment once and sends it page by page, a pull asks for the page after the last
    key it received. `page_split` is the one fact about paging: a page is the front of what remains
    after its cursor, and what remains after its last key is the rest. -/

namespace Nodeakt.Kv
open Schemes List

variable {partition : ℕ} {entry : Entry} {sorted : List Entry} {push : FragmentPush}
  {received : Entry → Prop}

/-- Fixed serialized overhead of one entry. -/
def ENTRY_OVERHEAD_BYTES : ℕ := 64

/-- Upper bound on the UTF-8 width of one code unit. -/
def MAX_UTF8_BYTES_PER_UNIT : ℕ := 3

/-- One page of a fragment. -/
structure FragmentChunk where
  partitionId : ℕ
  final : Bool
  entries : List Entry
  deriving DecidableEq

/-- An upper estimate of an entry's serialized size. -/
def approximateEntrySize (entry : Entry) : ℕ :=
  ENTRY_OVERHEAD_BYTES + (entry.value.getD []).length + entry.key.length * MAX_UTF8_BYTES_PER_UNIT +
    entry.timestamp.node.length * MAX_UTF8_BYTES_PER_UNIT

/-- Index of the first entry whose key is greater than `afterKey`. -/
def firstKeyAfter (sorted : List Entry) (afterKey : JsString) : ℕ :=
  lowerBound (fun entry => entry.key ≤ afterKey) sorted

/-- What a cursor has still to visit. -/
def remaining (sorted : List Entry) : Option JsString → List Entry
  | none => sorted
  | some afterKey => sorted.drop (firstKeyAfter sorted afterKey)

/-- Takes entries while they fit the budget, and the first in any case. -/
def fillPage : ℕ → ℕ → List Entry → List Entry
  | _, _, [] => []
  | taken, bytes, entry :: rest =>
    if 0 < taken ∧ FRAGMENT_CHUNK_BYTES < bytes + approximateEntrySize entry then []
    else entry :: fillPage (taken + 1) (bytes + approximateEntrySize entry) rest

/-- The byte-bounded page after `afterKey`. -/
def pageAfter (sorted : List Entry) (partition : ℕ) (afterKey : Option JsString) :
    FragmentChunk :=
  let entries := fillPage 0 0 (remaining sorted afterKey)
  ⟨partition, (remaining sorted afterKey).length ≤ entries.length, entries⟩

/-- The last entry's key. -/
def lastKeyOf (chunk : FragmentChunk) : Option JsString := chunk.entries.getLast?.map Entry.key

/-- This node's fragment in key order. -/
def sortedFragment (engine : Engine) (partition : ℕ) : List Entry :=
  (engine.snapshot partition).insertionSort (fun left right => left.key ≤ right.key)

/-- The pages a push sends when every one is acknowledged. -/
def pushPages (partition : ℕ) (sorted : List Entry) : ℕ → Option JsString → List FragmentChunk
  | 0, _ => []
  | fuel + 1, afterKey =>
    let chunk := pageAfter sorted partition afterKey
    if chunk.final then [chunk] else chunk :: pushPages partition sorted fuel (lastKeyOf chunk)

/-- The page a pull responder serves. -/
def servePage (engine : Engine) (partition : ℕ) (afterKey : Option JsString) : FragmentChunk :=
  pageAfter (sortedFragment engine partition) partition afterKey

/-- Merges every entry of a page. -/
def applyChunk (engine : Engine) (chunk : FragmentChunk) : Engine :=
  chunk.entries.foldl Engine.merge engine

/-- Entries in strictly ascending key order. -/
def KeySorted (entries : List Entry) : Prop := entries.Pairwise (fun a b => a.key < b.key)

theorem mem_sortedFragment {engine : Engine} : entry ∈ sortedFragment engine partition ↔
      engine.partitionFor entry.key = partition ∧ engine.peek entry.key = some entry := by
  rw [sortedFragment, mem_insertionSort, Engine.mem_snapshot]

instance : Std.Total (fun left right : Entry => left.key ≤ right.key) where
  total left right := le_total left.key right.key

instance : IsTrans Entry (fun left right => left.key ≤ right.key) where
  trans _ _ _ := le_trans

/-- Sorting entries of distinct keys puts their keys in ascending order. -/
theorem keySorted_insertionSort {entries : List Entry} (h : (entries.map Entry.key).Nodup) :
    KeySorted (entries.insertionSort (fun left right => left.key ≤ right.key)) := by
  have hsorted : (entries.insertionSort (fun left right => left.key ≤ right.key)).Pairwise
      (fun a b => a.key ≤ b.key) := pairwise_insertionSort ..
  have hperm := perm_insertionSort (fun left right : Entry => left.key ≤ right.key) entries
  have hne : (entries.insertionSort (fun left right => left.key ≤ right.key)).Pairwise
      (fun a b => a.key ≠ b.key) :=
    pairwise_map.mp ((hperm.map Entry.key).nodup_iff.mpr h)
  exact (hsorted.and hne).imp fun h => lt_of_le_of_ne h.1 h.2

theorem keySorted_sortedFragment (engine : Engine) (partition : ℕ) :
    KeySorted (sortedFragment engine partition) :=
  keySorted_insertionSort (Store.snapshot_keys_nodup engine.store partition)

/-! ### Pages -/

/-- A cursor leaves exactly the keys above it. -/
theorem remaining_some (h : KeySorted sorted) (afterKey : JsString) :
    remaining sorted (some afterKey) = sorted.filter (fun entry => afterKey < entry.key) := by
  have hmono : sorted.Pairwise (fun a b => decide (b.key ≤ afterKey) = true →
      decide (a.key ≤ afterKey) = true) :=
    h.imp fun hab hb => by
      simp only [decide_eq_true_eq] at hb ⊢
      exact hab.le.trans hb
  rw [remaining, firstKeyAfter, (take_lowerBound hmono).2]
  refine filter_congr fun entry _ => ?_
  simp [← not_le]

theorem fillPage_prefix : ∀ (entries : List Entry) (taken bytes : ℕ),
    ∃ rest, entries = fillPage taken bytes entries ++ rest
  | [], _, _ => ⟨[], rfl⟩
  | entry :: entries, taken, bytes => by
      rw [fillPage]
      split
      · exact ⟨_, rfl⟩
      · obtain ⟨rest, hrest⟩ := fillPage_prefix entries (taken + 1)
          (bytes + approximateEntrySize entry)
        exact ⟨rest, by rw [cons_append, ← hrest]⟩

theorem remaining_suffix (sorted : List Entry) (afterKey : Option JsString) :
    ∃ front, sorted = front ++ remaining sorted afterKey := by
  cases afterKey with
  | none => exact ⟨[], rfl⟩
  | some afterKey => exact ⟨_, (take_append_drop _ _).symm⟩

theorem mem_page {afterKey : Option JsString}
    (h : entry ∈ (pageAfter sorted partition afterKey).entries) :
    entry ∈ sorted := by
  obtain ⟨front, hfront⟩ := remaining_suffix sorted afterKey
  obtain ⟨rest, hrest⟩ := fillPage_prefix (remaining sorted afterKey) 0 0
  rw [hfront, hrest]
  exact mem_append_right _ (mem_append_left _ h)

theorem mem_pushPages {chunk : FragmentChunk} (hentry : entry ∈ chunk.entries) :
    ∀ {fuel : ℕ} {afterKey : Option JsString},
      chunk ∈ pushPages partition sorted fuel afterKey → entry ∈ sorted
  | 0, _, h => absurd h (not_mem_nil)
  | fuel + 1, afterKey, h => by
      rw [pushPages] at h
      split at h
      · obtain rfl := mem_singleton.mp h
        exact mem_page hentry
      · rcases mem_cons.mp h with rfl | h
        · exact mem_page hentry
        · exact mem_pushPages hentry h

/-- Above an entry of a sorted list are the entries after it. -/
theorem filter_above {front rest : List Entry} {last : Entry}
    (h : KeySorted (front ++ last :: rest)) :
    (front ++ last :: rest).filter (fun entry => last.key < entry.key) = rest := by
  obtain ⟨-, htail, hcross⟩ := pairwise_append.mp h
  obtain ⟨hlast, -⟩ := pairwise_cons.mp htail
  have hfront : front.filter (fun entry => last.key < entry.key) = [] := by
    refine filter_eq_nil_iff.mpr fun entry he => ?_
    simpa using (hcross entry he last (mem_cons_self ..)).le
  have hrest : rest.filter (fun entry => last.key < entry.key) = rest :=
    filter_eq_self.mpr fun entry he => by simpa using hlast entry he
  rw [filter_append, hfront, filter_cons_of_neg (by simp), hrest, nil_append]

/-- A page is the front of what remains, and a final page is all of it; after another page its last
    key leaves the rest. -/
theorem page_split (h : KeySorted sorted) (partition : ℕ) (afterKey : Option JsString) :
    ((pageAfter sorted partition afterKey).final = true →
      remaining sorted afterKey = (pageAfter sorted partition afterKey).entries) ∧
    ((pageAfter sorted partition afterKey).final = false →
      (pageAfter sorted partition afterKey).entries ≠ [] ∧
      remaining sorted afterKey = (pageAfter sorted partition afterKey).entries ++
        remaining sorted (lastKeyOf (pageAfter sorted partition afterKey))) := by
  obtain ⟨rest, hrest⟩ := fillPage_prefix (remaining sorted afterKey) 0 0
  have hentries : (pageAfter sorted partition afterKey).entries =
      fillPage 0 0 (remaining sorted afterKey) := rfl
  rw [hentries]
  have hlength := congrArg length hrest
  rw [length_append] at hlength
  constructor
  · intro hfinal
    have hle : (remaining sorted afterKey).length ≤
        (fillPage 0 0 (remaining sorted afterKey)).length := by
      simpa [pageAfter] using hfinal
    obtain rfl : rest = [] := eq_nil_of_length_eq_zero (by omega)
    rwa [append_nil] at hrest
  · intro hmore
    have hlt : (fillPage 0 0 (remaining sorted afterKey)).length <
        (remaining sorted afterKey).length := by
      simpa [pageAfter] using hmore
    have hne : fillPage 0 0 (remaining sorted afterKey) ≠ [] := by
      obtain ⟨entry, rest, hsplit⟩ := exists_cons_of_length_pos (Nat.zero_lt_of_lt hlt)
      simp [hsplit, fillPage]
    refine ⟨hne, ?_⟩
    obtain ⟨front, last, hlast⟩ := (eq_nil_or_concat _).resolve_left hne
    have hkey : lastKeyOf (pageAfter sorted partition afterKey) = some last.key := by
      rw [lastKeyOf, hentries, hlast]
      simp
    obtain ⟨before, hbefore⟩ := remaining_suffix sorted afterKey
    have hsplit : sorted = (before ++ front) ++ last :: rest := by
      rw [hbefore, hrest, hlast]
      simp
    have habove := filter_above (hsplit ▸ h)
    rw [← hsplit] at habove
    rw [hkey, remaining_some h, habove]
    exact hrest

/-- The pages of a push, in order, are everything that remains after its cursor. -/
theorem pushPages_entries (h : KeySorted sorted) (partition : ℕ) :
    ∀ (fuel : ℕ) (afterKey : Option JsString), (remaining sorted afterKey).length < fuel →
      (pushPages partition sorted fuel afterKey).flatMap FragmentChunk.entries =
        remaining sorted afterKey
  | 0, _, hfuel => absurd hfuel (Nat.not_lt_zero _)
  | fuel + 1, afterKey, hfuel => by
      obtain ⟨hfinal, hmore⟩ := page_split h partition afterKey
      rw [pushPages]
      cases hf : (pageAfter sorted partition afterKey).final with
      | true => simpa using (hfinal hf).symm
      | false =>
        obtain ⟨hne, hsplit⟩ := hmore hf
        have hlength := congrArg length hsplit
        rw [length_append] at hlength
        have hpos := length_pos_iff.mpr hne
        rw [if_neg (by simp), flatMap_cons,
          pushPages_entries h partition fuel _ (by omega), ← hsplit]

/-- A complete push sends everything, in key order. -/
theorem push_entries (h : KeySorted sorted) (partition : ℕ) :
    (pushPages partition sorted (sorted.length + 1) none).flatMap FragmentChunk.entries = sorted :=
  pushPages_entries h partition _ none (Nat.lt_succ_self _)

theorem foldl_applyChunk (engine : Engine) : ∀ chunks : List FragmentChunk,
    chunks.foldl applyChunk engine =
      (chunks.flatMap FragmentChunk.entries).foldl Engine.merge engine := by
  intro chunks
  rw [flatMap_def, foldl_flatten, foldl_map]
  rfl

/-! ### A push in progress -/

/-- A push of a fragment, sorted when the push started, and how far it is acknowledged. -/
structure FragmentPush where
  partition : ℕ
  sorted : List Entry
  afterKey : Option JsString
  pushed : Bool
  ordered : KeySorted sorted

namespace FragmentPush

/-- A push that has sent nothing. -/
def start (engine : Engine) (partition : ℕ) : FragmentPush :=
  ⟨partition, sortedFragment engine partition, none, false, keySorted_sortedFragment ..⟩

/-- The page in flight. -/
def page (push : FragmentPush) : FragmentChunk := pageAfter push.sorted push.partition push.afterKey

/-- The page in flight is acknowledged. -/
def acknowledge (push : FragmentPush) : FragmentPush :=
  if push.page.final then { push with pushed := true }
  else { push with afterKey := lastKeyOf push.page }

@[simp] theorem acknowledge_sorted (push : FragmentPush) :
    push.acknowledge.sorted = push.sorted := by unfold acknowledge; split <;> rfl

/-- Everything the push has passed is received. -/
def Reached (push : FragmentPush) (received : Entry → Prop) : Prop :=
  ∀ entry ∈ push.sorted, received entry ∨
    push.pushed = false ∧ entry ∈ remaining push.sorted push.afterKey

theorem reached_start (engine : Engine) (partition : ℕ) (received : Entry → Prop) :
    (start engine partition).Reached received := fun _ he => Or.inr ⟨rfl, he⟩

theorem Reached.mono {received' : Entry → Prop} (h : push.Reached received)
    (hmono : ∀ entry, received entry → received' entry) :
    push.Reached received' := fun entry he => (h entry he).imp_left (hmono entry)

theorem Reached.complete (h : push.Reached received) (hpushed : push.pushed = true) :
    ∀ entry ∈ push.sorted, received entry := by
  intro entry he
  rcases h entry he with hr | ⟨hopen, -⟩
  · exact hr
  · rw [hpushed] at hopen
    cases hopen

/-- An acknowledged page is passed once its entries are received. -/
theorem Reached.acknowledge (h : push.Reached received)
    (hpage : ∀ entry ∈ push.page.entries, received entry) :
    push.acknowledge.Reached received := by
  obtain ⟨hfinal, hmore⟩ := page_split push.ordered push.partition push.afterKey
  intro entry he
  rw [acknowledge_sorted] at he
  rcases h entry he with hr | ⟨hopen, hleft⟩
  · exact Or.inl hr
  · unfold FragmentPush.acknowledge
    cases hf : push.page.final with
    | true =>
      rw [hfinal hf] at hleft
      exact Or.inl (hpage entry hleft)
    | false =>
      rw [(hmore hf).2, mem_append] at hleft
      rcases hleft with hsent | hleft
      · exact Or.inl (hpage entry hsent)
      · exact Or.inr ⟨hopen, hleft⟩

end FragmentPush

end Nodeakt.Kv
