import Nodeakt.Kv.Digests

/-! Merges commute.

    `Latest` says what a fragment holds under a key after any merges: a latest of what was stored and
    what was merged, and what was stored if nothing merged is later. It composes, so it holds of every
    sequence of merges, and where timestamps tell entries apart it determines the entry. Neither the
    order nor the repetition of merges matters, and the rolling digest follows the stored entries. -/

namespace Nodeakt.Kv

/-- A latest of the stored entry and the candidates; a tie keeps the stored one. -/
structure Latest (stored : Option Entry) (C : Entry → Prop) (found : Option Entry) : Prop where
  mem : ∀ e, found = some e → stored = some e ∨ C e
  le : ∀ e, stored = some e ∨ C e → ∃ last, found = some last ∧ e.timestamp ≤ last.timestamp
  keeps : ∀ s e, stored = some s → found = some e → e.timestamp = s.timestamp → e = s

namespace Latest

variable {o o' a b c : Option Entry} {C D : Entry → Prop}

theorem none (o : Option Entry) : Latest o (fun _ => False) o :=
  ⟨fun _ he => Or.inl he, fun e he => ⟨e, he.resolve_right id, le_rfl⟩,
    fun _ _ hs he _ => Option.some.inj (he.symm.trans hs)⟩

theorem newest (o : Option Entry) (entry : Entry) :
    Latest o (· = entry) (some (newest o entry)) := by
  refine ⟨fun e he => ?_, fun e he => ⟨_, rfl, ?_⟩, fun s e hs he hsame => ?_⟩
  · cases he
    exact (newest_eq o entry).symm
  · rcases he with he | rfl
    · exact stored_le_newest he entry
    · exact le_newest o e
  · subst hs
    cases he
    simp only [Kv.newest] at hsame ⊢
    split_ifs at hsame ⊢ with hlater
    · exact absurd hsame (supersedes_iff.mp hlater).ne'
    · rfl

/-- Merges that follow each other. -/
theorem trans (h : Latest a C b) (h' : Latest b D c) : Latest a (fun e => C e ∨ D e) c := by
  have hle : ∀ e, a = some e ∨ C e → ∃ last, c = some last ∧ e.timestamp ≤ last.timestamp := by
    intro e he
    obtain ⟨mid, hmid, hfirst⟩ := h.le e he
    obtain ⟨last, hlast, hsecond⟩ := h'.le mid (Or.inl hmid)
    exact ⟨last, hlast, hfirst.trans hsecond⟩
  refine ⟨fun e he => ?_, fun e he => ?_, fun s e hs he hsame => ?_⟩
  · rcases h'.mem e he with hmid | hD
    · exact (h.mem e hmid).imp_right Or.inl
    · exact Or.inr (Or.inr hD)
  · rcases he with hs | hC | hD
    · exact hle e (Or.inl hs)
    · exact hle e (Or.inr hC)
    · exact h'.le e (Or.inr hD)
  · obtain ⟨mid, hmid, hfirst⟩ := h.le s (Or.inl hs)
    obtain ⟨last, hlast, hsecond⟩ := h'.le mid (Or.inl hmid)
    cases (he.symm.trans hlast)
    have hequal := le_antisymm (hsame ▸ hsecond) hfirst
    rw [h'.keeps mid e hmid he (hsame.trans hequal.symm), h.keeps s mid hs hmid hequal]

theorem congr (h : Latest o C a) (hCD : ∀ e, C e ↔ D e) : Latest o D a := by
  obtain rfl : C = D := funext fun e => propext (hCD e)
  exact h

/-- Two latest of the same entries are equal, if equal timestamps make them so. -/
theorem unique (h : Latest o C a) (h' : Latest o' D b)
    (hsame : ∀ e, o = some e ∨ C e ↔ o' = some e ∨ D e)
    (heq : ∀ e e', a = some e → b = some e' → e.timestamp = e'.timestamp → e = e') : a = b := by
  have hmatch : ∀ e, a = some e → b = some e := by
    intro e he
    obtain ⟨e', he', hle⟩ := h'.le e ((hsame e).mp (h.mem e he))
    obtain ⟨e'', he'', hle'⟩ := h.le e' ((hsame e').mpr (h'.mem e' he'))
    cases (he.symm.trans he'')
    rw [heq e e' he he' (le_antisymm hle hle'), he']
  refine Option.ext fun e => ⟨hmatch e, fun he => ?_⟩
  obtain ⟨e', he', -⟩ := h.le e ((hsame e).mpr (h'.mem e he))
  rw [he', ← hmatch e' he', he]

end Latest

namespace Partition

variable {part other : Partition} {key : JsString} {entries xs ys : List Entry}

/-- Merges entries one after the other. -/
def applyAll (part : Partition) (entries : List Entry) : Partition :=
  entries.foldl (fun part entry => (part.apply entry).2) part

theorem latest_apply (part : Partition) (entry : Entry) (key : JsString) :
    Latest (part.peek key) (fun e => e = entry ∧ e.key = key) ((part.apply entry).2.peek key) := by
  rw [peek_apply]
  split_ifs with hkey
  · refine (Latest.newest (part.peek key) entry).congr fun e => ⟨?_, And.left⟩
    rintro rfl
    exact ⟨rfl, hkey.symm⟩
  · exact (Latest.none _).congr fun e => ⟨False.elim, fun he => hkey (he.1 ▸ he.2.symm)⟩

theorem latest_applyAll (part : Partition) (key : JsString) (entries : List Entry) :
    Latest (part.peek key) (fun e => e ∈ entries ∧ e.key = key)
      ((part.applyAll entries).peek key) := by
  induction entries generalizing part with
  | nil => exact (Latest.none _).congr fun e => by simp
  | cons entry rest ih =>
    refine ((part.latest_apply entry key).trans (ih (part.apply entry).2)).congr fun e => ?_
    simp [or_and_right]

/-- The part of the digest that is not accounted for stays as it is. -/
theorem drift_applyAll (part : Partition) (entries : List Entry) :
    (part.applyAll entries).digest.xor (lanesOf (part.applyAll entries).entries.values) =
      part.digest.xor (lanesOf part.entries.values) := by
  induction entries generalizing part with
  | nil => rfl
  | cons entry rest ih => exact (ih (part.apply entry).2).trans (part.drift_apply entry)

/-- The same stored entries and the same digest. -/
def Same (part other : Partition) : Prop :=
  (∀ entry, entry ∈ part.entries.values ↔ entry ∈ other.entries.values) ∧ part.digest = other.digest

theorem same_of_peek (hdrift : part.digest.xor (lanesOf part.entries.values) =
    other.digest.xor (lanesOf other.entries.values)) (h : ∀ key, part.peek key = other.peek key) :
    part.Same other := by
  have hvalues : ∀ entry, entry ∈ part.entries.values ↔ entry ∈ other.entries.values := by
    simp [mem_values_iff, h]
  have hlanes := lanesOf_perm ((List.perm_ext_iff_of_nodup part.values_keys_nodup.of_map
    other.values_keys_nodup.of_map).mpr hvalues)
  refine ⟨hvalues, ?_⟩
  rw [← DigestLanes.xor_xor_cancel part.digest (lanesOf other.entries.values), ← hlanes, hdrift,
    ← hlanes, DigestLanes.xor_xor_cancel]

theorem mem_values_key_iff {e : Entry} : e ∈ part.entries.values ∧ e.key = key ↔
    part.peek key = some e := by
  rw [mem_values_iff]
  refine ⟨?_, fun he => ⟨?_, peek_key he⟩⟩
  · rintro ⟨he, rfl⟩
    exact he
  · rwa [peek_key he]

/-- Two fragments whose entries timestamps tell apart merge to the same, in either direction. -/
theorem same_exchanged (hdrift : part.digest.xor (lanesOf part.entries.values) =
      other.digest.xor (lanesOf other.entries.values))
    (h : ∀ key e e', part.peek key = some e → other.peek key = some e' →
      e.timestamp = e'.timestamp → e = e') :
    (part.applyAll other.entries.values).Same (other.applyAll part.entries.values) := by
  refine same_of_peek (by rw [drift_applyAll, drift_applyAll, hdrift]) fun key => ?_
  have hlatest := (part.latest_applyAll key other.entries.values).congr fun _ => mem_values_key_iff
  have hlatest' := (other.latest_applyAll key part.entries.values).congr fun _ => mem_values_key_iff
  refine hlatest.unique hlatest' (fun _ => or_comm) fun e e' he he' hsame => ?_
  rcases hlatest.mem e he with he | he <;> rcases hlatest'.mem e' he' with he' | he'
  · exact h key e e' he he' hsame
  · exact Option.some.inj (he.symm.trans he')
  · exact Option.some.inj (he.symm.trans he')
  · exact (h key e' e he' he hsame.symm).symm

/-- Entries of one key with different timestamps can be merged in any order and any number of times.
    Replicas of a fragment that took some of them agree once they took over each other's entries, and
    so do replicas of different fragments that hold nothing but such entries. -/
theorem merges_commute (part : Partition) {entries xs ys : List Entry}
    (hdistinct : ∀ e ∈ entries, ∀ e' ∈ entries, e.key = e'.key → e.timestamp = e'.timestamp → e = e') :
    ((∀ e, e ∈ xs ↔ e ∈ entries) → (∀ e, e ∈ ys ↔ e ∈ entries) →
      (part.applyAll xs).Same (part.applyAll ys)) ∧
    ∀ other : Partition, (other = part ∨ part.Rolling ∧ other.Rolling ∧
        part.entries.values ⊆ entries ∧ other.entries.values ⊆ entries) →
      xs ⊆ entries → ys ⊆ entries →
      ((part.applyAll xs).applyAll (other.applyAll ys).entries.values).Same
        ((other.applyAll ys).applyAll (part.applyAll xs).entries.values) := by
  -- one fragment decides ties the same way, whatever reaches it
  have hties : ∀ {xs ys : List Entry} {key e e'}, xs ⊆ entries → ys ⊆ entries →
      (part.applyAll xs).peek key = some e → (part.applyAll ys).peek key = some e' →
      e.timestamp = e'.timestamp → e = e' := by
    intro xs ys key e e' hx hy he he' hsame
    have hlatest := part.latest_applyAll key xs
    have hlatest' := part.latest_applyAll key ys
    rcases hlatest.mem e he with hold | ⟨hnew, hkey⟩
    · exact (hlatest'.keeps e e' hold he' hsame.symm).symm
    · rcases hlatest'.mem e' he' with hold' | ⟨hnew', hkey'⟩
      · exact hlatest.keeps e' e hold' he hsame
      · exact hdistinct e (hx hnew) e' (hy hnew') (hkey.trans hkey'.symm) hsame
  refine ⟨fun hx hy => ?_, fun other hother hx hy => ?_⟩
  · refine same_of_peek (by rw [drift_applyAll, drift_applyAll]) fun key => ?_
    exact (part.latest_applyAll key xs).unique (part.latest_applyAll key ys) (by simp [hx, hy])
      fun e e' => hties (fun e he => (hx e).mp he) fun e he => (hy e).mp he
  · rcases hother with rfl | ⟨hpart, hother, hin, hin'⟩
    · exact same_exchanged (by rw [drift_applyAll, drift_applyAll]) fun key e e' => hties hx hy
    · have hfrom : ∀ {part : Partition} {zs key e}, part.entries.values ⊆ entries → zs ⊆ entries →
          (part.applyAll zs).peek key = some e → e ∈ entries := by
        intro part zs key e hin hzs he
        rcases (part.latest_applyAll key zs).mem e he with hold | ⟨hnew, -⟩
        · exact hin (mem_values_key_iff.mpr hold).1
        · exact hzs hnew
      refine same_exchanged ?_ fun key e e' he he' => ?_
      · rw [drift_applyAll, drift_applyAll, rolling_iff.mp hpart, rolling_iff.mp hother]
      · exact hdistinct e (hfrom hin hx he) e' (hfrom hin' hy he')
          ((peek_key he).trans (peek_key he').symm)

/-- A value of key `a` and the tombstone that follows it. -/
def valueThenTombstone : List Entry :=
  [⟨[97], some [1], ⟨1, 0, [110]⟩, 1, none, false⟩, ⟨[97], none, ⟨2, 0, [110]⟩, 2, none, true⟩]

/-- The tombstone stays, whether it comes first, last or twice. -/
theorem tombstone_stays : (empty.applyAll valueThenTombstone).Same
    (empty.applyAll (valueThenTombstone.reverse ++ valueThenTombstone)) ∧
    (empty.applyAll valueThenTombstone).entries.values.length = 1 :=
  ⟨(empty.merges_commute (by decide)).1 (fun _ => Iff.rfl) (by simp), by decide +kernel⟩

end Partition

end Nodeakt.Kv
