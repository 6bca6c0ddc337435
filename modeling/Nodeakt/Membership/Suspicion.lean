import Nodeakt.Kv.Wire
import Nodeakt.Membership.View

/-! Active suspicions and their deadlines (`membership/suspicion.ts`).

    A manager keeps at most one suspicion per member. A suspicion runs for a time that shrinks with
    every independent confirmation, from the maximum to the minimum; how much the first two take off
    is a logarithm in floating point, and all that is used of it is that it takes off no more than
    the difference. `start_ok`, `cancelThrough_ok` and `confirm_cases` say what the operations do. -/

namespace Nodeakt.Membership
open Schemes Option
open Kv (isSafeInteger MAX_SAFE_INTEGER)

variable {n : ℤ} {field : String}

/-- Factor of the shortest duration. -/
def SUSPICION_MULTIPLIER : ℕ := 4

/-- Factor from the shortest to the longest duration. -/
def SUSPICION_MAX_MULTIPLIER : ℕ := 6

/-- The confirmation that reaches the shortest duration. -/
def SUSPICION_CONFIRMATION_TARGET : ℕ := 3

/-- An argument outside its domain. -/
structure RangeError where
  message : String
  deriving DecidableEq

/-- Duration bounds of one suspicion. -/
structure SuspicionBounds where
  minimum : Millis
  maximum : Millis
  deriving DecidableEq

/-- Evidence and timing inputs of a suspicion. -/
structure SuspicionStart where
  member : JsString
  incarnation : ℕ
  reporter : JsString
  memberCount : ℤ
  effectivePeriod : Millis

/-- What is told of a suspicion that reached its deadline. -/
structure SuspicionExpiry where
  member : JsString
  incarnation : ℕ
  deriving DecidableEq

/-- One active suspicion. -/
structure StoredSuspicion extends SuspicionExpiry, SuspicionBounds where
  start : Millis
  reporter : JsString
  confirmationReporters : List JsString
  deadline : Millis
  deriving DecidableEq

/-- `floor (span * log (count + 1) / log (target + 1))` as the runtime computes it. -/
structure Decay where
  amount : Millis → ℕ → Millis
  le_span : ∀ span count, 0 ≤ span → amount span count ≤ span

/-! ### Arithmetic -/

def requirePositiveSafeInteger (value : Millis) (field : String) : Except RangeError Unit :=
  refuse (isSafeInteger value = false ∨ value ≤ 0) ⟨field ++ " must be a positive safe integer"⟩

def requireNonNegativeSafeInteger (value : Millis) (field : String) : Except RangeError Unit :=
  refuse (isSafeInteger value = false ∨ value < 0) ⟨field ++ " must be a non-negative safe integer"⟩

def requireIncarnation (value : ℕ) : Except RangeError Unit := do
  requireNonNegativeSafeInteger value "incarnation"
  refuse (MAX_INCARNATION < value) ⟨"incarnation must not exceed 4294967295"⟩

def requireSafeTime (value : Millis) (field : String) : Except RangeError Unit :=
  refuse (isSafeInteger value = false) ⟨field ++ " must be a safe integer"⟩

/-- The durations for a number of members and a probe period. -/
def suspicionBounds (memberCount : ℤ) (effectivePeriod : Millis) :
    Except RangeError SuspicionBounds := do
  requireNonNegativeSafeInteger memberCount "member count"
  requirePositiveSafeInteger effectivePeriod "effective period"
  let count := max 1 memberCount
  let minimum := SUSPICION_MULTIPLIER * Nat.clog 10 (count + 1).toNat * effectivePeriod
  let maximum := SUSPICION_MAX_MULTIPLIER * minimum
  requirePositiveSafeInteger minimum "minimum suspicion timeout"
  requirePositiveSafeInteger maximum "maximum suspicion timeout"
  pure ⟨minimum, maximum⟩

/-- The deadline for a number of confirmations, from the original start. -/
def suspicionDeadline (decay : Decay) (start minimum maximum : Millis)
    (confirmationCount : ℕ) : Except RangeError Millis := do
  requireSafeTime start "start"
  requirePositiveSafeInteger minimum "minimum suspicion timeout"
  requirePositiveSafeInteger maximum "maximum suspicion timeout"
  requireNonNegativeSafeInteger confirmationCount "confirmation count"
  refuse (maximum < minimum) ⟨"maximum suspicion timeout must not be less than minimum"⟩
  let count := min confirmationCount SUSPICION_CONFIRMATION_TARGET
  let deadline := if count = 0 then start + maximum
    else if count = SUSPICION_CONFIRMATION_TARGET then start + minimum
    else start + (maximum - decay.amount (maximum - minimum) count)
  requireSafeTime deadline "suspicion deadline"
  pure deadline

/-! ### The manager -/

/-- The active suspicions, under their member's name. -/
structure SuspicionManager where
  active : OrderedMap JsString StoredSuspicion
  keyed : ∀ name suspicion, active.get name = some suspicion → suspicion.member = name

namespace SuspicionManager

def empty : SuspicionManager := ⟨OrderedMap.empty, nofun⟩

/-- Installs a suspicion in place of the one of its member. -/
def install (manager : SuspicionManager) (suspicion : StoredSuspicion) : SuspicionManager where
  active := manager.active.set suspicion.member suspicion
  keyed := by
    intro name other hget
    rw [OrderedMap.get_set] at hget
    split_ifs at hget with hname
    · rw [← Option.some.inj hget, hname]
    · exact manager.keyed name other hget

/-- Removes the suspicion of a member. -/
def remove (manager : SuspicionManager) (member : JsString) : SuspicionManager where
  active := manager.active.delete member
  keyed := by
    intro name other hget
    rw [OrderedMap.get_delete] at hget
    split at hget
    · cases hget
    · exact manager.keyed name other hget

/-- Opens a suspicion or replaces one at a lower incarnation; whether it did. -/
def start (decay : Decay) (manager : SuspicionManager) (input : SuspicionStart)
    (now : Millis) : Except RangeError (Bool × SuspicionManager) := do
  requireIncarnation input.incarnation
  refuse (input.member.length = 0) ⟨"member must not be empty"⟩
  refuse (input.reporter.length = 0) ⟨"reporter must not be empty"⟩
  if (manager.active.get input.member).any (fun current => input.incarnation ≤ current.incarnation)
  then pure (false, manager)
  else
    requireSafeTime now "clock time"
    let bounds ← suspicionBounds input.memberCount input.effectivePeriod
    let deadline ← suspicionDeadline decay now bounds.minimum bounds.maximum 0
    pure (true, manager.install
      ⟨⟨input.member, input.incarnation⟩, bounds, now, input.reporter, [], deadline⟩)

/-- What a confirmation did. -/
inductive Confirmation where
  | refused
  | thrown (error : RangeError) (manager : SuspicionManager)
  | shortened (manager : SuspicionManager)
  | expired (expiry : SuspicionExpiry) (manager : SuspicionManager)

/-- A running suspicion takes a further confirmation. -/
def Accepts (active : StoredSuspicion) (incarnation : ℕ) (reporter : JsString) : Prop :=
  active.incarnation = incarnation ∧ reporter ≠ active.reporter ∧
    reporter ∉ active.confirmationReporters ∧
    active.confirmationReporters.length < SUSPICION_CONFIRMATION_TARGET

instance (active : StoredSuspicion) (incarnation : ℕ) (reporter : JsString) :
    Decidable (Accepts active incarnation reporter) := inferInstanceAs (Decidable (_ ∧ _ ∧ _ ∧ _))

/-- Accepts one independent confirmation; a deadline that has passed expires the suspicion at
    once. -/
def confirm (decay : Decay) (manager : SuspicionManager) (member : JsString) (incarnation : ℕ)
    (reporter : JsString) (now : Millis) : Confirmation :=
  match requireIncarnation incarnation, manager.active.get member with
  | .error e, _ => .thrown e manager
  | .ok _, none => .refused
  | .ok _, some active =>
    if Accepts active incarnation reporter then
      let reporters := active.confirmationReporters ++ [reporter]
      match suspicionDeadline decay active.start active.minimum active.maximum reporters.length with
      | .error e => .thrown e (manager.install { active with confirmationReporters := reporters })
      | .ok deadline =>
        if deadline ≤ now then
          .expired active.toSuspicionExpiry (manager.remove member)
        else .shortened (manager.install
          { active with confirmationReporters := reporters, deadline := deadline })
    else .refused

/-- Removes a suspicion superseded by truth at the same or a newer incarnation; whether it did. -/
def cancelThrough (manager : SuspicionManager) (member : JsString) (incarnation : ℕ) :
    Except RangeError (Bool × SuspicionManager) := do
  requireIncarnation incarnation
  if (manager.active.get member).any (fun active => active.incarnation ≤ incarnation) then
    pure (true, manager.remove member)
  else pure (false, manager)

/-- The timer of a member's suspicion fires: before the deadline it is scheduled again, otherwise
    the suspicion expires. -/
def expire (manager : SuspicionManager) (member : JsString) (now : Millis) :
    Option (SuspicionExpiry × SuspicionManager) :=
  match manager.active.get member with
  | none => none
  | some active =>
    if now < active.deadline then none
    else some (active.toSuspicionExpiry, manager.remove member)

end SuspicionManager

/-! ### Arithmetic that stays exact -/

theorem isSafeInteger_intCast : isSafeInteger n = true ↔ |n| ≤ (MAX_SAFE_INTEGER : ℤ) := by
  simp only [isSafeInteger, Rat.den_intCast, true_and, decide_eq_true_eq]
  rw [← Int.cast_abs, ← Int.cast_natCast, Int.cast_le]

theorem requireSafeTime_ok (h : |n| ≤ (MAX_SAFE_INTEGER : ℤ)) :
    requireSafeTime n field = .ok () := by
  rw [requireSafeTime, refuse_eq_ok, isSafeInteger_intCast.mpr h]
  simp

theorem requirePositive_ok (hpos : 0 < n) (hle : n ≤ (MAX_SAFE_INTEGER : ℤ)) :
    requirePositiveSafeInteger n field = .ok () := by
  rw [requirePositiveSafeInteger, refuse_eq_ok,
    isSafeInteger_intCast.mpr (by rwa [abs_of_pos hpos])]
  simpa using hpos

theorem requireNonNegative_ok (hpos : 0 ≤ n) (hle : n ≤ (MAX_SAFE_INTEGER : ℤ)) :
    requireNonNegativeSafeInteger n field = .ok () := by
  rw [requireNonNegativeSafeInteger, refuse_eq_ok,
    isSafeInteger_intCast.mpr (by rwa [abs_of_nonneg hpos])]
  simpa using hpos

theorem requireIncarnation_ok {incarnation : ℕ} (h : incarnation ≤ MAX_INCARNATION) :
    requireIncarnation incarnation = .ok () := by
  have hle : (incarnation : ℤ) ≤ (MAX_SAFE_INTEGER : ℤ) := by
    simp only [MAX_INCARNATION, MAX_SAFE_INTEGER] at h ⊢
    omega
  rw [requireIncarnation, except_bind_eq_ok]
  refine ⟨(), ?_, refuse_eq_ok.mpr (by omega)⟩
  exact_mod_cast requireNonNegative_ok (Int.natCast_nonneg incarnation) hle

/-- Longest suspicion of a table that is within its capacity: `6 * 4 * 4` periods of nine
    seconds. -/
def MAX_SUSPICION_MS : ℕ := 864000

/-- The bounds for a table within its capacity and a period of `scale` seconds. -/
theorem suspicionBounds_ok {memberCount : ℤ} {scale : ℕ} (hcount : 0 ≤ memberCount)
    (hcapacity : memberCount ≤ (MAX_MEMBERS : ℤ)) (hpos : 0 < scale) (hscale : scale ≤ 9) :
    ∃ minimum : ℤ, 0 < minimum ∧ 6 * minimum ≤ (MAX_SUSPICION_MS : ℤ) ∧
      suspicionBounds memberCount (1000 * scale) = .ok ⟨minimum, (6 * minimum : ℤ)⟩ := by
  have hbuckets : 0 < Nat.clog 10 (max 1 memberCount + 1).toNat :=
    Nat.clog_pos (by decide) (by omega)
  have hfour : Nat.clog 10 (max 1 memberCount + 1).toNat ≤ 4 := by
    refine Nat.clog_le_of_le_pow ?_
    simp only [MAX_MEMBERS] at hcapacity
    omega
  generalize hname : Nat.clog 10 (max 1 memberCount + 1).toNat = buckets at hbuckets hfour
  have hproduct : buckets * scale ≤ 36 := Nat.mul_le_mul hfour hscale
  have hmaximum : (6 * (4 * buckets * (1000 * scale)) : ℤ) ≤ (MAX_SUSPICION_MS : ℤ) := by
    simp only [MAX_SUSPICION_MS]
    push_cast
    linarith [(by exact_mod_cast hproduct : (buckets * scale : ℤ) ≤ 36)]
  have hminimum : (0 : ℤ) < 4 * buckets * (1000 * scale) := by positivity
  have hsafe : (MAX_SUSPICION_MS : ℤ) ≤ MAX_SAFE_INTEGER := by decide
  have hcast : (SUSPICION_MULTIPLIER * buckets * (1000 * scale) : Millis) =
      ((4 * buckets * (1000 * scale) : ℤ) : Millis) := by
    push_cast [SUSPICION_MULTIPLIER]
    ring
  have hcast' : (SUSPICION_MAX_MULTIPLIER * ((4 * buckets * (1000 * scale) : ℤ) : Millis) : Millis) =
      ((6 * (4 * buckets * (1000 * scale)) : ℤ) : Millis) := by
    push_cast [SUSPICION_MAX_MULTIPLIER]
    ring
  refine ⟨4 * buckets * (1000 * scale), hminimum, hmaximum, ?_⟩
  simp only [suspicionBounds, except_bind_eq_ok, except_pure_eq_ok, hname, hcast, hcast']
  refine ⟨(), requireNonNegative_ok hcount (by simp only [MAX_MEMBERS, MAX_SAFE_INTEGER] at *; omega),
    (), ?_, (), requirePositive_ok hminimum (by omega), (),
    requirePositive_ok (by omega) (by omega), trivial⟩
  exact_mod_cast requirePositive_ok (by omega : (0 : ℤ) < 1000 * scale)
    (by simp only [MAX_SAFE_INTEGER]; omega)

/-- The deadline of a new suspicion. -/
theorem suspicionDeadline_start {decay : Decay} {minimum : ℤ} (hn : |n| ≤ (MAX_SAFE_INTEGER : ℤ))
    (hminimum : 0 < minimum) (hmaximum : 6 * minimum ≤ (MAX_SAFE_INTEGER : ℤ))
    (hlate : n + 6 * minimum ≤ (MAX_SAFE_INTEGER : ℤ)) :
    suspicionDeadline decay n minimum ((6 * minimum : ℤ) : Millis) 0 =
      .ok ((n + 6 * minimum : ℤ) : Millis) := by
  have hlow := (abs_le.mp hn).1
  have hdeadline : |n + 6 * minimum| ≤ (MAX_SAFE_INTEGER : ℤ) := abs_le.mpr ⟨by omega, hlate⟩
  have hcast : (n : Millis) + ((6 * minimum : ℤ) : Millis) = ((n + 6 * minimum : ℤ) : Millis) := by
    push_cast
    ring
  simp only [suspicionDeadline, except_bind_eq_ok, except_pure_eq_ok, refuse_eq_ok, Nat.zero_min,
    if_true, hcast, not_lt, exists_const]
  refine ⟨(), requireSafeTime_ok hn, (), requirePositive_ok hminimum (by omega), (),
    requirePositive_ok (by omega) hmaximum, (), ?_, ?_, (), requireSafeTime_ok hdeadline, trivial⟩
  · exact_mod_cast requireNonNegative_ok le_rfl (Int.natCast_nonneg MAX_SAFE_INTEGER)
  · exact_mod_cast (by omega : minimum ≤ 6 * minimum)

/-- No confirmation brings the deadline before the shortest duration. -/
theorem suspicionDeadline_ge {decay : Decay} {start minimum maximum deadline : Millis} {count : ℕ}
    (h : suspicionDeadline decay start minimum maximum count = .ok deadline) :
    start + minimum ≤ deadline := by
  simp only [suspicionDeadline, except_bind_eq_ok, except_pure_eq_ok, refuse_eq_ok, not_lt,
    exists_const] at h
  obtain ⟨_, -, _, -, _, -, _, -, hle, _, -, rfl⟩ := h
  have hdecay := decay.le_span (maximum - minimum) (min count SUSPICION_CONFIRMATION_TARGET)
    (by linarith)
  split
  · linarith
  · split
    · exact le_rfl
    · linarith

namespace SuspicionManager

variable {decay : Decay} {manager : SuspicionManager} {member reporter : JsString}
  {incarnation : ℕ} {now : Millis}

/-- The incarnation at which a member is under suspicion. -/
def incarnationOf (manager : SuspicionManager) (name : JsString) : Option ℕ :=
  (manager.active.get name).map (fun active => active.incarnation)

/-- Incarnation and earliest possible deadline of a member's suspicion. -/
def outline (manager : SuspicionManager) (name : JsString) : Option (ℕ × Millis) :=
  (manager.active.get name).map (fun active => (active.incarnation, active.start + active.minimum))

theorem incarnationOf_eq_outline (manager : SuspicionManager) (name : JsString) :
    manager.incarnationOf name = (manager.outline name).map Prod.fst := by
  rw [incarnationOf, outline, map_map]
  rfl

theorem incarnationOf_congr {manager' : SuspicionManager} {name : JsString}
    (h : manager'.outline name = manager.outline name) :
    manager'.incarnationOf name = manager.incarnationOf name := by
  rw [incarnationOf_eq_outline, h, ← incarnationOf_eq_outline]

theorem outline_install (manager : SuspicionManager) (suspicion : StoredSuspicion)
    (name : JsString) : (manager.install suspicion).outline name = if name = suspicion.member then
        some (suspicion.incarnation, suspicion.start + suspicion.minimum)
      else manager.outline name := by
  rw [outline, install, OrderedMap.get_set]
  split <;> rfl

theorem outline_remove (manager : SuspicionManager) (member name : JsString) :
    (manager.remove member).outline name =
      if name = member then none else manager.outline name := by
  rw [outline, remove, OrderedMap.get_delete]
  split <;> rfl

/-- Cancelling touches the suspicion of one member at most. -/
theorem cancelThrough_outline {cancelled : Bool} {manager' : SuspicionManager}
    (h : manager.cancelThrough member incarnation = .ok (cancelled, manager')) (name : JsString) :
    manager'.outline name = manager.outline name ∨
      name = member ∧ manager'.outline name = none := by
  simp only [cancelThrough, except_bind_eq_ok] at h
  obtain ⟨_, -, h⟩ := h
  split at h
  · obtain ⟨rfl, rfl⟩ := Prod.mk.inj (except_pure_eq_ok.mp h)
    rw [outline_remove]
    split_ifs with hname
    · exact Or.inr ⟨hname, rfl⟩
    · exact Or.inl rfl
  · obtain ⟨rfl, rfl⟩ := Prod.mk.inj (except_pure_eq_ok.mp h)
    exact Or.inl rfl

/-- Cancelling removes the member's suspicion if it is not newer, and nothing else. -/
theorem cancelThrough_ok (hinc : incarnation ≤ MAX_INCARNATION)
    (hactive : ∀ i ∈ manager.incarnationOf member, i ≤ incarnation) :
    ∃ cancelled manager', manager.cancelThrough member incarnation = .ok (cancelled, manager') ∧
      ∀ name, manager'.outline name = if name = member then none else manager.outline name := by
  have hok := requireIncarnation_ok hinc
  rw [cancelThrough, hok]
  simp only [bind, Except.bind]
  split_ifs with hkept
  · exact ⟨true, _, rfl, outline_remove manager member⟩
  · refine ⟨false, _, rfl, fun name => ?_⟩
    split_ifs with hname
    · rw [hname, outline, map_eq_none_iff, eq_none_iff_forall_ne_some]
      intro active hget
      refine hkept ?_
      rw [hget, any_some, decide_eq_true_eq]
      exact hactive active.incarnation (by rw [incarnationOf, hget]; rfl)
    · rfl

/-- A suspicion that is active at this incarnation or a newer one stays as it is. -/
theorem start_kept {input : SuspicionStart} (hinc : input.incarnation ≤ MAX_INCARNATION)
    (hmember : input.member ≠ []) (hreporter : input.reporter ≠ []) {i : ℕ}
    (hactive : manager.incarnationOf input.member = some i) (hi : input.incarnation ≤ i) :
    manager.start decay input now = .ok (false, manager) := by
  obtain ⟨active, hget, rfl⟩ := map_eq_some_iff.mp hactive
  simp only [start, except_bind_eq_ok, refuse_eq_ok, List.length_eq_zero_iff, hget,
    any_some, hi, decide_true, if_true, exists_const]
  exact ⟨(), requireIncarnation_ok hinc, hmember, hreporter, rfl⟩

/-- Within the table's capacity and the exact range of the clock, a suspicion is opened where no
    other is active. -/
theorem start_ok {input : SuspicionStart} {scale : ℕ} (hinc : input.incarnation ≤ MAX_INCARNATION)
    (hmember : input.member ≠ []) (hreporter : input.reporter ≠ [])
    (hnone : manager.incarnationOf input.member = none)
    (hcount : 0 ≤ input.memberCount) (hcapacity : input.memberCount ≤ (MAX_MEMBERS : ℤ))
    (hperiod : input.effectivePeriod = 1000 * scale) (hpos : 0 < scale) (hscale : scale ≤ 9)
    (hsafe : isSafeInteger now = true) (hlater : now + MAX_SUSPICION_MS ≤ MAX_SAFE_INTEGER) :
    ∃ suspicion : StoredSuspicion, suspicion.member = input.member ∧
      suspicion.incarnation = input.incarnation ∧ now < suspicion.start + suspicion.minimum ∧
      manager.start decay input now = .ok (true, manager.install suspicion) := by
  obtain ⟨minimum, hminimum, hmaximum, hbounds⟩ := suspicionBounds_ok hcount hcapacity hpos hscale
  have hnow : ∃ n : ℤ, now = n := ⟨now.num, by
    simp only [isSafeInteger, decide_eq_true_eq] at hsafe
    rw [Rat.coe_int_num_of_den_eq_one hsafe.1]⟩
  obtain ⟨n, rfl⟩ := hnow
  have hn := isSafeInteger_intCast.mp hsafe
  have hlate : n + MAX_SUSPICION_MS ≤ (MAX_SAFE_INTEGER : ℤ) := by exact_mod_cast hlater
  refine ⟨⟨⟨input.member, input.incarnation⟩, ⟨minimum, (6 * minimum : ℤ)⟩, n, input.reporter, [],
    ((n + 6 * minimum : ℤ) : Millis)⟩, rfl, rfl, ?_, ?_⟩
  · have : (0 : Millis) < (minimum : Millis) := by exact_mod_cast hminimum
    simpa using this
  · rw [incarnationOf, map_eq_none_iff] at hnone
    have hdeadline : suspicionDeadline decay n minimum ((6 * minimum : ℤ) : Millis) 0 =
        .ok ((n + 6 * minimum : ℤ) : Millis) :=
      suspicionDeadline_start hn hminimum (hmaximum.trans (by decide)) (by omega)
    simp only [start, except_bind_eq_ok, refuse_eq_ok, List.length_eq_zero_iff, hnone,
      any_none, Bool.false_eq_true, if_false, hperiod, exists_const]
    exact ⟨(), requireIncarnation_ok hinc, hmember, hreporter, (), requireSafeTime_ok hn, _, hbounds,
      _, hdeadline, rfl⟩

/-- Installing a suspicion again with another deadline. -/
theorem outline_reinstall {active suspicion : StoredSuspicion}
    (hget : manager.active.get member = some active) (hexpiry : suspicion.toSuspicionExpiry =
      active.toSuspicionExpiry) (hbounds : suspicion.toSuspicionBounds = active.toSuspicionBounds)
    (hstart : suspicion.start = active.start) (name : JsString) :
    (manager.install suspicion).outline name = manager.outline name := by
  have hmember : suspicion.member = member := by
    rw [hexpiry]
    exact manager.keyed member active hget
  rw [outline_install, hmember]
  split_ifs with hname
  · rw [hname, outline, hget, hexpiry, hbounds, hstart]
    rfl
  · rfl

/-- Everything a confirmation can do: it changes which suspicions are active only if it expires
    one, whose shortened deadline has passed. -/
theorem confirm_cases (decay : Decay) (manager : SuspicionManager) (member : JsString)
    (incarnation : ℕ) (reporter : JsString) (now : Millis) :
    (manager.confirm decay member incarnation reporter now = .refused) ∨
    (∃ manager', (manager.confirm decay member incarnation reporter now = .shortened manager' ∨
        ∃ e, manager.confirm decay member incarnation reporter now = .thrown e manager') ∧
      ∀ name, manager'.outline name = manager.outline name) ∨
    (∃ active deadline, manager.active.get member = some active ∧
      Accepts active incarnation reporter ∧
      suspicionDeadline decay active.start active.minimum active.maximum
        (active.confirmationReporters.length + 1) = .ok deadline ∧ deadline ≤ now ∧
      manager.confirm decay member incarnation reporter now =
        .expired ⟨member, incarnation⟩ (manager.remove member)) := by
  unfold confirm
  split
  · exact Or.inr (Or.inl ⟨manager, Or.inr ⟨_, rfl⟩, fun _ => rfl⟩)
  · exact Or.inl rfl
  · rename_i active _ hget
    by_cases haccepts : Accepts active incarnation reporter
    · rw [if_pos haccepts]
      simp only [List.length_append, List.length_singleton]
      split
      · exact Or.inr (Or.inl ⟨_, Or.inr ⟨_, rfl⟩, outline_reinstall hget rfl rfl rfl⟩)
      · rename_i deadline hdeadline
        split_ifs with hpassed
        · refine Or.inr (Or.inr ⟨active, deadline, hget, haccepts, hdeadline, hpassed, ?_⟩)
          rw [← manager.keyed member active hget, ← haccepts.1]
        · exact Or.inr (Or.inl ⟨_, Or.inl rfl, outline_reinstall hget rfl rfl rfl⟩)
    · exact Or.inl (if_neg haccepts)

end SuspicionManager

end Nodeakt.Membership
