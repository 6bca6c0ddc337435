import Mathlib

/-! Computations on a state that may be refused.

    An action returns a value or an error together with the state it leaves; what it changed before it
    was refused stays changed, as with an exception thrown half way. `bind_eq_ok` takes a finished
    sequence apart, and `Keeps` is the rule for what holds after it however it ends. -/

namespace Nodeakt.Schemes

variable {σ ε α β : Type}
variable {a : α} {b : β} {r : Except ε α}

def Action (σ ε α : Type) : Type := σ → Except ε α × σ

namespace Action

instance : Monad (Action σ ε) where
  pure a := fun s => (.ok a, s)
  bind x f := fun s =>
    match x s with
    | (.error e, t) => (.error e, t)
    | (.ok a, t) => f a t

/-- A result that does not touch the state. -/
def lift (x : Except ε α) : Action σ ε α := fun s => (x, s)

/-- Fails when `bad` is met. -/
def refuse (bad : Prop) [Decidable bad] (error : ε) : Action σ ε Unit :=
  lift (if bad then .error error else .ok ())

variable {x : Action σ ε α} {f : α → Action σ ε β} {s t : σ}

theorem bind_eq_ok : (x >>= f) s = (.ok b, t) ↔ ∃ a u, x s = (.ok a, u) ∧ f a u = (.ok b, t) := by
  change (match x s with
    | (.error e, t) => (Except.error e, t)
    | (.ok a, t) => f a t) = _ ↔ _
  rcases x s with ⟨e | a, u⟩
  · simp
  · simp

theorem pure_eq_ok {b : α} : (pure a : Action σ ε α) s = (.ok b, t) ↔ a = b ∧ s = t := by
  change (Except.ok a, s) = (Except.ok b, t) ↔ _
  simp

theorem lift_eq_ok : lift r s = (.ok a, t) ↔ r = .ok a ∧ s = t := by
  simp [lift]

theorem lift_bind_eq_ok : (lift r >>= f) s = (.ok b, t) ↔ ∃ a, r = .ok a ∧ f a s = (.ok b, t) := by
  simp only [bind_eq_ok, lift_eq_ok]
  constructor
  · rintro ⟨a, u, ⟨hr, rfl⟩, hf⟩
    exact ⟨a, hr, hf⟩
  · rintro ⟨a, hr, hf⟩
    exact ⟨a, s, ⟨hr, rfl⟩, hf⟩

theorem refuse_bind_eq_ok {bad : Prop} [Decidable bad] {error : ε} {f : Unit → Action σ ε β} :
    (refuse bad error >>= f) s = (.ok b, t) ↔ ¬bad ∧ f () s = (.ok b, t) := by
  rw [refuse, lift_bind_eq_ok]
  by_cases h : bad
  · simp [h]
  · rw [if_neg h]
    exact ⟨fun ⟨_, _, hf⟩ => ⟨h, hf⟩, fun ⟨_, hf⟩ => ⟨(), rfl, hf⟩⟩

/-- Whatever becomes of the action, `P` stays true of the state. -/
def Keeps (P : σ → Prop) (x : Action σ ε α) : Prop := ∀ s, P s → P (x s).2

variable {P : σ → Prop}

theorem Keeps.bind (hx : Keeps P x) (hf : ∀ a, Keeps P (f a)) : Keeps P (x >>= f) := by
  intro s hs
  have hfirst := hx s hs
  change P (match x s with
    | (.error e, t) => (Except.error e, t)
    | (.ok a, t) => f a t).2
  rcases hxs : x s with ⟨e | a, t⟩
  · rwa [hxs] at hfirst
  · rw [hxs] at hfirst
    exact hf a t hfirst

theorem keeps_pure : Keeps P (pure a : Action σ ε α) := fun _ hs => hs

theorem keeps_lift : Keeps P (lift r) := fun _ hs => hs

theorem keeps_refuse {bad : Prop} [Decidable bad] {error : ε} : Keeps P (refuse bad error) :=
  keeps_lift

end Action

end Nodeakt.Schemes
