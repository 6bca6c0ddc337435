import Mathlib

/-! Runs of a system driven by events.

    `step` takes a state and an event to the next state, or to nothing when the event is not
    enabled. A run is a list of events taken in order. `Meets` says that every event of a run meets
    a condition on the state it is taken in; `run_preserves` is the induction rule all safety
    results go through. -/

namespace Nodeakt.Schemes
open Option

variable {σ ε : Type} (step : σ → ε → Option σ)

/-- Takes the events in order. -/
def run : σ → List ε → Option σ
  | s, [] => some s
  | s, e :: es => (step s e).bind (fun s' => run s' es)

/-- Every event of the run meets `cond` in the state it is taken in. -/
def Meets (cond : σ → ε → Prop) : σ → List ε → Prop
  | _, [] => True
  | s, e :: es => cond s e ∧ ∀ s', step s e = some s' → Meets cond s' es

/-- Whether a run meets a decidable condition can be computed by running it. -/
instance decidableMeets {cond : σ → ε → Prop} [∀ s e, Decidable (cond s e)] :
    ∀ (s : σ) (es : List ε), Decidable (Meets step cond s es)
  | _, [] => isTrue trivial
  | s, e :: es =>
    match hs : step s e with
    | none => decidable_of_iff (cond s e) (by simp [Meets, hs])
    | some s' =>
      have : Decidable (Meets step cond s' es) := decidableMeets s' es
      decidable_of_iff (cond s e ∧ Meets step cond s' es) (by simp [Meets, hs])

/-- What holds where a run ends can be computed by running it. -/
instance decidableEnds {o : Option σ} {P : σ → Prop} [DecidablePred P] :
    Decidable (∃ s, o = some s ∧ P s) :=
  inferInstanceAs (Decidable (∃ s ∈ o, P s))

/-- What is computed of the end of a run may rest on what is proved of it. -/
theorem ends_imp {o : Option σ} {P Q : σ → Prop} (hends : ∃ s ∈ o, P s)
    (himp : ∀ s ∈ o, P s → Q s) : ∃ s ∈ o, Q s := by
  obtain ⟨s, hs, hP⟩ := hends
  exact ⟨s, hs, himp s hs hP⟩

@[simp] theorem run_nil (s : σ) : run step s [] = some s := rfl

theorem run_cons_eq_some {s t : σ} {e : ε} {es : List ε} :
    run step s (e :: es) = some t ↔ ∃ s', step s e = some s' ∧ run step s' es = some t := by
  simp [run, bind_eq_some_iff]

variable {step}

/-- A guarded step that was taken was enabled. -/
theorem of_guarded {p : Prop} [Decidable p] {s t : σ} (h : (if p then some s else none) = some t) :
    p ∧ s = t :=
  (ite_none_right_eq_some.mp h).imp_right some.inj

/-- A step barred in some states was taken in another. -/
theorem of_barred {p : Prop} [Decidable p] {s t : σ} (h : (if p then none else some s) = some t) :
    ¬ p ∧ s = t :=
  (ite_none_left_eq_some.mp h).imp_right some.inj

/-- A step on something found was taken on something that passed the filter. -/
theorem of_found {α : Type} {o : Option α} {p : α → Bool} {f : α → σ} {t : σ}
    (h : (o.filter p).map f = some t) : ∃ a, o = some a ∧ p a = true ∧ f a = t := by
  obtain ⟨a, ha, rfl⟩ := map_eq_some_iff.mp h
  obtain ⟨hfound, hp⟩ := filter_eq_some_iff.mp ha
  exact ⟨a, hfound, hp, rfl⟩

/-- A property kept by every event that meets the condition holds after every run whose events
    all meet it. -/
theorem run_preserves {P : σ → Prop} {cond : σ → ε → Prop}
    (hstep : ∀ s e s', P s → cond s e → step s e = some s' → P s') :
    ∀ {es : List ε} {s t : σ}, P s → Meets step cond s es → run step s es = some t → P t
  | [], s, t, hs, _, hrun => by simpa [← some.inj hrun] using hs
  | e :: es, s, t, hs, hmeets, hrun => by
      obtain ⟨s', hstep', hrest⟩ := (run_cons_eq_some step).mp hrun
      exact run_preserves hstep (hstep s e s' hs hmeets.1 hstep') (hmeets.2 s' hstep') hrest

/-- A condition on the events alone is met by every run of such events. -/
theorem Meets.of_forall {cond : ε → Prop} : ∀ {es : List ε} (s : σ), (∀ e ∈ es, cond e) →
    Meets step (fun _ e => cond e) s es
  | [], _, _ => trivial
  | e :: _, _, h => ⟨h e (List.mem_cons_self ..), fun s' _ =>
      Meets.of_forall s' fun e' he' => h e' (List.mem_cons_of_mem _ he')⟩

/-- Two conditions are met together. -/
theorem Meets.and {cond cond' : σ → ε → Prop} : ∀ {es : List ε} {s : σ},
    Meets step cond s es → Meets step cond' s es → Meets step (fun s e => cond s e ∧ cond' s e) s es
  | [], _, _, _ => trivial
  | _ :: _, _, h, h' => ⟨⟨h.1, h'.1⟩, fun s' hs' => (h.2 s' hs').and (h'.2 s' hs')⟩

/-- A run cut in two meets a condition in both parts. -/
theorem Meets.of_append {cond : σ → ε → Prop} {fs : List ε} {t : σ} :
    ∀ {es : List ε} {s : σ}, Meets step cond s (es ++ fs) → run step s es = some t →
      Meets step cond s es ∧ Meets step cond t fs
  | [], s, h, hrun => by
      cases hrun
      exact ⟨trivial, h⟩
  | e :: es, s, h, hrun => by
      obtain ⟨s', hstep, hrest⟩ := (run_cons_eq_some step).mp hrun
      have hcut := (h.2 s' hstep).of_append hrest
      refine ⟨⟨h.1, fun u hu => ?_⟩, hcut.2⟩
      cases (hu.symm.trans hstep)
      exact hcut.1

/-- The same rule for a property every event keeps. -/
theorem run_invariant {P : σ → Prop} (hstep : ∀ s e s', P s → step s e = some s' → P s')
    {es : List ε} {s t : σ} (hs : P s) (hrun : run step s es = some t) : P t := by
  have always : ∀ (fs : List ε) (u : σ), Meets step (fun _ _ => True) u fs := by
    intro fs
    induction fs with
    | nil => intro u; trivial
    | cons e fs ih => intro u; exact ⟨trivial, fun u' _ => ih u'⟩
  exact run_preserves (fun s e s' hP _ he => hstep s e s' hP he) hs (always es s) hrun

/-- What the update of one cell keeps of it, it keeps of every cell. -/
theorem read_update {ι α β : Type} [DecidableEq ι] (read : α → β) {cells : ι → α} {i : ι} {a : α}
    (h : read a = read (cells i)) (j : ι) :
    read (Function.update cells i a j) = read (cells j) := by
  rw [Function.apply_update (fun _ => read), h, Function.update_eq_self i (fun j => read (cells j))]

end Nodeakt.Schemes
