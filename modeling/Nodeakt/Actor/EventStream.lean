import Nodeakt.Schemes.Run

/-! The synchronous publish and subscribe channel of the actor system.

    A publish iterates the live list of its topic, so what its callbacks subscribe and unsubscribe
    moves the list under the iterator. Publishes nest: the calls a callback makes, however deep, are
    the events between two turns of the publish that called it, and a throw ends a callback as a
    return does. -/

namespace Nodeakt.Actor.EventStream
open Schemes List Function Option

variable {τ σ : Type} [DecidableEq τ] [DecidableEq σ]

/-- One call of `publish`. -/
structure Publish (τ σ : Type) where
  topic : τ
  /-- The subscribers of the topic when it was called. -/
  started : List σ
  /-- Those called so far; the array iterator stands one past the last of them. -/
  delivered : List σ
  /-- Those unsubscribed before their turn. -/
  removed : List σ

structure Stream (τ σ : Type) where
  topics : τ → Option (List σ)
  /-- The publishes under way, the innermost first. -/
  active : List (Publish τ σ)
  returned : List (Publish τ σ)

def create : Stream τ σ := ⟨fun _ => none, [], []⟩

def Stream.subscribers (s : Stream τ σ) (topic : τ) : List σ := (s.topics topic).getD []

def Stream.subscribe (s : Stream τ σ) (subscriber : σ) (topic : τ) : Stream τ σ :=
  let subscribers := s.subscribers topic
  { s with
    topics := Function.update s.topics topic
      (some (if subscriber ∈ subscribers then subscribers else subscribers ++ [subscriber])) }

/-- A publish of the topic that has not called the subscriber yet sees it unsubscribed. -/
def Publish.note (subscriber : σ) (topic : τ) (p : Publish τ σ) : Publish τ σ :=
  if p.topic = topic ∧ subscriber ∉ p.delivered then
    { p with removed := subscriber :: p.removed }
  else p

def Stream.unsubscribe (s : Stream τ σ) (subscriber : σ) (topic : τ) : Stream τ σ :=
  { s with
    topics := Function.update s.topics topic ((s.topics topic).map (·.erase subscriber))
    active := s.active.map (Publish.note subscriber topic) }

def Stream.publish (s : Stream τ σ) (topic : τ) : Stream τ σ :=
  match s.topics topic with
  | none => s
  | some subscribers => { s with active := ⟨topic, subscribers, [], []⟩ :: s.active }

/-- The innermost publish calls the subscriber its iterator stands at, or returns. -/
def Stream.turn (s : Stream τ σ) : Option (Stream τ σ) :=
  match s.active with
  | [] => none
  | p :: outer =>
    match (s.subscribers p.topic)[p.delivered.length]? with
    | some subscriber =>
      some { s with active := { p with delivered := p.delivered ++ [subscriber] } :: outer }
    | none => some { s with active := outer, returned := p :: s.returned }

inductive Event (τ σ : Type) where
  | subscribe (subscriber : σ) (topic : τ)
  | unsubscribe (subscriber : σ) (topic : τ)
  | publish (topic : τ)
  | turn

def step (s : Stream τ σ) : Event τ σ → Option (Stream τ σ)
  | .subscribe subscriber topic => some (s.subscribe subscriber topic)
  | .unsubscribe subscriber topic => some (s.unsubscribe subscriber topic)
  | .publish topic => some (s.publish topic)
  | .turn => s.turn

/-- Every subscriber it started with and that was not unsubscribed before its turn is called
    exactly once. -/
def Publish.Served (p : Publish τ σ) : Prop :=
  ∀ subscriber ∈ p.started, subscriber ∉ p.removed → p.delivered.count subscriber = 1

instance : DecidablePred (Publish.Served : Publish τ σ → Prop) := fun p =>
  inferInstanceAs (Decidable (∀ subscriber ∈ p.started, _))

/-- No publish under way sees a subscriber it has already called unsubscribed from its topic. -/
def SparesCalled (s : Stream τ σ) : Event τ σ → Prop
  | .unsubscribe subscriber topic => ∀ p ∈ s.active, p.topic = topic → subscriber ∉ p.delivered
  | _ => True

instance (s : Stream τ σ) : ∀ e, Decidable (SparesCalled s e)
  | .unsubscribe .. => inferInstanceAs (Decidable (∀ p ∈ s.active, _))
  | .subscribe .. | .publish _ | .turn => isTrue trivial

/-- What holds between a publish under way and the list it iterates: those called are the front of
    the list, and those still owed stand within as many turns as it started with subscribers. -/
structure Publish.Tracks (p : Publish τ σ) (subscribers : List σ) : Prop where
  called : p.delivered <+: subscribers
  owed : ∀ subscriber ∈ p.started, subscriber ∉ p.removed →
    subscriber ∈ subscribers.take p.started.length

structure Sound (s : Stream τ σ) : Prop where
  nodup : ∀ topic, (s.subscribers topic).Nodup
  active : ∀ p ∈ s.active, p.Tracks (s.subscribers p.topic)
  returned : ∀ p ∈ s.returned, p.Served

theorem subscribers_subscribe (s : Stream τ σ) (subscriber : σ) (topic : τ) :
    (s.subscribe subscriber topic).subscribers = Function.update s.subscribers topic
      (if subscriber ∈ s.subscribers topic then s.subscribers topic
        else s.subscribers topic ++ [subscriber]) :=
  funext (apply_update (fun _ o => getD o []) s.topics topic _)

theorem subscribers_unsubscribe (s : Stream τ σ) (subscriber : σ) (topic : τ) :
    (s.unsubscribe subscriber topic).subscribers =
      Function.update s.subscribers topic ((s.subscribers topic).erase subscriber) := by
  funext t
  refine (apply_update (fun _ o => getD o []) s.topics topic _ t).trans ?_
  have herase : ((s.topics topic).map (·.erase subscriber)).getD [] =
      (s.subscribers topic).erase subscriber := by
    cases h : s.topics topic <;> simp [Stream.subscribers, h]
  rw [herase]
  rfl

omit [DecidableEq τ]

/-- A publish that made as many turns as it had subscribers, or all there were, served them. -/
theorem Publish.Tracks.served {p : Publish τ σ} {subscribers : List σ} (h : p.Tracks subscribers)
    (hnodup : subscribers.Nodup)
    (hturns : p.started.length ≤ p.delivered.length ∨ p.delivered = subscribers) : p.Served := by
  intro subscriber hstarted hkept
  have howed := h.owed subscriber hstarted hkept
  refine count_eq_one_of_mem (hnodup.sublist h.called.sublist) ?_
  rcases hturns with hlen | hall
  · have hfirst : subscribers.take p.started.length <+: subscribers := ⟨_, take_append_drop ..⟩
    exact (prefix_of_prefix_length_le hfirst h.called ((length_take_le ..).trans hlen)).subset howed
  · exact hall ▸ mem_of_mem_take howed

/-- What stands among the first `n` does so still when another is erased. -/
theorem mem_take_erase {l : List σ} {n : Nat} {a b : σ} (h : a ∈ l.take n) (hne : a ≠ b) :
    a ∈ (l.erase b).take n := by
  have hfront : (l.take n).erase b <+: l.erase b := by
    conv_rhs => rw [← take_append_drop n l]
    rw [erase_append]
    split
    · exact prefix_append ..
    next hb =>
      rw [erase_of_not_mem hb]
      exact prefix_append ..
  have hlen : ((l.take n).erase b).length ≤ n :=
    length_erase_le.trans (length_take_le ..)
  exact (prefix_take_iff.mpr ⟨hfront, hlen⟩).subset ((mem_erase_of_ne hne).mpr h)

theorem Sound.publish {s : Stream τ σ} (h : Sound s) (topic : τ) : Sound (s.publish topic) := by
  rw [Stream.publish]
  split
  next => exact h
  next subscribers hsome =>
    have heq : s.subscribers topic = subscribers := by rw [Stream.subscribers, hsome]; rfl
    have hfresh : Publish.Tracks ⟨topic, subscribers, [], []⟩ (s.subscribers topic) :=
      ⟨⟨_, nil_append _⟩, fun other hstarted _ => by rwa [heq, take_length]⟩
    exact ⟨h.nodup, forall_mem_cons.mpr ⟨hfresh, h.active⟩, h.returned⟩

theorem Sound.turn {s s' : Stream τ σ} (h : Sound s) (hs : s.turn = some s') : Sound s' := by
  rw [Stream.turn] at hs
  split at hs
  next => cases hs
  next p outer hactive =>
    obtain ⟨hp, houter⟩ := forall_mem_cons.mp (hactive ▸ h.active)
    split at hs
    next subscriber hnext =>
      cases hs
      refine ⟨h.nodup, forall_mem_cons.mpr ⟨⟨?_, hp.owed⟩, houter⟩, h.returned⟩
      rw [prefix_iff_eq_take, length_append, length_singleton, take_add_one]
      exact congrArg₂ _ (prefix_iff_eq_take.mp hp.called) (congrArg toList hnext).symm
    next hend =>
      cases hs
      have hall := hp.called.eq_of_length_le (getElem?_eq_none_iff.mp hend)
      exact ⟨h.nodup, houter,
        forall_mem_cons.mpr ⟨hp.served (h.nodup _) (.inr hall), h.returned⟩⟩

variable [DecidableEq τ]

/-- Subscribing lengthens the list behind the iterator and behind all that is owed. -/
theorem Sound.subscribe {s : Stream τ σ} (h : Sound s) (subscriber : σ) (topic : τ) :
    Sound (s.subscribe subscriber topic) where
  nodup := by
    rw [subscribers_subscribe, forall_update_iff _ (fun _ l => List.Nodup l)]
    refine ⟨?_, fun t _ => h.nodup t⟩
    split
    next => exact h.nodup topic
    next hnew => exact concat_eq_append ▸ (h.nodup topic).concat hnew
  active := by
    intro p hp
    have hlive := h.active p hp
    have hgrown : ∀ t, s.subscribers t <+: (s.subscribe subscriber topic).subscribers t := by
      rw [subscribers_subscribe, forall_update_iff _ (fun t l => s.subscribers t <+: l)]
      refine ⟨?_, fun t _ => prefix_rfl⟩
      split
      · exact prefix_rfl
      · exact prefix_append ..
    exact ⟨hlive.called.trans (hgrown _), fun other hstarted hkept =>
      ((hgrown _).take _).subset (hlive.owed other hstarted hkept)⟩
  returned := h.returned

/-- Unsubscribing one not called yet brings the others owed nearer, if anything. -/
theorem Sound.unsubscribe {s : Stream τ σ} (h : Sound s) {subscriber : σ} {topic : τ}
    (hspared : ∀ p ∈ s.active, p.topic = topic → subscriber ∉ p.delivered) :
    Sound (s.unsubscribe subscriber topic) where
  nodup := by
    rw [subscribers_unsubscribe, forall_update_iff _ (fun _ l => List.Nodup l)]
    exact ⟨(h.nodup topic).erase _, fun t _ => h.nodup t⟩
  active := by
    refine forall_mem_map.mpr fun p hp => ?_
    rw [subscribers_unsubscribe]
    have hlive := h.active p hp
    by_cases htopic : p.topic = topic
    · subst htopic
      have hcalled := hspared p hp rfl
      rw [Publish.note, if_pos ⟨rfl, hcalled⟩, update_self]
      constructor
      · obtain ⟨rest, hrest⟩ := hlive.called
        rw [← hrest, erase_append_right _ hcalled]
        exact prefix_append ..
      · intro other hstarted hkept
        obtain ⟨hother, hkept⟩ := ne_and_not_mem_of_not_mem_cons hkept
        exact mem_take_erase (hlive.owed other hstarted hkept) hother
    · rw [Publish.note, if_neg (fun hboth => htopic hboth.1), update_of_ne htopic]
      exact hlive
  returned := h.returned

theorem Sound.step {s s' : Stream τ σ} {e : Event τ σ} (h : Sound s) (hspares : SparesCalled s e)
    (hs : step s e = some s') : Sound s' := by
  cases e with
  | subscribe subscriber topic => exact some.inj hs ▸ h.subscribe subscriber topic
  | unsubscribe subscriber topic => exact some.inj hs ▸ h.unsubscribe hspares
  | publish topic => exact some.inj hs ▸ h.publish topic
  | turn => exact h.turn hs

/-- As long as no subscriber is unsubscribed after its turn in a publish still under way, every
    publish serves its subscribers, at the latest when it returns and within as many turns as it
    had subscribers. -/
theorem publish_serves {events : List (Event τ σ)} {s : Stream τ σ}
    (hmeets : Meets step SparesCalled create events) (hrun : run step create events = some s) :
    (∀ p ∈ s.returned, p.Served) ∧
      ∀ p ∈ s.active, p.started.length ≤ p.delivered.length → p.Served := by
  have hstart : Sound (create : Stream τ σ) :=
    ⟨fun _ => List.nodup_nil, List.forall_mem_nil _, List.forall_mem_nil _⟩
  have hsound := run_preserves (fun _ _ _ => Sound.step) hstart hmeets hrun
  exact ⟨hsound.returned, fun p hp hturns =>
    (hsound.active p hp).served (hsound.nodup _) (.inl hturns)⟩

/-- The first callback unsubscribes the third subscriber before its turn and subscribes a fourth,
    which is called too. -/
theorem changed_list_served :
    ∃ s ∈ run step create [.subscribe 0 "topic", .subscribe 1 "topic", .subscribe 2 "topic",
        .publish "topic", .turn, .unsubscribe 2 "topic", .subscribe 3 "topic", .turn, .turn, .turn],
      s.returned.map Publish.delivered = [[0, 1, 3]] ∧ ∀ p ∈ s.returned, p.Served :=
  ends_imp (P := fun s => s.returned.map Publish.delivered = [[0, 1, 3]]) (by decide +kernel)
    fun _ hrun hcalled => ⟨hcalled, (publish_serves (by decide +kernel) hrun).1⟩

/-- The first of three subscribers unsubscribes itself when called. The second moves into the place
    the iterator has passed and misses the event. -/
theorem self_unsubscribe_skips_next :
    ∃ s ∈ run step create [.subscribe 0 "topic", .subscribe 1 "topic", .subscribe 2 "topic",
        .publish "topic", .turn, .unsubscribe 0 "topic", .turn, .turn],
      ∃ p ∈ s.returned, p.started = [0, 1, 2] ∧ p.removed = [] ∧ p.delivered = [0, 2] ∧
        ¬ p.Served := by
  decide +kernel

end Nodeakt.Actor.EventStream
