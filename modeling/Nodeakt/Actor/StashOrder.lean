import Nodeakt.Actor.Reentrancy

/-! The order of user messages in stash mode.

    While a request is in flight the loop moves user messages to the stash, and the reply that ends
    the pause puts them back behind whatever waits in the mailbox. `messages_in_order`: as long as no
    user message waits there and the stash fits, the behavior receives the messages in the order they
    were accepted. -/

namespace Nodeakt.Actor
open Schemes List

variable {μ ρ : Type}

/-- A mailbox admits the messages one after another. -/
def Fits (admits : List (Message μ ρ) → Message μ ρ → Bool) : List (Message μ ρ) → List μ → Prop
  | _, [] => True
  | held, message :: rest =>
    admits held (.user message) = true ∧ Fits admits (held ++ [.user message]) rest

instance (admits : List (Message μ ρ) → Message μ ρ → Bool) : ∀ (held : List (Message μ ρ))
    (messages : List μ), Decidable (Fits admits held messages)
  | _, [] => isTrue trivial
  | held, message :: rest =>
    have : Decidable (Fits admits (held ++ [.user message]) rest) := instDecidableFits admits _ rest
    inferInstanceAs (Decidable (_ ∧ _))

/-- The user messages in a mailbox. -/
def users : List (Message μ ρ) → List μ
  | [] => []
  | .user message :: rest => message :: users rest
  | _ :: rest => users rest

theorem users_append : ∀ first second : List (Message μ ρ),
    users (first ++ second) = users first ++ users second
  | [], _ => rfl
  | .user message :: rest, second => by
      simp only [cons_append, users, users_append rest second]
  | .requestReply .. :: rest, second => by
      simp only [cons_append, users, users_append rest second]
  | .poisonPill :: rest, second => by
      simp only [cons_append, users, users_append rest second]
  | .panicking :: rest, second => by
      simp only [cons_append, users, users_append rest second]

theorem users_map : ∀ messages : List μ, users (messages.map (Message.user (ρ := ρ))) = messages
  | [] => rfl
  | message :: rest => by simp only [map_cons, users, users_map rest]

namespace PidState

variable {s next : PidState μ ρ}

/-- The runs of an actor that only sends requests in stash mode, takes its mail in order, and whose
    behavior neither throws nor stashes: messages, replies and timeouts come at any time. -/
def Plain (s : PidState μ ρ) : PidEvent μ ρ → Prop
  | .started _ | .tell _ | .panicking | .dispatch _ | .returned _ | .park _ | .fulfilled _
  | .outcome .. | .cancel _ | .onReply _ => True
  | .take _ index => index = 0
  | .request mode _ => ∀ state ∈ s.requests.reentrancy, mode.getD state.mode = .stashNonReentrant
  | _ => False

/-- A reply that ends the pause with messages in the stash has no user message behind it, and the
    stash fits into the mailbox. -/
def Clear (s : PidState μ ρ) : List (Message μ ρ) → Prop
  | .requestReply index _ :: rest =>
    (∀ handle ∈ s.requests.handles[index]?, handle.settled = false) → s.requests.paused = 1 →
      s.stash ≠ [] → users rest = [] ∧ Fits s.admits rest s.stash
  | _ => True

/-- The way is clear for every reply, and every outcome of an unsettled request is taken. -/
def Undisturbed (s : PidState μ ρ) : PidEvent μ ρ → Prop
  | .take _ _ => s.Clear s.mailbox
  | event => s.RepliesTaken event

instance (s : PidState μ ρ) (event) : Decidable (s.Plain event) := by
  rcases event <;> dsimp only [Plain] <;> infer_instance

instance (s : PidState μ ρ) : ∀ mailbox, Decidable (s.Clear mailbox)
  | .requestReply _ _ :: _ => inferInstanceAs (Decidable (_ → _))
  | [] | .user _ :: _ | .poisonPill :: _ | .panicking :: _ => isTrue trivial

instance (s : PidState μ ρ) (event) : Decidable (s.Undisturbed event) := by
  rcases event <;> dsimp only [Undisturbed] <;> infer_instance

theorem Undisturbed.repliesTaken {event : PidEvent μ ρ} (h : s.Undisturbed event) :
    s.RepliesTaken event := by
  cases event with
  | take => trivial
  | _ => exact h

/-- The stash goes back into a mailbox it fits into. -/
theorem unstashEach_fits : ∀ (messages : List μ) (s : PidState μ ρ), s.isRunning = true →
    s.disposed = false → Fits s.admits s.mailbox messages →
    (s.unstashEach messages).mailbox = s.mailbox ++ messages.map .user ∧
      (s.unstashEach messages).stash = [] ∧ (s.unstashEach messages).disposed = false
  | [], s, _, hdisposed, _ => by simp [unstashEach, hdisposed]
  | message :: rest, s, hrun, hdisposed, ⟨hadmits, hfits⟩ => by
      have hreceive := doReceive_eq (s := { s with stash := rest }) hrun hdisposed hadmits
      obtain ⟨hmailbox, hstash, hdisposed'⟩ := unstashEach_fits rest
        { s with stash := rest, mailbox := s.mailbox ++ [Message.user message] }.schedule hrun
        hdisposed hfits
      unfold unstashEach
      rw [hreceive]
      refine ⟨hmailbox.trans ?_, hstash, hdisposed'⟩
      simp [schedule]

/-- The accepted messages are the handled ones, the stashed ones and those in the mailbox, in this
    order; the stash is empty unless a request pauses the actor, and all requests do. -/
structure Ordered (s : PidState μ ρ) : Prop where
  order : s.accepted = s.handled ++ s.stash ++ users s.mailbox
  paused : s.requests.paused = 0 → s.stash = []
  stashMode : ∀ handle ∈ s.requests.handles, handle.stashMode = true
  pills : Message.poisonPill ∉ s.mailbox
  stopping : s.stopping = false
  suspended : s.suspended = false
  disposed : s.disposed = false
  running : s.running = false → s.processing = false ∧ s.stash = []

theorem ordered_create (admits : List (Message μ ρ) → Message μ ρ → Bool)
    (reentrancy : Option ReentrancyState) : (create admits reentrancy : PidState μ ρ).Ordered := by
  constructor <;> simp [create, users]

section

variable (h : s.Ordered)
include h

/-- A loop runs only in a running actor. -/
theorem Ordered.isRunning (hp : s.processing = true) : s.isRunning = true := by
  have hrunning : s.running = true := by
    by_contra hnot
    have hidle := (h.running (by simpa using hnot)).1
    cases hidle.symm.trans hp
  simp [PidState.isRunning, hrunning, h.stopping, h.suspended]

theorem Ordered.receive {mail : Message μ ρ} (hok : s.doReceive mail = .ok next)
    (hmail : mail ≠ .poisonPill) :
    { next with accepted := s.accepted ++ users [mail] }.Ordered := by
  obtain ⟨hrun, -, -, rfl⟩ := doReceive_ok hok
  simp only [PidState.isRunning, Bool.and_eq_true] at hrun
  constructor
  · simp only [schedule, users_append, h.order, append_assoc]
  · exact h.paused
  · exact h.stashMode
  · simp only [schedule, mem_append, mem_singleton, not_or]
    exact ⟨h.pills, Ne.symm hmail⟩
  · exact h.stopping
  · exact h.suspended
  · exact h.disposed
  · intro hnot
    cases hrun.1.1.symm.trans hnot

/-- A command is not a user message. -/
theorem Ordered.receive_command {mail : Message μ ρ}
    (hok : s.doReceive mail = .ok next) (hmail : mail ≠ .poisonPill) (husers : users [mail] = []) :
    next.Ordered := by
  have hnext := h.receive hok hmail
  rwa [husers, append_nil, ← (keeps_doReceive hok).accepted] at hnext

/-- The loops may change. -/
theorem Ordered.with_loops (loops : List (Loop μ)) (wakes : List Bool) :
    { s with loops, wakes }.Ordered := { h with }

theorem Ordered.continueLoop (loop processed : ℕ) : (s.continueLoop loop processed).Ordered := by
  unfold PidState.continueLoop
  split <;> exact h.with_loops _ _

theorem Ordered.postReceive (loop processed : ℕ) : (s.postReceive loop processed).Ordered := by
  unfold PidState.postReceive
  rw [if_neg (by simp [h.suspended])]
  exact h.continueLoop loop processed

end

theorem mem_modify {handles : List (RequestHandle ρ)} {f : RequestHandle ρ → RequestHandle ρ}
    {index : ℕ} (hf : ∀ handle, (f handle).stashMode = handle.stashMode)
    (hmode : ∀ handle ∈ handles, handle.stashMode = true) :
    ∀ handle ∈ handles.modify index f, handle.stashMode = true := by
  intro handle hhandle
  obtain ⟨position, hposition⟩ := mem_iff_getElem?.mp hhandle
  rw [getElem?_modify] at hposition
  obtain ⟨old, hold, rfl⟩ := Option.map_eq_some_iff.mp hposition
  have hold' := hmode old (mem_of_getElem? hold)
  split
  · rw [hf, hold']
  · exact hold'

theorem Ordered.modify (h : s.Ordered) (index : ℕ) {f : RequestHandle ρ → RequestHandle ρ}
    (hf : ∀ handle, (f handle).stashMode = handle.stashMode) :
    { s with requests := s.requests.modify index f }.Ordered :=
  { h with stashMode := mem_modify hf h.stashMode }

theorem Ordered.deliverRequestReply (h : s.Ordered) (index : ℕ) (outcome : Except ActorError ρ) :
    (s.deliverRequestReply index outcome).Ordered := by
  unfold PidState.deliverRequestReply
  split
  · rename_i hok
    exact h.receive_command hok nofun rfl
  · exact h.modify index fun _ => rfl

theorem Ordered.request (h : s.Ordered) (hexact : s.requests.Exact) {mode : Option ReentrancyMode}
    (hmode : ∀ state ∈ s.requests.reentrancy, mode.getD state.mode = .stashNonReentrant)
    (delivered : Bool) : (s.request mode delivered).Ordered := by
  unfold PidState.request
  split
  · exact h
  rename_i handle hopen
  obtain ⟨state, hstate, rfl⟩ := openRequest_ok hopen
  have hstash := hmode state hstate
  split
  · refine { h with paused := fun hpaused => ?_, stashMode := ?_ }
    · -- the new request pauses the actor, so its count is not zero
      have hcount := hexact.paused state hstate
      simp only [Requests.admitRequest, Requests.paused, RequestHandle.create, hstate, hstash,
        decide_true, Option.map_some, Option.getD_some, if_true] at hpaused
      omega
    · intro other hother
      rcases mem_append.mp hother with hold | hnew
      · exact h.stashMode other hold
      · rw [mem_singleton.mp hnew, hstash]
        rfl
  · exact h

/-- Only the reply to the last request that pauses the actor ends the pause. -/
theorem paused_complete {requests : Requests ρ} {index : ℕ} {handle : RequestHandle ρ}
    {outcome : Except ActorError ρ} (hstash : handle.stashMode = true)
    (hzero : (requests.complete index handle outcome).paused = 0) :
    requests.paused = 0 ∨ requests.paused = 1 := by
  unfold Requests.paused Requests.complete at *
  cases hstate : requests.reentrancy with
  | none => exact Or.inl rfl
  | some state =>
    simp only [hstate, hstash, Option.map_some, Option.getD_some, if_true] at hzero ⊢
    omega

/-- A reply ends its request; if it ends the pause, the stash goes back into the mailbox. -/
theorem Ordered.completeRequest (h : s.Ordered) (hp : s.processing = true) (index : ℕ)
    (outcome : Except ActorError ρ)
    (hresume : (∀ handle ∈ s.requests.handles[index]?, handle.settled = false) →
      s.requests.paused = 1 → s.stash ≠ [] → users s.mailbox = [] ∧ Fits s.admits s.mailbox s.stash) :
    (s.completeRequest index outcome).Ordered := by
  unfold PidState.completeRequest
  split
  · exact h
  rename_i handle hhandle
  split
  · exact h
  rename_i hunsettled
  have hstash := h.stashMode handle (mem_of_getElem? hhandle)
  have hmodes : ∀ other ∈ (s.requests.complete index handle outcome).handles,
      other.stashMode = true := by
    intro other hother
    rcases mem_or_eq_of_mem_set hother with hold | rfl
    · exact h.stashMode other hold
    · exact hstash
  refine Ordered.modify ?_ index fun _ => rfl
  dsimp only
  split
  · rename_i hzero
    obtain ⟨hturn, hfits⟩ : s.stash ++ users s.mailbox = users s.mailbox ++ s.stash ∧
        Fits s.admits s.mailbox s.stash := by
      by_cases hempty : s.stash = []
      · simp [hempty, Fits]
      · have hone : s.requests.paused = 1 := by
          rcases paused_complete hstash hzero.2 with hnone | hone
          · exact absurd (h.paused hnone) hempty
          · exact hone
        have hwaits := hresume (fun other hother => by
          cases (hhandle.symm.trans hother)
          simpa using hunsettled) hone hempty
        exact ⟨by simp [hwaits.1], hwaits.2⟩
    have hback := unstashEach_fits s.stash
      { s with requests := s.requests.complete index handle outcome } (h.isRunning hp) h.disposed
      hfits
    have hkeeps := keeps_unstashEach s.stash
      { s with requests := s.requests.complete index handle outcome }
    have hfed := fed_unstashEach s.stash
      { s with requests := s.requests.complete index handle outcome }
    obtain ⟨hrun, hstop, hsus, -⟩ := hfed.fields
    refine ⟨?_, fun _ => hback.2.1, ?_, ?_, hstop.trans h.stopping, hsus.trans h.suspended,
      hback.2.2, fun hnot => ?_⟩
    · rw [unstashAll, hkeeps.accepted, hkeeps.handled, hback.1, hback.2.1, users_append, users_map,
        ← hturn, append_nil, ← append_assoc]
      exact h.order
    · rw [unstashAll, hkeeps.requests]
      exact hmodes
    · rw [unstashAll, hback.1, mem_append, not_or]
      exact ⟨h.pills, by simp⟩
    · exact absurd ((h.running (hrun ▸ hnot)).1.symm.trans hp) (by decide)
  · rename_i hpaused
    exact { h with paused := fun hzero => absurd ⟨hstash, hzero⟩ hpaused, stashMode := hmodes }

theorem Ordered.process (h : s.Ordered) (hp : s.processing = true) (loop processed : ℕ)
    {mail : Message μ ρ} {rest : List (Message μ ρ)} (hmail : s.mailbox = mail :: rest)
    (hclear : s.Clear s.mailbox) :
    ({ s with mailbox := rest }.process loop processed mail).Ordered := by
  have hpills : mail ≠ .poisonPill ∧ Message.poisonPill ∉ rest := by
    have hpills := h.pills
    rw [hmail, mem_cons, not_or] at hpills
    exact ⟨Ne.symm hpills.1, hpills.2⟩
  have horder := h.order
  rw [hmail] at horder hclear
  cases mail with
  | poisonPill => exact absurd rfl hpills.1
  | panicking => exact { h with order := horder, pills := hpills.2 }
  | requestReply index outcome =>
    have hrest : { s with mailbox := rest }.Ordered := { h with order := horder, pills := hpills.2 }
    exact hrest.completeRequest hp index outcome hclear
  | user message =>
    simp only [users, append_assoc] at horder
    dsimp only [PidState.process]
    split_ifs with hpaused
    · refine Ordered.continueLoop ?_ loop processed
      refine { h with
        order := ?_, paused := fun hnot => absurd hnot hpaused, pills := hpills.2
        running := fun hnot => ?_ }
      · simp only [horder, append_assoc, cons_append, nil_append]
      · exact absurd ((h.running hnot).1.symm.trans hp) (by decide)
    · have hempty := h.paused (by simpa using hpaused)
      refine { h with order := ?_, pills := hpills.2 }
      simp only [mark, horder, hempty, append_assoc, cons_append, nil_append]

theorem Ordered.step (h : s.Ordered) (hregular : s.Regular) (hcounted : s.Counted)
    {event : PidEvent μ ρ} (hplain : s.Plain event) (hcond : s.Undisturbed event)
    (hstep : s.step event = some next) : next.Ordered := by
  cases does_of_step hstep with
  | started hstarting =>
    have hidle := hregular.starting hstarting
    exact { h with running := fun _ => h.running hidle.1 }
  | tell message =>
    unfold PidState.tell
    split
    · rename_i hok
      exact h.receive hok nofun
    · exact h
  | panicking =>
    unfold PidState.receive
    split
    · rename_i hok
      exact h.receive_command hok nofun rfl
    · exact h
  | dispatch | park => exact h.with_loops _ _
  | @take loop index processed mail hloop hmail =>
    have hzero : index = 0 := hplain
    subst hzero
    obtain ⟨rest, hrest⟩ : ∃ rest, s.mailbox = mail :: rest := by
      cases hmailbox : s.mailbox with
      | nil => simp [hmailbox] at hmail
      | cons first rest => exact ⟨rest, by simp_all⟩
    have hprocess := h.process (hregular.only hloop).2.2 loop processed hrest hcond
    rwa [hrest, eraseIdx_cons_zero]
  | drained hloop hempty =>
    exact { h with running := fun hnot => ⟨rfl, (h.running hnot).2⟩ }
  | returned | fulfilled => exact h.postReceive _ _
  | request hrunning =>
    have hexact := hcounted.exact (Or.inr ⟨hrunning, h.stopping⟩)
    exact h.request hexact hplain _
  | outcome => exact h.deliverRequestReply _ _
  | cancel =>
    unfold PidState.cancel
    split
    · exact h
    · exact h.deliverRequestReply _ _
  | onReply =>
    refine h.modify _ fun handle => ?_
    unfold RequestHandle.onReply
    split <;> rfl
  | poisonPill | threw | rejected | stash | unstash | unstashAll | suspend | reinstate | restart
  | restartResumed | restartChildrenStopped | restartPostStopEnded | restartCompleted
  | restartFailed | shutdown | shutdownResumed | shutdownChildrenStopped | shutdownPostStopEnded =>
    exact hplain.elim

/-- In a run in which the way is clear for every reply, the behavior receives the user messages in
    the order in which they were accepted, and none is lost: the others are in the stash of an actor
    that waits for a reply, followed by those in the mailbox. -/
theorem messages_in_order {admits : List (Message μ ρ) → Message μ ρ → Bool}
    {config : Option (ReentrancyMode × ℚ)} {events : List (PidEvent μ ρ)}
    (hmeets : Meets step (fun s event => s.Plain event ∧ s.Undisturbed event)
      (spawned admits config) events)
    (hrun : run step (spawned admits config) events = some s) :
    s.accepted = s.handled ++ s.stash ++ users s.mailbox ∧
    (s.stash ≠ [] → 0 < s.requests.unsettledStash) := by
  have hkept : s.Regular ∧ s.Counted ∧ s.Ordered :=
    run_preserves (P := fun s => s.Regular ∧ s.Counted ∧ s.Ordered)
      (fun _ _ _ ⟨hregular, hcounted, hordered⟩ ⟨hplain, hcond⟩ hstep =>
        ⟨hregular.step hstep, hcounted.step hregular hcond.repliesTaken hstep,
          hordered.step hregular hcounted hplain hcond hstep⟩)
      ⟨regular_create _ _, counted_spawned admits config, ordered_create _ _⟩
      hmeets hrun
  obtain ⟨-, hcounted, hordered⟩ := hkept
  refine ⟨hordered.order, fun hstash => ?_⟩
  have hrunning : s.running = true := by
    by_contra hnot
    exact hstash (hordered.running (by simpa using hnot)).2
  have hexact := hcounted.exact (Or.inr ⟨hrunning, hordered.stopping⟩)
  by_contra hzero
  refine hstash (hordered.paused ?_)
  exact hexact.not_paused_of_stash (by omega)

/-- Two messages come in while a request is in flight and the loop is idle, and its reply comes after
    them. -/
theorem stashed_messages_in_order :
    ∃ s ∈ run step (spawned (bounded 3) (some (.stashNonReentrant, 0)) : PidState ℕ ℕ)
      [.started true, .tell 1, .dispatch 0, .take 0 0, .request none true, .returned 0, .take 0 0,
        .tell 2, .tell 3, .outcome 0 (.ok 7), .dispatch 0, .take 0 0, .take 0 0, .take 0 0, .take 0 0,
        .returned 0, .take 0 0],
      s.accepted = [1, 2, 3] ∧ s.accepted = s.handled ++ s.stash ++ users s.mailbox := by
  refine ends_imp (P := fun s => s.accepted = [1, 2, 3]) (by decide +kernel) ?_
  intro s hrun haccepted
  exact ⟨haccepted, (messages_in_order (by decide +kernel) hrun).1⟩

/-- While a request is in flight and the loop is idle, a message, the reply and another message come
    in: the reply puts the first back behind the second, and the behavior receives the second
    first. -/
theorem resumed_message_overtaken :
    ∃ s ∈ run step (spawned unbounded (some (.stashNonReentrant, 0)) : PidState ℕ ℕ)
      [.started true, .tell 1, .dispatch 0, .take 0 0, .request none true, .returned 0, .take 0 0,
        .tell 2, .outcome 0 (.ok 7), .tell 3, .dispatch 0, .take 0 0, .take 0 0, .take 0 0,
        .returned 0, .take 0 0],
      s.accepted = [1, 2, 3] ∧ s.handled = [1, 3, 2] := by
  decide +kernel

end PidState

end Nodeakt.Actor
